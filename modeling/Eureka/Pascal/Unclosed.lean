import Eureka.Pascal.Soundness

/-!
# Comments that are not closed

`parse` does not return exactly when a comment that is not closed stands behind
the beginning of a program (`parse_endless_iff`).

The lexer that runs into the comment is compared with one that delivers a whole
program instead.  The two agree up to the comment (`Cut`), so the parser does
the same with both until it runs into the comment, and it accepts the program
only when it gets past the place of the comment.
-/

namespace Eureka.Pascal

open Lexer (prepend)

/-! ## Lexers that agree up to the comment -/

/-- The first lexer delivers what the second one delivers, up to a comment that is not closed. -/
inductive Cut : Lexer → Lexer → Prop
  | endless {lexer : Lexer} : Cut .endless lexer
  | token {tok : Token} {ahead ahead' : Lexer} :
      Cut ahead ahead' → Cut (.token tok ahead) (.token tok ahead')

theorem cut_prepend (ts us : List Token) (lexer : Lexer) :
    Cut (prepend ts .endless) (prepend (ts ++ us) lexer) := by
  induction ts with
  | nil => exact .endless
  | cons tok ts ih => exact .token ih

/-- The lexers are not in the comment yet. -/
def CutAt (lexer lexer' : Lexer) : Prop := Cut lexer lexer' ∧ lexer ≠ .endless

theorem CutAt.token {lexer lexer' : Lexer} (hcut : CutAt lexer lexer') :
    ∃ tok ahead ahead', lexer = .token tok ahead ∧ lexer' = .token tok ahead' ∧
      Cut ahead ahead' := by
  cases hcut.1 with
  | endless => exact absurd rfl hcut.2
  | token hahead => exact ⟨_, _, _, rfl, rfl, hahead⟩

/-! ## Calls that agree -/

/-- Two calls that agree, as long as the first one has not run into the comment and both have
fuel. -/
def Agree {α β : Type} (R : α → β → Prop) : Except Failure α → Except Failure β → Prop
  | .error .endless, _ => True
  | .error .outOfFuel, _ => True
  | _, .error .outOfFuel => True
  | .ok a, .ok b => R a b
  | .error (.error _), .error (.error _) => True
  | _, _ => False

/-- What two calls that agree return. -/
def SameParsed {α : Type} (parsed parsed' : Parsed α) : Prop :=
  parsed.1 = parsed'.1 ∧ CutAt parsed.2 parsed'.2

section Rules

variable {α α' β β' : Type} {R : α → α' → Prop} {S : β → β' → Prop}

theorem agree_outOfFuel (result : Except Failure α) : Agree R result (.error .outOfFuel) := by
  match result with
  | .ok _ => trivial
  | .error .endless => trivial
  | .error .outOfFuel => trivial
  | .error (.error _) => trivial

theorem agree_bind {result : Except Failure α} {result' : Except Failure α'}
    {f : α → Except Failure β} {f' : α' → Except Failure β'} (h : Agree R result result')
    (hnext : ∀ a a', R a a' → Agree S (f a) (f' a')) :
    Agree S (result >>= f) (result' >>= f') := by
  match result, result', h with
  | .error .endless, _, _ => trivial
  | .error .outOfFuel, _, _ => trivial
  | .error (.error _), .error .outOfFuel, _ => trivial
  | .error (.error _), .error (.error _), _ => trivial
  | .ok a, .ok a', h => exact hnext a a' h
  | .ok a, .error .outOfFuel, _ => exact agree_outOfFuel _

theorem agree_ite {p : Prop} [Decidable p] {a b : Except Failure α} {a' b' : Except Failure α'}
    (hpos : Agree R a a') (hneg : Agree R b b') :
    Agree R (if p then a else b) (if p then a' else b') := by
  by_cases hp : p
  · rw [if_pos hp, if_pos hp]
    exact hpos
  · rw [if_neg hp, if_neg hp]
    exact hneg

theorem agree_wrap {result : Except Failure α} {result' : Except Failure α'} (message : String)
    (h : Agree R result result') : Agree R (wrap message result) (wrap message result') := by
  match result, result', h with
  | .error .endless, _, _ => trivial
  | .error .outOfFuel, _, _ => trivial
  | .error (.error _), .error .outOfFuel, _ => trivial
  | .error (.error _), .error (.error _), _ => trivial
  | .ok a, .ok a', h => exact h
  | .ok a, .error .outOfFuel, _ => trivial

theorem agree_advance {tok : Token} {ahead ahead' : Lexer} (hcut : Cut ahead ahead') :
    Agree CutAt (advance (.token tok ahead)) (advance (.token tok ahead')) := by
  cases hcut with
  | endless => trivial
  | token h => exact ⟨.token h, nofun⟩

theorem agree_eatToken (kind : Kind) {lexer lexer' : Lexer} (hcut : CutAt lexer lexer') :
    Agree CutAt (eatToken kind lexer) (eatToken kind lexer') := by
  obtain ⟨tok, ahead, ahead', rfl, rfl, hahead⟩ := hcut.token
  exact agree_ite (agree_advance hahead) trivial

theorem agree_same {a : α} {lexer lexer' : Lexer} (hcut : CutAt lexer lexer') :
    Agree SameParsed (.ok (a, lexer)) (.ok (a, lexer')) :=
  ⟨rfl, hcut⟩

end Rules

theorem agree_consumeVariable {lexer lexer' : Lexer} (hcut : CutAt lexer lexer') :
    Agree SameParsed (consumeVariable lexer) (consumeVariable lexer') := by
  obtain ⟨tok, ahead, ahead', rfl, rfl, hahead⟩ := hcut.token
  exact agree_bind (agree_eatToken _ hcut) fun rest rest' hrest => agree_same hrest

/-- The functions for expressions agree on this fuel and any other. -/
structure ExprAgree (fuel : ℕ) : Prop where
  factor : ∀ fuel' lexer lexer', CutAt lexer lexer' →
    Agree SameParsed (consumeFactor fuel lexer) (consumeFactor fuel' lexer')
  term : ∀ fuel' lexer lexer', CutAt lexer lexer' →
    Agree SameParsed (consumeTerm fuel lexer) (consumeTerm fuel' lexer')
  termLoop : ∀ fuel' node lexer lexer', CutAt lexer lexer' →
    Agree SameParsed (termLoop fuel node lexer) (termLoop fuel' node lexer')
  expr : ∀ fuel' lexer lexer', CutAt lexer lexer' →
    Agree SameParsed (consumeExpr fuel lexer) (consumeExpr fuel' lexer')
  exprLoop : ∀ fuel' node lexer lexer', CutAt lexer lexer' →
    Agree SameParsed (exprLoop fuel node lexer) (exprLoop fuel' node lexer')

section ExprStep

variable {fuel : ℕ} {lexer lexer' : Lexer}

theorem agree_factor (ih : ExprAgree fuel) (fuel' : ℕ)
    (hcut : CutAt lexer lexer') :
    Agree SameParsed (consumeFactor (fuel + 1) lexer) (consumeFactor fuel' lexer') := by
  rcases fuel' with _ | fuel'
  · exact agree_outOfFuel _
  obtain ⟨tok, ahead, ahead', rfl, rfl, hahead⟩ := hcut.token
  rw [consumeFactor, consumeFactor]
  refine agree_ite ?_ (agree_ite ?_ (agree_ite ?_ (agree_consumeVariable hcut)))
  · exact agree_bind (agree_advance hahead) fun rest rest' hrest => agree_same hrest
  · refine agree_bind (agree_advance hahead) fun rest rest' hrest => ?_
    refine agree_bind (agree_wrap _ (ih.factor fuel' _ _ hrest)) ?_
    rintro ⟨node, behind⟩ ⟨-, behind'⟩ ⟨rfl, hbehind⟩
    exact agree_same hbehind
  · refine agree_bind (agree_advance hahead) fun rest rest' hrest => ?_
    refine agree_bind (agree_wrap _ (ih.expr fuel' _ _ hrest)) ?_
    rintro ⟨node, behind⟩ ⟨-, behind'⟩ ⟨rfl, hbehind⟩
    obtain ⟨close, rest, rest', rfl, rfl, hrest⟩ := hbehind.token
    exact agree_ite (agree_bind (agree_advance hrest) fun _ _ h => agree_same h) trivial

theorem agree_term (ih : ExprAgree fuel) (fuel' : ℕ)
    (hcut : CutAt lexer lexer') :
    Agree SameParsed (consumeTerm (fuel + 1) lexer) (consumeTerm fuel' lexer') := by
  rcases fuel' with _ | fuel'
  · exact agree_outOfFuel _
  rw [consumeTerm, consumeTerm]
  refine agree_bind (ih.factor fuel' _ _ hcut) ?_
  rintro ⟨node, rest⟩ ⟨-, rest'⟩ ⟨rfl, hrest⟩
  exact ih.termLoop fuel' node rest rest' hrest

theorem agree_termLoop (ih : ExprAgree fuel) (node : Node) (fuel' : ℕ)
    (hcut : CutAt lexer lexer') :
    Agree SameParsed (termLoop (fuel + 1) node lexer) (termLoop fuel' node lexer') := by
  rcases fuel' with _ | fuel'
  · exact agree_outOfFuel _
  obtain ⟨tok, ahead, ahead', rfl, rfl, hahead⟩ := hcut.token
  rw [termLoop, termLoop]
  refine agree_ite ?_ (agree_same hcut)
  refine agree_bind (agree_advance hahead) fun rest rest' hrest => ?_
  refine agree_bind (ih.factor fuel' _ _ hrest) ?_
  rintro ⟨factor, behind⟩ ⟨-, behind'⟩ ⟨rfl, hbehind⟩
  exact ih.termLoop fuel' _ behind behind' hbehind

theorem agree_expr (ih : ExprAgree fuel) (fuel' : ℕ)
    (hcut : CutAt lexer lexer') :
    Agree SameParsed (consumeExpr (fuel + 1) lexer) (consumeExpr fuel' lexer') := by
  rcases fuel' with _ | fuel'
  · exact agree_outOfFuel _
  rw [consumeExpr, consumeExpr]
  refine agree_bind (ih.term fuel' _ _ hcut) ?_
  rintro ⟨node, rest⟩ ⟨-, rest'⟩ ⟨rfl, hrest⟩
  exact ih.exprLoop fuel' node rest rest' hrest

theorem agree_exprLoop (ih : ExprAgree fuel) (node : Node) (fuel' : ℕ)
    (hcut : CutAt lexer lexer') :
    Agree SameParsed (exprLoop (fuel + 1) node lexer) (exprLoop fuel' node lexer') := by
  rcases fuel' with _ | fuel'
  · exact agree_outOfFuel _
  obtain ⟨tok, ahead, ahead', rfl, rfl, hahead⟩ := hcut.token
  rw [exprLoop, exprLoop]
  refine agree_ite ?_ (agree_same hcut)
  refine agree_bind (agree_advance hahead) fun rest rest' hrest => ?_
  refine agree_bind (ih.term fuel' _ _ hrest) ?_
  rintro ⟨term, behind⟩ ⟨-, behind'⟩ ⟨rfl, hbehind⟩
  exact ih.exprLoop fuel' _ behind behind' hbehind

end ExprStep

theorem exprAgree (fuel : ℕ) : ExprAgree fuel := by
  induction fuel with
  | zero => constructor <;> intros <;> trivial
  | succ fuel ih =>
      exact
        { factor := fun fuel' _ _ hcut => agree_factor ih fuel' hcut
          term := fun fuel' _ _ hcut => agree_term ih fuel' hcut
          termLoop := fun fuel' node _ _ hcut => agree_termLoop ih node fuel' hcut
          expr := fun fuel' _ _ hcut => agree_expr ih fuel' hcut
          exprLoop := fun fuel' node _ _ hcut => agree_exprLoop ih node fuel' hcut }

theorem agree_assignment {fuel fuel' : ℕ} {lexer lexer' : Lexer} (hcut : CutAt lexer lexer') :
    Agree SameParsed (consumeAssignment fuel lexer) (consumeAssignment fuel' lexer') := by
  rw [consumeAssignment, consumeAssignment]
  refine agree_bind (agree_consumeVariable hcut) ?_
  rintro ⟨left, rest⟩ ⟨-, rest'⟩ ⟨rfl, hrest⟩
  obtain ⟨tok, ahead, ahead', rfl, rfl, hahead⟩ := hrest.token
  refine agree_bind (agree_eatToken _ hrest) fun behind behind' hbehind => ?_
  refine agree_bind ((exprAgree fuel).expr fuel' _ _ hbehind) ?_
  rintro ⟨right, rest⟩ ⟨-, rest'⟩ ⟨rfl, hrest⟩
  exact agree_same hrest

/-- The functions for statements agree on this fuel and any other. -/
structure StatementAgree (fuel : ℕ) : Prop where
  statement : ∀ fuel' lexer lexer', CutAt lexer lexer' →
    Agree SameParsed (consumeStatement fuel lexer) (consumeStatement fuel' lexer')
  list : ∀ fuel' lexer lexer', CutAt lexer lexer' →
    Agree SameParsed (consumeStatementList fuel lexer) (consumeStatementList fuel' lexer')
  loop : ∀ fuel' nodes lexer lexer', CutAt lexer lexer' →
    Agree SameParsed (statementLoop fuel nodes lexer) (statementLoop fuel' nodes lexer')
  compound : ∀ fuel' lexer lexer', CutAt lexer lexer' →
    Agree SameParsed (consumeCompoundStatement fuel lexer)
      (consumeCompoundStatement fuel' lexer')

section StatementStep

variable {fuel : ℕ} {lexer lexer' : Lexer}

theorem agree_statementsFrom (ih : StatementAgree fuel) (fuel' : ℕ) (nodes : List Node)
    (hcut : CutAt lexer lexer') :
    Agree SameParsed (statementsFrom fuel nodes lexer) (statementsFrom fuel' nodes lexer') := by
  refine agree_bind (ih.statement fuel' _ _ hcut) ?_
  rintro ⟨node, rest⟩ ⟨-, rest'⟩ ⟨rfl, hrest⟩
  exact ih.loop fuel' _ rest rest' hrest

theorem agree_statement (ih : StatementAgree fuel) (fuel' : ℕ)
    (hcut : CutAt lexer lexer') :
    Agree SameParsed (consumeStatement (fuel + 1) lexer)
      (consumeStatement fuel' lexer') := by
  rcases fuel' with _ | fuel'
  · exact agree_outOfFuel _
  obtain ⟨tok, ahead, ahead', rfl, rfl, hahead⟩ := hcut.token
  rw [consumeStatement, consumeStatement]
  refine agree_ite (ih.compound fuel' _ _ hcut) ?_
  exact agree_ite (agree_assignment hcut) (agree_same hcut)

theorem agree_list (ih : StatementAgree fuel) (fuel' : ℕ) (hcut : CutAt lexer lexer') :
    Agree SameParsed (consumeStatementList (fuel + 1) lexer)
      (consumeStatementList fuel' lexer') := by
  rcases fuel' with _ | fuel'
  · exact agree_outOfFuel _
  rw [consumeStatementList_eq, consumeStatementList_eq]
  exact agree_statementsFrom ih fuel' [] hcut

theorem agree_loop (ih : StatementAgree fuel) (nodes : List Node) (fuel' : ℕ)
    (hcut : CutAt lexer lexer') :
    Agree SameParsed (statementLoop (fuel + 1) nodes lexer)
      (statementLoop fuel' nodes lexer') := by
  rcases fuel' with _ | fuel'
  · exact agree_outOfFuel _
  obtain ⟨tok, ahead, ahead', rfl, rfl, hahead⟩ := hcut.token
  rw [statementLoop, statementLoop]
  refine agree_ite ?_ (agree_same hcut)
  refine agree_bind (agree_advance hahead) fun rest rest' hrest => ?_
  exact agree_statementsFrom ih fuel' nodes hrest

theorem agree_compound (ih : StatementAgree fuel) (fuel' : ℕ)
    (hcut : CutAt lexer lexer') :
    Agree SameParsed (consumeCompoundStatement (fuel + 1) lexer)
      (consumeCompoundStatement fuel' lexer') := by
  rcases fuel' with _ | fuel'
  · exact agree_outOfFuel _
  rw [consumeCompoundStatement, consumeCompoundStatement]
  refine agree_bind (agree_eatToken _ hcut) fun rest rest' hrest => ?_
  refine agree_bind (ih.list fuel' _ _ hrest) ?_
  rintro ⟨nodes, behind⟩ ⟨-, behind'⟩ ⟨rfl, hbehind⟩
  exact agree_bind (agree_eatToken _ hbehind) fun _ _ h => agree_same h

end StatementStep

theorem statementAgree (fuel : ℕ) : StatementAgree fuel := by
  induction fuel with
  | zero => constructor <;> intros <;> trivial
  | succ fuel ih =>
      exact
        { statement := fun fuel' _ _ hcut => agree_statement ih fuel' hcut
          list := fun fuel' _ _ hcut => agree_list ih fuel' hcut
          loop := fun fuel' nodes _ _ hcut => agree_loop ih nodes fuel' hcut
          compound := fun fuel' _ _ hcut => agree_compound ih fuel' hcut }

theorem agree_consumeProgram (fuel fuel' : ℕ) {lexer lexer' : Lexer}
    (hcut : CutAt lexer lexer') :
    Agree SameParsed (consumeProgram fuel lexer) (consumeProgram fuel' lexer') := by
  rw [consumeProgram, consumeProgram]
  refine agree_bind ((statementAgree fuel).compound fuel' _ _ hcut) ?_
  rintro ⟨node, rest⟩ ⟨-, rest'⟩ ⟨rfl, hrest⟩
  exact agree_bind (agree_eatToken _ hrest) fun _ _ h => agree_same h

/-! ## When `parse` does not return -/

/-- The tokens are the beginning of a program. -/
def BeginsProgram (ts : List Token) : Prop := ∃ us tree, Derives .program (ts ++ us) tree

/-- The parser runs into a comment that stands behind the beginning of a program. -/
theorem consumeProgram_endless {ts : List Token} (hne : ts ≠ []) (hbegins : BeginsProgram ts) :
    consumeProgram (4 * (prepend ts .endless).size + 8) (prepend ts .endless) =
      .error .endless := by
  obtain ⟨us, tree, hderives⟩ := hbegins
  have hcut : CutAt (prepend ts .endless) (prepend (ts ++ us) .eof) :=
    ⟨cut_prepend ts us .eof, by cases ts with | nil => exact absurd rfl hne | cons _ _ => nofun⟩
  have hagree := agree_consumeProgram (4 * (prepend ts .endless).size + 8)
    (0 + 4 * (ts ++ us).length) hcut
  -- with the rest of the program in place of the comment, the parser gets to the end
  rw [consumes_of_derives hderives 0 .eof nofun] at hagree
  have houtcome : Outcome (Derived .program) (prepend ts .endless)
      (consumeProgram (4 * (prepend ts .endless).size + 8) (prepend ts .endless)) :=
    program_outcome (by omega)
  match hresult : consumeProgram (4 * (prepend ts .endless).size + 8) (prepend ts .endless),
    hagree, houtcome with
  | .ok (node, rest), ⟨_, hrest⟩, _ =>
      obtain ⟨tok, ahead, ahead', -, heof, -⟩ := hrest.token
      cases heof
  | .error .endless, _, _ => rfl

theorem parse_endless_iff {lexer : Lexer} (hlexer : lexer ≠ .endless) :
    parse lexer = .error .endless ↔
      ∃ ts, lexer = prepend ts .endless ∧ BeginsProgram ts := by
  constructor
  · intro hparse
    have houtcome := parse_outcome lexer
    rw [hparse] at houtcome
    obtain ⟨ts, us, tree, heq, hderives⟩ := houtcome
    exact ⟨ts, heq, us, tree, hderives⟩
  · rintro ⟨ts, rfl, hbegins⟩
    have hne : ts ≠ [] := by
      rintro rfl
      exact hlexer rfl
    rw [parse, consumeProgram_endless hne hbegins]
    rfl

end Eureka.Pascal

import Eureka.Pascal.Parser

/-!
# What the parser consumes

A call ends in one of three ways, which `Outcome` lists: it has consumed tokens
that its nonterminal derives; it reports an error; or the tokens end in a
comment that is not closed, and up to there they are the beginning of something
that the nonterminal derives.  It never uses up its fuel.

The rules of `Outcome` follow the way the parser is put together: a token is
passed (`outcome_advance`, `outcome_eatToken`) or another call is made
(`outcome_bind`), and both say how what follows goes on with the derivation.
-/

namespace Eureka.Pascal

open Lexer (prepend)

/-- What a call comes to, where `P` says which tokens its result stands for. -/
def Outcome {α : Type} (P : α → List Token → Prop) (lexer : Lexer) :
    Except Failure (Parsed α) → Prop
  | .ok (a, rest) => ∃ ts, lexer = prepend ts rest ∧ rest ≠ .endless ∧ P a ts
  | .error .endless => ∃ ts us a, lexer = prepend ts .endless ∧ P a (ts ++ us)
  | .error .outOfFuel => False
  | .error (.error _) => True

section Rules

variable {α β : Type} {P : α → List Token → Prop} {Q : β → List Token → Prop}

theorem outcome_ok {lexer : Lexer} {a : α} (hlexer : lexer ≠ .endless) (h : P a []) :
    Outcome P lexer (.ok (a, lexer)) :=
  ⟨[], rfl, hlexer, h⟩

theorem outcome_mono {P' : α → List Token → Prop} {lexer : Lexer}
    {result : Except Failure (Parsed α)} (h : Outcome P lexer result)
    (himp : ∀ a ts, P a ts → P' a ts) : Outcome P' lexer result := by
  match result, h with
  | .ok (a, rest), ⟨ts, hlexer, hrest, ha⟩ => exact ⟨ts, hlexer, hrest, himp a ts ha⟩
  | .error .endless, ⟨ts, us, a, hlexer, ha⟩ => exact ⟨ts, us, a, hlexer, himp a _ ha⟩
  | .error (.error _), _ => trivial

theorem outcome_wrap {lexer : Lexer} {result : Except Failure (Parsed α)} (message : String)
    (h : Outcome P lexer result) : Outcome P lexer (wrap message result) := by
  match result, h with
  | .ok _, h => exact h
  | .error .endless, h => exact h
  | .error (.error _), _ => trivial

theorem outcome_prepend {ts : List Token} {rest : Lexer} {result : Except Failure (Parsed β)}
    (h : Outcome (fun b us => Q b (ts ++ us)) rest result) :
    Outcome Q (prepend ts rest) result := by
  match result, h with
  | .ok (b, rest'), ⟨us, hus, hrest', hb⟩ =>
      exact ⟨ts ++ us, by rw [hus, prepend_append], hrest', hb⟩
  | .error .endless, ⟨us, vs, b, hus, hb⟩ =>
      exact ⟨ts ++ us, vs, b, by rw [hus, prepend_append], by rwa [List.append_assoc]⟩
  | .error (.error _), _ => trivial

theorem outcome_bind {lexer : Lexer} {result : Except Failure (Parsed α)}
    {f : Parsed α → Except Failure (Parsed β)} (h : Outcome P lexer result)
    (hcomplete : ∀ a ts, P a ts → ∃ us b, Q b (ts ++ us))
    (hnext : ∀ a ts rest, lexer = prepend ts rest → rest ≠ .endless → P a ts →
      Outcome (fun b us => Q b (ts ++ us)) rest (f (a, rest))) :
    Outcome Q lexer (result >>= f) := by
  match result, h with
  | .ok (a, rest), ⟨ts, hlexer, hrest, ha⟩ =>
      rw [ok_bind, hlexer]
      exact outcome_prepend (hnext a ts rest hlexer hrest ha)
  | .error .endless, ⟨ts, us, a, hlexer, ha⟩ =>
      obtain ⟨vs, b, hb⟩ := hcomplete a _ ha
      exact ⟨ts, us ++ vs, b, hlexer, by rwa [← List.append_assoc]⟩
  | .error (.error _), _ => trivial

theorem outcome_advance {tok : Token} {ahead : Lexer} {f : Lexer → Except Failure (Parsed β)}
    (hcomplete : ∃ us b, Q b (tok :: us))
    (hnext : ahead ≠ .endless → Outcome (fun b us => Q b (tok :: us)) ahead (f ahead)) :
    Outcome Q (.token tok ahead) (advance (.token tok ahead) >>= f) := by
  by_cases hahead : ahead = .endless
  · subst hahead
    obtain ⟨us, b, hb⟩ := hcomplete
    exact ⟨[tok], us, b, rfl, hb⟩
  · rw [advance_token hahead, ok_bind]
    show Outcome Q (prepend [tok] ahead) (f ahead)
    exact outcome_prepend (hnext hahead)

/-- A current token of a kind that only tokens have is a token of the lexer. -/
theorem exists_token {lexer : Lexer} {p : Kind → Prop} (hkind : p lexer.currentToken.kind)
    (heof : ¬ p .tokEOF) (hunknown : ¬ p .tokUnknown) :
    ∃ tok ahead, lexer = .token tok ahead ∧ p tok.kind := by
  cases lexer with
  | token tok ahead => exact ⟨tok, ahead, rfl, hkind⟩
  | eof => exact absurd hkind heof
  | unknown value => exact absurd hkind hunknown
  | endless => exact absurd hkind heof

theorem outcome_eatToken {lexer : Lexer} {kind : Kind} {f : Lexer → Except Failure (Parsed β)}
    (heof : Kind.tokEOF ≠ kind) (hunknown : Kind.tokUnknown ≠ kind)
    (hcomplete : ∀ tok, tok.kind = kind → ∃ us b, Q b (tok :: us))
    (hnext : ∀ tok ahead, lexer = .token tok ahead → tok.kind = kind → ahead ≠ .endless →
      Outcome (fun b us => Q b (tok :: us)) ahead (f ahead)) :
    Outcome Q lexer (eatToken kind lexer >>= f) := by
  rw [eatToken]
  split
  · next hkind =>
      obtain ⟨tok, ahead, rfl, htok⟩ := exists_token (p := (· = kind)) hkind heof hunknown
      exact outcome_advance (hcomplete tok htok) (hnext tok ahead rfl htok)
  · trivial

end Rules

/-- What the nonterminal derives. -/
def Derived (x : NonTerminal) (node : Node) (ts : List Token) : Prop := Derives x ts node

/-! ## Completions -/

def oneToken : Token := ⟨.tokLiteralInteger, ascii "1"⟩

theorem derives_one_factor : Derives .factor [oneToken] (.num oneToken) := .integer rfl

theorem derives_one_term : Derives .term [oneToken] (.num oneToken) :=
  .termFactor derives_one_factor

theorem derives_one_expr : Derives .expr [oneToken] (.num oneToken) := .exprTerm derives_one_term

def rparenToken : Token := ⟨.tokRParen, ascii ")"⟩

def assignToken : Token := ⟨.tokAssign, ascii ":="⟩

theorem assignToken_kind : assignToken.kind = .tokAssign := rfl

def endToken : Token := ⟨.tokEnd, ascii "END"⟩

theorem endToken_kind : endToken.kind = .tokEnd := rfl

def dotToken : Token := ⟨.tokDot, ascii "."⟩

theorem dotToken_kind : dotToken.kind = .tokDot := rfl

theorem derives_empty_list : Derives .statementList [] (.compound [.nop]) :=
  .listOne .statementEmpty

theorem derives_paren_of_expr {lparen : Token} {ts : List Token} {node : Node}
    (hkind : lparen.kind = .tokLParen) (hexpr : Derives .expr ts node) :
    Derives .factor (lparen :: (ts ++ [rparenToken])) node :=
  .paren hkind hexpr rfl

/-! ## Expressions -/

theorem size_prepend (ts : List Token) (lexer : Lexer) :
    (prepend ts lexer).size = ts.length + lexer.size := by
  induction ts with
  | nil => exact (Nat.zero_add _).symm
  | cons tok ts ih =>
      rw [prepend_cons, Lexer.size, ih, List.length_cons]
      omega

/-- What the functions for expressions do on this fuel. -/
structure ExprSound (fuel : ℕ) : Prop where
  factor : ∀ lexer, lexer ≠ .endless → 4 * lexer.size + 1 ≤ fuel →
    Outcome (Derived .factor) lexer (consumeFactor fuel lexer)
  term : ∀ lexer, lexer ≠ .endless → 4 * lexer.size + 2 ≤ fuel →
    Outcome (Derived .term) lexer (consumeTerm fuel lexer)
  termLoop : ∀ lexer node ts, lexer ≠ .endless → 4 * lexer.size + 1 ≤ fuel →
    Derives .term ts node →
    Outcome (fun node us => Derives .term (ts ++ us) node) lexer (termLoop fuel node lexer)
  expr : ∀ lexer, lexer ≠ .endless → 4 * lexer.size + 3 ≤ fuel →
    Outcome (Derived .expr) lexer (consumeExpr fuel lexer)
  exprLoop : ∀ lexer node ts, lexer ≠ .endless → 4 * lexer.size + 1 ≤ fuel →
    Derives .expr ts node →
    Outcome (fun node us => Derives .expr (ts ++ us) node) lexer (exprLoop fuel node lexer)

theorem variable_outcome (lexer : Lexer) :
    Outcome (Derived .variableName) lexer (consumeVariable lexer) := by
  rw [consumeVariable]
  refine outcome_eatToken (by decide) (by decide) ?_ ?_
  · exact fun tok hkind => ⟨[], .var tok, .symbol hkind⟩
  rintro tok ahead rfl hkind hahead
  exact outcome_ok hahead (.symbol hkind)

section ExprStep

variable {fuel : ℕ} {lexer : Lexer}

theorem factor_step (ih : ExprSound fuel) (hfuel : 4 * lexer.size + 1 ≤ fuel + 1) :
    Outcome (Derived .factor) lexer (consumeFactor (fuel + 1) lexer) := by
  by_cases hinteger : lexer.currentToken.kind = .tokLiteralInteger
  · obtain ⟨tok, ahead, rfl, hkind⟩ :=
      exists_token (p := (· = .tokLiteralInteger)) hinteger nofun nofun
    rw [consumeFactor_integer hkind]
    exact outcome_advance ⟨[], _, .integer hkind⟩ fun hahead => outcome_ok hahead (.integer hkind)
  by_cases hunary : IsPlusMinus lexer.currentToken.kind
  · obtain ⟨tok, ahead, rfl, hkind⟩ :=
      exists_token (p := IsPlusMinus) hunary nofun nofun
    rw [consumeFactor_unary hkind]
    rw [Lexer.size] at hfuel
    refine outcome_advance ⟨[oneToken], _, .unary hkind derives_one_factor⟩ fun hahead => ?_
    refine outcome_bind (outcome_wrap _ (ih.factor ahead hahead (by omega))) ?_ ?_
    · intro node ts hnode
      exact ⟨[], .unary tok node, by rw [List.append_nil]; exact .unary hkind hnode⟩
    · intro node ts rest hrest hne hnode
      exact outcome_ok hne (by rw [List.append_nil]; exact .unary hkind hnode)
  by_cases hparen : lexer.currentToken.kind = .tokLParen
  · obtain ⟨tok, ahead, rfl, hkind⟩ :=
      exists_token (p := (· = .tokLParen)) hparen nofun nofun
    rw [consumeFactor_paren hkind]
    rw [Lexer.size] at hfuel
    have hclose := derives_paren_of_expr hkind derives_one_expr
    refine outcome_advance ⟨_, _, hclose⟩ fun hahead => ?_
    refine outcome_bind (outcome_wrap _ (ih.expr ahead hahead (by omega))) ?_ ?_
    · exact fun node ts hnode => ⟨_, node, derives_paren_of_expr hkind hnode⟩
    · intro node ts rest hrest hne hnode
      dsimp only
      split
      · next hright =>
          obtain ⟨rparen, behind, rfl, hright⟩ :=
            exists_token (p := (· = .tokRParen)) hright nofun nofun
          exact outcome_advance ⟨[], node, .paren hkind hnode hright⟩
            fun hbehind => outcome_ok hbehind (.paren hkind hnode hright)
      · trivial
  · rw [consumeFactor_else hinteger hunary hparen]
    exact outcome_mono (variable_outcome lexer) fun node ts hnode => .factorVariable hnode

theorem term_step (ih : ExprSound fuel) (hlexer : lexer ≠ .endless)
    (hfuel : 4 * lexer.size + 2 ≤ fuel + 1) :
    Outcome (Derived .term) lexer (consumeTerm (fuel + 1) lexer) := by
  rw [consumeTerm]
  refine outcome_bind (ih.factor lexer hlexer (by omega)) ?_ ?_
  · exact fun node ts hnode => ⟨[], node, by rw [List.append_nil]; exact .termFactor hnode⟩
  · intro node ts rest hrest hne hnode
    rw [hrest, size_prepend] at hfuel
    exact ih.termLoop rest node ts hne (by omega) (.termFactor hnode)

theorem termLoop_step (ih : ExprSound fuel) (hlexer : lexer ≠ .endless)
    (hfuel : 4 * lexer.size + 1 ≤ fuel + 1) {node : Node} {ts : List Token}
    (hnode : Derives .term ts node) :
    Outcome (fun node us => Derives .term (ts ++ us) node) lexer
      (termLoop (fuel + 1) node lexer) := by
  by_cases hop : IsMulDiv lexer.currentToken.kind
  · obtain ⟨tok, ahead, rfl, hkind⟩ :=
      exists_token (p := IsMulDiv) hop nofun nofun
    rw [termLoop_more hkind]
    rw [Lexer.size] at hfuel
    have hclose := Derives.termMore hnode hkind derives_one_factor
    refine outcome_advance ⟨_, _, hclose⟩ fun hahead => ?_
    refine outcome_bind (ih.factor ahead hahead (by omega)) ?_ ?_
    · intro factor us hfactor
      exact ⟨[], _, by rw [List.append_nil]; exact .termMore hnode hkind hfactor⟩
    · intro factor us rest hrest hne hfactor
      rw [hrest, size_prepend] at hfuel
      have hmore := ih.termLoop rest _ _ hne (by omega) (.termMore hnode hkind hfactor)
      refine outcome_mono hmore fun node vs hnode => ?_
      rwa [List.append_assoc, List.cons_append] at hnode
  · rw [termLoop_stops hop]
    exact outcome_ok hlexer (by rwa [List.append_nil])

theorem expr_step (ih : ExprSound fuel) (hlexer : lexer ≠ .endless)
    (hfuel : 4 * lexer.size + 3 ≤ fuel + 1) :
    Outcome (Derived .expr) lexer (consumeExpr (fuel + 1) lexer) := by
  rw [consumeExpr]
  refine outcome_bind (ih.term lexer hlexer (by omega)) ?_ ?_
  · exact fun node ts hnode => ⟨[], node, by rw [List.append_nil]; exact .exprTerm hnode⟩
  · intro node ts rest hrest hne hnode
    rw [hrest, size_prepend] at hfuel
    exact ih.exprLoop rest node ts hne (by omega) (.exprTerm hnode)

theorem exprLoop_step (ih : ExprSound fuel) (hlexer : lexer ≠ .endless)
    (hfuel : 4 * lexer.size + 1 ≤ fuel + 1) {node : Node} {ts : List Token}
    (hnode : Derives .expr ts node) :
    Outcome (fun node us => Derives .expr (ts ++ us) node) lexer
      (exprLoop (fuel + 1) node lexer) := by
  by_cases hop : IsPlusMinus lexer.currentToken.kind
  · obtain ⟨tok, ahead, rfl, hkind⟩ :=
      exists_token (p := IsPlusMinus) hop nofun nofun
    rw [exprLoop_more hkind]
    rw [Lexer.size] at hfuel
    have hclose := Derives.exprMore hnode hkind derives_one_term
    refine outcome_advance ⟨_, _, hclose⟩ fun hahead => ?_
    refine outcome_bind (ih.term ahead hahead (by omega)) ?_ ?_
    · intro term us hterm
      exact ⟨[], _, by rw [List.append_nil]; exact .exprMore hnode hkind hterm⟩
    · intro term us rest hrest hne hterm
      rw [hrest, size_prepend] at hfuel
      have hmore := ih.exprLoop rest _ _ hne (by omega) (.exprMore hnode hkind hterm)
      refine outcome_mono hmore fun node vs hnode => ?_
      rwa [List.append_assoc, List.cons_append] at hnode
  · rw [exprLoop_stops hop]
    exact outcome_ok hlexer (by rwa [List.append_nil])

end ExprStep

theorem exprSound (fuel : ℕ) : ExprSound fuel := by
  induction fuel with
  | zero => constructor <;> intros <;> omega
  | succ fuel ih =>
      exact
        { factor := fun _ _ hfuel => factor_step ih hfuel
          term := fun _ hlexer hfuel => term_step ih hlexer hfuel
          termLoop := fun _ _ _ hlexer hfuel hnode => termLoop_step ih hlexer hfuel hnode
          expr := fun _ hlexer hfuel => expr_step ih hlexer hfuel
          exprLoop := fun _ _ _ hlexer hfuel hnode => exprLoop_step ih hlexer hfuel hnode }

/-! ## Statements -/

theorem assignment_outcome {fuel : ℕ} {lexer : Lexer} (hfuel : 4 * lexer.size ≤ fuel) :
    Outcome (Derived .assignment) lexer (consumeAssignment fuel lexer) := by
  rw [consumeAssignment]
  refine outcome_bind (variable_outcome lexer) ?_ ?_
  · exact fun node ts hnode => ⟨_, _, .assignment hnode assignToken_kind derives_one_expr⟩
  intro left ts rest hrest hne hleft
  dsimp only
  refine outcome_eatToken (by decide) (by decide) ?_ ?_
  · exact fun tok hkind => ⟨_, _, .assignment hleft hkind derives_one_expr⟩
  rintro tok ahead rfl hkind hahead
  rw [hrest, size_prepend, Lexer.size] at hfuel
  have hpos : 0 < ts.length := by cases hleft; exact Nat.one_pos
  refine outcome_bind ((exprSound fuel).expr ahead hahead (by omega)) ?_ ?_
  · intro right us hright
    exact ⟨[], _, by rw [List.append_nil]; exact .assignment hleft hkind hright⟩
  · intro right us behind hbehind hne' hright
    exact outcome_ok hne' (by rw [List.append_nil]; exact .assignment hleft hkind hright)

/-- The statements behind these. -/
def Listed (nodes all : List Node) (ts : List Token) : Prop :=
  ∃ stmts, all = nodes ++ stmts ∧ Derives .statementList ts (.compound stmts)

/-- What the loop of `consumeStatementList` adds to these: nothing, or a semicolon and a list. -/
def Continued (nodes all : List Node) (ts : List Token) : Prop :=
  (ts = [] ∧ all = nodes) ∨
    ∃ semi us, ts = semi :: us ∧ semi.kind = .tokSemi ∧ Listed nodes all us

theorem listed_of_statement {node : Node} {nodes : List Node} {ts : List Token}
    (hnode : Derives .statement ts node) : Listed nodes (nodes ++ [node]) ts :=
  ⟨[node], rfl, .listOne hnode⟩

theorem listed_of_continued {node : Node} {nodes all : List Node} {ts us : List Token}
    (hnode : Derives .statement ts node) (hcontinued : Continued (nodes ++ [node]) all us) :
    Listed nodes all (ts ++ us) := by
  rcases hcontinued with ⟨rfl, rfl⟩ | ⟨semi, vs, rfl, hsemi, stmts, rfl, hlist⟩
  · rw [List.append_nil]
    exact listed_of_statement hnode
  · exact ⟨node :: stmts, List.append_assoc _ _ _, .listMore hnode hsemi hlist⟩

/-- What the functions for statements do on this fuel. -/
structure StatementSound (fuel : ℕ) : Prop where
  statement : ∀ lexer, lexer ≠ .endless → 4 * lexer.size + 2 ≤ fuel →
    Outcome (Derived .statement) lexer (consumeStatement fuel lexer)
  list : ∀ lexer, lexer ≠ .endless → 4 * lexer.size + 3 ≤ fuel →
    Outcome (Listed []) lexer (consumeStatementList fuel lexer)
  loop : ∀ lexer nodes, lexer ≠ .endless → 4 * lexer.size + 1 ≤ fuel →
    Outcome (Continued nodes) lexer (statementLoop fuel nodes lexer)
  compound : ∀ lexer, 4 * lexer.size + 1 ≤ fuel →
    Outcome (Derived .compoundStatement) lexer (consumeCompoundStatement fuel lexer)

section StatementStep

variable {fuel : ℕ} {lexer : Lexer}

theorem statementsFrom_outcome (ih : StatementSound fuel) (hlexer : lexer ≠ .endless)
    (hfuel : 4 * lexer.size + 2 ≤ fuel) (nodes : List Node) :
    Outcome (Listed nodes) lexer (statementsFrom fuel nodes lexer) := by
  rw [statementsFrom]
  refine outcome_bind (ih.statement lexer hlexer hfuel) ?_ ?_
  · intro node ts hnode
    exact ⟨[], _, by rw [List.append_nil]; exact listed_of_statement hnode⟩
  · intro node ts rest hrest hne hnode
    rw [hrest, size_prepend] at hfuel
    have hloop := ih.loop rest (nodes ++ [node]) hne (by omega)
    exact outcome_mono hloop fun all us hcontinued => listed_of_continued hnode hcontinued

theorem statement_step (ih : StatementSound fuel) (hlexer : lexer ≠ .endless)
    (hfuel : 4 * lexer.size + 2 ≤ fuel + 1) :
    Outcome (Derived .statement) lexer (consumeStatement (fuel + 1) lexer) := by
  by_cases hbegin : lexer.currentToken.kind = .tokBegin
  · rw [consumeStatement_begin hbegin]
    have hcompound := ih.compound lexer (by omega)
    exact outcome_mono hcompound fun node ts hnode => .statementCompound hnode
  by_cases hsymbol : lexer.currentToken.kind = .tokSymbol
  · rw [consumeStatement_symbol hsymbol]
    have hbound : 4 * lexer.size ≤ fuel := by omega
    exact outcome_mono (assignment_outcome hbound) fun node ts hnode => .statementAssignment hnode
  · rw [consumeStatement_else hbegin hsymbol]
    exact outcome_ok hlexer .statementEmpty

theorem list_step (ih : StatementSound fuel) (hlexer : lexer ≠ .endless)
    (hfuel : 4 * lexer.size + 3 ≤ fuel + 1) :
    Outcome (Listed []) lexer (consumeStatementList (fuel + 1) lexer) := by
  rw [consumeStatementList_eq]
  exact statementsFrom_outcome ih hlexer (by omega) []

theorem loop_step (ih : StatementSound fuel) (hlexer : lexer ≠ .endless)
    (hfuel : 4 * lexer.size + 1 ≤ fuel + 1) (nodes : List Node) :
    Outcome (Continued nodes) lexer (statementLoop (fuel + 1) nodes lexer) := by
  by_cases hsemi : lexer.currentToken.kind = .tokSemi
  · obtain ⟨tok, ahead, rfl, hkind⟩ :=
      exists_token (p := (· = .tokSemi)) hsemi nofun nofun
    rw [statementLoop_more hkind]
    rw [Lexer.size] at hfuel
    -- an empty statement can stand behind the semicolon
    have hclose : Continued nodes (nodes ++ [.nop]) [tok] :=
      .inr ⟨tok, [], rfl, hkind, [.nop], rfl, derives_empty_list⟩
    refine outcome_advance ⟨_, _, hclose⟩ fun hahead => ?_
    have hlist := statementsFrom_outcome ih hahead (by omega) nodes
    exact outcome_mono hlist fun all us hlisted => .inr ⟨tok, us, rfl, hkind, hlisted⟩
  · rw [statementLoop_stops hsemi]
    exact outcome_ok hlexer (.inl ⟨rfl, rfl⟩)

theorem compound_step (ih : StatementSound fuel) (hfuel : 4 * lexer.size + 1 ≤ fuel + 1) :
    Outcome (Derived .compoundStatement) lexer (consumeCompoundStatement (fuel + 1) lexer) := by
  rw [consumeCompoundStatement]
  refine outcome_eatToken (by decide) (by decide) ?_ ?_
  · exact fun tok hkind => ⟨_, _, .compound hkind derives_empty_list endToken_kind⟩
  rintro tok ahead rfl hkind hahead
  rw [Lexer.size] at hfuel
  refine outcome_bind (ih.list ahead hahead (by omega)) ?_ ?_
  · rintro all ts ⟨stmts, rfl, hlist⟩
    exact ⟨_, _, .compound hkind hlist endToken_kind⟩
  rintro all ts rest hrest hne ⟨stmts, rfl, hlist⟩
  dsimp only
  refine outcome_eatToken (by decide) (by decide) ?_ ?_
  · exact fun endTok hend => ⟨[], _, .compound hkind hlist hend⟩
  · rintro endTok behind rfl hend hbehind
    exact outcome_ok hbehind (.compound hkind hlist hend)

end StatementStep

theorem statementSound (fuel : ℕ) : StatementSound fuel := by
  induction fuel with
  | zero => constructor <;> intros <;> omega
  | succ fuel ih =>
      exact
        { statement := fun _ hlexer hfuel => statement_step ih hlexer hfuel
          list := fun _ hlexer hfuel => list_step ih hlexer hfuel
          loop := fun _ nodes hlexer hfuel => loop_step ih hlexer hfuel nodes
          compound := fun _ hfuel => compound_step ih hfuel }

theorem program_outcome {fuel : ℕ} {lexer : Lexer} (hfuel : 4 * lexer.size + 1 ≤ fuel) :
    Outcome (Derived .program) lexer (consumeProgram fuel lexer) := by
  rw [consumeProgram]
  refine outcome_bind ((statementSound fuel).compound lexer hfuel) ?_ ?_
  · exact fun node ts hnode => ⟨_, _, .program hnode dotToken_kind⟩
  intro node ts rest hrest hne hnode
  dsimp only
  refine outcome_eatToken (by decide) (by decide) ?_ ?_
  · exact fun dot hdot => ⟨[], _, .program hnode hdot⟩
  · rintro dot ahead rfl hdot hahead
    exact outcome_ok hahead (.program hnode hdot)

end Eureka.Pascal

/-!
## What `parse` accepts

`parse` accepts exactly the programs of the grammar (`parse_iff_derives`): the
parser consumes what is derived, and what it consumes is derived.  Since it
returns one tree, the grammar is unambiguous.
-/

namespace Eureka.Pascal

open Lexer (prepend)

/-! ## Programs -/

theorem parse_of_derives {ts : List Token} {tree : Node} {rest : Lexer}
    (hrest : rest ≠ .endless) (heof : rest.currentToken.kind = .tokEOF)
    (hderives : Derives .program ts tree) : parse (prepend ts rest) = .ok tree := by
  have hconsume := consumes_of_derives hderives (4 * rest.size + 8) rest hrest
  have hfuel : 4 * (ts.length + rest.size) + 8 = 4 * rest.size + 8 + 4 * ts.length := by omega
  rw [parse, size_prepend, hfuel, hconsume, ok_bind]
  exact if_pos heof

/-- How `parse` ends. -/
theorem parse_outcome (lexer : Lexer) :
    match parse lexer with
    | .ok tree => ∃ ts rest, lexer = prepend ts rest ∧ rest.currentToken.kind = .tokEOF ∧
        rest ≠ .endless ∧ Derives .program ts tree
    | .error .endless =>
        ∃ ts us tree, lexer = prepend ts .endless ∧ Derives .program (ts ++ us) tree
    | .error .outOfFuel => False
    | .error (.error _) => True := by
  have hprogram : Outcome (Derived .program) lexer (consumeProgram (4 * lexer.size + 8) lexer) :=
    program_outcome (by omega)
  rw [parse]
  match hresult : consumeProgram (4 * lexer.size + 8) lexer, hprogram with
  | .ok (tree, rest), ⟨ts, hlexer, hne, hderives⟩ =>
      rw [ok_bind]
      dsimp only
      by_cases heof : rest.currentToken.kind = .tokEOF
      · rw [if_pos heof]
        exact ⟨ts, rest, hlexer, heof, hne, hderives⟩
      · rw [if_neg heof]
        trivial
  | .error .endless, h => exact h
  | .error (.error _), _ => trivial

theorem prepend_eq_prepend_eof {toks ts : List Token} {rest : Lexer}
    (hno : ∀ tok ∈ toks, tok.kind ≠ .tokEOF) (heof : rest.currentToken.kind = .tokEOF)
    (heq : prepend toks .eof = prepend ts rest) : toks = ts := by
  induction ts generalizing toks with
  | nil =>
      cases toks with
      | nil => rfl
      | cons tok toks =>
          rw [prepend_nil] at heq
          rw [← heq] at heof
          exact absurd heof (hno tok List.mem_cons_self)
  | cons tok' ts ih =>
      cases toks with
      | nil => cases heq
      | cons tok toks =>
          obtain ⟨rfl, htail⟩ := Lexer.token.inj heq
          rw [ih (fun tok htok => hno tok (List.mem_cons_of_mem _ htok)) htail]

theorem parse_eq_ok_iff {toks : List Token} (hno : ∀ tok ∈ toks, tok.kind ≠ .tokEOF)
    (tree : Node) : parse (prepend toks .eof) = .ok tree ↔ Derives .program toks tree := by
  constructor
  · intro hparse
    have houtcome := parse_outcome (prepend toks .eof)
    rw [hparse] at houtcome
    obtain ⟨ts, rest, heq, heof, -, hderives⟩ := houtcome
    rwa [prepend_eq_prepend_eof hno heof heq]
  · exact fun hderives => parse_of_derives nofun rfl hderives

theorem tree_unique {ts : List Token} {tree tree' : Node} (h : Derives .program ts tree)
    (h' : Derives .program ts tree') : tree = tree' := by
  have hparse : parse (prepend ts .eof) = .ok tree := parse_of_derives nofun rfl h
  have hparse' : parse (prepend ts .eof) = .ok tree' := parse_of_derives nofun rfl h'
  exact Except.ok.inj (hparse.symm.trans hparse')

theorem prepend_eof_ne_prepend_endless (toks ts : List Token) :
    prepend toks .eof ≠ prepend ts .endless := by
  induction ts generalizing toks with
  | nil => cases toks <;> nofun
  | cons tok' ts ih =>
      cases toks with
      | nil => nofun
      | cons tok toks => exact fun heq => ih toks (Lexer.token.inj heq).2

/-- **The parser accepts exactly its grammar.**  For tokens that end with the end of the text,
`parse` succeeds if and only if the tokens are a program; the tree that it returns is then the
only one that the grammar gives them; and for all other tokens it reports an error. -/
theorem parse_iff_derives (toks : List Token) (hno : ∀ tok ∈ toks, tok.kind ≠ .tokEOF) :
    ((∃ tree, parse (prepend toks .eof) = .ok tree) ↔ ∃ tree, Derives .program toks tree) ∧
      (∀ tree, parse (prepend toks .eof) = .ok tree →
        Derives .program toks tree ∧ ∀ tree', Derives .program toks tree' → tree' = tree) ∧
      ((¬ ∃ tree, Derives .program toks tree) →
        ∃ e, parse (prepend toks .eof) = .error (.error e)) := by
  refine ⟨exists_congr (parse_eq_ok_iff hno), ?_, ?_⟩
  · intro tree hparse
    have hderives := (parse_eq_ok_iff hno tree).mp hparse
    exact ⟨hderives, fun tree' hderives' => tree_unique hderives' hderives⟩
  · intro hnone
    have houtcome := parse_outcome (prepend toks .eof)
    match hresult : parse (prepend toks .eof), houtcome with
    | .ok tree, _ => exact absurd ⟨tree, (parse_eq_ok_iff hno tree).mp hresult⟩ hnone
    | .error .endless, ⟨ts, _, _, heq, _⟩ => exact absurd heq (prepend_eof_ne_prepend_endless _ _)
    | .error (.error e), _ => exact ⟨e, rfl⟩

/-- `BEGIN x := 1 - 1 - 1 END.` -/
def differenceTokens : List Token :=
  [⟨.tokBegin, ascii "BEGIN"⟩, ⟨.tokSymbol, ascii "x"⟩, assignToken, oneToken,
    ⟨.tokMinus, ascii "-"⟩, oneToken, ⟨.tokMinus, ascii "-"⟩, oneToken, endToken, dotToken]

theorem parse_iff_derives_difference :
    ((∃ tree, parse (prepend differenceTokens .eof) = .ok tree) ↔
        ∃ tree, Derives .program differenceTokens tree) ∧
      ∀ tree, parse (prepend differenceTokens .eof) = .ok tree →
        Derives .program differenceTokens tree ∧
          ∀ tree', Derives .program differenceTokens tree' → tree' = tree :=
  have h := parse_iff_derives differenceTokens (by decide)
  ⟨h.1, h.2.1⟩

example : parse (prepend differenceTokens .eof) =
    .ok (.compound [.assign assignToken (.var ⟨.tokSymbol, ascii "x"⟩)
      (.binOp ⟨.tokMinus, ascii "-"⟩
        (.binOp ⟨.tokMinus, ascii "-"⟩ (.num oneToken) (.num oneToken)) (.num oneToken))]) := rfl

end Eureka.Pascal

import Eureka.Calc.Parser

/-!
# The grammar of the calculator

The grammar of the comment at `expr`, with the tokens that close a parenthesis
as a parameter: `tokRParen` gives the grammar as it stands there, and every
token that is not an operator gives what the parser reads.  The repetitions are
read from the left, so that the operators associate to the left.

* `consumes_of_derives`: the parser consumes what the grammar derives, by
  induction on the derivation;
* `sound`: what the parser consumes is derived, and it never uses up its fuel,
  by induction on the fuel.
-/

namespace Eureka.Calc

inductive NonTerminal
  | expr
  | term
  | factor

/-- The tokens are derived from the nonterminal, with this tree. -/
inductive Derives (closing : Kind → Prop) : NonTerminal → List Token → Node → Prop
  | integer {tok : Token} : tok.kind = .tokInteger → Derives closing .factor [tok] (.num tok)
  | paren {lparen close : Token} {ts : List Token} {node : Node} :
      lparen.kind = .tokLParen → Derives closing .expr ts node → closing close.kind →
      Derives closing .factor (lparen :: (ts ++ [close])) node
  | termFactor {ts : List Token} {node : Node} :
      Derives closing .factor ts node → Derives closing .term ts node
  | termMore {op : Token} {ts us : List Token} {left right : Node} :
      Derives closing .term ts left → IsMulDiv op.kind → Derives closing .factor us right →
      Derives closing .term (ts ++ op :: us) (.binOp op left right)
  | exprTerm {ts : List Token} {node : Node} :
      Derives closing .term ts node → Derives closing .expr ts node
  | exprMore {op : Token} {ts us : List Token} {left right : Node} :
      Derives closing .expr ts left → IsPlusMinus op.kind → Derives closing .term us right →
      Derives closing .expr (ts ++ op :: us) (.binOp op left right)

/-- The grammar of the comment. -/
def IsRParen (kind : Kind) : Prop := kind = .tokRParen

/-- What the loops of the parser stop at, and what it passes for a closing parenthesis. -/
def NoOperator (kind : Kind) : Prop := ¬ IsMulDiv kind ∧ ¬ IsPlusMinus kind

theorem noOperator_of_isRParen {kind : Kind} (h : IsRParen kind) : NoOperator kind := by
  rw [h]
  exact ⟨by decide, by decide⟩

theorem noOperator_eof : NoOperator .tokEOF := ⟨by decide, by decide⟩

variable {closing : Kind → Prop}

theorem passed_of_isMulDiv {tok : Token} (h : IsMulDiv tok.kind) : tok.Passed := by
  rcases h with h | h
  · rw [Token.Passed, h]; decide
  · rw [Token.Passed, h]; decide

theorem passed_of_isPlusMinus {tok : Token} (h : IsPlusMinus tok.kind) : tok.Passed := by
  rcases h with h | h
  · rw [Token.Passed, h]; decide
  · rw [Token.Passed, h]; decide

theorem passed_of_isLParen {tok : Token} (h : tok.kind = .tokLParen) : tok.Passed := by
  rw [Token.Passed, h]; decide

theorem Derives.mono {closing' : Kind → Prop} (himp : ∀ kind, closing kind → closing' kind)
    {x : NonTerminal} {ts : List Token} {node : Node} (h : Derives closing x ts node) :
    Derives closing' x ts node := by
  induction h with
  | integer hkind => exact .integer hkind
  | paren hleft _ hclose ih => exact .paren hleft ih (himp _ hclose)
  | termFactor _ ih => exact .termFactor ih
  | termMore _ hop _ ihl ihr => exact .termMore ihl hop ihr
  | exprTerm _ ih => exact .exprTerm ih
  | exprMore _ hop _ ihl ihr => exact .exprMore ihl hop ihr

theorem Derives.head {x : NonTerminal} {ts : List Token} {node : Node}
    (h : Derives closing x ts node) : ∃ tok us, ts = tok :: us ∧ tok.Passed := by
  induction h with
  | @integer tok hkind => exact ⟨tok, [], rfl, by rw [Token.Passed, hkind]; decide⟩
  | @paren lparen close ts node hkind _ _ _ =>
      exact ⟨lparen, ts ++ [close], rfl, passed_of_isLParen hkind⟩
  | termFactor _ ih => exact ih
  | termMore _ _ _ ihl _ =>
      obtain ⟨tok, us, rfl, hpassed⟩ := ihl
      exact ⟨tok, us ++ _, rfl, hpassed⟩
  | exprTerm _ ih => exact ih
  | exprMore _ _ _ ihl _ =>
      obtain ⟨tok, us, rfl, hpassed⟩ := ihl
      exact ⟨tok, us ++ _, rfl, hpassed⟩

theorem Derives.size_lt {x : NonTerminal} {ts : List Token} {node : Node} {l l' : Lexer}
    (h : Derives closing x ts node) (hahead : Ahead ts l l') : l'.size < l.size := by
  obtain ⟨tok, us, rfl, hpassed⟩ := h.head
  obtain ⟨rfl, hus⟩ := hahead
  exact (size_le_of_ahead hus).trans_lt (size_nextToken_lt hpassed)

@[simp] theorem ok_bind {α β : Type} (a : α) (f : α → Except Failure β) :
    (Except.ok a >>= f) = f a := rfl

/-! ## Completeness -/

/-- The parser consumes the tokens, whatever is behind them that does not go on with them. -/
def Consumes : NonTerminal → Node → Lexer → Lexer → Prop
  | .factor, node, l, l' => ∀ fuel, 4 * l.size + 1 ≤ fuel → consumeFactor fuel l = .ok (node, l')
  | .term, node, l, l' => ∀ result,
      (∀ fuel, 4 * l'.size + 1 ≤ fuel → termLoop fuel node l' = result) →
      ∀ fuel, 4 * l.size + 2 ≤ fuel → consumeTerm fuel l = result
  | .expr, node, l, l' => ¬ IsMulDiv l'.tok.kind → ∀ result,
      (∀ fuel, 4 * l'.size + 1 ≤ fuel → exprLoop fuel node l' = result) →
      ∀ fuel, 4 * l.size + 3 ≤ fuel → expr fuel l = result

theorem termLoop_stops {l : Lexer} (hkind : ¬ IsMulDiv l.tok.kind) (node : Node) :
    ∀ fuel, 4 * l.size + 1 ≤ fuel → termLoop fuel node l = .ok (node, l) := by
  rintro (_ | fuel) hfuel
  · omega
  · rw [termLoop, if_neg hkind]

theorem exprLoop_stops {l : Lexer} (hkind : ¬ IsPlusMinus l.tok.kind) (node : Node) :
    ∀ fuel, 4 * l.size + 1 ≤ fuel → exprLoop fuel node l = .ok (node, l) := by
  rintro (_ | fuel) hfuel
  · omega
  · rw [exprLoop, if_neg hkind]

theorem expr_of_consumes {node : Node} {l l' : Lexer} (h : Consumes .expr node l l')
    (hstops : NoOperator l'.tok.kind) {fuel : ℕ} (hfuel : 4 * l.size + 3 ≤ fuel) :
    expr fuel l = .ok (node, l') :=
  h hstops.1 _ (exprLoop_stops hstops.2 node) fuel hfuel

/-- **Completeness of the parser.** -/
theorem consumes_of_derives (hclosing : ∀ kind, closing kind → NoOperator kind)
    {x : NonTerminal} {ts : List Token} {node : Node} (h : Derives closing x ts node)
    {l l' : Lexer} (hahead : Ahead ts l l') : Consumes x node l l' := by
  induction h generalizing l l' with
  | integer hkind =>
      obtain ⟨rfl, rfl⟩ := hahead
      rintro (_ | fuel) hfuel
      · omega
      · rw [consumeFactor, if_pos hkind]
  | @paren lparen close ts node hkind _ hclose ih =>
      obtain ⟨rfl, hrest⟩ := hahead
      -- `m` is in front of the token that closes
      obtain ⟨m, hts, rfl, rfl⟩ := ahead_append.mp hrest
      have hsize := size_nextToken_lt (passed_of_isLParen hkind)
      have hnot : l.tok.kind ≠ .tokInteger := by rw [hkind]; nofun
      rintro (_ | fuel) hfuel
      · omega
      · rw [consumeFactor, if_neg hnot, if_pos hkind,
          expr_of_consumes (ih hts) (hclosing _ hclose) (by omega)]
        rfl
  | termFactor hfactor ih =>
      intro result hloop
      have hsize := hfactor.size_lt hahead
      rintro (_ | fuel) hfuel
      · omega
      · rw [consumeTerm, ih hahead fuel (by omega), ok_bind]
        exact hloop fuel (by omega)
  | @termMore op ts us left right hleft hop hright ihl ihr =>
      obtain ⟨m, hts, rfl, hus⟩ := ahead_append.mp hahead
      intro result hloop
      refine ihl hts result ?_
      have hsize := hright.size_lt hus
      have hnext := size_nextToken_lt (passed_of_isMulDiv hop)
      rintro (_ | fuel) hfuel
      · omega
      · rw [termLoop, if_pos hop, ihr hus fuel (by omega), ok_bind]
        exact hloop fuel (by omega)
  | exprTerm hterm ih =>
      intro hmulDiv result hloop
      have hsize := hterm.size_lt hahead
      rintro (_ | fuel) hfuel
      · omega
      · rw [expr, ih hahead _ (termLoop_stops hmulDiv _) fuel (by omega), ok_bind]
        exact hloop fuel (by omega)
  | @exprMore op ts us left right hleft hop hright ihl ihr =>
      obtain ⟨m, hts, rfl, hus⟩ := ahead_append.mp hahead
      intro hmulDiv result hloop
      -- a sum ends the term before it
      have hstop : ¬ IsMulDiv m.tok.kind := by rcases hop with hop | hop <;> rw [hop] <;> decide
      refine ihl hts hstop result ?_
      have hsize := hright.size_lt hus
      have hnext := size_nextToken_lt (passed_of_isPlusMinus hop)
      rintro (_ | fuel) hfuel
      · omega
      · rw [exprLoop, if_pos hop, ihr hus _ (termLoop_stops hmulDiv _) fuel (by omega), ok_bind]
        exact hloop fuel (by omega)

/-! ## Soundness -/

/-- What a call comes to, where `P` says which tokens its result stands for and `follows` what
is behind them.  It never runs out of fuel. -/
def Outcome (P : List Token → Node → Prop) (follows : Kind → Prop) (l : Lexer) : Parsed → Prop
  | .ok (node, l') => follows l'.tok.kind ∧ ∃ ts, Ahead ts l l' ∧ P ts node
  | .error (.expected _) => True
  | .error .outOfFuel => False

section Rules

variable {P Q : List Token → Node → Prop} {follows follows' : Kind → Prop} {l : Lexer}

theorem outcome_bind {result : Parsed} {f : Node × Lexer → Parsed} (h : Outcome P follows l result)
    (hnext : ∀ node l' ts, follows l'.tok.kind → Ahead ts l l' → P ts node →
      Outcome Q follows' l (f (node, l'))) :
    Outcome Q follows' l (result >>= f) := by
  match result, h with
  | .ok (node, l'), ⟨hfollows, ts, hahead, hnode⟩ => exact hnext node l' ts hfollows hahead hnode
  | .error (.expected _), _ => trivial

theorem outcome_ahead {ts : List Token} {l' : Lexer} {result : Parsed} (hahead : Ahead ts l l')
    (h : Outcome P follows l' result) (himp : ∀ us node, P us node → Q (ts ++ us) node) :
    Outcome Q follows l result := by
  match result, h with
  | .ok (node, l''), ⟨hfollows, us, hus, hnode⟩ =>
      exact ⟨hfollows, ts ++ us, ahead_append.mpr ⟨l', hahead, hus⟩, himp us node hnode⟩
  | .error (.expected _), _ => trivial

end Rules

/-- What the functions do on this fuel. -/
structure Sound (fuel : ℕ) : Prop where
  factor : ∀ l, 4 * l.size + 1 ≤ fuel →
    Outcome (Derives NoOperator .factor) (fun _ => True) l (consumeFactor fuel l)
  term : ∀ l, 4 * l.size + 2 ≤ fuel →
    Outcome (Derives NoOperator .term) (¬ IsMulDiv ·) l (consumeTerm fuel l)
  termLoop : ∀ l ts left, Derives NoOperator .term ts left → 4 * l.size + 1 ≤ fuel →
    Outcome (fun us => Derives NoOperator .term (ts ++ us)) (¬ IsMulDiv ·) l (termLoop fuel left l)
  expr : ∀ l, 4 * l.size + 3 ≤ fuel →
    Outcome (Derives NoOperator .expr) NoOperator l (expr fuel l)
  exprLoop : ∀ l ts left, Derives NoOperator .expr ts left → ¬ IsMulDiv l.tok.kind →
    4 * l.size + 1 ≤ fuel →
    Outcome (fun us => Derives NoOperator .expr (ts ++ us)) NoOperator l (exprLoop fuel left l)

theorem outcome_nextToken {P Q : List Token → Node → Prop} {follows : Kind → Prop} {l : Lexer}
    {result : Parsed} (h : Outcome P follows l.nextToken result)
    (himp : ∀ us node, P us node → Q (l.tok :: us) node) : Outcome Q follows l result :=
  have htok : Ahead [l.tok] l l.nextToken := ⟨rfl, rfl⟩
  outcome_ahead htok h himp

section Step

variable {fuel : ℕ} {l : Lexer}

theorem factor_step (ih : Sound fuel) (hfuel : 4 * l.size + 1 ≤ fuel + 1) :
    Outcome (Derives NoOperator .factor) (fun _ => True) l (consumeFactor (fuel + 1) l) := by
  rw [consumeFactor]
  split
  · next hkind => exact ⟨trivial, [l.tok], ⟨rfl, rfl⟩, .integer hkind⟩
  split
  · next hkind =>
      have hsize := size_nextToken_lt (passed_of_isLParen hkind)
      have hexpr := ih.expr l.nextToken (by omega)
      refine outcome_nextToken (outcome_bind hexpr ?_) fun us node hnode => hnode
      intro node l' ts hstops hahead hnode
      -- whatever stops the loops is passed
      have hclose : Ahead (ts ++ [l'.tok]) l.nextToken l'.nextToken :=
        ahead_append.mpr ⟨l', hahead, rfl, rfl⟩
      exact ⟨trivial, ts ++ [l'.tok], hclose, .paren hkind hnode hstops⟩
  · trivial

theorem term_step (ih : Sound fuel) (hfuel : 4 * l.size + 2 ≤ fuel + 1) :
    Outcome (Derives NoOperator .term) (¬ IsMulDiv ·) l (consumeTerm (fuel + 1) l) := by
  rw [consumeTerm]
  refine outcome_bind (ih.factor l (by omega)) fun node l' ts _ hahead hnode => ?_
  have hsize := hnode.size_lt hahead
  have hloop := ih.termLoop l' ts node (.termFactor hnode) (by omega)
  exact outcome_ahead hahead hloop fun us node hnode => hnode

theorem termLoop_step (ih : Sound fuel) {ts : List Token} {left : Node}
    (hleft : Derives NoOperator .term ts left) (hfuel : 4 * l.size + 1 ≤ fuel + 1) :
    Outcome (fun us => Derives NoOperator .term (ts ++ us)) (¬ IsMulDiv ·) l
      (termLoop (fuel + 1) left l) := by
  rw [termLoop]
  split
  · next hop =>
      have hnext := size_nextToken_lt (passed_of_isMulDiv hop)
      have hfactor := ih.factor l.nextToken (by omega)
      refine outcome_nextToken (outcome_bind hfactor ?_) fun us node hnode => hnode
      intro right l' us _ hahead hright
      have hsize := hright.size_lt hahead
      have hloop := ih.termLoop l' _ _ (.termMore hleft hop hright) (by omega)
      refine outcome_ahead hahead hloop fun vs node hnode => ?_
      rwa [List.append_assoc, List.cons_append] at hnode
  · next hstops =>
      rw [← List.append_nil ts] at hleft
      exact ⟨hstops, [], rfl, hleft⟩

theorem expr_step (ih : Sound fuel) (hfuel : 4 * l.size + 3 ≤ fuel + 1) :
    Outcome (Derives NoOperator .expr) NoOperator l (expr (fuel + 1) l) := by
  rw [expr]
  refine outcome_bind (ih.term l (by omega)) fun node l' ts hmulDiv hahead hnode => ?_
  have hsize := hnode.size_lt hahead
  have hloop := ih.exprLoop l' ts node (.exprTerm hnode) hmulDiv (by omega)
  exact outcome_ahead hahead hloop fun us node hnode => hnode

theorem exprLoop_step (ih : Sound fuel) {ts : List Token} {left : Node}
    (hleft : Derives NoOperator .expr ts left) (hmulDiv : ¬ IsMulDiv l.tok.kind)
    (hfuel : 4 * l.size + 1 ≤ fuel + 1) :
    Outcome (fun us => Derives NoOperator .expr (ts ++ us)) NoOperator l
      (exprLoop (fuel + 1) left l) := by
  rw [exprLoop]
  split
  · next hop =>
      have hnext := size_nextToken_lt (passed_of_isPlusMinus hop)
      have hterm := ih.term l.nextToken (by omega)
      refine outcome_nextToken (outcome_bind hterm ?_) fun us node hnode => hnode
      intro right l' us hmulDiv' hahead hright
      have hsize := hright.size_lt hahead
      have hloop := ih.exprLoop l' _ _ (.exprMore hleft hop hright) hmulDiv' (by omega)
      refine outcome_ahead hahead hloop fun vs node hnode => ?_
      rwa [List.append_assoc, List.cons_append] at hnode
  · next hstops =>
      rw [← List.append_nil ts] at hleft
      exact ⟨⟨hmulDiv, hstops⟩, [], rfl, hleft⟩

end Step

/-- **Soundness of the parser.** -/
theorem sound (fuel : ℕ) : Sound fuel := by
  induction fuel with
  | zero => constructor <;> intros <;> omega
  | succ fuel ih =>
      exact
        { factor := fun _ hfuel => factor_step ih hfuel
          term := fun _ hfuel => term_step ih hfuel
          termLoop := fun _ _ _ hleft hfuel => termLoop_step ih hleft hfuel
          expr := fun _ hfuel => expr_step ih hfuel
          exprLoop := fun _ _ _ hleft hmulDiv hfuel => exprLoop_step ih hleft hmulDiv hfuel }

theorem parse_ne_outOfFuel (l : Lexer) : parse l ≠ .error .outOfFuel := by
  have hsound := (sound l.fuel).expr l le_rfl
  rw [parse]
  match expr l.fuel l, hsound with
  | .ok _, _ => nofun
  | .error (.expected _), _ => nofun

/-- **What `parse` accepts**: an expression that has something behind it which is no operator,
where whatever is no operator can close a parenthesis. -/
theorem parse_eq_ok_iff (l : Lexer) (node : Node) :
    parse l = .ok node ↔
      ∃ ts l', Ahead ts l l' ∧ Derives NoOperator .expr ts node ∧ NoOperator l'.tok.kind := by
  constructor
  · intro hparse
    have hsound := (sound l.fuel).expr l le_rfl
    rw [parse] at hparse
    match expr l.fuel l, hsound, hparse with
    | .ok (node, l'), ⟨hstops, ts, hahead, hnode⟩, rfl => exact ⟨ts, l', hahead, hnode, hstops⟩
  · rintro ⟨ts, l', hahead, hnode, hstops⟩
    have hconsumes := consumes_of_derives (fun _ h => h) hnode hahead
    rw [parse, expr_of_consumes hconsumes hstops (le_refl l.fuel)]
    rfl

end Eureka.Calc

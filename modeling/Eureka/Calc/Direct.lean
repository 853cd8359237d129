import Eureka.Calc.Evaluator

/-!
# The calculator without a tree

`part3-calc-parenthesis` has the lexer and the grammar of `part4-calc-ast`, but computes the
value while it reads.  It stops at the first thing that is wrong, be it the text or a value,
where the interpreter of the tree first looks at all of the text.

* `agrees_spec`: a call of the one against the same call of the other, by induction on the
  fuel;
* `direct_agrees`: both have the same values, and the same faults on every text that parses;
* `lispfy_injective`: what `lispfy` logs says which tree it was.
-/

namespace Eureka.Calc

open Pascal (NumError atoi isDigit)

/-- How a calculation ends without a value. -/
inductive Stop
  | expected (got : Token)
  | num (value : Bytes) (e : NumError)
  | invalidBinOp (tok : Token)
  /-- an integer division by zero -/
  | panicked
  | outOfFuel
  deriving DecidableEq, Repr

/-- A fault of a value, and not of the text. -/
def Stop.IsFault : Stop → Prop
  | .expected _ | .outOfFuel => False
  | .num _ _ | .invalidBinOp _ | .panicked => True

namespace Direct

/-- The value that a call returns, and the lexer behind what has been consumed. -/
abbrev Computed := Except Stop (Int64 × Lexer)

def asInt (tok : Token) : Except Stop Int64 :=
  match atoi tok.value with
  | (n, none) => .ok n
  | (_, some e) => .error (.num tok.value e)

/-- The assignment in the loop of `consumeTerm`. -/
def mulDiv (kind : Kind) (result term : Int64) : Except Stop Int64 :=
  if kind = .tokMul then .ok (result * term)
  else if term = 0 then .error .panicked
  else .ok (result / term)

/-- The assignment in the loop of `expr`. -/
def plusMinus (kind : Kind) (result factor : Int64) : Int64 :=
  if kind = .tokPlus then result + factor else result - factor

mutual

def consumeFactor : ℕ → Lexer → Computed
  | 0, _ => .error .outOfFuel
  | fuel + 1, l =>
      if l.tok.kind = .tokInteger then do
        let n ← asInt l.tok
        return (n, l.nextToken)
      else if l.tok.kind = .tokLParen then do
        let (n, l) ← expr fuel l.nextToken
        return (n, l.nextToken)
      else .error (.expected l.tok)

def consumeTerm : ℕ → Lexer → Computed
  | 0, _ => .error .outOfFuel
  | fuel + 1, l => do
      let (result, l) ← consumeFactor fuel l
      termLoop fuel result l

/-- The loop of `consumeTerm`. -/
def termLoop : ℕ → Int64 → Lexer → Computed
  | 0, _, _ => .error .outOfFuel
  | fuel + 1, result, l =>
      if IsMulDiv l.tok.kind then do
        let (term, l') ← consumeFactor fuel l.nextToken
        let result ← mulDiv l.tok.kind result term
        termLoop fuel result l'
      else .ok (result, l)

def expr : ℕ → Lexer → Computed
  | 0, _ => .error .outOfFuel
  | fuel + 1, l => do
      let (result, l) ← consumeTerm fuel l
      exprLoop fuel result l

/-- The loop of `expr`. -/
def exprLoop : ℕ → Int64 → Lexer → Computed
  | 0, _, _ => .error .outOfFuel
  | fuel + 1, result, l =>
      if IsPlusMinus l.tok.kind then do
        let (factor, l') ← consumeTerm fuel l.nextToken
        exprLoop fuel (plusMinus l.tok.kind result factor) l'
      else .ok (result, l)

end

/-- What `main` computes of a line. -/
def compute (text : Bytes) : Except Stop Int64 :=
  (expr (newLexer text).fuel (newLexer text)).map Prod.fst

end Direct

/-! ### The values of trees -/

/-- An error of a visit without what it is wrapped in. -/
def EvalError.stop : EvalError → Stop
  | .num value e => .num value e
  | .invalidBinOp tok => .invalidBinOp tok
  | .wrap _ _ cause => cause.stop

def Failure.stop : Failure → Stop
  | .expected got => .expected got
  | .outOfFuel => .outOfFuel

def value (node : Node) : Except Stop Int64 :=
  match visit node with
  | none => .error .panicked
  | some (result, none) => .ok result
  | some (_, some e) => .error e.stop

/-- `interprete`, without the log of `lispfy`. -/
def interprete (text : Bytes) : Except Stop Int64 :=
  match parse (newParser text) with
  | .error failure => .error failure.stop
  | .ok ast => value ast

theorem isFault_stop (e : EvalError) : e.stop.IsFault := by
  induction e with
  | num _ _ | invalidBinOp _ => trivial
  | wrap _ _ _ ih => exact ih

theorem isFault_of_value {node : Node} {stop : Stop} (h : value node = .error stop) :
    stop.IsFault := by
  rw [value] at h
  split at h
  · obtain rfl := Except.error.inj h
    trivial
  · exact nomatch h
  · obtain rfl := Except.error.inj h
    exact isFault_stop _

theorem value_num (tok : Token) : value (.num tok) = Direct.asInt tok := by
  rw [value, visit, Token.asInt, Direct.asInt]
  rcases atoi tok.value with ⟨n, _ | e⟩ <;> rfl

def combine (kind : Kind) (lhs rhs : Int64) : Except Stop Int64 :=
  (binOp kind lhs rhs).elim (.error .panicked) .ok

/-- An operation: the operands from left to right, and then the operator. -/
theorem value_binOp {tok : Token} (hop : IsBinOp tok.kind) (left right : Node) :
    value (.binOp tok left right) =
      value left >>= fun lhs => value right >>= fun rhs => combine tok.kind lhs rhs := by
  simp only [value, visit, if_neg (not_not.mpr hop), combine]
  rcases visit left with _ | ⟨lhs, _ | e⟩
  · rfl
  · rcases visit right with _ | ⟨rhs, _ | e⟩
    · rfl
    · dsimp only [Except.bind, bind]
      cases binOp tok.kind lhs rhs <;> rfl
    · rfl
  · rfl

theorem mulDiv_eq {kind : Kind} (hkind : IsMulDiv kind) (lhs rhs : Int64) :
    Direct.mulDiv kind lhs rhs = combine kind lhs rhs := by
  rcases hkind with rfl | rfl
  · rfl
  · rw [Direct.mulDiv, if_neg (by decide), combine, binOp]
    split <;> rfl

theorem plusMinus_eq {kind : Kind} (hkind : IsPlusMinus kind) (lhs rhs : Int64) :
    .ok (Direct.plusMinus kind lhs rhs) = combine kind lhs rhs := by
  rcases hkind with rfl | rfl <;> rfl

/-! ### One call against the other -/

/-- What the parser returns, and what the direct calculator does: it computes the value of the tree,
and where there is no tree it stops, for the same reason or for a fault that it meets before. -/
def Agrees : Parsed → Direct.Computed → Prop
  | .ok (node, l), computed => computed = (value node).map fun result => (result, l)
  | .error failure, computed =>
      ∃ stop, computed = .error stop ∧ (stop = failure.stop ∨ stop.IsFault)

theorem agrees_bind {parsed : Parsed} {computed : Direct.Computed} {f : Node × Lexer → Parsed}
    {g : Int64 × Lexer → Direct.Computed} (h : Agrees parsed computed)
    (hnext : ∀ node l, Agrees (f (node, l)) (value node >>= fun result => g (result, l))) :
    Agrees (parsed >>= f) (computed >>= g) := by
  match parsed, h with
  | .ok (node, l), h =>
      rw [show computed = _ from h]
      have hmap : ((value node).map (fun result => (result, l)) >>= g) =
          (value node >>= fun result => g (result, l)) := by
        cases value node <;> rfl
      rw [hmap]
      exact hnext node l
  | .error failure, ⟨stop, h, hstop⟩ =>
      rw [h]
      exact ⟨stop, rfl, hstop⟩

/-- A call for the second operand.  If the first one has a fault, the second one is parsed but not
computed. -/
theorem agrees_operand {parsed : Parsed} {computed : Direct.Computed} {f : Node × Lexer → Parsed}
    {g : Int64 → Int64 × Lexer → Direct.Computed} {left : Node} (h : Agrees parsed computed)
    (hnext : ∀ right l, Agrees (f (right, l))
      (value left >>= fun lhs => value right >>= fun rhs => g lhs (rhs, l))) :
    Agrees (parsed >>= f) (value left >>= fun lhs => computed >>= g lhs) := by
  cases hvalue : value left with
  | ok lhs =>
      rw [hvalue] at hnext
      exact agrees_bind h hnext
  | error stop =>
      rw [hvalue] at hnext
      match parsed with
      | .ok (right, l) => exact hnext right l
      | .error failure => exact ⟨stop, rfl, .inr (isFault_of_value hvalue)⟩

/-- What the functions do on this fuel. -/
structure AgreesOn (fuel : ℕ) : Prop where
  factor : ∀ l, Agrees (consumeFactor fuel l) (Direct.consumeFactor fuel l)
  term : ∀ l, Agrees (consumeTerm fuel l) (Direct.consumeTerm fuel l)
  termLoop : ∀ node l,
    Agrees (termLoop fuel node l) (value node >>= fun result => Direct.termLoop fuel result l)
  expr : ∀ l, Agrees (expr fuel l) (Direct.expr fuel l)
  exprLoop : ∀ node l,
    Agrees (exprLoop fuel node l) (value node >>= fun result => Direct.exprLoop fuel result l)

section Step

variable {fuel : ℕ}

theorem agrees_return (node : Node) (l : Lexer) :
    Agrees (.ok (node, l)) (value node >>= fun result => .ok (result, l)) := by
  rw [Agrees]
  cases value node <;> rfl

theorem factor_agrees (ih : AgreesOn fuel) (l : Lexer) :
    Agrees (consumeFactor (fuel + 1) l) (Direct.consumeFactor (fuel + 1) l) := by
  rw [consumeFactor, Direct.consumeFactor]
  split
  · rw [← value_num]
    exact agrees_return (.num l.tok) l.nextToken
  split
  · refine agrees_bind (ih.expr l.nextToken) fun node l' => ?_
    exact agrees_return node l'.nextToken
  · exact ⟨_, rfl, .inl rfl⟩

theorem term_agrees (ih : AgreesOn fuel) (l : Lexer) :
    Agrees (consumeTerm (fuel + 1) l) (Direct.consumeTerm (fuel + 1) l) := by
  rw [consumeTerm, Direct.consumeTerm]
  exact agrees_bind (ih.factor l) fun node l' => ih.termLoop node l'

theorem termLoop_agrees (ih : AgreesOn fuel) (node : Node) (l : Lexer) :
    Agrees (termLoop (fuel + 1) node l)
      (value node >>= fun result => Direct.termLoop (fuel + 1) result l) := by
  simp only [termLoop, Direct.termLoop]
  split
  · next hop =>
      refine agrees_operand (ih.factor l.nextToken) fun factor l' => ?_
      have hloop := ih.termLoop (.binOp l.tok node factor) l'
      simpa only [value_binOp (.inr hop), mulDiv_eq hop, bind_assoc] using hloop
  · exact agrees_return node l

theorem expr_agrees (ih : AgreesOn fuel) (l : Lexer) :
    Agrees (expr (fuel + 1) l) (Direct.expr (fuel + 1) l) := by
  rw [expr, Direct.expr]
  exact agrees_bind (ih.term l) fun node l' => ih.exprLoop node l'

theorem exprLoop_agrees (ih : AgreesOn fuel) (node : Node) (l : Lexer) :
    Agrees (exprLoop (fuel + 1) node l)
      (value node >>= fun result => Direct.exprLoop (fuel + 1) result l) := by
  simp only [exprLoop, Direct.exprLoop]
  split
  · next hop =>
      refine agrees_operand (ih.term l.nextToken) fun term l' => ?_
      have hloop := ih.exprLoop (.binOp l.tok node term) l'
      simp only [value_binOp (.inl hop), ← plusMinus_eq hop, bind_assoc] at hloop
      exact hloop
  · exact agrees_return node l

end Step

theorem agrees_spec (fuel : ℕ) : AgreesOn fuel := by
  induction fuel with
  | zero =>
      have hloop : ∀ node l, Agrees (.error .outOfFuel)
          (value node >>= fun result => Direct.termLoop 0 result l) := by
        intro node l
        cases hvalue : value node with
        | ok result => exact ⟨_, rfl, .inl rfl⟩
        | error stop => exact ⟨stop, rfl, .inr (isFault_of_value hvalue)⟩
      exact
        { factor := fun _ => ⟨_, rfl, .inl rfl⟩
          term := fun _ => ⟨_, rfl, .inl rfl⟩
          termLoop := hloop
          expr := fun _ => ⟨_, rfl, .inl rfl⟩
          exprLoop := hloop }
  | succ fuel ih =>
      exact
        { factor := factor_agrees ih
          term := term_agrees ih
          termLoop := termLoop_agrees ih
          expr := expr_agrees ih
          exprLoop := exprLoop_agrees ih }

/-! ### The whole text -/

/-- **The direct calculator against the tree.**  Both compute the same values of the same texts.  On
a text that parses they also have the same faults; on one that does not parse the direct calculator
stops too, for the same reason or for a fault of a value before it. -/
theorem direct_agrees (text : Bytes) :
    (∀ result, Direct.compute text = .ok result ↔ interprete text = .ok result) ∧
      (∀ ast, parse (newParser text) = .ok ast → Direct.compute text = value ast) ∧
      (∀ failure, parse (newParser text) = .error failure →
        ∃ stop, Direct.compute text = .error stop ∧ (stop = failure.stop ∨ stop.IsFault)) ∧
      Direct.compute text ≠ .error .outOfFuel := by
  have hagrees := (agrees_spec (newLexer text).fuel).expr (newLexer text)
  have hfuel := parse_ne_outOfFuel (newParser text)
  have hparse : parse (newParser text) =
      (expr (newLexer text).fuel (newLexer text)).map Prod.fst := rfl
  rw [hparse] at hfuel
  simp only [interprete, hparse]
  match hexpr : expr (newLexer text).fuel (newLexer text), hagrees with
  | .ok (ast, l), h =>
      have hcompute : Direct.compute text = value ast := by
        rw [Direct.compute, show Direct.expr _ _ = _ from h]
        cases value ast <;> rfl
      refine ⟨fun result => by rw [hcompute]; rfl, ?_, nofun, ?_⟩
      · rintro _ ⟨⟩
        exact hcompute
      · rw [hcompute]
        exact fun h => isFault_of_value h
  | .error failure, ⟨stop, h, hstop⟩ =>
      have hcompute : Direct.compute text = .error stop := by
        rw [Direct.compute, h]
        rfl
      rw [hexpr] at hfuel
      refine ⟨fun result => ?_, nofun, ?_, ?_⟩
      · rw [hcompute]
        exact iff_of_false nofun nofun
      · rintro _ ⟨⟩
        exact ⟨stop, hcompute, hstop⟩
      · rw [hcompute]
        intro hout
        obtain rfl := Except.error.inj hout
        rcases hstop with hstop | hfault
        · cases failure with
          | expected got => exact nomatch hstop
          | outOfFuel => exact hfuel rfl
        · exact hfault

/-- One divides before the other has seen that the text ends too early. -/
example : Direct.compute (ascii "1/0+") = .error .panicked ∧
    interprete (ascii "1/0+") = .error (.expected ⟨.tokEOF, []⟩) := by decide

/-! ### The log of the tree -/

/-- The visits of `lispfy`, by the log in front of them. -/
def lispfy (log : Bytes) : Node → Bytes
  | .num tok => tok.value
  | .binOp tok left right =>
      let lhs := lispfy log left
      let rhs := lispfy lhs right
      40 :: tok.value ++ 32 :: lhs ++ 32 :: rhs ++ [41]

theorem lispfy_log (log log' : Bytes) (node : Node) : lispfy log node = lispfy log' node := by
  induction node generalizing log log' with
  | num tok => rfl
  | binOp tok left right ihl ihr =>
      simp only [lispfy]
      rw [ihl log log', ihr (lispfy log' left) (lispfy log' left)]

/-- The token is as the lexer makes it. -/
def Token.Lexed (tok : Token) : Prop := ∃ text, tok = (scan text).1

theorem lexed_of_ahead {ts : List Token} {l l' : Lexer} (hlexed : l.tok.Lexed)
    (h : Ahead ts l l') : ∀ tok ∈ ts, tok.Lexed := by
  induction ts generalizing l with
  | nil => exact nofun
  | cons tok ts ih =>
      obtain ⟨rfl, hrest⟩ := h
      exact List.forall_mem_cons.mpr ⟨hlexed, ih ⟨l.rest, rfl⟩ hrest⟩

/-- The text of a token, by its kind. -/
def Token.Texted (tok : Token) : Prop :=
  (tok.kind = .tokInteger → tok.value ≠ [] ∧ ∀ ch ∈ tok.value, isDigit ch) ∧
    (IsBinOp tok.kind → ∃ ch, symbolKind ch = some tok.kind ∧ tok.value = [ch])

theorem not_isBinOp_integer : ¬ IsBinOp .tokInteger := by decide

theorem not_isBinOp_unknown : ¬ IsBinOp .tokUnknown := by decide

theorem texted_of_lexed {tok : Token} (h : tok.Lexed) : tok.Texted := by
  obtain ⟨text, rfl⟩ := h
  induction text with
  | nil => exact ⟨nofun, by decide⟩
  | cons ch rest ih =>
      rw [scan]
      split
      · exact ih
      split
      · next hdigit =>
          refine ⟨fun _ => ⟨?_, ?_⟩, fun hop => absurd hop not_isBinOp_integer⟩
          · rw [List.takeWhile_cons_of_pos hdigit]
            exact List.cons_ne_nil _ _
          · intro other hother
            exact List.mem_takeWhile_imp hother
      split
      · next kind hkind =>
          exact ⟨fun heq => absurd heq (symbolKind_spec hkind).2.2.1, fun _ => ⟨ch, hkind, rfl⟩⟩
      · exact ⟨fun hkind => Kind.noConfusion hkind, fun hop => absurd hop not_isBinOp_unknown⟩

/-- The numbers and operators of a tree are tokens of the lexer. -/
def Node.Texted : Node → Prop
  | .num tok => tok.kind = .tokInteger ∧ tok.Texted
  | .binOp tok left right => IsBinOp tok.kind ∧ tok.Texted ∧ left.Texted ∧ right.Texted

theorem texted_of_derives {closing : Kind → Prop} {x : NonTerminal} {ts : List Token} {node : Node}
    (h : Derives closing x ts node) (hts : ∀ tok ∈ ts, tok.Texted) : node.Texted := by
  induction h with
  | integer hkind => exact ⟨hkind, hts _ List.mem_cons_self⟩
  | paren _ _ _ ih =>
      rw [List.forall_mem_cons, List.forall_mem_append] at hts
      exact ih hts.2.1
  | termFactor _ ih => exact ih hts
  | termMore _ hop _ ihl ihr =>
      rw [List.forall_mem_append, List.forall_mem_cons] at hts
      exact ⟨.inr hop, hts.2.1, ihl hts.1, ihr hts.2.2⟩
  | exprTerm _ ih => exact ih hts
  | exprMore _ hop _ ihl ihr =>
      rw [List.forall_mem_append, List.forall_mem_cons] at hts
      exact ⟨.inl hop, hts.2.1, ihl hts.1, ihr hts.2.2⟩

theorem texted_of_parse {text : Bytes} {node : Node} (h : parse (newParser text) = .ok node) :
    node.Texted := by
  obtain ⟨ts, l, hahead, hderives, -⟩ := (parse_eq_ok_iff _ _).mp h
  refine texted_of_derives hderives fun tok htok => texted_of_lexed ?_
  exact lexed_of_ahead ⟨text, rfl⟩ hahead tok htok

theorem digits_unique {digits digits' rest rest' : Bytes} (hdigits : ∀ ch ∈ digits, isDigit ch)
    (hdigits' : ∀ ch ∈ digits', isDigit ch) (hrest : ∀ ch ∈ rest.head?, ¬ isDigit ch)
    (hrest' : ∀ ch ∈ rest'.head?, ¬ isDigit ch) (h : digits ++ rest = digits' ++ rest') :
    digits = digits' ∧ rest = rest' := by
  have htake := congrArg (List.takeWhile isDigit) h
  rw [List.takeWhile_append_of_pos hdigits, List.takeWhile_append_of_pos hdigits',
    (takeWhile_of_head hrest).1, (takeWhile_of_head hrest').1, List.append_nil,
    List.append_nil] at htake
  subst htake
  exact ⟨rfl, List.append_cancel_left h⟩

theorem num_ne_binOp {tok op : Token} (hkind : tok.kind = .tokInteger) (htok : tok.Texted)
    (left right : Node) (rest rest' : Bytes) :
    lispfy [] (.num tok) ++ rest ≠ lispfy [] (.binOp op left right) ++ rest' := by
  intro h
  obtain ⟨hne, hdigits⟩ := htok.1 hkind
  obtain ⟨ch, others, hvalue⟩ := List.exists_cons_of_ne_nil hne
  simp only [lispfy, hvalue, List.cons_append, List.cons.injEq] at h
  have hdigit : isDigit ch := hdigits ch (hvalue ▸ List.mem_cons_self)
  rw [h.1] at hdigit
  exact absurd hdigit (by decide)

/-- A log ends where no digit follows, and says its tree.  By induction on the tree. -/
theorem lispfy_unique {node node' : Node} (hnode : node.Texted) (hnode' : node'.Texted)
    {rest rest' : Bytes} (hrest : ∀ ch ∈ rest.head?, ¬ isDigit ch)
    (hrest' : ∀ ch ∈ rest'.head?, ¬ isDigit ch)
    (h : lispfy [] node ++ rest = lispfy [] node' ++ rest') : node = node' ∧ rest = rest' := by
  induction node generalizing node' rest rest' with
  | num tok =>
      obtain ⟨hkind, htok⟩ := hnode
      cases node' with
      | num tok' =>
          obtain ⟨hkind', htok'⟩ := hnode'
          obtain ⟨hvalue, hrest⟩ :=
            digits_unique (htok.1 hkind).2 (htok'.1 hkind').2 hrest hrest' h
          have heq : tok = tok' := by
            cases tok
            cases tok'
            simp_all
          exact ⟨heq ▸ rfl, hrest⟩
      | binOp op left right => exact absurd h (num_ne_binOp hkind htok left right rest rest')
  | binOp op left right ihl ihr =>
      obtain ⟨hop, htok, hleft, hright⟩ := hnode
      cases node' with
      | num tok' =>
          obtain ⟨hkind', htok'⟩ := hnode'
          exact absurd h.symm (num_ne_binOp hkind' htok' left right rest' rest)
      | binOp op' left' right' =>
          obtain ⟨hop', htok', hleft', hright'⟩ := hnode'
          obtain ⟨ch, hch, hvalue⟩ := htok.2 hop
          obtain ⟨ch', hch', hvalue'⟩ := htok'.2 hop'
          simp only [lispfy, hvalue, hvalue', lispfy_log _ [], List.cons_append, List.nil_append,
            List.append_assoc, List.cons.injEq, true_and] at h
          obtain ⟨rfl, h⟩ := h
          have hsep : ∀ {sep : Byte} (others : Bytes), isDigit sep = false →
              ∀ ch ∈ (sep :: others).head?, ¬ isDigit ch := by
            intro sep others hsep ch hch
            obtain rfl : sep = ch := by simpa using hch
            simp [hsep]
          obtain ⟨hl, h⟩ := ihl hleft hleft' (hsep _ rfl) (hsep _ rfl) h
          obtain ⟨hr, h⟩ := ihr hright hright' (hsep _ rfl) (hsep _ rfl) (List.cons.inj h).2
          have heq : op = op' := by
            cases op
            cases op'
            simp_all
          exact ⟨by rw [heq, hl, hr], (List.cons.inj h).2⟩

/-- **The log says the tree.**  Two texts for which `lispfy` logs the same have the same tree. -/
theorem lispfy_injective {text text' : Bytes} {ast ast' : Node}
    (hast : parse (newParser text) = .ok ast) (hast' : parse (newParser text') = .ok ast')
    (hlog : lispfy [] ast = lispfy [] ast') : ast = ast' := by
  have hends : lispfy [] ast ++ [] = lispfy [] ast' ++ [] := by rw [hlog]
  have hnil : ∀ ch ∈ ([] : Bytes).head?, ¬ isDigit ch := by simp
  exact (lispfy_unique (texted_of_parse hast) (texted_of_parse hast') hnil hnil hends).1

/-- `1 + 2*3` with and without parentheses. -/
theorem lispfy_injective_parentheses :
    ∃ ast ast', parse (newParser (ascii "1 + 2*3")) = .ok ast ∧
      parse (newParser (ascii "(1) + (2*3)")) = .ok ast' ∧
      lispfy [] ast = ascii "(+ 1 (* 2 3))" ∧ ast = ast' := by
  let num (digit : Byte) : Node := .num ⟨.tokInteger, [digit]⟩
  let sum : Node := .binOp ⟨.tokPlus, [43]⟩ (num 49) (.binOp ⟨.tokMul, [42]⟩ (num 50) (num 51))
  have hast : parse (newParser (ascii "1 + 2*3")) = .ok sum := by decide
  have hast' : parse (newParser (ascii "(1) + (2*3)")) = .ok sum := by decide
  exact ⟨sum, sum, hast, hast', by decide, lispfy_injective hast hast' rfl⟩

end Eureka.Calc

import Eureka.Calc.Grammar
import Eureka.Pascal.Semantics

/-!
# The evaluator of the calculator

The evaluator visits the syntax tree.  Its numbers are 64-bit integers that wrap
around, and a division by zero is a run-time panic.  The expressions are the
part of the Pascal interpreter's without variables and signs, so its semantics
says what they come to (`visit_delivers`).
-/

namespace Eureka.Calc

open BigStep WrappingArithmetic
open Pascal (Expression Fault IsDecimal NumError atoi meaning)

inductive EvalError
  | num (value : Bytes) (e : NumError)
  | invalidBinOp (tok : Token)
  | wrap (op : Bytes) (child : String) (cause : EvalError)
  deriving DecidableEq, Repr

def Token.asInt (tok : Token) : Int64 × Option EvalError :=
  ((atoi tok.value).1, (atoi tok.value).2.map (.num tok.value))

def IsBinOp (kind : Kind) : Prop := IsPlusMinus kind ∨ IsMulDiv kind

instance (kind : Kind) : Decidable (IsBinOp kind) := inferInstanceAs (Decidable (_ ∨ _))

/-- The operators of `visitBinOp`.  An integer division by zero panics. -/
def binOp (kind : Kind) (lhs rhs : Int64) : Option Int64 :=
  match kind with
  | .tokPlus => some (lhs + rhs)
  | .tokMinus => some (lhs - rhs)
  | .tokMul => some (lhs * rhs)
  | .tokDiv => if rhs = 0 then none else some (lhs / rhs)
  | _ => some 0

/-- `doVisit`, with the visits of the evaluator.  It is `none` when the visit panics. -/
def visit : Node → Option (Int64 × Option EvalError)
  | .num tok => some tok.asInt
  | .binOp tok left right =>
      if ¬ IsBinOp tok.kind then some (0, some (.invalidBinOp tok))
      else
        match visit left with
        | none => none
        | some (_, some e) => some (0, some (.wrap tok.value "left" e))
        | some (lhs, none) =>
            match visit right with
            | none => none
            | some (_, some e) => some (0, some (.wrap tok.value "right" e))
            | some (rhs, none) => (binOp tok.kind lhs rhs).map fun result => (result, none)

/-! ## The expressions -/

def Kind.operator : Kind → Option Operator
  | .tokPlus => some .add
  | .tokMinus => some .sub
  | .tokMul => some .mul
  | .tokDiv => some .div
  | _ => none

/-- The expression that the tree is. -/
def Node.expr : Node → Option Expression
  | .num tok => if IsDecimal tok.value then some (.literal tok.value) else none
  | .binOp tok left right => do
      let o ← tok.kind.operator
      return .binary o (← left.expr) (← right.expr)

theorem exists_operator {kind : Kind} (hkind : IsBinOp kind) : ∃ o, kind.operator = some o := by
  rcases hkind with (rfl | rfl) | (rfl | rfl) <;> exact ⟨_, rfl⟩

theorem isBinOp_of_operator {kind : Kind} {o : Operator} (h : kind.operator = some o) :
    IsBinOp kind := by
  cases kind with
  | tokPlus => exact .inl (.inl rfl)
  | tokMinus => exact .inl (.inr rfl)
  | tokMul => exact .inr (.inl rfl)
  | tokDiv => exact .inr (.inr rfl)
  | _ => cases h

theorem binOp_expr {op : Token} {left right : Node} (hop : IsBinOp op.kind)
    (hleft : ∃ e, left.expr = some e) (hright : ∃ e, right.expr = some e) :
    ∃ e, (Node.binOp op left right).expr = some e := by
  obtain ⟨o, ho⟩ := exists_operator hop
  obtain ⟨e, he⟩ := hleft
  obtain ⟨e', he'⟩ := hright
  refine ⟨.binary o e e', ?_⟩
  rw [Node.expr, ho, he, he']
  rfl

def Token.Decimal (tok : Token) : Prop := tok.kind = .tokInteger → IsDecimal tok.value

theorem decimal_of_spells {text : Bytes} {ts : List Token} (h : Spells text ts) :
    ∀ tok ∈ ts, tok.Decimal := by
  induction h with
  | nil => nofun
  | space _ _ ih => exact ih
  | integer hne hdigits _ _ ih => exact List.forall_mem_cons.mpr ⟨fun _ => ⟨hne, hdigits⟩, ih⟩
  | symbol hkind _ ih =>
      exact List.forall_mem_cons.mpr ⟨fun heq => absurd heq (symbolKind_spec hkind).2.2.1, ih⟩

theorem expr_of_derives {closing : Kind → Prop} {x : NonTerminal} {ts : List Token} {node : Node}
    (h : Derives closing x ts node) (hdecimal : ∀ tok ∈ ts, tok.Decimal) :
    ∃ e, node.expr = some e := by
  induction h with
  | @integer tok hkind =>
      have htok : IsDecimal tok.value := hdecimal tok List.mem_cons_self hkind
      exact ⟨.literal tok.value, if_pos htok⟩
  | paren _ _ _ ih =>
      rw [List.forall_mem_cons, List.forall_mem_append] at hdecimal
      exact ih hdecimal.2.1
  | termFactor _ ih => exact ih hdecimal
  | termMore _ hop _ ihl ihr =>
      rw [List.forall_mem_append, List.forall_mem_cons] at hdecimal
      exact binOp_expr (.inr hop) (ihl hdecimal.1) (ihr hdecimal.2.2)
  | exprTerm _ ih => exact ih hdecimal
  | exprMore _ hop _ ihl ihr =>
      rw [List.forall_mem_append, List.forall_mem_cons] at hdecimal
      exact binOp_expr (.inl hop) (ihl hdecimal.1) (ihr hdecimal.2.2)

/-! ## The visits follow the semantics -/

/-- What an expression without variables comes to. -/
def outcome (e : Expression) : Except Fault Int64 := meaning.eval (fun _ => none) e

def EvalError.fault : EvalError → Option Fault
  | .num digits .errRange => some (.outOfRange digits)
  | .wrap _ _ cause => cause.fault
  | _ => none

/-- A visit comes to this outcome. -/
def Delivers (outcome : Except Fault Int64) : Option (Int64 × Option EvalError) → Prop
  | none => outcome = .error .divisionByZero
  | some (value, none) => outcome = .ok value
  | some (_, some e) => ∃ fault, e.fault = some fault ∧ outcome = .error fault

theorem literal_delivers {tok : Token} (h : IsDecimal tok.value) :
    Delivers (meaning.literal tok.value) (some tok.asInt) := by
  rw [Token.asInt, Pascal.atoi_of_isDecimal h, meaning]
  dsimp only
  cases literal tok.value with
  | some value => rfl
  | none => exact ⟨.outOfRange tok.value, rfl, rfl⟩

theorem binOp_eq_apply {kind : Kind} {o : Operator} (h : kind.operator = some o)
    (lhs rhs : Int64) : binOp kind lhs rhs = o.apply lhs rhs := by
  cases kind with
  | tokPlus => cases h; exact (Operator.apply_add lhs rhs).symm
  | tokMinus => cases h; exact (Operator.apply_sub lhs rhs).symm
  | tokMul => cases h; exact (Operator.apply_mul lhs rhs).symm
  | tokDiv => cases h; exact (Operator.apply_div lhs rhs).symm
  | _ => cases h

theorem operator_delivers (o : Operator) (lhs rhs : Int64) :
    Delivers (meaning.binary o lhs rhs)
      ((o.apply lhs rhs).map fun result => (result, none)) := by
  rw [meaning]
  dsimp only
  cases o.apply lhs rhs with
  | some result => rfl
  | none => rfl

/-- By induction on the tree. -/
theorem visit_delivers {node : Node} {e : Expression} (hexpr : node.expr = some e) :
    Delivers (outcome e) (visit node) := by
  induction node generalizing e with
  | num tok =>
      rw [Node.expr] at hexpr
      split at hexpr
      · next hdecimal =>
          cases hexpr
          exact literal_delivers hdecimal
      · cases hexpr
  | binOp tok left right ihl ihr =>
      simp only [Node.expr, Option.bind_eq_bind, Option.bind_eq_some_iff] at hexpr
      obtain ⟨o, ho, el, hel, er, her, heq⟩ := hexpr
      cases heq
      rw [visit, if_neg (not_not.mpr (isBinOp_of_operator ho)), outcome, Meaning.eval]
      -- the operands from left to right, as in the semantics
      have hleft := ihl hel
      generalize visit left = found at hleft ⊢
      rcases found with _ | ⟨lhs, _ | err⟩
      · exact congrArg (· >>= _) hleft
      · have hright := ihr her
        dsimp only
        rw [show meaning.eval _ el = .ok lhs from hleft]
        generalize visit right = found at hright ⊢
        rcases found with _ | ⟨rhs, _ | err⟩
        · exact congrArg (· >>= _) hright
        · dsimp only
          rw [show meaning.eval _ er = .ok rhs from hright, binOp_eq_apply ho]
          exact operator_delivers o lhs rhs
        · obtain ⟨fault, hfault, hright⟩ := hright
          exact ⟨fault, hfault, congrArg (· >>= _) hright⟩
      · obtain ⟨fault, hfault, hleft⟩ := hleft
        exact ⟨fault, hfault, congrArg (· >>= _) hleft⟩

end Eureka.Calc

/-!
## What the calculator accepts

An expression is a text whose tokens, spaces and tabs aside, are derived by the
grammar of the comment.  The parser accepts every expression and returns the
tree whose operators associate to the left (`parse_of_isExpression`), and the
evaluator gives it its value (`visit_eq_iff_hasValue`).

It also accepts texts that are none: it looks neither at the token that it
passes for a closing parenthesis nor at what is behind the expression.
`ReadLoosely` says which texts it accepts, and `meetsGrammar_iff` that it is
right about all others and about the expressions.
-/

namespace Eureka.Calc

open BigStep
open Pascal (Expression IsDecimal meaning)

/-! ## Expressions and their values -/

/-- The whole text is an expression of the grammar, and this is its tree. -/
def IsExpression (text : Bytes) (tree : Node) : Prop :=
  ∃ ts, Spells text ts ∧ Derives IsRParen .expr ts tree

/-- The value of an expression, on wrapping 64-bit integers.  An expression with a literal out of
their range has none. -/
def HasValue (text : Bytes) (value : Int64) : Prop :=
  ∃ tree e, IsExpression text tree ∧ tree.expr = some e ∧
    meaning.Evaluates (fun _ => none) e (.ok value)

/-- The parser accepts the text exactly if it is an expression, and the tree then evaluates to
its value. -/
def MeetsGrammar (text : Bytes) : Prop :=
  ((∃ tree, parse (newParser text) = .ok tree) ↔ ∃ tree, IsExpression text tree) ∧
    ∀ tree, parse (newParser text) = .ok tree →
      ∀ value, visit tree = some (value, none) ↔ HasValue text value

/-- A beginning of what the lexer delivers, with something behind it that is no operator, is an
expression where everything that is no operator can stand for a closing parenthesis. -/
def ReadLoosely (text : Bytes) : Prop :=
  ∃ ts l tree, Ahead ts (newLexer text) l ∧ Derives NoOperator .expr ts tree ∧
    NoOperator l.tok.kind

theorem parse_of_isExpression {text : Bytes} {tree : Node} (h : IsExpression text tree) :
    parse (newParser text) = .ok tree := by
  obtain ⟨ts, hspells, hderives⟩ := h
  obtain ⟨-, l, hahead, heof⟩ := spells_iff.mp hspells
  have hloose := hderives.mono fun _ => noOperator_of_isRParen
  have hend : NoOperator l.tok.kind := heof ▸ noOperator_eof
  exact (parse_eq_ok_iff _ _).mpr ⟨ts, l, hahead, hloose, hend⟩

theorem parse_iff_readLoosely (text : Bytes) :
    (∃ tree, parse (newParser text) = .ok tree) ↔ ReadLoosely text := by
  simp only [parse_eq_ok_iff, ReadLoosely, newParser]
  constructor
  · rintro ⟨tree, ts, l, h⟩
    exact ⟨ts, l, tree, h⟩
  · rintro ⟨ts, l, tree, h⟩
    exact ⟨tree, ts, l, h⟩

theorem isExpression_unique {text : Bytes} {tree tree' : Node} (h : IsExpression text tree)
    (h' : IsExpression text tree') : tree = tree' :=
  Except.ok.inj ((parse_of_isExpression h).symm.trans (parse_of_isExpression h'))

theorem visit_eq_iff_hasValue {text : Bytes} {tree : Node} (h : IsExpression text tree)
    (value : Int64) : visit tree = some (value, none) ↔ HasValue text value := by
  obtain ⟨ts, hspells, hderives⟩ := id h
  obtain ⟨e, he⟩ := expr_of_derives hderives (decimal_of_spells hspells)
  have hdelivers := visit_delivers he
  constructor
  · intro hvisit
    rw [hvisit] at hdelivers
    exact ⟨tree, e, h, he, Meaning.evaluates_iff.mpr hdelivers⟩
  · rintro ⟨tree', e', htree', he', hvalue⟩
    obtain rfl := isExpression_unique h htree'
    rw [he] at he'
    obtain rfl := Option.some.inj he'
    have houtcome : outcome e = .ok value := Meaning.evaluates_iff.mp hvalue
    rw [houtcome] at hdelivers
    match visit tree, hdelivers with
    | some (_, none), rfl => rfl

/-! ## When the parser is right -/

/-- **The calculator meets its grammar exactly** on the expressions and on what cannot be read
even loosely. -/
theorem meetsGrammar_iff (text : Bytes) :
    MeetsGrammar text ↔ (∃ tree, IsExpression text tree) ∨ ¬ ReadLoosely text := by
  constructor
  · rintro ⟨haccepts, -⟩
    by_cases hloose : ReadLoosely text
    · exact .inl (haccepts.mp ((parse_iff_readLoosely text).mpr hloose))
    · exact .inr hloose
  · rintro (⟨tree, htree⟩ | hloose)
    · have hparse := parse_of_isExpression htree
      refine ⟨iff_of_true ⟨tree, hparse⟩ ⟨tree, htree⟩, fun tree' hparse' value => ?_⟩
      obtain rfl := Except.ok.inj (hparse.symm.trans hparse')
      exact visit_eq_iff_hasValue htree value
    · rw [← parse_iff_readLoosely] at hloose
      have hnone : ¬ ∃ tree, IsExpression text tree :=
        fun ⟨tree, htree⟩ => hloose ⟨tree, parse_of_isExpression htree⟩
      exact ⟨iff_of_false hloose hnone, fun tree hparse => absurd ⟨tree, hparse⟩ hloose⟩

/-- `1 2` is accepted. -/
theorem accepts_surplus : ¬ ∀ text, MeetsGrammar text := by
  intro h
  have hparse : parse (newParser (ascii "1 2")) = .ok (.num ⟨.tokInteger, ascii "1"⟩) := by
    decide
  obtain ⟨tree, ts, hspells, hderives⟩ := (h (ascii "1 2")).1.mp ⟨_, hparse⟩
  obtain ⟨-, l, hahead, heof⟩ := spells_iff.mp hspells
  have hend : NoOperator l.tok.kind := heof ▸ noOperator_eof
  -- if the text were an expression, the parser would stop at its end
  have hconsumes := consumes_of_derives (fun _ => noOperator_of_isRParen) hderives hahead
  have hexpr := expr_of_consumes hconsumes hend (le_refl (newLexer (ascii "1 2")).fuel)
  -- the parser stops in front of the second number
  have hrest : (expr (newLexer (ascii "1 2")).fuel (newLexer (ascii "1 2"))).map
      (fun result => result.2.tok.kind) = .ok .tokInteger := by decide
  rw [hexpr] at hrest
  have hkind : l.tok.kind = .tokInteger := Except.ok.inj hrest
  rw [heof] at hkind
  cases hkind

/-- `(1` is accepted as well, and so is `(1 2`. -/
example : parse (newParser (ascii "(1")) = .ok (.num ⟨.tokInteger, ascii "1"⟩) ∧
    parse (newParser (ascii "(1 2")) = .ok (.num ⟨.tokInteger, ascii "1"⟩) := by decide

end Eureka.Calc

import Eureka.Library.Precedence
import Mathlib

/-!
# The arithmetic of the two expression programs

Both programs compute with the four operators in a function `Calculate`, which
is the same in both.  `store` stands for what an `int` makes of an exact result:
`intResult` keeps the results that an `int` holds, and there is no result where
the signed arithmetic overflows.
-/

namespace Eureka.Expression

def intMin : Int := -2 ^ 31

def intMax : Int := 2 ^ 31 - 1

def intResult (n : Int) : Option Int := if intMin ≤ n ∧ n ≤ intMax then some n else none

/-- `Calculate`.  It is `none` when the result is undefined or the assertion fails. -/
def calculate (store : Int → Option Int) (num num2 : Int) (op : Char) : Option Int := do
  let ret ← match op with
    | '+' => store (num + num2)
    | '-' => store (num - num2)
    | '*' => store (num * num2)
    | '/' => if num2 = 0 then none else store (num.tdiv num2)
    | _ => some intMin
  if ret ≠ intMin then some ret else none

/-! ## The usual meaning -/

inductive Op
  | add
  | sub
  | mul
  | div
  deriving DecidableEq, Repr

namespace Op

def char : Op → Char
  | add => '+'
  | sub => '-'
  | mul => '*'
  | div => '/'

def priority : Op → ℕ
  | add => 1
  | sub => 1
  | mul => 2
  | div => 2

def eval : Op → Int → Int → Int
  | add, a, b => a + b
  | sub, a, b => a - b
  | mul, a, b => a * b
  | div, a, b => a.tdiv b

end Op

section Meaning

variable {α : Type} (store : Int → Option Int) (operand : α → Int)

/-- The value of an expression, in exact integers. -/
def value : Infix α Op → Int
  | .operand a => operand a
  | .paren e => value e
  | .bin o l r => o.eval (value l) (value r)

/-- An operation that has an exact result which is not `INT_MIN`. -/
def RegularAt (o : Op) (a b : Int) : Prop :=
  (o = .div → b ≠ 0) ∧ store (o.eval a b) = some (o.eval a b) ∧ o.eval a b ≠ intMin

instance (o : Op) (a b : Int) : Decidable (RegularAt store o a b) :=
  inferInstanceAs (Decidable (_ ∧ _))

/-- No operation of the expression divides by zero, and all have exact results which are not
`INT_MIN`. -/
def Regular : Infix α Op → Prop
  | .operand _ => True
  | .paren e => Regular e
  | .bin o l r =>
      Regular l ∧ Regular r ∧ RegularAt store o (value operand l) (value operand r)

instance decidableRegular : (e : Infix α Op) → Decidable (Regular store operand e)
  | .operand _ => inferInstanceAs (Decidable True)
  | .paren e => decidableRegular e
  | .bin _ l r =>
      have := decidableRegular l
      have := decidableRegular r
      inferInstanceAs (Decidable (_ ∧ _ ∧ _))

variable {store}

theorem calculate_of_regularAt {o : Op} {a b : Int} (h : RegularAt store o a b) :
    calculate store a b o.char = some (o.eval a b) := by
  obtain ⟨hdiv, hstore, hmin⟩ := h
  have hret : (some (o.eval a b) >>= fun ret => if ret ≠ intMin then some ret else none) =
      some (o.eval a b) := if_pos hmin
  cases o with
  | add => rw [← hret, ← hstore]; rfl
  | sub => rw [← hret, ← hstore]; rfl
  | mul => rw [← hret, ← hstore]; rfl
  | div =>
      rw [← hret, ← hstore]
      show calculate store a b '/' = _
      rw [calculate, if_neg (hdiv rfl)]
      rfl

end Meaning

/-! ## The text of an expression -/

/-- The text of an expression, with these texts for its operands. -/
def text {α : Type} (operand : α → List Char) : Infix α Op → List Char :=
  Infix.render operand Op.char '(' ')'

def digitChar (d : Fin 10) : Char := Char.ofNat (48 + d)

/-- Both programs tell a digit by comparison with `'0'` and `'9'`. -/
def isDigit (p : Char) : Bool := '0' ≤ p && p ≤ '9'

theorem isDigit_digitChar : ∀ d : Fin 10, isDigit (digitChar d) := by decide

theorem toNat_digitChar : ∀ d : Fin 10, (digitChar d).toNat - 48 = d := by decide

theorem not_isDigit_char (o : Op) : ¬ isDigit o.char := by cases o <;> decide

/-- The entries of the operator stacks: operators, and parentheses that are open. -/
def stackChar : Option Op → Char
  | none => '('
  | some o => o.char

theorem char_ne_lparen (o : Op) : o.char ≠ '(' := by cases o <;> decide

theorem char_ne_rparen (o : Op) : o.char ≠ ')' := by cases o <;> decide

/-! ## Loops over a text -/

section Loops

variable {σ : Type} {step : σ → Char → Option σ} {state state' : σ}

theorem foldlM_cons_of_step {p : Char} (hstep : step state p = some state') (rest : List Char) :
    (p :: rest).foldlM step state = rest.foldlM step state' := by
  rw [List.foldlM_cons, hstep]
  rfl

theorem foldlM_append_of_run {expression : List Char}
    (hrun : expression.foldlM step state = some state') (rest : List Char) :
    (expression ++ rest).foldlM step state = rest.foldlM step state' := by
  rw [List.foldlM_append, hrun]
  rfl

end Loops

end Eureka.Expression

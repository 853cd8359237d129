import Eureka.Expression.Calculator

/-!
# What the calculator computes

Between two rounds the calculator offers a number to the next operator
(`Offers`): the one that waits in `data`, or the one on top of the stack.  With
it the numbers and the operators are those of an operator stack, and
`reads` follows an expression through both: behind an expression the stacks
reach its value.  The one obstacle is a `-` behind a closing parenthesis, which
the calculator does not take for an operator.
-/

namespace Eureka.Expression

/-- The calculator when an operand comes next. -/
def atOperand (oprand : List Int) (ops : List (Option Op)) : Calculator :=
  ⟨oprand, ops.map stackChar, true, .empty⟩

/-- The calculator behind an operand: an operator takes this number, above these stacks. -/
def Offers (state : Calculator) (num : Int) (oprand : List Int) (ops : List (Option Op)) : Prop :=
  takeNumber { state with isNumbericMode := true } = some (num, atOperand oprand ops)

section Steps

variable {state : Calculator} {num : Int} {oprand oprand' : List Int} {ops ops' : List (Option Op)}

/-- An operator, unless it is a `-` that is taken for a sign. -/
theorem step_operator {o : Op} (hoffers : Offers state num oprand ops)
    (hmode : o = .sub → state.isNumbericMode = false)
    (hreduce : calculatorStack.reduce o (num :: oprand) ops = some (oprand', ops')) :
    step state o.char = some (atOperand oprand' ops') := by
  have hsign : ¬ (o.char = '-' ∧ state.isNumbericMode) := by
    rintro ⟨hchar, hnumberic⟩
    have ho : o = .sub := by cases o <;> first | rfl | cases hchar
    rw [hmode ho] at hnumberic
    cases hnumberic
  rw [step, if_neg (not_isDigit_char o), if_neg hsign]
  dsimp only
  rw [if_neg (char_ne_lparen o), hoffers]
  dsimp only [Option.bind_eq_bind, Option.bind_some]
  rw [if_neg (char_ne_rparen o), atOperand, reduceLoop_eq, hreduce]
  rfl

theorem step_close (hoffers : Offers state num oprand ops)
    (hclose : calculatorStack.close (num :: oprand) ops = some (oprand', ops')) :
    step state ')' = some (atOperand oprand' ops') := by
  have hdigit : ¬ isDigit ')' := by decide
  have hsign : ¬ (')' = '-' ∧ state.isNumbericMode) := fun h => absurd h.1 (by decide)
  rw [step, if_neg hdigit, if_neg hsign]
  dsimp only
  rw [if_neg (by decide), hoffers]
  dsimp only [Option.bind_eq_bind, Option.bind_some]
  rw [if_pos rfl, atOperand, closeLoop_eq, hclose]
  rfl

theorem step_end (hoffers : Offers state num oprand ops)
    (hflush : calculatorStack.flush (num :: oprand) ops = some oprand') :
    step state '#' = some ⟨oprand', ['#'], true, .empty⟩ := by
  have hdigit : ¬ isDigit '#' := by decide
  have hsign : ¬ ('#' = '-' ∧ state.isNumbericMode) := fun h => absurd h.1 (by decide)
  rw [step, if_neg hdigit, if_neg hsign]
  dsimp only
  rw [if_neg (by decide), hoffers]
  dsimp only [Option.bind_eq_bind, Option.bind_some]
  rw [if_neg (by decide), atOperand, reduceLoop_end, hflush]
  rfl

/-- A literal waits in `data` behind its digits. -/
theorem run_literal (literal : Literal) (oprand : List Int) (ops : List (Option Op)) :
    ∃ state, run (atOperand oprand ops) literal.text = some state ∧
      Offers state literal.value oprand ops ∧ state.isNumbericMode = false := by
  have hlength := literal.digits_length
  have hshort : ([] : List Char).length + literal.digits.length ≤ numLen := by
    rw [List.length_nil, numLen]
    omega
  have hminus := run_minus oprand (ops.map stackChar) false literal.minus
  have hdigits := run_digits oprand (ops.map stackChar) true (not^[literal.minus] false) hshort
  refine ⟨_, by rw [Literal.text, atOperand, NumData.empty, run, foldlM_append_of_run hminus]; exact hdigits, ?_, ?_⟩
  · have hne : literal.digits.map digitChar ≠ [] := by
      rw [Ne, List.map_eq_nil_iff]
      exact literal.digits_ne_nil
    have hroom : ¬ (literal.digits.map digitChar = [] ∨
        numLen ≤ (literal.digits.map digitChar).length) := by
      rw [List.length_map, numLen]
      exact not_or.mpr ⟨hne, by omega⟩
    rw [Offers, takeNumber, List.nil_append, if_pos hne, formatNumtoInt, if_neg hroom,
      wtoi_digits]
    dsimp only
    rw [signed_iterate]
    rfl
  · simp [literal.digits_ne_nil]

end Steps

/-! ## Expressions -/

abbrev CalculatorExp := Infix Literal Op

def CalculatorExp.text (e : CalculatorExp) : List Char := Eureka.Expression.text Literal.text e

def CalculatorExp.value (e : CalculatorExp) : Int := Eureka.Expression.value Literal.value e

/-- The operations of the expression are regular on `int`. -/
def CalculatorExp.Regular (e : CalculatorExp) : Prop :=
  Eureka.Expression.Regular intResult Literal.value e

instance (e : CalculatorExp) : Decidable e.Regular :=
  decidableRegular intResult Literal.value e

/-- A `-` right behind a closing parenthesis. -/
def minusBehindParen : List Char := [')', '-']

theorem minusBehindParen_append {left right : List Char} (hclose : [')'] <:+ left) :
    minusBehindParen <:+: left ++ '-' :: right := by
  obtain ⟨init, rfl⟩ := hclose
  exact ⟨init, right, by simp [minusBehindParen]⟩

theorem applies {o : Op} {a b : Int} (h : RegularAt intResult o a b) (oprand : List Int) :
    calculatorStack.apply o (b :: a :: oprand) = some (o.eval a b :: oprand) := by
  show (calculate intResult a b o.char).map (· :: oprand) = _
  rw [calculate_of_regularAt h]
  rfl

/-- Behind an expression the stacks reach its value, by induction on the expression. -/
theorem reads {e : CalculatorExp} {n : ℕ} (hfits : e.Fits Op.priority n) (hregular : e.Regular)
    (hno : ¬ minusBehindParen <:+: e.text) (oprand : List Int) (ops : List (Option Op))
    (hbelow : calculatorStack.Below n ops) :
    ∃ state num oprand' ops', run (atOperand oprand ops) e.text = some state ∧
      Offers state num oprand' ops' ∧
      calculatorStack.Reaches n (num :: oprand') ops' (e.value :: oprand) ops ∧
      (state.isNumbericMode = true → [')'] <:+ e.text) := by
  induction e generalizing n oprand ops with
  | operand literal =>
      obtain ⟨state, hrun, hoffers, hmode⟩ := run_literal literal oprand ops
      refine ⟨state, literal.value, oprand, ops, hrun, hoffers, .refl _ _ _ _, fun h => ?_⟩
      rw [hmode] at h
      cases h
  | paren e ih =>
      have htext : CalculatorExp.text e ++ [')'] <:+ '(' :: (CalculatorExp.text e ++ [')']) := ⟨['('], rfl⟩
      have hinner : ¬ minusBehindParen <:+: CalculatorExp.text e :=
        fun h => hno ((h.trans ⟨[], [')'], rfl⟩).trans htext.isInfix)
      obtain ⟨state, num, oprand', ops', hrun, hoffers, hreaches, -⟩ :=
        ih hfits hregular hinner oprand (none :: ops) trivial
      have hopen : step (atOperand oprand ops) '(' = some (atOperand oprand (none :: ops)) := rfl
      have hclose := step_close hoffers hreaches.closed
      refine ⟨atOperand (CalculatorExp.value e :: oprand) ops, CalculatorExp.value e, oprand, ops, ?_, rfl, .refl _ _ _ _,
        fun _ => ⟨'(' :: CalculatorExp.text e, rfl⟩⟩
      show run _ ('(' :: (CalculatorExp.text e ++ [')'])) = _
      rw [run, foldlM_cons_of_step hopen, foldlM_append_of_run hrun, foldlM_cons_of_step hclose]
      rfl
  | bin o l r ihl ihr =>
      obtain ⟨hle, hl, hr⟩ := hfits
      obtain ⟨hregl, hregr, hregular⟩ := hregular
      have hnol : ¬ minusBehindParen <:+: CalculatorExp.text l :=
        fun h => hno (h.trans ⟨[], o.char :: CalculatorExp.text r, rfl⟩)
      have hnor : ¬ minusBehindParen <:+: CalculatorExp.text r :=
        fun h => hno (h.trans ⟨CalculatorExp.text l ++ [o.char], [], by
          rw [List.append_nil, List.append_assoc]
          rfl⟩)
      obtain ⟨state, num, oprand', ops', hrun, hoffers, hreaches, hmode⟩ :=
        ihl hl hregl hnol oprand ops (hbelow.mono hle)
      -- a `-` is an operator here, because the left operand does not end with a parenthesis
      have hsub : o = .sub → state.isNumbericMode = false := by
        rintro rfl
        exact Bool.eq_false_iff.mpr fun h => hno (minusBehindParen_append (hmode h))
      have hstep := step_operator hoffers hsub (hreaches.operator hbelow hle)
      obtain ⟨state', num', oprand'', ops'', hrun', hoffers', hreaches', hmode'⟩ :=
        ihr hr hregr hnor (CalculatorExp.value l :: oprand) (some o :: ops)
          (Nat.lt_succ_self o.priority)
      refine ⟨state', num', oprand'', ops'', ?_, hoffers',
        hreaches'.applied (applies hregular oprand) hle, fun h => ?_⟩
      · show run _ (CalculatorExp.text l ++ o.char :: CalculatorExp.text r) = _
        rw [run, foldlM_append_of_run hrun, foldlM_cons_of_step hstep]
        exact hrun'
      · exact (hmode' h).trans ⟨CalculatorExp.text l ++ [o.char], by
          rw [List.append_assoc]
          rfl⟩

/-- **The calculator computes the value** of every expression that has no `-` right behind a
closing parenthesis. -/
theorem evaluateExpression_eq (e : CalculatorExp) (hfits : e.Fits Op.priority 0)
    (hregular : e.Regular) (hno : ¬ minusBehindParen <:+: e.text) :
    evaluateExpression (e.text ++ ['#']) = some e.value := by
  obtain ⟨state, num, oprand, ops, hrun, hoffers, hreaches, -⟩ :=
    reads hfits hregular hno [] [] trivial
  have hend := step_end hoffers hreaches.ended
  have hall : run (atOperand [] []) (e.text ++ ['#']) = some ⟨[e.value], ['#'], true, .empty⟩ := by
    rw [run, foldlM_append_of_run hrun, foldlM_cons_of_step hend]
    rfl
  rw [evaluateExpression]
  exact congrArg (· >>= fun state => state.oprand.head?) hall

/-! ## Examples -/

def one : Literal := ⟨0, [1], by decide, by decide⟩

def two : Literal := ⟨0, [2], by decide, by decide⟩

/-- `12-(3*--4)/2`. -/
def balance : CalculatorExp :=
  .bin .sub (.operand ⟨0, [1, 2], by decide, by decide⟩)
    (.bin .div
      (.paren (.bin .mul (.operand ⟨0, [3], by decide, by decide⟩)
        (.operand ⟨2, [4], by decide, by decide⟩)))
      (.operand two))

theorem evaluateExpression_balance : evaluateExpression (balance.text ++ ['#']) = some 6 :=
  evaluateExpression_eq balance (by decide) (by decide) (by decide)

/-- `(1)-2`. -/
def difference : CalculatorExp := .bin .sub (.paren (.operand one)) (.operand two)

/-- The calculator reads `(1)-2#` as `(1)` and `-2`. -/
theorem minus_lost :
    ¬ ∀ e : CalculatorExp, e.Fits Op.priority 0 → e.Regular →
      evaluateExpression (e.text ++ ['#']) = some e.value :=
  fun h => absurd (h difference (by decide) (by decide)) (by decide)

end Eureka.Expression

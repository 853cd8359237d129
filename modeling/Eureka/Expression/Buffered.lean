import Eureka.Expression.Calculator

/-!
# The calculator with its buffer and its stacks

The calculator once more, with the buffer for the digits as it lies in memory and
with the reason why an evaluation goes wrong.  What `Calculate` makes of an
overflow or of a division by zero is left open: `compute` may go on with any number
there, or stop.

`evaluate_toOption`: with the arithmetic of `int` that stops there, this is
`evaluateExpression`.
-/

namespace Eureka.Expression.Buffered

/-- Why an evaluation goes wrong. -/
inductive Fault
  /-- A digit is written outside of `sz`. -/
  | outOfBounds
  /-- `_wtoi` gets a buffer without a null. -/
  | unterminated
  /-- An empty stack is popped, or its last element is read. -/
  | emptyStack
  /-- `Calculate` does not return, or an assertion fails. -/
  | stopped
deriving DecidableEq, Repr

/-! ## The digits -/

def null : Char := Char.ofNat 0

structure NumData where
  sz : List Char
  signal : Bool
  pos : ℕ
deriving DecidableEq, Repr

namespace NumData

def new : NumData := ⟨List.replicate numLen null, false, 0⟩

/-- `data.sz[data.pos++] = p`. -/
def push (data : NumData) (p : Char) : Except Fault NumData :=
  if data.pos < numLen then .ok { data with sz := data.sz.set data.pos p, pos := data.pos + 1 }
  else .error .outOfBounds

end NumData

def formatNumtoInt (data : NumData) : Except Fault (Int × NumData) :=
  if data.pos = 0 then .error .stopped
  else if null ∉ data.sz then .error .unterminated
  else
    let num : Int := wtoi (data.sz.takeWhile (· ≠ null))
    .ok (if data.signal then -num else num, .new)

/-! ## The evaluation -/

/-- The variables of `EvaluateExpression`; the stacks are given from their tops. -/
structure Calculator where
  oprand : List Int
  oprator : List Char
  isNumbericMode : Bool
  data : NumData
deriving DecidableEq, Repr

def Calculator.start : Calculator := ⟨[], [], true, .new⟩

def takeNumber (state : Calculator) : Except Fault (Int × Calculator) :=
  if state.data.pos ≠ 0 then do
    let (num, data) ← formatNumtoInt state.data
    return (num, { state with data := data })
  else
    match state.oprand with
    | [] => .error .emptyStack
    | num :: oprand => .ok (num, { state with oprand := oprand })

section Arithmetic

variable (compute : Int → Int → Char → Option Int)

def applyOperator (num num2 : Int) (op : Char) : Except Fault Int :=
  match compute num num2 op with
  | some num => .ok num
  | none => .error .stopped

def closeLoop : Int → List Int → List Char → Except Fault (List Int × List Char)
  | _, _, [] => .error .emptyStack
  | num, oprand, op :: oprator =>
      if op = '(' then .ok (num :: oprand, oprator)
      else
        match oprand with
        | [] => .error .emptyStack
        | num2 :: oprand => do
            let num ← applyOperator compute num2 num op
            closeLoop num oprand oprator
termination_by structural _ _ oprator => oprator

def reduceLoop (p : Char) : Int → List Int → List Char → Except Fault (List Int × List Char)
  | num, oprand, [] => .ok (num :: oprand, [p])
  | num, oprand, op :: oprator =>
      match getPriority p, getPriority op with
      | some priority, some below =>
          if priority > below then .ok (num :: oprand, p :: op :: oprator)
          else
            match oprand with
            | [] => .error .emptyStack
            | num2 :: oprand => do
                let num ← applyOperator compute num2 num op
                reduceLoop p num oprand oprator
      | _, _ => .error .stopped
termination_by structural _ _ oprator => oprator

def step (state : Calculator) (p : Char) : Except Fault Calculator :=
  if isDigit p then do
    let data ← state.data.push p
    return { state with data := data, isNumbericMode := false }
  else if p = '-' ∧ state.isNumbericMode then
    .ok { state with data := { state.data with signal := !state.data.signal } }
  else
    let state := { state with isNumbericMode := true }
    if p = '(' then .ok { state with oprator := p :: state.oprator }
    else do
      let (num, state) ← takeNumber state
      let (oprand, oprator) ←
        if p = ')' then closeLoop compute num state.oprand state.oprator
        else reduceLoop compute p num state.oprand state.oprator
      return { state with oprand := oprand, oprator := oprator }

def run (state : Calculator) (expression : List Char) : Except Fault Calculator :=
  expression.foldlM (step compute) state

def evaluateExpression (expression : List Char) : Except Fault Int := do
  let state ← run compute .start expression
  match state.oprand with
  | [] => .error .emptyStack
  | num :: _ => return num

end Arithmetic

/-! ## What is in the buffer -/

/-- These digits are in the buffer, in front of nulls only. -/
structure Written (data : NumData) (digits : List Char) : Prop where
  sz_eq : data.sz = digits ++ List.replicate (numLen - digits.length) null
  pos_eq : data.pos = digits.length
  length_le : digits.length ≤ numLen
  null_not_mem : null ∉ digits

variable {data : NumData} {digits : List Char} {p : Char}

theorem written_new : Written .new [] := ⟨rfl, rfl, Nat.zero_le _, List.not_mem_nil⟩

theorem ne_null_of_isDigit (hp : isDigit p = true) : p ≠ null := by
  rintro rfl
  cases hp

theorem Written.push (h : Written data digits) (hp : p ≠ null) (hroom : digits.length < numLen) :
    ∃ data', data.push p = .ok data' ∧ Written data' (digits ++ [p]) ∧
      data'.signal = data.signal := by
  refine ⟨_, if_pos (h.pos_eq.trans_lt hroom), ⟨?_, ?_, ?_, ?_⟩, rfl⟩
  · obtain ⟨count, hcount⟩ : ∃ count, numLen - digits.length = count + 1 :=
      Nat.exists_eq_add_one.mpr (Nat.sub_pos_of_lt hroom)
    have hrest : numLen - (digits ++ [p]).length = count := by
      rw [List.length_append, List.length_singleton]
      omega
    show data.sz.set data.pos p = _
    rw [h.sz_eq, h.pos_eq, List.set_append_right _ _ (le_refl _), Nat.sub_self, hcount, hrest,
      List.replicate_succ, List.set_cons_zero, List.append_assoc, List.singleton_append]
  · show data.pos + 1 = _
    rw [h.pos_eq, List.length_append, List.length_singleton]
  · rw [List.length_append, List.length_singleton]
    exact hroom
  · rw [List.mem_append, List.mem_singleton, not_or]
    exact ⟨h.null_not_mem, hp.symm⟩

theorem Written.push_full (h : Written data digits) (hfull : ¬ digits.length < numLen) :
    data.push p = .error .outOfBounds :=
  if_neg (h.pos_eq ▸ hfull)

/-- The null behind the digits is missing exactly if the buffer is full. -/
theorem Written.null_mem_iff (h : Written data digits) :
    null ∈ data.sz ↔ digits.length < numLen := by
  rw [h.sz_eq, List.mem_append, or_iff_right h.null_not_mem, List.mem_replicate, and_iff_left rfl]
  omega

theorem Written.format (h : Written data digits) (hne : digits ≠ [])
    (hroom : digits.length < numLen) : formatNumtoInt data =
      .ok (if data.signal then -(wtoi digits : Int) else wtoi digits, .new) := by
  have hpos : ¬ data.pos = 0 := by
    rw [h.pos_eq]
    exact (List.length_pos_of_ne_nil hne).ne'
  have hread : data.sz.takeWhile (· ≠ null) = digits := by
    obtain ⟨count, hcount⟩ : ∃ count, numLen - digits.length = count + 1 :=
      Nat.exists_eq_add_one.mpr (Nat.sub_pos_of_lt hroom)
    have hdigits : ∀ c ∈ digits, decide (c ≠ null) = true := by
      intro c hc
      exact decide_eq_true (ne_of_mem_of_not_mem hc h.null_not_mem)
    rw [h.sz_eq, List.takeWhile_append_of_pos hdigits, hcount, List.replicate_succ,
      List.takeWhile_cons_of_neg (by simp), List.append_nil]
  rw [formatNumtoInt, if_neg hpos, if_neg (not_not.mpr (h.null_mem_iff.mpr hroom)), hread]

theorem Written.format_full (h : Written data digits) (hne : digits ≠ [])
    (hfull : ¬ digits.length < numLen) : formatNumtoInt data = .error .unterminated := by
  have hpos : ¬ data.pos = 0 := by
    rw [h.pos_eq]
    exact (List.length_pos_of_ne_nil hne).ne'
  rw [formatNumtoInt, if_neg hpos, if_pos (mt h.null_mem_iff.mp hfull)]

/-! ## The calculator without faults -/

/-- The two calculators have the same digits, numbers and operators. -/
structure Related (state : Calculator) (plain : Expression.Calculator) : Prop where
  oprand : state.oprand = plain.oprand
  oprator : state.oprator = plain.oprator
  mode : state.isNumbericMode = plain.isNumbericMode
  signal : state.data.signal = plain.data.signal
  written : Written state.data plain.data.sz

/-- They go on together, or both stop. -/
def Together {α β : Type} (R : α → β → Prop) (x : Except Fault α) (y : Option β) : Prop :=
  (∃ a b, x = .ok a ∧ y = some b ∧ R a b) ∨ (∃ fault, x = .error fault) ∧ y = none

theorem Together.bind {α β γ δ : Type} {R : α → β → Prop} {S : γ → δ → Prop} {x : Except Fault α}
    {y : Option β} {f : α → Except Fault γ} {g : β → Option δ} (h : Together R x y)
    (hrest : ∀ a b, R a b → Together S (f a) (g b)) : Together S (x >>= f) (y >>= g) := by
  rcases h with ⟨a, b, rfl, rfl, hR⟩ | ⟨⟨fault, rfl⟩, rfl⟩
  · exact hrest a b hR
  · exact .inr ⟨⟨fault, rfl⟩, rfl⟩

theorem Together.toOption {α : Type} {x : Except Fault α} {y : Option α}
    (h : Together Eq x y) : x.toOption = y := by
  rcases h with ⟨a, b, rfl, rfl, rfl⟩ | ⟨⟨fault, rfl⟩, rfl⟩
  · rfl
  · rfl

variable {state : Calculator} {plain : Expression.Calculator}

theorem formatNumtoInt_together {data : NumData} {plain : Expression.NumData}
    (h : Written data plain.sz) (hsignal : data.signal = plain.signal) :
    Together (fun a b => a.1 = b.1 ∧ a.2 = .new ∧ b.2 = .empty) (formatNumtoInt data)
      (Expression.formatNumtoInt plain) := by
  rw [Expression.formatNumtoInt]
  by_cases hne : plain.sz = []
  · have hpos : data.pos = 0 := by rw [h.pos_eq, hne, List.length_nil]
    exact .inr ⟨⟨.stopped, if_pos hpos⟩, if_pos (.inl hne)⟩
  · by_cases hroom : plain.sz.length < numLen
    · refine .inl ⟨_, _, h.format hne hroom, if_neg (not_or.mpr ⟨hne, not_le.mpr hroom⟩), ?_, rfl, rfl⟩
      rw [hsignal]
    · exact .inr ⟨⟨_, h.format_full hne hroom⟩, if_pos (.inr (not_lt.mp hroom))⟩

theorem takeNumber_together (h : Related state plain) :
    Together (fun a b => a.1 = b.1 ∧ Related a.2 b.2) (takeNumber state)
      (Expression.takeNumber plain) := by
  have hpos : state.data.pos ≠ 0 ↔ plain.data.sz ≠ [] := by
    rw [h.written.pos_eq, ne_eq, List.length_eq_zero_iff]
  rw [takeNumber, Expression.takeNumber]
  by_cases hne : plain.data.sz ≠ []
  · rw [if_pos (hpos.mpr hne), if_pos hne]
    rcases formatNumtoInt_together h.written h.signal with
      ⟨a, b, ha, hb, hnum, hdata, hempty⟩ | ⟨⟨fault, hfault⟩, hnone⟩
    · refine .inl ⟨_, _, by rw [ha]; rfl, by rw [hb]; rfl, hnum,
        h.oprand, h.oprator, h.mode, ?_, ?_⟩
      · show a.2.signal = b.2.signal
        rw [hdata, hempty]
        rfl
      · show Written a.2 b.2.sz
        rw [hdata, hempty]
        exact written_new
    · exact .inr ⟨⟨fault, by rw [hfault]; rfl⟩, by rw [hnone]; rfl⟩
  · rw [if_neg (mt hpos.mp hne), if_neg hne, h.oprand]
    cases plain.oprand with
    | nil => exact .inr ⟨⟨_, rfl⟩, rfl⟩
    | cons num oprand =>
        exact .inl ⟨_, _, rfl, rfl, rfl, rfl, h.oprator, h.mode, h.signal, h.written⟩

theorem applyOperator_together (num num2 : Int) (op : Char) :
    Together Eq (applyOperator (calculate intResult) num num2 op)
      (calculate intResult num num2 op) := by
  rw [applyOperator]
  cases calculate intResult num num2 op with
  | none => exact .inr ⟨⟨_, rfl⟩, rfl⟩
  | some num => exact .inl ⟨_, _, rfl, rfl, rfl⟩

theorem closeLoop_together (num : Int) (oprand : List Int) (oprator : List Char) :
    Together Eq (closeLoop (calculate intResult) num oprand oprator)
      (Expression.closeLoop num oprand oprator) := by
  induction oprator generalizing num oprand with
  | nil => exact .inr ⟨⟨_, rfl⟩, rfl⟩
  | cons op oprator ih =>
      rw [closeLoop.eq_def, Expression.closeLoop.eq_def]
      dsimp only
      split
      next => exact .inl ⟨_, _, rfl, rfl, rfl⟩
      next =>
        cases oprand with
        | nil => exact .inr ⟨⟨_, rfl⟩, rfl⟩
        | cons num2 oprand =>
            refine (applyOperator_together num2 num op).bind fun a b hab => ?_
            rw [hab]
            exact ih b oprand

theorem reduceLoop_together (p : Char) (num : Int) (oprand : List Int) (oprator : List Char) :
    Together Eq (reduceLoop (calculate intResult) p num oprand oprator)
      (Expression.reduceLoop p num oprand oprator) := by
  induction oprator generalizing num oprand with
  | nil => exact .inl ⟨_, _, rfl, rfl, rfl⟩
  | cons op oprator ih =>
      rw [reduceLoop.eq_def, Expression.reduceLoop.eq_def]
      dsimp only
      cases getPriority p with
      | none => exact .inr ⟨⟨_, rfl⟩, rfl⟩
      | some priority =>
          cases getPriority op with
          | none => exact .inr ⟨⟨_, rfl⟩, rfl⟩
          | some below =>
              dsimp only [Option.bind_eq_bind, Option.bind_some]
              split
              next => exact .inl ⟨_, _, rfl, rfl, rfl⟩
              next =>
                cases oprand with
                | nil => exact .inr ⟨⟨_, rfl⟩, rfl⟩
                | cons num2 oprand =>
                    refine (applyOperator_together num2 num op).bind fun a b hab => ?_
                    rw [hab]
                    exact ih b oprand

theorem step_together (h : Related state plain) (p : Char) :
    Together Related (step (calculate intResult) state p) (Expression.step plain p) := by
  rw [step, Expression.step]
  by_cases hdigit : isDigit p = true
  · rw [if_pos hdigit, if_pos hdigit]
    by_cases hroom : plain.data.sz.length < numLen
    · obtain ⟨data, hpush, hwritten, hsignal⟩ :=
        h.written.push (ne_null_of_isDigit hdigit) hroom
      rw [hpush, if_neg (not_le.mpr hroom)]
      exact .inl ⟨_, _, rfl, rfl, h.oprand, h.oprator, rfl, hsignal.trans h.signal, hwritten⟩
    · rw [h.written.push_full hroom, if_pos (not_lt.mp hroom)]
      exact .inr ⟨⟨_, rfl⟩, rfl⟩
  · rw [if_neg hdigit, if_neg hdigit, h.mode]
    by_cases hsign : p = '-' ∧ plain.isNumbericMode = true
    · rw [if_pos hsign, if_pos hsign]
      refine .inl ⟨_, _, rfl, rfl, h.oprand, h.oprator, rfl, congrArg not h.signal, ?_⟩
      exact ⟨h.written.sz_eq, h.written.pos_eq, h.written.length_le, h.written.null_not_mem⟩
    · rw [if_neg hsign, if_neg hsign]
      have hmode : Related { state with isNumbericMode := true }
          { plain with isNumbericMode := true } :=
        ⟨h.oprand, h.oprator, rfl, h.signal, h.written⟩
      dsimp only
      by_cases hopen : p = '('
      · rw [if_pos hopen, if_pos hopen]
        exact .inl ⟨_, _, rfl, rfl, h.oprand, congrArg (p :: ·) h.oprator, rfl, h.signal, h.written⟩
      · rw [if_neg hopen, if_neg hopen]
        refine (takeNumber_together hmode).bind fun a b hab => ?_
        obtain ⟨hnum, hrest⟩ := hab
        have hstacks (oprand : List Int × List Char) : Together Related
            (.ok { a.2 with oprand := oprand.1, oprator := oprand.2 })
            (some { b.2 with oprand := oprand.1, oprator := oprand.2 }) :=
          .inl ⟨_, _, rfl, rfl, rfl, rfl, hrest.mode, hrest.signal, hrest.written⟩
        rw [hnum, hrest.oprand, hrest.oprator]
        split
        next => exact (closeLoop_together _ _ _).bind fun x y hxy => hxy ▸ hstacks x
        next => exact (reduceLoop_together _ _ _ _).bind fun x y hxy => hxy ▸ hstacks x

theorem run_together (h : Related state plain) (expression : List Char) :
    Together Related (run (calculate intResult) state expression)
      (Expression.run plain expression) := by
  induction expression generalizing state plain with
  | nil => exact .inl ⟨_, _, rfl, rfl, h⟩
  | cons p expression ih =>
      rw [run, Expression.run, List.foldlM_cons, List.foldlM_cons]
      exact (step_together h p).bind fun _ _ hrest => ih hrest

/-- **The two calculators agree**, up to the reason of a fault. -/
theorem evaluate_toOption (expression : List Char) :
    (evaluateExpression (calculate intResult) expression).toOption =
      Expression.evaluateExpression expression := by
  have hstart : Related .start ⟨[], [], true, .empty⟩ := ⟨rfl, rfl, rfl, rfl, written_new⟩
  refine Together.toOption ((run_together hstart expression).bind fun a b hab => ?_)
  rw [hab.oprand]
  cases b.oprand with
  | nil => exact .inr ⟨⟨_, rfl⟩, rfl⟩
  | cons num oprand => exact .inl ⟨_, _, rfl, rfl, rfl⟩

end Eureka.Expression.Buffered

import Eureka.Expression.Buffered

/-!
# Whether the calculator stays within its buffer and its stacks

The buffer has room for nine digits and a null.  A literal of ten digits leaves no
null, and the eleventh digit is written behind the buffer.

The stacks are safe whatever is computed: in front of an operand no more
operators wait than there are numbers (`AtOperand`), and behind it there is one
number more (`Behind`).  A `-` behind a closing parenthesis, which is read as a
sign, only leaves more numbers there.

* `run_short`, `run_long`: expressions without and with a long literal;
* `withinBuffer_iff`: an expression is safe exactly if it has no long literal.
-/

namespace Eureka.Expression.Buffered

/-! ## Expressions -/

structure Numeral where
  digits : List (Fin 10)
  digits_ne_nil : digits ≠ []

namespace Numeral

def text (n : Numeral) : List Char := n.digits.map digitChar

def value (n : Numeral) : ℕ := n.digits.foldl (fun value d => 10 * value + d.val) 0

/-- It leaves room for a null. -/
def Short (n : Numeral) : Prop := n.digits.length < numLen

end Numeral

/-- Well-formed expressions, in all ways to read them. -/
inductive Formula
  | numeral (n : Numeral)
  | minus (e : Formula)
  | paren (e : Formula)
  | bin (o : Op) (l r : Formula)

namespace Formula

def text : Formula → List Char
  | numeral n => n.text
  | minus e => '-' :: text e
  | paren e => '(' :: (text e ++ [')'])
  | bin o l r => text l ++ o.char :: text r

def numerals : Formula → List Numeral
  | numeral n => [n]
  | minus e => numerals e
  | paren e => numerals e
  | bin _ l r => numerals l ++ numerals r

/-- All literals are short. -/
def Short (e : Formula) : Prop := ∀ n ∈ e.numerals, n.Short

end Formula

/-! ## Computations that may stop -/

variable {compute : Int → Int → Char → Option Int}

/-- `Calculate` always goes on. -/
def Total (compute : Int → Int → Char → Option Int) : Prop :=
  ∀ num num2 op, (compute num num2 op).isSome = true

/-- It comes to its end, unless `Calculate` stops it. -/
def Goes (compute : Int → Int → Char → Option Int) {α : Type} (x : Except Fault α) (P : α → Prop) :
    Prop :=
  (∃ a, x = .ok a ∧ P a) ∨ x = .error .stopped ∧ ¬ Total compute

theorem Goes.bind {α β : Type} {x : Except Fault α} {f : α → Except Fault β} {P : α → Prop}
    {Q : β → Prop} (h : Goes compute x P) (hrest : ∀ a, P a → Goes compute (f a) Q) :
    Goes compute (x >>= f) Q := by
  rcases h with ⟨a, rfl, hP⟩ | ⟨rfl, hstop⟩
  · exact hrest a hP
  · exact .inr ⟨rfl, hstop⟩

theorem Goes.mono {α : Type} {x : Except Fault α} {P Q : α → Prop} (h : Goes compute x P)
    (himp : ∀ a, P a → Q a) : Goes compute x Q := by
  rcases h with ⟨a, rfl, hP⟩ | hstop
  · exact .inl ⟨a, rfl, himp a hP⟩
  · exact .inr hstop

theorem Goes.total {α : Type} {x : Except Fault α} {P : α → Prop} (h : Goes compute x P)
    (htotal : Total compute) : ∃ a, x = .ok a ∧ P a := by
  rcases h with h | ⟨-, hstop⟩
  · exact h
  · exact absurd htotal hstop

theorem applyOperator_goes (num num2 : Int) (op : Char) :
    Goes compute (applyOperator compute num num2 op) fun _ => True := by
  rw [applyOperator]
  cases hcompute : compute num num2 op with
  | some n => exact .inl ⟨n, rfl, trivial⟩
  | none =>
      refine .inr ⟨rfl, fun htotal => ?_⟩
      have hsome := htotal num num2 op
      rw [hcompute] at hsome
      cases hsome

/-! ## The stacks -/

/-- The operators that wait. -/
def waiting (ops : List (Option Op)) : ℕ := ops.countP Option.isSome

/-- The parentheses that are open. -/
def opened (ops : List (Option Op)) : ℕ := ops.count none

/-- So many parentheses are open, and there are so many numbers more than operators wait. -/
def Balanced (depth spare : ℕ) (oprand : List Int) (oprator : List Char) : Prop :=
  ∃ ops : List (Option Op), oprator = ops.map stackChar ∧ opened ops = depth ∧
    waiting ops + spare ≤ oprand.length

@[simp] theorem waiting_none (ops : List (Option Op)) : waiting (none :: ops) = waiting ops :=
  List.countP_cons_of_neg (by decide)

@[simp] theorem waiting_some (o : Op) (ops : List (Option Op)) :
    waiting (some o :: ops) = waiting ops + 1 :=
  List.countP_cons_of_pos rfl

@[simp] theorem opened_none (ops : List (Option Op)) : opened (none :: ops) = opened ops + 1 :=
  List.count_cons_self

@[simp] theorem opened_some (o : Op) (ops : List (Option Op)) :
    opened (some o :: ops) = opened ops :=
  List.count_cons_of_ne (Option.some_ne_none o)

theorem closeLoop_goes {depth : ℕ} {oprand : List Int} {ops : List (Option Op)} (num : Int)
    (hopened : opened ops = depth + 1) (hwaiting : waiting ops ≤ oprand.length) :
    Goes compute (closeLoop compute num oprand (ops.map stackChar)) fun rest =>
      Balanced depth 1 rest.1 rest.2 := by
  induction ops generalizing num oprand with
  | nil => cases hopened
  | cons op ops ih =>
      rw [List.map_cons, closeLoop.eq_def]
      dsimp only
      cases op with
      | none =>
          rw [opened_none] at hopened
          rw [waiting_none] at hwaiting
          exact .inl ⟨_, rfl, ops, rfl, Nat.succ.inj hopened, Nat.succ_le_succ hwaiting⟩
      | some o =>
          rw [opened_some] at hopened
          rw [waiting_some] at hwaiting
          rw [stackChar, if_neg (char_ne_lparen o)]
          cases oprand with
          | nil => cases hwaiting
          | cons num2 oprand =>
              exact (applyOperator_goes num2 num o.char).bind fun num' _ =>
                ih num' hopened (Nat.le_of_succ_le_succ hwaiting)

theorem reduceLoop_goes {oprand : List Int} {ops : List (Option Op)} (o : Op) (num : Int)
    (hwaiting : waiting ops ≤ oprand.length) :
    Goes compute (reduceLoop compute o.char num oprand (ops.map stackChar)) fun rest =>
      Balanced (opened ops) 0 rest.1 rest.2 := by
  induction ops generalizing num oprand with
  | nil => exact .inl ⟨_, rfl, [some o], rfl, rfl, Nat.succ_le_succ (Nat.zero_le _)⟩
  | cons op ops ih =>
      have hpush : Balanced (opened (op :: ops)) 0 (num :: oprand)
          (o.char :: (op :: ops).map stackChar) := by
        refine ⟨some o :: op :: ops, rfl, opened_some o _, ?_⟩
        rw [waiting_some]
        exact Nat.succ_le_succ hwaiting
      rw [List.map_cons, reduceLoop.eq_def]
      dsimp only
      rw [getPriority_char]
      cases op with
      | none =>
          have hgt : o.priority + 1 > 1 := Nat.succ_lt_succ (priority_pos o)
          exact .inl ⟨_, if_pos hgt, hpush⟩
      | some op =>
          rw [stackChar, getPriority_char]
          dsimp only
          split
          next => exact .inl ⟨_, rfl, hpush⟩
          next =>
            rw [waiting_some] at hwaiting
            rw [opened_some]
            cases oprand with
            | nil => cases hwaiting
            | cons num2 oprand =>
                exact (applyOperator_goes num2 num op.char).bind fun num' _ =>
                  ih num' (Nat.le_of_succ_le_succ hwaiting)

/-- The `#` at the end leaves a number. -/
theorem reduceLoop_end_goes {oprand : List Int} {ops : List (Option Op)} (num : Int)
    (hopened : opened ops = 0) (hwaiting : waiting ops ≤ oprand.length) :
    Goes compute (reduceLoop compute '#' num oprand (ops.map stackChar)) fun rest =>
      rest.1 ≠ [] := by
  induction ops generalizing num oprand with
  | nil => exact .inl ⟨_, rfl, List.cons_ne_nil _ _⟩
  | cons op ops ih =>
      cases op with
      | none => exact absurd hopened (by rw [opened_none]; exact Nat.succ_ne_zero _)
      | some op =>
          rw [opened_some] at hopened
          rw [waiting_some] at hwaiting
          rw [List.map_cons, reduceLoop.eq_def, stackChar]
          dsimp only
          rw [getPriority_char, getPriority_end]
          dsimp only
          rw [if_neg (Nat.not_lt_zero _)]
          cases oprand with
          | nil => cases hwaiting
          | cons num2 oprand =>
              exact (applyOperator_goes num2 num op.char).bind fun num' _ =>
                ih num' hopened (Nat.le_of_succ_le_succ hwaiting)

/-! ## One character -/

variable {state : Calculator} {depth : ℕ} {digits : List Char} {p : Char}

/-- These digits of an operand have been read. -/
structure Reading (depth : ℕ) (digits : List Char) (state : Calculator) : Prop where
  mode : state.isNumbericMode = true ↔ digits = []
  balanced : Balanced depth 0 state.oprand state.oprator
  written : Written state.data digits

/-- Behind an operand. -/
inductive Behind (depth : ℕ) (state : Calculator) : Prop
  | literal (digits : List Char) (hne : digits ≠ []) (hroom : digits.length < numLen)
      (h : Reading depth digits state)
  | closed (hmode : state.isNumbericMode = true)
      (hbalanced : Balanced depth 1 state.oprand state.oprator) (hwritten : Written state.data [])

variable (compute) in
theorem step_digit (h : Reading depth digits state) (d : Fin 10)
    (hroom : digits.length < numLen) : ∃ state', step compute state (digitChar d) = .ok state' ∧
      Reading depth (digits ++ [digitChar d]) state' := by
  have hdigit := isDigit_digitChar d
  obtain ⟨data, hpush, hwritten, -⟩ := h.written.push (ne_null_of_isDigit hdigit) hroom
  refine ⟨{ state with data := data, isNumbericMode := false }, ?_, ?_, h.balanced, hwritten⟩
  · rw [step, if_pos hdigit, hpush]
    rfl
  · simp

theorem step_digit_full (h : Reading depth digits state) (d : Fin 10)
    (hfull : ¬ digits.length < numLen) :
    step compute state (digitChar d) = .error .outOfBounds := by
  rw [step, if_pos (isDigit_digitChar d), h.written.push_full hfull]
  rfl

variable (compute) in
theorem step_sign (h : Reading depth [] state) :
    ∃ state', step compute state '-' = .ok state' ∧ Reading depth [] state' := by
  refine ⟨{ state with data := { state.data with signal := !state.data.signal } }, ?_,
    h.mode, h.balanced, h.written.sz_eq, h.written.pos_eq, h.written.length_le,
    h.written.null_not_mem⟩
  rw [step, if_neg (by decide), if_pos ⟨rfl, h.mode.mpr rfl⟩]

variable (compute) in
theorem step_open (h : Reading depth [] state) :
    ∃ state', step compute state '(' = .ok state' ∧ Reading (depth + 1) [] state' := by
  obtain ⟨ops, hops, hopened, hwaiting⟩ := h.balanced
  refine ⟨{ state with isNumbericMode := true, oprator := '(' :: state.oprator }, rfl,
    iff_of_true rfl rfl, ⟨none :: ops, congrArg ('(' :: ·) hops, ?_, ?_⟩, h.written⟩
  · rw [opened_none, hopened]
  · rw [waiting_none]
    exact hwaiting

theorem step_eq (hdigit : ¬ isDigit p) (hsign : ¬ (p = '-' ∧ state.isNumbericMode = true))
    (hopen : p ≠ '(') : step compute state p = (do
      let (num, state) ← takeNumber { state with isNumbericMode := true }
      let (oprand, oprator) ←
        if p = ')' then closeLoop compute num state.oprand state.oprator
        else reduceLoop compute p num state.oprand state.oprator
      return { state with oprand := oprand, oprator := oprator }) := by
  rw [step, if_neg hdigit, if_neg hsign]
  dsimp only
  rw [if_neg hopen]

theorem takeNumber_behind (h : Behind depth state) :
    ∃ num state', takeNumber { state with isNumbericMode := true } = .ok (num, state') ∧
      Reading depth [] state' := by
  cases h with
  | literal digits hne hroom h =>
      have hpos : state.data.pos ≠ 0 := by
        rw [h.written.pos_eq]
        exact (List.length_pos_of_ne_nil hne).ne'
      obtain ⟨num, hformat⟩ : ∃ num, formatNumtoInt state.data = .ok (num, .new) :=
        ⟨_, h.written.format hne hroom⟩
      refine ⟨num, { state with isNumbericMode := true, data := .new }, ?_, iff_of_true rfl rfl,
        h.balanced, written_new⟩
      rw [takeNumber, if_pos hpos, hformat]
      rfl
  | closed hmode hbalanced hwritten =>
      obtain ⟨ops, hops, hopened, hwaiting⟩ := hbalanced
      have hpos : ¬ state.data.pos ≠ 0 := not_not.mpr hwritten.pos_eq
      rw [takeNumber, if_neg hpos]
      cases hoprand : state.oprand with
      | nil => rw [hoprand] at hwaiting; cases hwaiting
      | cons num oprand =>
          rw [hoprand] at hwaiting
          exact ⟨num, { state with isNumbericMode := true, oprand := oprand }, rfl,
            iff_of_true rfl rfl, ⟨ops, hops, hopened, Nat.le_of_succ_le_succ hwaiting⟩, hwritten⟩

theorem step_goes (h : Behind depth state) (hdigit : ¬ isDigit p)
    (hsign : ¬ (p = '-' ∧ state.isNumbericMode = true)) (hopen : p ≠ '(')
    {P : List Int × List Char → Prop}
    (hloop : ∀ num oprand ops, opened ops = depth → waiting ops ≤ oprand.length →
      Goes compute (if p = ')' then closeLoop compute num oprand (ops.map stackChar)
        else reduceLoop compute p num oprand (ops.map stackChar)) P) :
    Goes compute (step compute state p) fun state' => state'.isNumbericMode = true ∧
      Written state'.data [] ∧ P (state'.oprand, state'.oprator) := by
  obtain ⟨num, state', htake, hreading⟩ := takeNumber_behind h
  obtain ⟨ops, hops, hopened, hwaiting⟩ := hreading.balanced
  have hgoes := hloop num state'.oprand ops hopened hwaiting
  have hrest (rest : List Int × List Char) (hP : P rest) :
      Goes compute (.ok { state' with oprand := rest.1, oprator := rest.2 }) fun state' =>
        state'.isNumbericMode = true ∧ Written state'.data [] ∧ P (state'.oprand, state'.oprator) :=
    .inl ⟨_, rfl, hreading.mode.mpr rfl, hreading.written, hP⟩
  rw [step_eq hdigit hsign hopen, htake]
  dsimp only [bind, Except.bind]
  rw [hops]
  by_cases hclose : p = ')'
  · rw [if_pos hclose] at hgoes ⊢
    exact hgoes.bind hrest
  · rw [if_neg hclose] at hgoes ⊢
    exact hgoes.bind hrest

theorem step_operator (h : Behind depth state) (o : Op) :
    Goes compute (step compute state o.char) (Reading depth []) := by
  by_cases hsign : o.char = '-' ∧ state.isNumbericMode = true
  · -- behind a parenthesis: the number is left where it is
    cases h with
    | literal digits hne hroom h =>
        exact absurd (h.mode.mp hsign.2) hne
    | closed hmode hbalanced hwritten =>
        obtain ⟨ops, hops, hopened, hwaiting⟩ := hbalanced
        have hreading : Reading depth [] state :=
          ⟨iff_of_true hmode rfl, ⟨ops, hops, hopened, Nat.le_of_succ_le hwaiting⟩, hwritten⟩
        rw [hsign.1]
        exact .inl (step_sign compute hreading)
  · refine (step_goes (P := fun rest => Balanced depth 0 rest.1 rest.2) h (not_isDigit_char o)
      hsign (char_ne_lparen o) fun num oprand ops hopened hwaiting => ?_).mono
        fun state' hstate => ⟨iff_of_true hstate.1 rfl, hstate.2.2, hstate.2.1⟩
    rw [if_neg (char_ne_rparen o), ← hopened]
    exact reduceLoop_goes o num hwaiting

theorem step_close (h : Behind (depth + 1) state) :
    Goes compute (step compute state ')') (Behind depth) := by
  have hsign : ¬ (')' = '-' ∧ state.isNumbericMode = true) := by simp
  refine (step_goes (P := fun rest => Balanced depth 1 rest.1 rest.2) h (by decide) hsign
    (by decide) fun num oprand ops hopened hwaiting => ?_).mono
      fun state' hstate => .closed hstate.1 hstate.2.2 hstate.2.1
  rw [if_pos rfl]
  exact closeLoop_goes num hopened hwaiting

theorem step_end (h : Behind 0 state) :
    Goes compute (step compute state '#') fun state' => state'.oprand ≠ [] := by
  have hsign : ¬ ('#' = '-' ∧ state.isNumbericMode = true) := by simp
  refine (step_goes (P := fun rest => rest.1 ≠ []) h (by decide) hsign (by decide)
    fun num oprand ops hopened hwaiting => ?_).mono fun state' hstate => hstate.2.2
  rw [if_neg (by decide)]
  exact reduceLoop_end_goes num hopened hwaiting

variable (compute) in
/-- Behind a full buffer every other character makes `_wtoi` read on. -/
theorem step_full (h : Reading depth digits state) (hfull : digits.length = numLen)
    (hdigit : ¬ isDigit p) (hopen : p ≠ '(') :
    step compute state p = .error .unterminated := by
  have hne : digits ≠ [] := List.ne_nil_of_length_pos (hfull ▸ Nat.succ_pos 9)
  have hsign : ¬ (p = '-' ∧ state.isNumbericMode = true) := by
    rintro ⟨-, hmode⟩
    exact hne (h.mode.mp hmode)
  have hpos : state.data.pos ≠ 0 := by
    rw [h.written.pos_eq]
    exact (List.length_pos_of_ne_nil hne).ne'
  rw [step_eq hdigit hsign hopen, takeNumber, if_pos hpos,
    h.written.format_full hne (hfull ▸ lt_irrefl _)]
  rfl

/-! ## The expression -/

theorem run_cons (state : Calculator) (p : Char) (expression : List Char) :
    run compute state (p :: expression) =
      step compute state p >>= fun state => run compute state expression :=
  List.foldlM_cons

theorem run_append (state : Calculator) (left right : List Char) :
    run compute state (left ++ right) =
      run compute state left >>= fun state => run compute state right :=
  List.foldlM_append

theorem run_cons_of_step {state' : Calculator} (hstep : step compute state p = .ok state')
    (expression : List Char) :
    run compute state (p :: expression) = run compute state' expression := by
  rw [run_cons, hstep]
  rfl

variable (compute) in
theorem run_digits (h : Reading depth digits state) (ds : List (Fin 10))
    (hfits : digits.length + ds.length ≤ numLen) :
    ∃ state', run compute state (ds.map digitChar) = .ok state' ∧
      Reading depth (digits ++ ds.map digitChar) state' := by
  induction ds generalizing digits state with
  | nil =>
      rw [List.map_nil, List.append_nil]
      exact ⟨state, rfl, h⟩
  | cons d ds ih =>
      rw [List.length_cons] at hfits
      obtain ⟨state', hstep, hreading⟩ := step_digit compute h d (by omega)
      have hfits' : (digits ++ [digitChar d]).length + ds.length ≤ numLen := by
        rw [List.length_append, List.length_singleton]
        omega
      rw [List.map_cons, run_cons_of_step hstep, List.append_cons]
      exact ih hreading hfits'

theorem run_digits_over (h : Reading depth digits state) (ds : List (Fin 10))
    (hover : numLen < digits.length + ds.length) :
    run compute state (ds.map digitChar) = .error .outOfBounds := by
  induction ds generalizing digits state with
  | nil => exact absurd h.written.length_le (not_le.mpr hover)
  | cons d ds ih =>
      rw [List.length_cons] at hover
      rw [List.map_cons]
      by_cases hroom : digits.length < numLen
      · obtain ⟨state', hstep, hreading⟩ := step_digit compute h d hroom
        have hover' : numLen < (digits ++ [digitChar d]).length + ds.length := by
          rw [List.length_append, List.length_singleton]
          omega
        rw [run_cons_of_step hstep]
        exact ih hreading hover'
      · rw [run_cons, step_digit_full h d hroom]
        rfl

/-- Without a long literal only `Calculate` can stop it. -/
theorem run_short {e : Formula} (hshort : e.Short) (h : Reading depth [] state) :
    Goes compute (run compute state e.text) (Behind depth) := by
  induction e generalizing depth state with
  | numeral n =>
      have hroom : n.digits.length < numLen := hshort n List.mem_cons_self
      obtain ⟨state', hrun, hreading⟩ := run_digits compute h n.digits
        (by rw [List.length_nil, Nat.zero_add]; exact hroom.le)
      rw [List.nil_append] at hreading
      refine .inl ⟨state', hrun, .literal _ ?_ ?_ hreading⟩
      · rw [ne_eq, List.map_eq_nil_iff]
        exact n.digits_ne_nil
      · rw [List.length_map]
        exact hroom
  | minus e ih =>
      obtain ⟨state', hstep, hreading⟩ := step_sign compute h
      rw [Formula.text, run_cons_of_step hstep]
      exact ih hshort hreading
  | paren e ih =>
      obtain ⟨state', hstep, hreading⟩ := step_open compute h
      rw [Formula.text, run_cons_of_step hstep, run_append]
      refine (ih hshort hreading).bind fun state hbehind => ?_
      rw [run_cons]
      exact (step_close hbehind).bind fun state hbehind => .inl ⟨state, rfl, hbehind⟩
  | bin o l r ihl ihr =>
      have hl : l.Short := fun n hn => hshort n (List.mem_append_left _ hn)
      have hr : r.Short := fun n hn => hshort n (List.mem_append_right _ hn)
      rw [Formula.text, run_append]
      refine (ihl hl h).bind fun state hbehind => ?_
      rw [run_cons]
      exact (step_operator hbehind o).bind fun state hreading => ihr hr hreading

/-- The buffer is left, or read behind its end. -/
def Faulty {α : Type} (x : Except Fault α) : Prop :=
  x = .error .outOfBounds ∨ x = .error .unterminated

/-- It has happened, or the buffer is full. -/
def Overrun (x : Except Fault Calculator) : Prop :=
  Faulty x ∨ ∃ depth digits state, x = .ok state ∧ Reading depth digits state ∧
    digits.length = numLen

theorem Faulty.bind {α β : Type} {x : Except Fault α} (h : Faulty x) (f : α → Except Fault β) :
    Faulty (x >>= f) := by
  rcases h with rfl | rfl
  · exact .inl rfl
  · exact .inr rfl

theorem Overrun.followed {x : Except Fault Calculator} (h : Overrun x) (hdigit : ¬ isDigit p)
    (hopen : p ≠ '(') (expression : List Char) :
    Faulty (x >>= fun state => run compute state (p :: expression)) := by
  rcases h with h | ⟨depth, digits, state, rfl, hreading, hfull⟩
  · exact h.bind _
  · have hstep := step_full compute hreading hfull hdigit hopen
    refine .inr ?_
    show run compute state (p :: expression) = _
    rw [run_cons, hstep]
    rfl

theorem run_long (htotal : Total compute) {e : Formula} (hlong : ¬ e.Short)
    (h : Reading depth [] state) : Overrun (run compute state e.text) := by
  induction e generalizing depth state with
  | numeral n =>
      have hlength : numLen ≤ n.digits.length := by
        by_contra hlength
        refine hlong fun n' hn' => ?_
        rw [List.mem_singleton.mp hn']
        exact not_le.mp hlength
      rcases hlength.lt_or_eq with hover | hfull
      · refine .inl (.inl (run_digits_over h n.digits ?_))
        rw [List.length_nil, Nat.zero_add]
        exact hover
      · obtain ⟨state', hrun, hreading⟩ := run_digits compute h n.digits
          (by rw [List.length_nil, Nat.zero_add]; exact hfull.ge)
        refine .inr ⟨_, _, _, hrun, hreading, ?_⟩
        rw [List.nil_append, List.length_map]
        exact hfull.symm
  | minus e ih =>
      obtain ⟨state', hstep, hreading⟩ := step_sign compute h
      rw [Formula.text, run_cons_of_step hstep]
      exact ih hlong hreading
  | paren e ih =>
      obtain ⟨state', hstep, hreading⟩ := step_open compute h
      rw [Formula.text, run_cons_of_step hstep, run_append]
      exact .inl ((ih hlong hreading).followed (by decide) (by decide) [])
  | bin o l r ihl ihr =>
      rw [Formula.text, run_append]
      by_cases hl : l.Short
      · have hr : ¬ r.Short := by
          intro hr
          refine hlong fun n hn => ?_
          rcases List.mem_append.mp hn with hn | hn
          · exact hl n hn
          · exact hr n hn
        obtain ⟨state', hrun, hbehind⟩ := (run_short hl h).total htotal
        obtain ⟨state'', hstep, hreading⟩ := (step_operator hbehind o).total htotal
        have hrest : run compute state' (o.char :: r.text) = run compute state'' r.text :=
          run_cons_of_step hstep _
        rw [hrun]
        show Overrun (run compute state' (o.char :: r.text))
        rw [hrest]
        exact ihr hr hreading
      · exact .inl ((ihl hl h).followed (not_isDigit_char o) (char_ne_lparen o) r.text)

/-! ## The result -/

/-- `compute` gives the results that an `int` can hold. -/
def Permitted (compute : Int → Int → Char → Option Int) : Prop :=
  ∀ num num2 op n, calculate intResult num num2 op = some n → compute num num2 op = some n

/-- An evaluation keeps to the buffer and pops no empty stack. -/
structure Safe (compute : Int → Int → Char → Option Int) (expression : List Char) : Prop where
  inBounds : evaluateExpression compute expression ≠ .error .outOfBounds
  terminated : evaluateExpression compute expression ≠ .error .unterminated
  nonempty : evaluateExpression compute expression ≠ .error .emptyStack

theorem start_reading : Reading 0 [] .start :=
  ⟨iff_of_true rfl rfl, ⟨[], rfl, rfl, Nat.zero_le _⟩, written_new⟩

theorem evaluate_short {e : Formula} (hshort : e.Short) :
    Goes compute (evaluateExpression compute (e.text ++ ['#'])) fun _ => True := by
  rw [evaluateExpression, run_append]
  refine Goes.bind (P := fun state => state.oprand ≠ []) ?_ fun state hne => ?_
  · refine (run_short hshort start_reading).bind fun state hbehind => ?_
    rw [run_cons]
    exact (step_end hbehind).bind fun state hne => .inl ⟨state, rfl, hne⟩
  · cases hoprand : state.oprand with
    | nil => exact absurd hoprand hne
    | cons num oprand => exact .inl ⟨num, rfl, trivial⟩

theorem Goes.safe {expression : List Char} {P : Int → Prop}
    (h : Goes compute (evaluateExpression compute expression) P) : Safe compute expression := by
  rcases h with ⟨num, hnum, -⟩ | ⟨hstop, -⟩
  · exact ⟨by simp [hnum], by simp [hnum], by simp [hnum]⟩
  · exact ⟨by simp [hstop], by simp [hstop], by simp [hstop]⟩

theorem evaluate_long (htotal : Total compute) {e : Formula} (hlong : ¬ e.Short) :
    Faulty (evaluateExpression compute (e.text ++ ['#'])) := by
  rw [evaluateExpression, run_append]
  exact ((run_long htotal hlong start_reading).followed (by decide) (by decide) []).bind _

/-- **Expressions without literals of ten or more digits are safe**, and only these. -/
theorem withinBuffer_iff (e : Formula) :
    (∀ compute, Permitted compute → Safe compute (e.text ++ ['#'])) ↔ e.Short := by
  constructor
  · intro hsafe
    by_contra hlong
    -- an overflow goes on with 0
    let compute (num num2 : Int) (op : Char) : Option Int :=
      some ((calculate intResult num num2 op).getD 0)
    have hpermitted : Permitted compute := by
      intro num num2 op n hn
      show some ((calculate intResult num num2 op).getD 0) = some n
      rw [hn]
      rfl
    have htotal : Total compute := fun _ _ _ => rfl
    rcases evaluate_long htotal hlong with hfault | hfault
    · exact (hsafe compute hpermitted).inBounds hfault
    · exact (hsafe compute hpermitted).terminated hfault
  · intro hshort compute _
    exact (evaluate_short hshort).safe

/-- The ten digits of the largest `int` fill the buffer. -/
theorem largest_not_safe : ∃ largest : Numeral, largest.text = "2147483647".toList ∧
    (largest.value : Int) = intMax ∧
      ¬ Safe (calculate intResult) ((Formula.numeral largest).text ++ ['#']) :=
  ⟨⟨[2, 1, 4, 7, 4, 8, 3, 6, 4, 7], List.cons_ne_nil _ _⟩, by decide, by decide,
    fun hsafe => hsafe.terminated (by decide)⟩

end Eureka.Expression.Buffered

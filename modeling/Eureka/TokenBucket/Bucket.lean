import Mathlib

/-!
# The token bucket

`Bucket` of `ratelimit/bucket_limiter.cpp`, on exact integers.  A tick is
`fillTick` clock units long; `adjustAvailableTokens` refills lazily, from the
tick of the last lock section to the current one.

* `waitTicks_isLeast`: the wait paid for a negative balance is the least one
  after which the refilled balance is not negative any more;
* `adjustAvailableTokens_slack`: the refill never outpaces `quantum` tokens a
  tick;
* `lockSection_cases`: a lock section refills and moves tokens from the balance
  to its caller.
-/

namespace Eureka.TokenBucket

structure Bucket where
  capacity : ℤ
  available : ℤ
  fillTick : ℤ
  quantum : ℤ
  startTime : ℤ
  latestTick : ℤ
deriving Repr, DecidableEq

namespace Bucket

/-- The constructor; `now` is the reading of the clock. -/
def construct (cap fillTick quantum now : ℤ) : Except String Bucket :=
  if cap ≤ 0 then .error "cap must be positive"
  else if quantum ≤ 0 ∨ cap < quantum then
    .error "quantum must be positive and must not be greater than cap"
  else .ok ⟨cap, cap, fillTick, quantum, now, 0⟩

/-- `assert(current_tick >= latest_tick_)`, on entry of `AdjustAvailableTokens`. -/
def Asserts (b : Bucket) (currentTick : ℤ) : Prop := b.latestTick ≤ currentTick

instance (b : Bucket) (currentTick : ℤ) : Decidable (b.Asserts currentTick) :=
  inferInstanceAs (Decidable (b.latestTick ≤ currentTick))

/-- What `AdjustAvailableTokens` computes behind its assertion. -/
def adjustAvailableTokens (b : Bucket) (currentTick : ℤ) : Bucket :=
  let lastTick := b.latestTick
  let b := { b with latestTick := currentTick }
  if b.capacity ≤ b.available then b
  else
    let filledTokens := (currentTick - lastTick) * b.quantum
    { b with available := min (b.available + filledTokens) b.capacity }

def doTakeAvailable (b : Bucket) (currentTicks count : ℤ) : Bucket × ℤ :=
  let b := b.adjustAvailableTokens currentTicks
  -- The balance might still be negative.
  if b.available ≤ 0 then (b, 0)
  else
    let taken := min count b.available
    ({ b with available := b.available - taken }, taken)

/-- The duration is counted in clock units; the division is the truncating one. -/
def doTake (b : Bucket) (currentTicks count : ℤ) : Bucket × ℤ :=
  let b := b.adjustAvailableTokens currentTicks
  let remain := b.available - count
  if 0 ≤ remain then ({ b with available := remain }, 0)
  else
    let waitTicks := (-remain + b.quantum - 1).tdiv b.quantum
    ({ b with available := remain }, waitTicks * b.fillTick)

/-! ## The balance -/

/-- What `construct` promises and every lock section keeps. -/
structure Valid (b : Bucket) : Prop where
  quantum_pos : 0 < b.quantum
  quantum_le : b.quantum ≤ b.capacity
  available_le : b.available ≤ b.capacity

theorem construct_eq_ok {cap fillTick quantum now : ℤ} {b : Bucket}
    (hb : construct cap fillTick quantum now = .ok b) :
    0 < quantum ∧ quantum ≤ cap ∧ b = ⟨cap, cap, fillTick, quantum, now, 0⟩ := by
  unfold construct at hb
  split at hb
  · cases hb
  split at hb
  · cases hb
  next hquantum =>
    rw [not_or] at hquantum
    exact ⟨by omega, by omega, (Except.ok.inj hb).symm⟩

theorem valid_of_construct {cap fillTick quantum now : ℤ} {b : Bucket}
    (hb : construct cap fillTick quantum now = .ok b) : b.Valid := by
  obtain ⟨hpos, hle, rfl⟩ := construct_eq_ok hb
  exact ⟨hpos, hle, le_refl _⟩

/-- The balance measured against a refill that never stops: tokens above it
are tokens that were refilled too early. -/
def slack (b : Bucket) : ℤ := b.available - b.quantum * b.latestTick

section Adjust

variable (b : Bucket) (tick : ℤ)

@[simp] theorem adjust_capacity : (b.adjustAvailableTokens tick).capacity = b.capacity := by
  simp only [adjustAvailableTokens]
  split <;> rfl

@[simp] theorem adjust_quantum : (b.adjustAvailableTokens tick).quantum = b.quantum := by
  simp only [adjustAvailableTokens]
  split <;> rfl

@[simp] theorem adjust_fillTick : (b.adjustAvailableTokens tick).fillTick = b.fillTick := by
  simp only [adjustAvailableTokens]
  split <;> rfl

@[simp] theorem adjust_startTime : (b.adjustAvailableTokens tick).startTime = b.startTime := by
  simp only [adjustAvailableTokens]
  split <;> rfl

@[simp] theorem adjust_latestTick : (b.adjustAvailableTokens tick).latestTick = tick := by
  simp only [adjustAvailableTokens]
  split <;> rfl

theorem adjust_available_of_lt (hlt : b.available < b.capacity) :
    (b.adjustAvailableTokens tick).available =
      min (b.available + (tick - b.latestTick) * b.quantum) b.capacity := by
  simp only [adjustAvailableTokens]
  rw [if_neg (not_le.mpr hlt)]

theorem adjust_available_of_le (hle : b.capacity ≤ b.available) :
    (b.adjustAvailableTokens tick).available = b.available := by
  simp only [adjustAvailableTokens]
  rw [if_pos hle]

end Adjust

theorem Valid.adjust {b : Bucket} (hb : b.Valid) (tick : ℤ) :
    (b.adjustAvailableTokens tick).Valid := by
  refine ⟨by simpa using hb.quantum_pos, by simpa using hb.quantum_le, ?_⟩
  rw [adjust_capacity]
  by_cases hle : b.capacity ≤ b.available
  · rw [adjust_available_of_le b tick hle]
    exact hb.available_le
  · rw [adjust_available_of_lt b tick (not_le.mp hle)]
    exact min_le_right _ _

/-- **The refill never outpaces the quantum.**  A full bucket skips the refill,
which loses tokens only when the tick does not move back. -/
theorem adjustAvailableTokens_slack {b : Bucket} (hb : b.Valid) {tick : ℤ}
    (hfull : b.capacity ≤ b.available → b.Asserts tick) :
    (b.adjustAvailableTokens tick).slack ≤ b.slack := by
  unfold slack
  rw [adjust_quantum, adjust_latestTick]
  by_cases hle : b.capacity ≤ b.available
  · have htick : b.latestTick ≤ tick := hfull hle
    have hmul : b.quantum * b.latestTick ≤ b.quantum * tick :=
      mul_le_mul_of_nonneg_left htick hb.quantum_pos.le
    rw [adjust_available_of_le b tick hle]
    omega
  · rw [adjust_available_of_lt b tick (not_le.mp hle)]
    have hfill : (tick - b.latestTick) * b.quantum
        = b.quantum * tick - b.quantum * b.latestTick := by ring
    have hmin := min_le_left (b.available + (tick - b.latestTick) * b.quantum) b.capacity
    omega

/-! ## The wait -/

/-- The ticks a caller has to wait for the balance it leaves behind. -/
def waitTicks (b : Bucket) : ℤ :=
  if 0 ≤ b.available then 0 else (-b.available + b.quantum - 1).tdiv b.quantum

/-- The tokens of a `DoTake` leave the balance at once, also below zero. -/
def debit (b : Bucket) (count : ℤ) : Bucket := { b with available := b.available - count }

@[simp] theorem debit_capacity (b : Bucket) (count : ℤ) :
    (b.debit count).capacity = b.capacity := rfl

@[simp] theorem debit_quantum (b : Bucket) (count : ℤ) :
    (b.debit count).quantum = b.quantum := rfl

@[simp] theorem debit_latestTick (b : Bucket) (count : ℤ) :
    (b.debit count).latestTick = b.latestTick := rfl

theorem debit_slack (b : Bucket) (count : ℤ) : (b.debit count).slack = b.slack - count := by
  simp only [slack, debit]
  omega

theorem doTake_eq (b : Bucket) (tick count : ℤ) :
    b.doTake tick count =
      ((b.adjustAvailableTokens tick).debit count,
        ((b.adjustAvailableTokens tick).debit count).waitTicks * b.fillTick) := by
  simp only [doTake, waitTicks, debit, adjust_fillTick]
  split
  · rw [zero_mul]
  · rfl

theorem waitTicks_nonneg {b : Bucket} (hb : b.Valid) : 0 ≤ b.waitTicks := by
  have hq := hb.quantum_pos
  unfold waitTicks
  split
  · exact le_refl 0
  · exact Int.tdiv_nonneg (by omega) hq.le

/-- A refill of `n` ticks covers the debt exactly from `waitTicks` on. -/
theorem waitTicks_le_iff {b : Bucket} (hb : b.Valid) {n : ℤ} (hn : 0 ≤ n) :
    b.waitTicks ≤ n ↔ 0 ≤ b.available + b.quantum * n := by
  have hq := hb.quantum_pos
  have hprod : 0 ≤ b.quantum * n := mul_nonneg hq.le hn
  unfold waitTicks
  split
  · constructor <;> intro <;> omega
  · next hneg =>
    rw [Int.tdiv_eq_ediv_of_nonneg (by omega), ← Int.lt_add_one_iff,
      Int.ediv_lt_iff_lt_mul hq]
    have hmul : (n + 1) * b.quantum = b.quantum * n + b.quantum := by ring
    rw [hmul]
    constructor <;> intro <;> omega

/-- The wait covers the debt ... -/
theorem neg_le_slack {b : Bucket} (hb : b.Valid) :
    -(b.quantum * (b.latestTick + b.waitTicks)) ≤ b.slack := by
  have hcovers := (waitTicks_le_iff hb (waitTicks_nonneg hb)).mp (le_refl _)
  unfold slack
  rw [mul_add]
  omega

/-- ... and a wait of one tick less does not. -/
theorem slack_lt_of_waits {b : Bucket} (hb : b.Valid) (hwaits : 0 < b.waitTicks) :
    b.slack < -(b.quantum * (b.latestTick + b.waitTicks - 1)) := by
  have hless : ¬ 0 ≤ b.available + b.quantum * (b.waitTicks - 1) := by
    rw [← waitTicks_le_iff hb (by omega)]
    omega
  unfold slack
  rw [add_sub_assoc, mul_add]
  omega

/-- **The wait is the least one** after which the refilled balance is not
negative any more. -/
theorem waitTicks_isLeast {b : Bucket} (hb : b.Valid) :
    IsLeast {n : ℤ | 0 ≤ n ∧ 0 ≤ (b.adjustAvailableTokens (b.latestTick + n)).available}
      b.waitTicks := by
  have hcap : 0 < b.capacity := hb.quantum_pos.trans_le hb.quantum_le
  have hcovers : ∀ n, 0 ≤ n →
      (0 ≤ (b.adjustAvailableTokens (b.latestTick + n)).available ↔ b.waitTicks ≤ n) := by
    intro n hn
    rw [waitTicks_le_iff hb hn]
    by_cases hle : b.capacity ≤ b.available
    · rw [adjust_available_of_le b _ hle]
      have hprod : 0 ≤ b.quantum * n := mul_nonneg hb.quantum_pos.le hn
      constructor <;> intro <;> omega
    · rw [adjust_available_of_lt b _ (not_le.mp hle), add_sub_cancel_left, mul_comm n, le_min_iff]
      exact and_iff_left hcap.le
  refine ⟨⟨waitTicks_nonneg hb, (hcovers _ (waitTicks_nonneg hb)).mpr (le_refl _)⟩, ?_⟩
  intro n hn
  exact (hcovers n hn.1).mp hn.2

/-! ## Lock sections -/

/-- The two ways of asking for tokens. -/
inductive Kind
  | take
  | takeAvailable
deriving Repr, DecidableEq

/-- The lock section of a call: the bucket behind it and the tokens it hands out. -/
def lockSection (b : Bucket) (kind : Kind) (tick count : ℤ) : Bucket × ℤ :=
  match kind with
  | .take => ((b.doTake tick count).1, count)
  | .takeAvailable => b.doTakeAvailable tick count

section LockSection

variable (b : Bucket) (kind : Kind) (tick count : ℤ)

/-- Whatever it hands out, a lock section changes the balance and the tick only. -/
theorem lockSection_eq_debit :
    ∃ taken, (b.lockSection kind tick count).1 = (b.adjustAvailableTokens tick).debit taken := by
  cases kind with
  | take => exact ⟨count, by rw [lockSection, doTake_eq]⟩
  | takeAvailable =>
      simp only [lockSection, doTakeAvailable]
      split
      · exact ⟨0, by rw [debit, sub_zero]⟩
      · exact ⟨_, rfl⟩

@[simp] theorem lockSection_capacity : (b.lockSection kind tick count).1.capacity = b.capacity := by
  obtain ⟨taken, heq⟩ := lockSection_eq_debit b kind tick count
  rw [heq, debit_capacity, adjust_capacity]

@[simp] theorem lockSection_quantum : (b.lockSection kind tick count).1.quantum = b.quantum := by
  obtain ⟨taken, heq⟩ := lockSection_eq_debit b kind tick count
  rw [heq, debit_quantum, adjust_quantum]

@[simp] theorem lockSection_fillTick : (b.lockSection kind tick count).1.fillTick = b.fillTick := by
  obtain ⟨taken, heq⟩ := lockSection_eq_debit b kind tick count
  rw [heq, debit, adjust_fillTick]

@[simp] theorem lockSection_startTime :
    (b.lockSection kind tick count).1.startTime = b.startTime := by
  obtain ⟨taken, heq⟩ := lockSection_eq_debit b kind tick count
  rw [heq, debit, adjust_startTime]

@[simp] theorem lockSection_latestTick : (b.lockSection kind tick count).1.latestTick = tick := by
  obtain ⟨taken, heq⟩ := lockSection_eq_debit b kind tick count
  rw [heq, debit_latestTick, adjust_latestTick]

end LockSection

theorem doTakeAvailable_eq (b : Bucket) (tick : ℤ) {count : ℤ} (hcount : 0 < count) :
    ∃ taken, 0 ≤ taken ∧ taken ≤ count ∧
      b.doTakeAvailable tick count = ((b.adjustAvailableTokens tick).debit taken, taken) ∧
      (0 < taken → 0 ≤ ((b.adjustAvailableTokens tick).debit taken).available) := by
  simp only [doTakeAvailable, debit]
  split
  · refine ⟨0, le_refl 0, hcount.le, by rw [sub_zero], ?_⟩
    intro hlt
    omega
  · refine ⟨_, ?_, min_le_left _ _, rfl, ?_⟩ <;> omega

/-- What a lock section can do: it refills and then hands out at most `count`
tokens, all of them when it may wait, and otherwise only tokens that are there. -/
theorem lockSection_cases (b : Bucket) (kind : Kind) (tick : ℤ) {count : ℤ} (hcount : 0 < count) :
    ∃ taken, 0 ≤ taken ∧ taken ≤ count ∧
      b.lockSection kind tick count = ((b.adjustAvailableTokens tick).debit taken, taken) ∧
      (kind = .takeAvailable → 0 < taken →
        0 ≤ ((b.adjustAvailableTokens tick).debit taken).available) := by
  cases kind with
  | take =>
      refine ⟨count, hcount.le, le_refl _, ?_, nofun⟩
      simp only [lockSection, doTake_eq]
  | takeAvailable =>
      obtain ⟨taken, hnonneg, hle, heq, hcover⟩ := doTakeAvailable_eq b tick hcount
      exact ⟨taken, hnonneg, hle, heq, fun _ => hcover⟩

theorem Valid.debit {b : Bucket} (hb : b.Valid) {taken : ℤ} (htaken : 0 ≤ taken) :
    (b.debit taken).Valid := by
  refine ⟨hb.quantum_pos, hb.quantum_le, ?_⟩
  have hle := hb.available_le
  simp only [Bucket.debit]
  omega

theorem Valid.lockSection {b : Bucket} (hb : b.Valid) (kind : Kind) (tick : ℤ) {count : ℤ}
    (hcount : 0 < count) : (b.lockSection kind tick count).1.Valid := by
  obtain ⟨taken, hnonneg, -, heq, -⟩ := lockSection_cases b kind tick hcount
  rw [heq]
  exact (hb.adjust tick).debit hnonneg

/-- The tokens of a lock section are paid for by the slack of the bucket. -/
theorem lockSection_slack {b : Bucket} (hb : b.Valid) (kind : Kind) {tick count : ℤ}
    (hcount : 0 < count) (hassert : b.Asserts tick) :
    (b.lockSection kind tick count).2 + (b.lockSection kind tick count).1.slack ≤ b.slack := by
  obtain ⟨taken, -, -, heq, -⟩ := lockSection_cases b kind tick hcount
  have hrefill := adjustAvailableTokens_slack hb (fun _ => hassert)
  rw [heq, debit_slack]
  omega

end Bucket

end Eureka.TokenBucket

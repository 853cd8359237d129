import Eureka.Library.MachineArithmetic
import Eureka.Library.Transition
import Eureka.TokenBucket.Bucket

/-!
# The arithmetic of the token bucket

`Take` and `TakeAvailable` on signed 64-bit integers, in builds with and without
assertions.  The constructor checks the capacity and the quantum, but it accepts
every fill tick, and no call checks what it computes.

* `callChecked_eq_ok`: what a call computes without an undefined operation is what
  `Bucket` computes on exact integers;
* `neverUndefined_iff`: what is left to that.  Most operations are never undefined: the
  ticks of two calls have the same sign, the balance is at most the capacity, and the
  tokens that are taken are there.  What remains is `CallFits`;
* `Bounded.callFits`: bounds on the clock and on the count that are enough for it;
* `always_defined`: a run whose calls are within them is defined throughout.
-/

namespace Eureka.TokenBucket

open Transition SignedArithmetic

namespace Bucket

/-! ## Calls with checked operations -/

/-- `(Clock::now() - start_time_) / fill_tick_`. -/
def ticksChecked (b : Bucket) (now : ℤ) : Except Stop ℤ := do
  let sinceStart ← sub 64 now b.startTime
  div 64 sinceStart b.fillTick

/-- `AdjustAvailableTokens`. -/
def adjustChecked (ndebug : Bool) (b : Bucket) (currentTick : ℤ) : Except Stop Bucket := do
  assert (ndebug = true ∨ b.Asserts currentTick)
  -- the tick is stored even when the bucket is full
  let lastTick := b.latestTick
  let b := { b with latestTick := currentTick }
  if b.capacity ≤ b.available then return b
  else
    let elapsed ← sub 64 currentTick lastTick
    let filledTokens ← mul 64 elapsed b.quantum
    let available ← add 64 b.available filledTokens
    return { b with available := min available b.capacity }

/-- `DoTakeAvailable`. -/
def doTakeAvailableChecked (ndebug : Bool) (b : Bucket) (currentTicks count : ℤ) :
    Except Stop (Bucket × ℤ) := do
  let b ← b.adjustChecked ndebug currentTicks
  if b.available ≤ 0 then return (b, 0)
  else
    let taken := min count b.available
    let available ← sub 64 b.available taken
    return ({ b with available := available }, taken)

/-- `DoTake`. -/
def doTakeChecked (ndebug : Bool) (b : Bucket) (currentTicks count : ℤ) :
    Except Stop (Bucket × ℤ) := do
  let b ← b.adjustChecked ndebug currentTicks
  let remain ← sub 64 b.available count
  if 0 ≤ remain then return ({ b with available := remain }, 0)
  else
    -- the debt in ticks, rounded up
    let debt ← neg 64 remain
    let sum ← add 64 debt b.quantum
    let rounded ← sub 64 sum 1
    let waitTicks ← div 64 rounded b.quantum
    let wait ← mul 64 waitTicks b.fillTick
    return ({ b with available := remain }, wait)

def lockSectionChecked (ndebug : Bool) (b : Bucket) (kind : Kind) (currentTicks count : ℤ) :
    Except Stop (Bucket × ℤ) :=
  match kind with
  | .take => b.doTakeChecked ndebug currentTicks count
  | .takeAvailable => b.doTakeAvailableChecked ndebug currentTicks count

/-- `Take` or `TakeAvailable`, at clock reading `now`. -/
def callChecked (ndebug : Bool) (b : Bucket) (kind : Kind) (now count : ℤ) :
    Except Stop (Bucket × ℤ) := do
  assert (ndebug = true ∨ 0 ≤ count)
  if count ≤ 0 then return (b, 0)
  else
    let ticksSinceStart ← b.ticksChecked now
    b.lockSectionChecked ndebug kind ticksSinceStart count

/-! ## Computed results are exact -/

/-- `lockSection` with what the caller is told: the wait or the tokens. -/
def lockSectionResult (b : Bucket) (kind : Kind) (tick count : ℤ) : Bucket × ℤ :=
  match kind with
  | .take => b.doTake tick count
  | .takeAvailable => b.doTakeAvailable tick count

theorem lockSectionResult_fst (b : Bucket) (kind : Kind) (tick count : ℤ) :
    (b.lockSectionResult kind tick count).1 = (b.lockSection kind tick count).1 := by
  cases kind <;> rfl

variable {b b' : Bucket} {ndebug : Bool} {kind : Kind} {tick now count result : ℤ}

theorem ticksChecked_eq_ok (hticks : b.ticksChecked now = .ok tick) :
    Fits 64 (now - b.startTime) ∧ b.fillTick ≠ 0 ∧ tick = (now - b.startTime).tdiv b.fillTick := by
  obtain ⟨sinceStart, hsince, hdiv⟩ := bind_eq_ok_iff.mp hticks
  obtain ⟨hfits, rfl⟩ := exact_eq_ok_iff.mp hsince
  obtain ⟨hzero, -, rfl⟩ := div_eq_ok_iff.mp hdiv
  exact ⟨hfits, hzero, rfl⟩

theorem adjustChecked_eq_ok (hadjust : b.adjustChecked ndebug tick = .ok b') :
    (ndebug = true ∨ b.Asserts tick) ∧ b' = b.adjustAvailableTokens tick := by
  obtain ⟨⟨⟩, hassert, hrest⟩ := bind_eq_ok_iff.mp hadjust
  refine ⟨assert_eq_ok_iff.mp hassert, ?_⟩
  unfold adjustAvailableTokens
  dsimp only at hrest ⊢
  split at hrest
  · next hfull =>
    rw [if_pos hfull]
    exact (Except.ok.inj hrest).symm
  · next hroom =>
    rw [if_neg hroom]
    obtain ⟨elapsed, helapsed, hrest⟩ := bind_eq_ok_iff.mp hrest
    obtain ⟨filledTokens, hfilled, hrest⟩ := bind_eq_ok_iff.mp hrest
    obtain ⟨available, havailable, hrest⟩ := bind_eq_ok_iff.mp hrest
    obtain ⟨-, rfl⟩ := exact_eq_ok_iff.mp helapsed
    obtain ⟨-, rfl⟩ := exact_eq_ok_iff.mp hfilled
    obtain ⟨-, rfl⟩ := exact_eq_ok_iff.mp havailable
    exact (Except.ok.inj hrest).symm

theorem doTakeAvailableChecked_eq_ok
    (htake : b.doTakeAvailableChecked ndebug tick count = .ok (b', result)) :
    (ndebug = true ∨ b.Asserts tick) ∧ (b', result) = b.doTakeAvailable tick count := by
  obtain ⟨mid, hmid, hrest⟩ := bind_eq_ok_iff.mp htake
  obtain ⟨hassert, rfl⟩ := adjustChecked_eq_ok hmid
  refine ⟨hassert, ?_⟩
  unfold doTakeAvailable
  dsimp only at hrest ⊢
  split at hrest
  · next hempty =>
    rw [if_pos hempty]
    exact (Except.ok.inj hrest).symm
  · next hsome =>
    rw [if_neg hsome]
    obtain ⟨available, havailable, hrest⟩ := bind_eq_ok_iff.mp hrest
    obtain ⟨-, rfl⟩ := exact_eq_ok_iff.mp havailable
    exact (Except.ok.inj hrest).symm

theorem doTakeChecked_eq_ok (htake : b.doTakeChecked ndebug tick count = .ok (b', result)) :
    (ndebug = true ∨ b.Asserts tick) ∧ (b', result) = b.doTake tick count := by
  obtain ⟨mid, hmid, hrest⟩ := bind_eq_ok_iff.mp htake
  obtain ⟨hassert, rfl⟩ := adjustChecked_eq_ok hmid
  refine ⟨hassert, ?_⟩
  obtain ⟨remain, hremain, hrest⟩ := bind_eq_ok_iff.mp hrest
  obtain ⟨-, rfl⟩ := exact_eq_ok_iff.mp hremain
  unfold doTake
  dsimp only at hrest ⊢
  split at hrest
  · next henough =>
    rw [if_pos henough]
    exact (Except.ok.inj hrest).symm
  · next hdebt =>
    rw [if_neg hdebt]
    obtain ⟨debt, hdebt, hrest⟩ := bind_eq_ok_iff.mp hrest
    obtain ⟨sum, hsum, hrest⟩ := bind_eq_ok_iff.mp hrest
    obtain ⟨rounded, hrounded, hrest⟩ := bind_eq_ok_iff.mp hrest
    obtain ⟨waitTicks, hticks, hrest⟩ := bind_eq_ok_iff.mp hrest
    obtain ⟨wait, hwait, hrest⟩ := bind_eq_ok_iff.mp hrest
    obtain ⟨-, rfl⟩ := exact_eq_ok_iff.mp hdebt
    obtain ⟨-, rfl⟩ := exact_eq_ok_iff.mp hsum
    obtain ⟨-, rfl⟩ := exact_eq_ok_iff.mp hrounded
    obtain ⟨-, -, rfl⟩ := div_eq_ok_iff.mp hticks
    obtain ⟨-, rfl⟩ := exact_eq_ok_iff.mp hwait
    exact (Except.ok.inj hrest).symm

/-- **A defined call is exact.** -/
theorem callChecked_eq_ok (hcall : b.callChecked ndebug kind now count = .ok (b', result)) :
    (count ≤ 0 ∧ (b', result) = (b, 0)) ∨
    (0 < count ∧ Fits 64 (now - b.startTime) ∧
      (ndebug = true ∨ b.Asserts ((now - b.startTime).tdiv b.fillTick)) ∧
      (b', result) = b.lockSectionResult kind ((now - b.startTime).tdiv b.fillTick) count) := by
  obtain ⟨⟨⟩, -, hrest⟩ := bind_eq_ok_iff.mp hcall
  split at hrest
  · next hnone => exact .inl ⟨hnone, (Except.ok.inj hrest).symm⟩
  · next hsome =>
    obtain ⟨tick, htick, hsection⟩ := bind_eq_ok_iff.mp hrest
    obtain ⟨hfits, -, rfl⟩ := ticksChecked_eq_ok htick
    refine .inr ⟨not_le.mp hsome, hfits, ?_⟩
    cases kind with
    | take => exact doTakeChecked_eq_ok hsection
    | takeAvailable => exact doTakeAvailableChecked_eq_ok hsection

/-! ## When a call is defined -/

/-- The balance that a call finds behind its refill. -/
def refilled (b : Bucket) (tick : ℤ) : ℤ :=
  if b.capacity ≤ b.available then b.available
  else min (b.available + (tick - b.latestTick) * b.quantum) b.capacity

/-- The refill, on its own and with the balance, is a 64-bit value, unless the bucket is full. -/
def RefillFits (b : Bucket) (tick : ℤ) : Prop :=
  b.available < b.capacity →
    Fits 64 ((tick - b.latestTick) * b.quantum) ∧
      Fits 64 (b.available + (tick - b.latestTick) * b.quantum)

/-- Where the balance does not cover `count`, there is room for a quantum above the missing
tokens, and the ticks that refill them are not too long. -/
def WaitFits (b : Bucket) (tick count : ℤ) : Prop :=
  b.refilled tick < count →
    count - b.refilled tick + b.quantum < 2 ^ 63 ∧
      Fits 64 ((count - b.refilled tick + b.quantum - 1) / b.quantum * b.fillTick)

/-- The condition on a call.  A build with assertions may stop at the tick. -/
def CallFits (ndebug : Bool) (b : Bucket) (kind : Kind) (now count : ℤ) : Prop :=
  0 < count →
    b.fillTick ≠ 0 ∧ now - b.startTime < 2 ^ 63 ∧
      (ndebug = true ∨ b.Asserts ((now - b.startTime).tdiv b.fillTick) →
        b.RefillFits ((now - b.startTime).tdiv b.fillTick) ∧
          (kind = .take → b.WaitFits ((now - b.startTime).tdiv b.fillTick) count))

theorem adjust_available (b : Bucket) (tick : ℤ) :
    (b.adjustAvailableTokens tick).available = b.refilled tick := by
  unfold refilled
  split
  · next hfull => exact adjust_available_of_le b tick hfull
  · next hroom => exact adjust_available_of_lt b tick (not_le.mp hroom)

theorem adjustChecked_neverUndefined (helapsed : Fits 64 (tick - b.latestTick)) :
    NeverUndefined (b.adjustChecked ndebug tick) ↔
      (ndebug = true ∨ b.Asserts tick → b.RefillFits tick) := by
  unfold adjustChecked RefillFits
  rw [neverUndefined_assert_bind]
  refine forall_congr' fun _ => ?_
  dsimp only
  split
  · next hfull => exact iff_of_true (neverUndefined_pure _) fun hroom => absurd hfull (not_le.mpr hroom)
  · next hroom =>
    -- the difference of the ticks fits, so the product and the sum remain
    rw [neverUndefined_sub_bind, neverUndefined_mul_bind, neverUndefined_add_bind,
      and_iff_right helapsed, and_iff_left (neverUndefined_pure _)]
    exact (imp_iff_right (not_le.mp hroom)).symm

theorem adjustChecked_eq_ok_iff (helapsed : Fits 64 (tick - b.latestTick)) :
    b.adjustChecked ndebug tick = .ok (b.adjustAvailableTokens tick) ↔
      (ndebug = true ∨ b.Asserts tick) ∧ b.RefillFits tick := by
  constructor
  · intro hadjust
    have hasserts := (adjustChecked_eq_ok hadjust).1
    refine ⟨hasserts, (adjustChecked_neverUndefined helapsed).mp ?_ hasserts⟩
    rw [hadjust]
    exact neverUndefined_pure _
  · rintro ⟨hasserts, hfits⟩
    refine bind_eq_ok_iff.mpr ⟨(), assert_eq_ok_iff.mpr hasserts, ?_⟩
    unfold adjustAvailableTokens
    dsimp only
    split
    · rfl
    · next hroom =>
      obtain ⟨hproduct, hsum⟩ := hfits (not_le.mp hroom)
      exact bind_eq_ok_iff.mpr ⟨_, exact_eq_ok_iff.mpr ⟨helapsed, rfl⟩,
        bind_eq_ok_iff.mpr ⟨_, exact_eq_ok_iff.mpr ⟨hproduct, rfl⟩,
          bind_eq_ok_iff.mpr ⟨_, exact_eq_ok_iff.mpr ⟨hsum, rfl⟩, rfl⟩⟩⟩

theorem forall_adjustChecked {P : Bucket → Prop} :
    (∀ mid, b.adjustChecked ndebug tick = .ok mid → P mid) ↔
      (b.adjustChecked ndebug tick = .ok (b.adjustAvailableTokens tick) →
        P (b.adjustAvailableTokens tick)) := by
  refine ⟨fun h => h _, fun h mid hmid => ?_⟩
  obtain rfl := (adjustChecked_eq_ok hmid).2
  exact h hmid

/-- The tokens that are there can be taken. -/
theorem doTakeAvailableChecked_neverUndefined (helapsed : Fits 64 (tick - b.latestTick))
    (hpos : 0 < count) (hcapacity : Fits 64 b.capacity) (hvalid : b.Valid) :
    NeverUndefined (b.doTakeAvailableChecked ndebug tick count) ↔
      (ndebug = true ∨ b.Asserts tick → b.RefillFits tick) := by
  have hle := (hvalid.adjust tick).available_le
  rw [adjust_capacity] at hle
  unfold doTakeAvailableChecked
  rw [neverUndefined_bind, adjustChecked_neverUndefined helapsed, forall_adjustChecked]
  refine and_iff_left fun _ => ?_
  split
  · exact neverUndefined_pure _
  · next hsome =>
    rw [neverUndefined_sub_bind, and_iff_left (neverUndefined_pure _)]
    unfold Fits at *
    omega

/-- Of the operations of a wait, only two can go wrong. -/
theorem wait_neverUndefined {debt quantum fillTick : ℤ} (hdebt : 0 < debt) (hquantum : 0 < quantum)
    {f : ℤ → Except Stop (Bucket × ℤ)} (hf : ∀ wait, NeverUndefined (f wait)) :
    NeverUndefined (do
        let sum ← add 64 debt quantum
        let rounded ← sub 64 sum 1
        let waitTicks ← div 64 rounded quantum
        let wait ← mul 64 waitTicks fillTick
        f wait) ↔
      debt + quantum < 2 ^ 63 ∧ Fits 64 ((debt + quantum - 1) / quantum * fillTick) := by
  have hnonneg : 0 ≤ debt + quantum - 1 := by omega
  rw [neverUndefined_add_bind, neverUndefined_sub_bind, neverUndefined_div_bind,
    neverUndefined_mul_bind, and_iff_left (hf _), Int.tdiv_eq_ediv_of_nonneg hnonneg]
  have hlow := Int.ediv_nonneg hnonneg hquantum.le
  have hhigh := Int.ediv_le_self quantum hnonneg
  -- from here on the quotient is only a number between 0 and the rounded debt
  generalize (debt + quantum - 1) / quantum = waitTicks at *
  generalize waitTicks * fillTick = wait
  unfold Fits
  omega

theorem doTakeChecked_neverUndefined (helapsed : Fits 64 (tick - b.latestTick))
    (hcount : Fits 64 count) (hpos : 0 < count) (hcapacity : Fits 64 b.capacity)
    (hvalid : b.Valid) :
    NeverUndefined (b.doTakeChecked ndebug tick count) ↔
      (ndebug = true ∨ b.Asserts tick → b.RefillFits tick ∧ b.WaitFits tick count) := by
  have hle := (hvalid.adjust tick).available_le
  rw [adjust_capacity, adjust_available] at hle
  unfold doTakeChecked
  rw [neverUndefined_bind, forall_adjustChecked, adjustChecked_neverUndefined helapsed,
    adjustChecked_eq_ok_iff helapsed, forall_and, and_imp]
  refine and_congr_right fun hrefill => forall_congr' fun hasserts => ?_
  rw [imp_iff_right (hrefill hasserts), neverUndefined_sub_bind, adjust_available, WaitFits]
  -- the balance is at most the capacity, so subtracting the count never overflows
  by_cases henough : 0 ≤ b.refilled tick - count
  · rw [if_pos henough, and_iff_left (neverUndefined_pure _)]
    refine iff_of_true ?_ fun hdebt => by omega
    unfold Fits at *
    omega
  · have hdebt : 0 < count - b.refilled tick := by omega
    rw [if_neg henough, neverUndefined_neg_bind, neg_sub, adjust_quantum, adjust_fillTick,
      wait_neverUndefined hdebt hvalid.quantum_pos fun _ => neverUndefined_pure _,
      imp_iff_right (by omega)]
    have hquantum := hvalid.quantum_pos
    refine ⟨fun h => h.2.2, fun h => ⟨?_, ?_, h⟩⟩
    · unfold Fits
      omega
    · unfold Fits
      omega

theorem lockSectionChecked_neverUndefined (helapsed : Fits 64 (tick - b.latestTick))
    (hcount : Fits 64 count) (hpos : 0 < count) (hcapacity : Fits 64 b.capacity)
    (hvalid : b.Valid) :
    NeverUndefined (b.lockSectionChecked ndebug kind tick count) ↔
      (ndebug = true ∨ b.Asserts tick → b.RefillFits tick ∧ (kind = .take → b.WaitFits tick count)) := by
  cases kind with
  | take =>
      rw [lockSectionChecked, doTakeChecked_neverUndefined helapsed hcount hpos hcapacity hvalid,
        imp_iff_right rfl]
  | takeAvailable =>
      rw [lockSectionChecked, doTakeAvailableChecked_neverUndefined helapsed hpos hcapacity hvalid]
      refine forall_congr' fun _ => (and_iff_left nofun).symm

/-- The calls of a bucket so far: the last one read the clock at `last`. -/
structure Between (b : Bucket) (now : ℤ) : Prop where
  valid : b.Valid
  capacity_fits : Fits 64 b.capacity
  start_le : b.startTime ≤ now
  latestTick : ∃ last, b.startTime ≤ last ∧ last ≤ now ∧ last - b.startTime < 2 ^ 63 ∧
    b.latestTick = (last - b.startTime).tdiv b.fillTick

/-- The ticks of two readings have the same sign, so their difference fits. -/
theorem Between.elapsed_fits (hb : b.Between now) (hfits : now - b.startTime < 2 ^ 63) :
    Fits 64 ((now - b.startTime).tdiv b.fillTick - b.latestTick) := by
  obtain ⟨last, hlast, -, hlastFits, hlatest⟩ := hb.latestTick
  have hstart := hb.start_le
  rw [hlatest]
  have hnow := Int.natAbs_tdiv_le_natAbs (now - b.startTime) b.fillTick
  have hbefore := Int.natAbs_tdiv_le_natAbs (last - b.startTime) b.fillTick
  unfold Fits
  -- the constructor lets a negative fill tick pass
  rcases le_total 0 b.fillTick with hfill | hfill
  · have h₁ := Int.tdiv_nonneg (sub_nonneg.mpr hstart) hfill
    have h₂ := Int.tdiv_nonneg (sub_nonneg.mpr hlast) hfill
    omega
  · have h₁ := Int.tdiv_nonpos_of_nonneg_of_nonpos (sub_nonneg.mpr hstart) hfill
    have h₂ := Int.tdiv_nonpos_of_nonneg_of_nonpos (sub_nonneg.mpr hlast) hfill
    omega

/-- **One call.**  No operation of it is undefined exactly when it fits. -/
theorem neverUndefined_iff (hb : b.Between now) (hcount : Fits 64 count) :
    NeverUndefined (b.callChecked ndebug kind now count) ↔ b.CallFits ndebug kind now count := by
  have hstart := hb.start_le
  unfold callChecked
  rw [neverUndefined_assert_bind, CallFits]
  by_cases hpos : 0 < count
  swap
  · rw [if_pos (not_lt.mp hpos)]
    exact iff_of_true (fun _ => neverUndefined_pure _) fun h => absurd h hpos
  rw [if_neg (not_le.mpr hpos), imp_iff_right (Or.inr hpos.le), imp_iff_right hpos]
  unfold ticksChecked
  rw [bind_assoc, neverUndefined_sub_bind, neverUndefined_div_bind]
  constructor
  · rintro ⟨hsince, hfill, -, hsection⟩
    refine ⟨hfill, hsince.2, ?_⟩
    rwa [lockSectionChecked_neverUndefined (hb.elapsed_fits hsince.2) hcount hpos hb.capacity_fits
      hb.valid] at hsection
  · rintro ⟨hfill, hsince, hsection⟩
    have hfits : Fits 64 (now - b.startTime) := ⟨by omega, hsince⟩
    refine ⟨hfits, hfill, hfits.tdiv (by omega) _, ?_⟩
    rwa [lockSectionChecked_neverUndefined (hb.elapsed_fits hsince) hcount hpos hb.capacity_fits
      hb.valid]

theorem Between.mono {later : ℤ} (hb : b.Between now) (hle : now ≤ later) : b.Between later := by
  obtain ⟨last, hlast, hnow, hfits, hlatest⟩ := hb.latestTick
  exact ⟨hb.valid, hb.capacity_fits, hb.start_le.trans hle, last, hlast, hnow.trans hle, hfits,
    hlatest⟩

theorem Between.call (hb : b.Between now)
    (hcall : b.callChecked ndebug kind now count = .ok (b', result)) : b'.Between now := by
  rcases callChecked_eq_ok hcall with ⟨-, heq⟩ | ⟨hpos, hfits, -, heq⟩
  · obtain ⟨rfl, -⟩ := Prod.mk.inj heq
    exact hb
  · obtain rfl : b' = _ := (congrArg Prod.fst heq).trans (lockSectionResult_fst _ _ _ _)
    refine ⟨hb.valid.lockSection kind _ hpos, ?_, ?_, now, ?_, le_rfl, ?_, ?_⟩
    · rw [lockSection_capacity]
      exact hb.capacity_fits
    · rw [lockSection_startTime]
      exact hb.start_le
    · rw [lockSection_startTime]
      exact hb.start_le
    · rw [lockSection_startTime]
      exact hfits.2
    · rw [lockSection_startTime, lockSection_fillTick, lockSection_latestTick]

/-! ## Bounds -/

/-- Bounds on a call that takes tokens.  The clock is not too far from the time of the
construction, nor from the tick of the last refill if there is room for another one, and the count
is not too far above the balance. -/
def Bounded (b : Bucket) (kind : Kind) (now count : ℤ) : Prop :=
  0 < count →
    0 < b.fillTick ∧ now < b.startTime + 2 ^ 63 ∧
      (b.available < b.capacity → now < b.startTime +
        (b.latestTick + (2 ^ 63 - 1 - b.capacity) / b.quantum + 1) * b.fillTick) ∧
      (kind = .take → count < b.available + 2 ^ 63 - b.quantum ∧
        count ≤ b.available + (2 ^ 63 - 1) / b.fillTick * b.quantum)

instance (b : Bucket) (kind : Kind) (now count : ℤ) : Decidable (b.Bounded kind now count) :=
  inferInstanceAs (Decidable (_ → _))

/-- With a positive fill tick the ticks do not go back. -/
theorem Between.asserts (hb : b.Between now) (hfill : 0 < b.fillTick) :
    b.Asserts ((now - b.startTime).tdiv b.fillTick) := by
  obtain ⟨last, hlast, hnow, -, hlatest⟩ := hb.latestTick
  have hstart := hb.start_le
  rw [Asserts, hlatest, Int.tdiv_eq_ediv_of_nonneg (by omega),
    Int.tdiv_eq_ediv_of_nonneg (by omega)]
  exact Int.ediv_le_ediv hfill (by omega)

theorem available_le_refilled (hvalid : b.Valid) (hasserts : b.Asserts tick) :
    b.available ≤ b.refilled tick := by
  have hproduct : 0 ≤ (tick - b.latestTick) * b.quantum :=
    mul_nonneg (sub_nonneg.mpr hasserts) hvalid.quantum_pos.le
  unfold refilled
  split
  · exact le_rfl
  · exact le_min (by omega) hvalid.available_le

theorem refillFits_of_le (hvalid : b.Valid) (hasserts : b.Asserts tick)
    (hlow : -2 ^ 63 ≤ b.available)
    (hle : b.available < b.capacity → tick - b.latestTick ≤ (2 ^ 63 - 1 - b.capacity) / b.quantum) :
    b.RefillFits tick := by
  intro hroom
  have hpos := hvalid.quantum_pos
  have hcapacity := hvalid.quantum_le
  have hnonneg : 0 ≤ (tick - b.latestTick) * b.quantum :=
    mul_nonneg (sub_nonneg.mpr hasserts) hpos.le
  have hproduct : (tick - b.latestTick) * b.quantum ≤ 2 ^ 63 - 1 - b.capacity :=
    calc (tick - b.latestTick) * b.quantum
      _ ≤ (2 ^ 63 - 1 - b.capacity) / b.quantum * b.quantum :=
        mul_le_mul_of_nonneg_right (hle hroom) hpos.le
      _ ≤ 2 ^ 63 - 1 - b.capacity := Int.ediv_mul_le _ hpos.ne'
  unfold Fits
  omega

theorem waitFits_of_le (hvalid : b.Valid) (hasserts : b.Asserts tick) (hfill : 0 < b.fillTick)
    (hroom : count < b.available + 2 ^ 63 - b.quantum)
    (hle : count ≤ b.available + (2 ^ 63 - 1) / b.fillTick * b.quantum) : b.WaitFits tick count := by
  intro hdebt
  have hpos := hvalid.quantum_pos
  have hrefilled := available_le_refilled hvalid hasserts
  -- no more ticks than fit, scaled to clock units
  have hticks : (count - b.refilled tick + b.quantum - 1) / b.quantum ≤
      (2 ^ 63 - 1) / b.fillTick := by
    rw [← Int.lt_add_one_iff, Int.ediv_lt_iff_lt_mul hpos, add_mul, one_mul]
    omega
  have hnonneg : 0 ≤ (count - b.refilled tick + b.quantum - 1) / b.quantum :=
    Int.ediv_nonneg (by omega) hpos.le
  have hwait : (count - b.refilled tick + b.quantum - 1) / b.quantum * b.fillTick ≤ 2 ^ 63 - 1 :=
    (mul_le_mul_of_nonneg_right hticks hfill.le).trans (Int.ediv_mul_le _ hfill.ne')
  have hwaitNonneg := mul_nonneg hnonneg hfill.le
  refine ⟨by omega, ?_⟩
  unfold Fits
  omega

/-- **A bounded call fits.** -/
theorem Bounded.callFits (hbound : b.Bounded kind now count) (hb : b.Between now)
    (hlow : -2 ^ 63 ≤ b.available) : b.CallFits ndebug kind now count := by
  intro hpos
  obtain ⟨hfill, hclock, hrefill, htake⟩ := hbound hpos
  have hstart := hb.start_le
  have hasserts := hb.asserts hfill
  refine ⟨hfill.ne', by omega, fun _ => ⟨?_, fun hkind => ?_⟩⟩
  · refine refillFits_of_le hb.valid hasserts hlow fun hroom => ?_
    have htick : (now - b.startTime) / b.fillTick <
        b.latestTick + (2 ^ 63 - 1 - b.capacity) / b.quantum + 1 := by
      rw [Int.ediv_lt_iff_lt_mul hfill]
      have hnow := hrefill hroom
      omega
    rw [Int.tdiv_eq_ediv_of_nonneg (by omega)]
    omega
  · obtain ⟨hroom, hle⟩ := htake hkind
    exact waitFits_of_le hb.valid hasserts hfill hroom hle

theorem Bounded.low (hbound : b.Bounded kind now count) (hb : b.Between now)
    (hlow : -2 ^ 63 ≤ b.available)
    (hcall : b.callChecked ndebug kind now count = .ok (b', result)) : -2 ^ 63 ≤ b'.available := by
  rcases callChecked_eq_ok hcall with ⟨-, heq⟩ | ⟨hpos, -, -, heq⟩
  · obtain ⟨rfl, -⟩ := Prod.mk.inj heq
    exact hlow
  · obtain ⟨hfill, -, -, htake⟩ := hbound hpos
    have hrefilled := available_le_refilled hb.valid (hb.asserts hfill)
    obtain rfl : b' = _ := congrArg Prod.fst heq
    cases kind with
    | take =>
        have hroom := (htake rfl).1
        have hquantum := hb.valid.quantum_pos
        rw [lockSectionResult, doTake_eq, debit, adjust_available]
        dsimp only
        omega
    | takeAvailable =>
        rw [lockSectionResult, doTakeAvailable]
        dsimp only
        split
        · rw [adjust_available]
          omega
        · dsimp only
          omega

end Bucket

/-! ## Runs -/

/-- A bucket with the latest clock reading, and what has stopped it. -/
structure Meter where
  bucket : Bucket
  clock : ℤ
  stopped : Option Stop
deriving Repr, DecidableEq

structure TimedCall where
  kind : Bucket.Kind
  now : ℤ
  count : ℤ
deriving Repr, DecidableEq

def Meter.call (ndebug : Bool) (m : Meter) (c : TimedCall) : Option Meter :=
  if m.stopped = none ∧ m.clock ≤ c.now ∧ Fits 64 c.now ∧ 0 ≤ c.count ∧ Fits 64 c.count then
    match m.bucket.callChecked ndebug c.kind c.now c.count with
    | .ok (bucket, _) => some ⟨bucket, c.now, none⟩
    | .error stop => some { m with stopped := some stop }
  else none

/-- Calls with non-negative counts under a clock that does not go back, one after the other. -/
def meter (ndebug : Bool) (cap fillTick quantum : ℤ) : System Meter TimedCall where
  start m := ∃ bucket now, Fits 64 cap ∧ Fits 64 fillTick ∧ Fits 64 quantum ∧ Fits 64 now ∧
    Bucket.construct cap fillTick quantum now = .ok bucket ∧ m = ⟨bucket, now, none⟩
  step := Meter.call ndebug

/-- No operation has been undefined. -/
def Meter.Defined (m : Meter) : Prop := m.stopped ≠ some .undefined

def Meter.Bounded (m : Meter) (c : TimedCall) : Prop := m.bucket.Bounded c.kind c.now c.count

instance (m : Meter) (c : TimedCall) : Decidable (m.Bounded c) :=
  inferInstanceAs (Decidable (Bucket.Bounded ..))

namespace Meter

variable {m m' : Meter} {c : TimedCall} {ndebug : Bool} {cap fillTick quantum : ℤ}

theorem call_cases (hcall : m.call ndebug c = some m') :
    m.clock ≤ c.now ∧ SignedArithmetic.Fits 64 c.count ∧
      ((∃ bucket result, m.bucket.callChecked ndebug c.kind c.now c.count = .ok (bucket, result) ∧
          m' = ⟨bucket, c.now, none⟩) ∨
        ∃ stop, m.bucket.callChecked ndebug c.kind c.now c.count = .error stop ∧
          m' = { m with stopped := some stop }) := by
  simp only [call, Option.ite_none_right_eq_some] at hcall
  obtain ⟨⟨-, hclock, -, -, hcount⟩, hcall⟩ := hcall
  refine ⟨hclock, hcount, ?_⟩
  split at hcall
  · next bucket result hresult =>
    exact .inl ⟨bucket, result, hresult, (Option.some.inj hcall).symm⟩
  · next stop hresult => exact .inr ⟨stop, hresult, (Option.some.inj hcall).symm⟩

/-- What holds between the calls of a run that is defined. -/
structure Inv (m : Meter) : Prop where
  defined : m.Defined
  between : m.bucket.Between m.clock
  low : -2 ^ 63 ≤ m.bucket.available

/-- **One step.** -/
theorem Inv.call (hm : m.Inv) (hbound : m.Bounded c) (hcall : m.call ndebug c = some m') :
    m'.Inv := by
  obtain ⟨hclock, hcount, hcases⟩ := call_cases hcall
  have hbetween := hm.between.mono hclock
  obtain ⟨bucket, result, hresult, rfl⟩ | ⟨stop, hresult, rfl⟩ := hcases
  · exact ⟨nofun, hbetween.call hresult, hbound.low hbetween hm.low hresult⟩
  · have hnever : NeverUndefined (m.bucket.callChecked ndebug c.kind c.now c.count) :=
      (Bucket.neverUndefined_iff hbetween hcount).mpr (hbound.callFits hbetween hm.low)
    refine ⟨fun hundefined => hnever ?_, hm.between, hm.low⟩
    rw [hresult, Option.some.inj hundefined]

end Meter

/-- **The arithmetic of a bucket.**  No operation of a run divides by zero or overflows, if each of
its calls is bounded. -/
theorem always_defined {ndebug : Bool} {cap fillTick quantum : ℤ} {m : Meter}
    {calls : List TimedCall} (hstart : (meter ndebug cap fillTick quantum).start m)
    (hbounded : (meter ndebug cap fillTick quantum).EachStep Meter.Bounded m calls) :
    (meter ndebug cap fillTick quantum).Always Meter.Defined m calls := by
  obtain ⟨bucket, now, hcap, -, -, -, hbucket, rfl⟩ := hstart
  refine System.always_of_eachStep (I := Meter.Inv) (fun _ _ _ hm hbound hcall => hm.call hbound hcall)
    (fun _ hm => hm.defined) ?_ hbounded
  obtain ⟨hpos, hle, heq⟩ := Bucket.construct_eq_ok hbucket
  have hvalid := Bucket.valid_of_construct hbucket
  subst heq
  exact ⟨nofun, ⟨hvalid, hcap, le_rfl, now, le_rfl, le_rfl, by norm_num, by simp⟩, hcap.1⟩

/-- Tokens are taken, also ahead of time; the last call leaves a debt near `2 ^ 60`. -/
theorem always_defined_debt :
    (meter true 10 5 4).Always Meter.Defined ⟨⟨10, 10, 5, 4, 0, 0⟩, 0, none⟩
      [⟨.take, 3, 15⟩, ⟨.takeAvailable, 11, 7⟩, ⟨.take, 40, 6⟩, ⟨.take, 41, 2 ^ 60⟩] :=
  always_defined ⟨_, 0, by decide, by decide, by decide, by decide, rfl, rfl⟩ (by decide)

/-- The constructor accepts a fill tick of 0, and the first `Take` divides by it. -/
theorem zero_fillTick :
    ¬ ∀ (ndebug : Bool) (cap fillTick quantum : ℤ) (m₀ m : Meter) (calls : List TimedCall),
      (meter ndebug cap fillTick quantum).start m₀ →
      (meter ndebug cap fillTick quantum).run m₀ calls = some m →
      (meter ndebug cap fillTick quantum).Always Meter.Defined m₀ calls := by
  intro hall
  -- every product with a fill tick of 0 fits; it is the division that is undefined
  have halways := hall false 1 0 1 ⟨⟨1, 1, 0, 1, 0, 0⟩, 0, none⟩
    ⟨⟨1, 1, 0, 1, 0, 0⟩, 0, some .undefined⟩ [⟨.take, 0, 1⟩]
    ⟨_, 0, by decide, by decide, by decide, by decide, rfl, rfl⟩ (by decide)
  have hrun : (meter false 1 0 1).run ⟨⟨1, 1, 0, 1, 0, 0⟩, 0, none⟩ [⟨.take, 0, 1⟩] =
      some ⟨⟨1, 1, 0, 1, 0, 0⟩, 0, some .undefined⟩ := by decide
  exact halways.last hrun rfl

end Eureka.TokenBucket

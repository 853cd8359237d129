import Mathlib
import Eureka.BackoffRetry.Policies

/-!
# Decorrelated jitter

`exponential_decorrelated_jitter` of `backoff/backoff_policy.h` draws a delay
between the base and three times its last delay, and caps it.  It forms the
triple in 64 bits and caps behind the draw, so two things can go wrong:

* **The triple.**  Without a cap, or with a large one, the last delay may grow
  until its triple does not fit.
* **The range.**  A maximum below the base is the next last delay, and if its
  triple is below the base too, the range is empty.

`decorrelates_iff` says that this is all, for runs of any length and all draws.
-/

namespace Eureka.BackoffRetry

structure ExponentialDecorrelatedJitter (σ : Type) where
  engine : σ
  rnd : Distribution σ
  maxDur : ℤ
  lastDur : ℤ

variable {P σ : Type}

/-- The engine is seeded by the clock. -/
def ExponentialDecorrelatedJitter.construct (engine : σ) (rnd : Distribution σ) (maxDur : ℤ) :
    ExponentialDecorrelatedJitter σ :=
  ⟨engine, rnd, maxDur, 0⟩

instance (σ : Type) : Policy (ExponentialDecorrelatedJitter σ) where
  apply policy base _ := do
    let lastDur := if policy.lastDur = 0 then base else policy.lastDur
    let bound ← mul lastDur 3
    -- The range of a distribution must not be empty.
    if base ≤ bound then
      let (delay, engine) := policy.rnd.draw policy.engine base bound
      let final := min delay policy.maxDur
      return (final, { policy with engine, lastDur := final })
    else none

/-- The delays of calls with the same base, one for each count of retries. -/
def applyAll [Policy P] (policy : P) (base : ℤ) : List ℕ → Option (List ℤ)
  | [] => some []
  | doneRetries :: rest => do
      let (delay, next) ← Policy.apply policy base doneRetries
      let delays ← applyAll next base rest
      return delay :: delays

/-- All calls are defined, and their delays are within the maximum, or are the
maximum if that is below the base. -/
def Decorrelates (base maxDur : ℤ) : Prop :=
  ∀ (σ : Type) (engine : σ) (rnd : Distribution σ) (retries : List ℕ), ∃ delays,
    applyAll (ExponentialDecorrelatedJitter.construct engine rnd maxDur) base retries =
      some delays ∧ ∀ delay ∈ delays, delay ≤ maxDur ∧ (maxDur < base → delay = maxDur)

variable {base maxDur : ℤ}

/-! ## Runs of calls -/

theorem applyAll_cons_eq_some [Policy P] {policy : P} {doneRetries : ℕ} {rest : List ℕ}
    {delays : List ℤ} :
    applyAll policy base (doneRetries :: rest) = some delays ↔
      ∃ delay next later, Policy.apply policy base doneRetries = some (delay, next) ∧
        applyAll next base rest = some later ∧ delay :: later = delays := by
  simp [applyAll, Option.bind_eq_some_iff]

/-- Calls that keep `Keeps` of the policy and give delays that are `Good` do so all along. -/
theorem exists_applyAll [Policy P] (Keeps : P → Prop) (Good : ℤ → Prop)
    (happly : ∀ policy n, Keeps policy →
      ∃ delay next, Policy.apply policy base n = some (delay, next) ∧ Keeps next ∧ Good delay)
    (retries : List ℕ) {policy : P} (hpolicy : Keeps policy) :
    ∃ delays, applyAll policy base retries = some delays ∧ ∀ delay ∈ delays, Good delay := by
  induction retries generalizing policy with
  | nil => exact ⟨[], rfl, by simp⟩
  | cons n rest ih =>
      obtain ⟨delay, next, hdelay, hkeeps, hgood⟩ := happly policy n hpolicy
      obtain ⟨later, hlater, hall⟩ := ih hkeeps
      refine ⟨delay :: later, applyAll_cons_eq_some.mpr ⟨_, _, _, hdelay, hlater, rfl⟩, ?_⟩
      exact List.forall_mem_cons.mpr ⟨hgood, hall⟩

namespace ExponentialDecorrelatedJitter

variable {policy : ExponentialDecorrelatedJitter σ}

def last (policy : ExponentialDecorrelatedJitter σ) (base : ℤ) : ℤ :=
  if policy.lastDur = 0 then base else policy.lastDur

theorem apply_eq_some_iff {n : ℕ} {delay : ℤ} {next : ExponentialDecorrelatedJitter σ} :
    Policy.apply policy base n = some (delay, next) ↔
      ∃ bound, mul (policy.last base) 3 = some bound ∧ base ≤ bound ∧
        min (policy.rnd.draw policy.engine base bound).1 policy.maxDur = delay ∧
        { policy with
          engine := (policy.rnd.draw policy.engine base bound).2
          lastDur := delay } = next := by
  show (mul (policy.last base) 3).bind _ = _ ↔ _
  rw [Option.bind_eq_some_iff]
  refine exists_congr fun bound => and_congr_right fun _ => ?_
  by_cases hle : base ≤ bound
  · simp only [hle, if_true, true_and]
    show some _ = _ ↔ _
    rw [Option.some_inj, Prod.mk.injEq]
    exact and_congr_right fun heq => by rw [heq]
  · simp [hle]

theorem last_of_pos {delay : ℤ} (hlast : policy.lastDur = delay) (hpos : 0 < delay) :
    policy.last base = delay := by
  unfold last
  rw [hlast, if_neg hpos.ne']

/-- What the calls keep: the last delay is within the maximum, and not below the base unless the
maximum is. -/
structure Kept (base maxDur : ℤ) (policy : ExponentialDecorrelatedJitter σ) : Prop where
  maxDur_eq : policy.maxDur = maxDur
  last_le : policy.last base ≤ max base maxDur
  le_last : min base maxDur ≤ policy.last base

theorem kept_construct (engine : σ) (rnd : Distribution σ) :
    (construct engine rnd maxDur).Kept base maxDur where
  maxDur_eq := rfl
  last_le := le_max_left base maxDur
  le_last := min_le_left base maxDur

theorem Kept.exists_apply (h : policy.Kept base maxDur) (hbase : 0 < base) (hmax : 0 < maxDur)
    (hfits : 3 * max base maxDur < 2 ^ 63) (hreach : base ≤ 3 * maxDur) (n : ℕ) :
    ∃ delay next, Policy.apply policy base n = some (delay, next) ∧ next.Kept base maxDur ∧
      delay ≤ maxDur ∧ (maxDur < base → delay = maxDur) := by
  have hlow := h.le_last
  have hhigh := h.last_le
  have hmul : mul (policy.last base) 3 = some (policy.last base * 3) :=
    mul_eq_some_iff.mpr ⟨by omega, rfl⟩
  have hrange : base ≤ policy.last base * 3 := by omega
  have hdraw := policy.rnd.draw_mem policy.engine _ _ hrange
  have happly := apply_eq_some_iff (n := n).mpr ⟨_, hmul, hrange, rfl, rfl⟩
  rw [h.maxDur_eq] at happly
  generalize policy.rnd.draw policy.engine base (policy.last base * 3) = drawn at hdraw happly
  have hpos : 0 < min drawn.1 maxDur := by omega
  refine ⟨_, _, happly, ⟨rfl, ?_, ?_⟩, by omega, by omega⟩
  · rw [last_of_pos rfl hpos]
    show min drawn.1 maxDur ≤ _
    omega
  · rw [last_of_pos rfl hpos]
    show _ ≤ min drawn.1 maxDur
    omega

end ExponentialDecorrelatedJitter

/-! ## The worst draws -/

/-- The distribution that always draws the greatest number. -/
def greatestDraw : Distribution Unit where
  draw _ _ high := (high, ())
  draw_mem _ _ _ hle := ⟨hle, le_refl _⟩

theorem ExponentialDecorrelatedJitter.triple_lt {policy next : ExponentialDecorrelatedJitter σ}
    {n : ℕ} {delay : ℤ} (happly : Policy.apply policy base n = some (delay, next)) :
    policy.last base * 3 < 2 ^ 63 ∧ base ≤ policy.last base * 3 := by
  obtain ⟨bound, hmul, hle, -⟩ := apply_eq_some_iff.mp happly
  obtain ⟨hfits, rfl⟩ := mul_eq_some_iff.mp hmul
  exact ⟨hfits.2, hle⟩

/-- With the greatest draws the last delay becomes three times as large with each call, up to the
maximum. -/
theorem triple_lt_of_applyAll {n : ℕ} {policy : ExponentialDecorrelatedJitter Unit}
    (hrnd : policy.rnd = greatestDraw) (hmaxDur : policy.maxDur = maxDur) (hmax : 0 < maxDur)
    (hlast : 0 < policy.last base) {delays : List ℤ}
    (hrun : applyAll policy base (List.replicate (n + 1) 0) = some delays) :
    3 * min (3 ^ n * policy.last base) maxDur < 2 ^ 63 := by
  induction n generalizing policy delays with
  | zero =>
      obtain ⟨delay, next, later, happly, -, -⟩ := applyAll_cons_eq_some.mp hrun
      have hfits := (ExponentialDecorrelatedJitter.triple_lt happly).1
      rw [pow_zero, one_mul]
      omega
  | succ n ih =>
      obtain ⟨delay, next, later, happly, hlater, -⟩ := applyAll_cons_eq_some.mp hrun
      obtain ⟨bound, hmul, hle, hdelay, hnext⟩ :=
        ExponentialDecorrelatedJitter.apply_eq_some_iff.mp happly
      obtain ⟨-, rfl⟩ := mul_eq_some_iff.mp hmul
      have hgreatest : min (policy.last base * 3) maxDur = delay := by
        rw [hrnd, hmaxDur] at hdelay
        exact hdelay
      have hpos : 0 < delay := by omega
      have hlastNext : next.last base = delay := by
        rw [← hnext]
        exact ExponentialDecorrelatedJitter.last_of_pos rfl hpos
      have hlarge := ih (by rw [← hnext]; exact hrnd) (by rw [← hnext]; exact hmaxDur)
        (hlastNext ▸ hpos) hlater
      have hpower : (1 : ℤ) ≤ 3 ^ n := one_le_pow₀ (by norm_num)
      have hgrows : min (3 ^ (n + 1) * policy.last base) maxDur ≤ min (3 ^ n * delay) maxDur := by
        refine le_min ?_ (min_le_right _ _)
        rw [← hgreatest, mul_min_of_nonneg _ _ (by omega)]
        refine le_min ?_ ?_
        · calc min (3 ^ (n + 1) * policy.last base) maxDur ≤ 3 ^ (n + 1) * policy.last base :=
                min_le_left _ _
            _ = 3 ^ n * (policy.last base * 3) := by ring
        · calc min (3 ^ (n + 1) * policy.last base) maxDur ≤ maxDur := min_le_right _ _
            _ ≤ 3 ^ n * maxDur := le_mul_of_one_le_left hmax.le hpower
      rw [hlastNext] at hlarge
      omega

/-- With the least draws the second call triples the lesser one of the base and the maximum. -/
theorem le_triple_of_applyAll (hbase : 0 < base) (hmax : 0 < maxDur) {delays : List ℤ}
    (hrun : applyAll (ExponentialDecorrelatedJitter.construct () leastDraw maxDur) base [0, 0] =
      some delays) : base ≤ min base maxDur * 3 := by
  obtain ⟨delay, next, later, hfirst, hlater, -⟩ := applyAll_cons_eq_some.mp hrun
  obtain ⟨_, _, _, hsecond, -, -⟩ := applyAll_cons_eq_some.mp hlater
  obtain ⟨bound, -, -, hdelay, hnext⟩ := ExponentialDecorrelatedJitter.apply_eq_some_iff.mp hfirst
  have hleast : min base maxDur = delay := hdelay
  have hlast : next.last base = delay := by
    rw [← hnext]
    exact ExponentialDecorrelatedJitter.last_of_pos rfl (by omega)
  have hreach := (ExponentialDecorrelatedJitter.triple_lt hsecond).2
  rw [hlast, ← hleast] at hreach
  exact hreach

/-! ## All runs -/

/-- **The jitter decorrelates exactly if no triple overflows and the triple of the maximum reaches
the base.** -/
theorem decorrelates_iff (hbase : 0 < base) (hmax : 0 < maxDur) :
    Decorrelates base maxDur ↔ 3 * max base maxDur < 2 ^ 63 ∧ base ≤ 3 * maxDur := by
  constructor
  · intro h
    obtain ⟨_, hleast, -⟩ := h Unit () leastDraw [0, 0]
    have hreach := le_triple_of_applyAll hbase hmax hleast
    obtain ⟨_, hgreatest, -⟩ := h Unit () greatestDraw (List.replicate (maxDur.toNat + 1) 0)
    obtain ⟨_, _, _, hfirst, -, -⟩ := applyAll_cons_eq_some.mp hgreatest
    have hbound := (ExponentialDecorrelatedJitter.triple_lt hfirst).1
    have hlast : (ExponentialDecorrelatedJitter.construct () greatestDraw maxDur).last base =
        base := rfl
    have hcap : (ExponentialDecorrelatedJitter.construct () greatestDraw maxDur).maxDur =
        maxDur := rfl
    have hlarge := triple_lt_of_applyAll rfl rfl hmax (hlast.symm ▸ hbase) hgreatest
    rw [hlast] at hbound hlarge
    rw [hcap] at hlarge
    -- after so many calls the maximum is reached
    have hpower : maxDur ≤ 3 ^ maxDur.toNat * base := by
      have hlt : maxDur.toNat < 3 ^ maxDur.toNat := Nat.lt_pow_self (by norm_num)
      have hcast : (maxDur.toNat : ℤ) < 3 ^ maxDur.toNat := by exact_mod_cast hlt
      calc maxDur ≤ 3 ^ maxDur.toNat := by omega
        _ ≤ 3 ^ maxDur.toNat * base := le_mul_of_one_le_right (by positivity) hbase
    rw [min_eq_right hpower] at hlarge
    omega
  · rintro ⟨hfits, hreach⟩ σ engine rnd retries
    refine exists_applyAll (ExponentialDecorrelatedJitter.Kept base maxDur) _ (fun policy n hkept => ?_)
      retries (ExponentialDecorrelatedJitter.kept_construct engine rnd)
    exact hkept.exists_apply hbase hmax hfits hreach n

theorem decorrelates_iff_of_seconds :
    Decorrelates 8000 50000 ∧ Decorrelates 8000 3000 ∧ ¬ Decorrelates 1 durationMax := by
  refine ⟨(decorrelates_iff ?_ ?_).mpr ?_, (decorrelates_iff ?_ ?_).mpr ?_,
    mt (decorrelates_iff ?_ ?_).mp ?_⟩
  all_goals decide

/-- A maximum of two seconds for a base of eight: the first delay is the maximum, and behind it
there is no range to draw from. -/
theorem not_decorrelates :
    applyAll (ExponentialDecorrelatedJitter.construct () leastDraw 2000) 8000 [0] = some [2000] ∧
      applyAll (ExponentialDecorrelatedJitter.construct () leastDraw 2000) 8000 [0, 1] = none ∧
      ¬ Decorrelates 8000 2000 := by
  refine ⟨rfl, rfl, fun h => ?_⟩
  obtain ⟨delays, hrun, -⟩ := h Unit () leastDraw [0, 1]
  cases hrun

end Eureka.BackoffRetry

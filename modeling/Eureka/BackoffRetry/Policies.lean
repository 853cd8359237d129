import Mathlib

/-!
# Back-off policies

`backoff` of `backoff/backoff.h` and the exponential policies of
`backoff/backoff_policy.h`.  Delays are counts of milliseconds in a signed type
of 64 bits; `none` stands for an operation that C++ does not define.

* `exists_nthDelay` runs `next_delay` from the start: what every call up to the
  `t`-th keeps is there at the `t`-th;
* `apply_of_nthDelay` goes back from a delay to the call that made it.
-/

namespace Eureka.BackoffRetry

/-- `duration_type::max()`. -/
def durationMax : ℤ := 2 ^ 63 - 1

/-- The product of two counts, unless it overflows. -/
def mul (a b : ℤ) : Option ℤ :=
  if -2 ^ 63 ≤ a * b ∧ a * b < 2 ^ 63 then some (a * b) else none

/-- `1 << count`.  The one is an `int`: bit 31 is its sign, and further shifts
are not defined. -/
def oneShifted (count : ℕ) : Option ℤ :=
  if count < 31 then some (2 ^ count) else if count = 31 then some (-2 ^ 31) else none

/-- `base * (1 << done_retries)`. -/
def scaled (base : ℤ) (doneRetries : ℕ) : Option ℤ := do
  let factor ← oneShifted doneRetries
  mul base factor

/-- What `backoff` asks of its policy; the policy may change with every call. -/
class Policy (P : Type) where
  apply : P → ℤ → ℕ → Option (ℤ × P)

structure Exponential where
  maxDur : ℤ

instance : Policy Exponential where
  apply policy base doneRetries := do
    let dur ← scaled base doneRetries
    return (min dur policy.maxDur, policy)

/-- `std::uniform_int_distribution` over an engine with states `σ`. -/
structure Distribution (σ : Type) where
  draw : σ → ℤ → ℤ → ℤ × σ
  draw_mem : ∀ engine low high, low ≤ high →
    low ≤ (draw engine low high).1 ∧ (draw engine low high).1 ≤ high

structure ExponentialFullJitter (σ : Type) where
  engine : σ
  rnd : Distribution σ
  maxDur : ℤ

instance (σ : Type) : Policy (ExponentialFullJitter σ) where
  apply policy base doneRetries := do
    let product ← scaled base doneRetries
    let dur := min product policy.maxDur
    -- The range of a distribution must not be empty.
    if 0 ≤ dur then
      let (delay, engine) := policy.rnd.draw policy.engine 0 dur
      return (delay, { policy with engine })
    else none

structure Backoff (P : Type) where
  policy : P
  base : ℤ
  maxRetries : UInt32
  doneRetries : UInt32

variable {P σ : Type}

namespace Backoff

def construct (base : ℤ) (maxRetries : UInt32) (policy : P) : Backoff P :=
  ⟨policy, base, maxRetries, 0⟩

def nextDelay [Policy P] (b : Backoff P) : Option (Option ℤ × Backoff P) :=
  if b.doneRetries = b.maxRetries then some (none, b)
  else do
    let (delay, policy) ← Policy.apply b.policy b.base b.doneRetries.toNat
    return (some delay, { b with policy, doneRetries := b.doneRetries + 1 })

def reset (b : Backoff P) : Backoff P := { b with doneRetries := 0 }

/-- The result of the call of `next_delay` behind `t` calls. -/
def nthDelay [Policy P] (b : Backoff P) : ℕ → Option (Option ℤ)
  | 0 => b.nextDelay.map Prod.fst
  | t + 1 => b.nextDelay.bind fun (_, next) => next.nthDelay t

end Backoff

def makeExponential (base : ℤ) (maxRetries : UInt32) (maxDelay : ℤ) : Backoff Exponential :=
  Backoff.construct base maxRetries ⟨maxDelay⟩

/-- The engine is seeded by the clock. -/
def makeExponentialFullJitter (base : ℤ) (maxRetries : UInt32) (maxDelay : ℤ) (engine : σ)
    (rnd : Distribution σ) : Backoff (ExponentialFullJitter σ) :=
  Backoff.construct base maxRetries ⟨engine, rnd, maxDelay⟩

/-! ## Runs of `next_delay` -/

namespace Backoff

variable {b : Backoff P} {t : ℕ}

theorem toNat_succ_doneRetries (hleft : b.doneRetries.toNat < b.maxRetries.toNat) :
    (b.doneRetries + 1).toNat = b.doneRetries.toNat + 1 := by
  have hmax := b.maxRetries.toNat_lt
  rw [UInt32.toNat_add, UInt32.toNat_one]
  omega

variable [Policy P]

theorem nextDelay_eq (hleft : b.doneRetries.toNat < b.maxRetries.toNat) :
    b.nextDelay = (Policy.apply b.policy b.base b.doneRetries.toNat).map fun (delay, policy) =>
      (some delay, { b with policy, doneRetries := b.doneRetries + 1 }) := by
  have hne : b.doneRetries ≠ b.maxRetries := fun heq => by
    rw [heq] at hleft
    exact lt_irrefl _ hleft
  unfold nextDelay
  rw [if_neg hne]
  cases Policy.apply b.policy b.base b.doneRetries.toNat <;> rfl

theorem nthDelay_zero (hleft : b.doneRetries.toNat < b.maxRetries.toNat) :
    b.nthDelay 0 = (Policy.apply b.policy b.base b.doneRetries.toNat).map (some ·.1) := by
  rw [nthDelay, nextDelay_eq hleft, Option.map_map]
  rfl

theorem nthDelay_succ (hleft : b.doneRetries.toNat < b.maxRetries.toNat) :
    b.nthDelay (t + 1) = (Policy.apply b.policy b.base b.doneRetries.toNat).bind fun (_, policy) =>
      nthDelay { b with policy, doneRetries := b.doneRetries + 1 } t := by
  rw [nthDelay, nextDelay_eq hleft, Option.bind_map]
  rfl

/-- Calls that keep `Keeps` of the policy, and of which each gives a delay that
is `Good` for its number, give such a delay all along. -/
theorem exists_nthDelay (Keeps : P → Prop) (Good : ℕ → ℤ → Prop) (hpolicy : Keeps b.policy)
    (ht : b.doneRetries.toNat + t < b.maxRetries.toNat)
    (happly : ∀ policy n, Keeps policy → n ≤ b.doneRetries.toNat + t →
      ∃ delay next, Policy.apply policy b.base n = some (delay, next) ∧ Keeps next ∧
        Good n delay) :
    ∃ delay, b.nthDelay t = some (some delay) ∧ Good (b.doneRetries.toNat + t) delay := by
  induction t generalizing b with
  | zero =>
      obtain ⟨delay, policy, hdelay, -, hgood⟩ := happly _ _ hpolicy (le_refl _)
      refine ⟨delay, ?_, hgood⟩
      rw [nthDelay_zero ht]
      exact Option.map_eq_some_iff.mpr ⟨_, hdelay, rfl⟩
  | succ t ih =>
      have hleft : b.doneRetries.toNat < b.maxRetries.toNat := by omega
      obtain ⟨delay, policy, hdelay, hkeeps, -⟩ := happly _ _ hpolicy (Nat.le_add_right _ _)
      have hnumber : (b.doneRetries + 1).toNat + t = b.doneRetries.toNat + (t + 1) := by
        have hsucc := toNat_succ_doneRetries hleft
        omega
      have hrest := @ih { b with policy, doneRetries := b.doneRetries + 1 } hkeeps
        (hnumber ▸ ht) (hnumber ▸ happly)
      rw [nthDelay_succ hleft, hdelay]
      exact hnumber ▸ hrest

theorem apply_of_nthDelay (Keeps : P → Prop) {delay : ℤ} (hpolicy : Keeps b.policy)
    (ht : b.doneRetries.toNat + t < b.maxRetries.toNat)
    (happly : ∀ policy n delay next, Keeps policy →
      Policy.apply policy b.base n = some (delay, next) → Keeps next)
    (hdelay : b.nthDelay t = some (some delay)) :
    ∃ policy next, Keeps policy ∧
      Policy.apply policy b.base (b.doneRetries.toNat + t) = some (delay, next) := by
  induction t generalizing b with
  | zero =>
      rw [nthDelay_zero ht] at hdelay
      obtain ⟨⟨made, next⟩, hmade, heq⟩ := Option.map_eq_some_iff.mp hdelay
      cases heq
      exact ⟨b.policy, next, hpolicy, hmade⟩
  | succ t ih =>
      have hleft : b.doneRetries.toNat < b.maxRetries.toNat := by omega
      rw [nthDelay_succ hleft] at hdelay
      obtain ⟨⟨made, policy⟩, hmade, hlater⟩ := Option.bind_eq_some_iff.mp hdelay
      have hnumber : (b.doneRetries + 1).toNat + t = b.doneRetries.toNat + (t + 1) := by
        have hsucc := toNat_succ_doneRetries hleft
        omega
      have hrest := @ih { b with policy, doneRetries := b.doneRetries + 1 }
        (happly _ _ _ _ hpolicy hmade) (hnumber ▸ ht) happly hlater
      exact hnumber ▸ hrest

end Backoff

end Eureka.BackoffRetry

/-!
## Exponential delays

The delay before retry `t + 1` is to be `min (base * 2 ^ t) max`.  The policies
compute the power by shifting an `int` and multiply before they compare with
the maximum, so two things have to fit for it (`Exact`):

* **The power.**  From the bit 31 on it is negative or not defined at all, and
  only a base of zero hides that, once.
* **The product.**  It must fit in 64 bits, even where the maximum is smaller.

`meets_iff` says that this is all: for the exponential policy and for the one
with full jitter, and it makes the delays before it ascend.
-/

namespace Eureka.BackoffRetry

/-- The delay that is wanted before retry `t + 1`. -/
def capped (base maxDur : ℤ) (t : ℕ) : ℤ := min (base * 2 ^ t) maxDur

/-- The power and the product are those of the exact integers. -/
def Exact (base : ℤ) (t : ℕ) : Prop := (t < 31 ∧ base * 2 ^ t < 2 ^ 63) ∨ (t = 31 ∧ base = 0)

instance (base : ℤ) (t : ℕ) : Decidable (Exact base t) :=
  inferInstanceAs (Decidable (_ ∨ _))

variable {σ : Type} {base maxDur : ℤ} {maxRetries : UInt32} {s t : ℕ}

theorem capped_nonneg (hbase : 0 ≤ base) (hmax : 0 ≤ maxDur) (t : ℕ) :
    0 ≤ capped base maxDur t := by
  apply le_min
  · positivity
  · exact hmax

theorem capped_mono (hbase : 0 ≤ base) (hle : s ≤ t) :
    capped base maxDur s ≤ capped base maxDur t := by
  apply min_le_min_right
  gcongr
  norm_num

theorem Exact.of_le (ht : Exact base t) (hbase : 0 ≤ base) (hle : s ≤ t) : Exact base s := by
  obtain ⟨hlt, hproduct⟩ | ⟨rfl, rfl⟩ := ht
  · have hpower : base * 2 ^ s ≤ base * 2 ^ t := by
      gcongr
      norm_num
    exact .inl ⟨by omega, by omega⟩
  · obtain hlt | rfl := lt_or_eq_of_le hle
    · exact .inl ⟨hlt, by simp⟩
    · exact .inr ⟨rfl, rfl⟩

/-! ## One call of a policy -/

theorem mul_eq_some_iff {a b product : ℤ} :
    mul a b = some product ↔ (-2 ^ 63 ≤ a * b ∧ a * b < 2 ^ 63) ∧ a * b = product := by
  unfold mul
  rw [Option.ite_none_right_eq_some, Option.some_inj]

theorem scaled_of_exact (hbase : 0 ≤ base) (ht : Exact base t) :
    scaled base t = some (base * 2 ^ t) := by
  unfold scaled oneShifted
  obtain ⟨hlt, hproduct⟩ | ⟨rfl, rfl⟩ := ht
  · have hnonneg : 0 ≤ base * 2 ^ t := by positivity
    rw [if_pos hlt]
    exact mul_eq_some_iff.mpr ⟨⟨by omega, hproduct⟩, rfl⟩
  · rfl

/-- Any other defined product has got a sign. -/
theorem exact_of_scaled {product : ℤ} (hbase : 0 ≤ base) (hproduct : scaled base t = some product)
    (hnonneg : 0 ≤ product) : Exact base t := by
  unfold scaled oneShifted at hproduct
  obtain ⟨factor, hfactor, hmul⟩ := Option.bind_eq_some_iff.mp hproduct
  obtain ⟨hfits, rfl⟩ := mul_eq_some_iff.mp hmul
  split at hfactor
  next hlt =>
    obtain rfl := Option.some.inj hfactor
    exact .inl ⟨hlt, hfits.2⟩
  next =>
    split at hfactor
    next heq =>
      obtain rfl := Option.some.inj hfactor
      exact .inr ⟨heq, by omega⟩
    next => cases hfactor

theorem exponential_apply_eq_some_iff {policy next : Exponential} {delay : ℤ} :
    Policy.apply policy base t = some (delay, next) ↔
      ∃ product, scaled base t = some product ∧ min product policy.maxDur = delay ∧
        policy = next := by
  show (scaled base t).bind _ = _ ↔ _
  rw [Option.bind_eq_some_iff]
  refine exists_congr fun product => and_congr_right fun _ => ?_
  show some _ = _ ↔ _
  rw [Option.some_inj, Prod.mk.injEq]

theorem jitter_apply_of_scaled {policy : ExponentialFullJitter σ} {product : ℤ}
    (hproduct : scaled base t = some product) (hnonneg : 0 ≤ min product policy.maxDur) :
    ∃ delay next, Policy.apply policy base t = some (delay, next) ∧
      next.maxDur = policy.maxDur ∧ 0 ≤ delay ∧ delay ≤ min product policy.maxDur := by
  have hdraw := policy.rnd.draw_mem policy.engine 0 _ hnonneg
  refine ⟨_, ⟨(policy.rnd.draw policy.engine 0 (min product policy.maxDur)).2, policy.rnd,
    policy.maxDur⟩, ?_, rfl, hdraw.1, hdraw.2⟩
  apply Option.bind_eq_some_iff.mpr
  refine ⟨product, hproduct, ?_⟩
  dsimp only
  rw [if_pos hnonneg]
  rfl

/-! ## All the calls -/

/-- What retry `t + 1` is promised, after a construction or a reset. -/
structure Meets (base maxDur : ℤ) (maxRetries : UInt32) (engine : σ) (rnd : Distribution σ)
    (t : ℕ) : Prop where
  exponential : (makeExponential base maxRetries maxDur).nthDelay t =
    some (some (capped base maxDur t))
  fullJitter : ∃ delay,
    (makeExponentialFullJitter base maxRetries maxDur engine rnd).nthDelay t = some (some delay) ∧
      0 ≤ delay ∧ delay ≤ capped base maxDur t
  ascending : ∀ s ≤ t, ∃ earlier later,
    (makeExponential base maxRetries maxDur).nthDelay s = some (some earlier) ∧
      (makeExponential base maxRetries maxDur).nthDelay t = some (some later) ∧ earlier ≤ later

section Calls

variable (hbase : 0 ≤ base) (hmax : 0 ≤ maxDur) (hleft : t < maxRetries.toNat)
include hbase hleft

theorem exponential_of_exact (ht : Exact base t) :
    (makeExponential base maxRetries maxDur).nthDelay t = some (some (capped base maxDur t)) := by
  have hrun := (makeExponential base maxRetries maxDur).exists_nthDelay (t := t)
    (fun policy => policy.maxDur = maxDur) (fun n delay => delay = capped base maxDur n) rfl
    (by simpa [makeExponential, Backoff.construct] using hleft)
  have hstart : (makeExponential base maxRetries maxDur).doneRetries.toNat + t = t := zero_add t
  rw [hstart] at hrun
  obtain ⟨delay, hdelay, rfl⟩ := hrun fun policy n hpolicy hle => by
    have hscaled := scaled_of_exact hbase (ht.of_le hbase hle)
    exact ⟨_, policy, exponential_apply_eq_some_iff.mpr ⟨_, hscaled, rfl, rfl⟩, hpolicy,
      hpolicy ▸ rfl⟩
  exact hdelay

include hmax

theorem exact_of_exponential
    (hdelay : (makeExponential base maxRetries maxDur).nthDelay t =
      some (some (capped base maxDur t))) : Exact base t := by
  obtain ⟨policy, next, hpolicy, happly⟩ := Backoff.apply_of_nthDelay (fun _ => True) trivial
    (by simpa [makeExponential, Backoff.construct] using hleft) (fun _ _ _ _ _ _ => trivial) hdelay
  obtain ⟨product, hproduct, hmin, -⟩ := exponential_apply_eq_some_iff.mp happly
  have hnonneg : 0 ≤ capped base maxDur t := capped_nonneg hbase hmax t
  have hstart : (makeExponential base maxRetries maxDur).doneRetries.toNat + t = t := zero_add t
  rw [hstart] at hproduct
  exact exact_of_scaled hbase hproduct (by omega)

theorem fullJitter_of_exact (engine : σ) (rnd : Distribution σ) (ht : Exact base t) :
    ∃ delay,
      (makeExponentialFullJitter base maxRetries maxDur engine rnd).nthDelay t =
        some (some delay) ∧ 0 ≤ delay ∧ delay ≤ capped base maxDur t := by
  have hrun := (makeExponentialFullJitter base maxRetries maxDur engine rnd).exists_nthDelay
    (t := t) (fun policy => policy.maxDur = maxDur)
    (fun n delay => 0 ≤ delay ∧ delay ≤ capped base maxDur n) rfl
    (by simpa [makeExponentialFullJitter, Backoff.construct] using hleft)
  have hstart : (makeExponentialFullJitter base maxRetries maxDur engine rnd).doneRetries.toNat +
      t = t := zero_add t
  rw [hstart] at hrun
  refine hrun fun policy n hpolicy hle => ?_
  have hscaled := scaled_of_exact hbase (ht.of_le hbase hle)
  obtain ⟨delay, next, happly, hnext, hlow, hhigh⟩ := jitter_apply_of_scaled hscaled
    (hpolicy ▸ capped_nonneg hbase hmax n)
  exact ⟨delay, next, happly, hnext.trans hpolicy, hlow, hpolicy ▸ hhigh⟩

/-- **The delays are right exactly as long as nothing overflows.** -/
theorem meets_iff (engine : σ) (rnd : Distribution σ) :
    Meets base maxDur maxRetries engine rnd t ↔ Exact base t := by
  constructor
  · intro hmeets
    exact exact_of_exponential hbase hmax hleft hmeets.exponential
  · intro ht
    refine ⟨?_, ?_, fun s hle => ?_⟩
    · exact exponential_of_exact hbase hleft ht
    · exact fullJitter_of_exact hbase hmax hleft engine rnd ht
    · exact ⟨_, _, exponential_of_exact hbase (by omega) (ht.of_le hbase hle),
        exponential_of_exact hbase hleft ht, capped_mono hbase hle⟩

end Calls

/-- The distribution that always draws the least number. -/
def leastDraw : Distribution Unit where
  draw _ low _ := (low, ())
  draw_mem _ _ _ hle := ⟨le_refl _, hle⟩

theorem meets_iff_of_second :
    Meets 1000 60000 40 () leastDraw 5 ∧ ¬ Meets 1000 60000 40 () leastDraw 31 := by
  refine ⟨(meets_iff ?_ ?_ ?_ () leastDraw).mpr ?_, mt (meets_iff ?_ ?_ ?_ () leastDraw).mp ?_⟩
  all_goals decide

/-- Behind the bit 30 the delay is negative, and then not defined. -/
theorem nthDelay_ne_capped :
    (makeExponential 1 40 60000).nthDelay 31 = some (some (-2147483648)) ∧
      (makeExponential 1 40 60000).nthDelay 32 = none ∧
      capped 1 60000 31 = 60000 ∧ capped 1 60000 32 = 60000 := by
  refine ⟨?_, ?_, ?_, ?_⟩
  all_goals rfl

end Eureka.BackoffRetry

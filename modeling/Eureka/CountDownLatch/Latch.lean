import Eureka.Library.Monitor

/-!
# The count-down latch

`CountDownLatch` of `CountDownLatch/src/count_down_latch.cpp`.  `Countdown` notifies
all that wait while it holds the mutex, when the count is zero; it may be called more
often than the count says.

A `Wait` gets through only behind as many calls of `Countdown` as the constructor was
told (`counted_down`), and once there were as many nobody is left in the wait set when
the mutex is free (`nobody_blocked`).  The count is an `int`, which can be counted down
to -2^31; nothing is said of a run that goes on from there (`Counted`).
-/

namespace Eureka.CountDownLatch

open Transition Monitor

inductive Op
  | wait
  | countdown
  | count
  deriving DecidableEq

inductive Ret
  | done
  | count (n : Int32)
  deriving DecidableEq

def body (count : Int32) : Op → Ret × Int32
  | .wait => (.done, count)
  | .countdown => (.done, count - 1)
  | .count => (.count count, count)

/-- The latch that the constructor makes; it asserts that the count is not negative. -/
def spec (count : ℕ) : Spec Int32 Op Ret where
  start := Int32.ofInt count
  predicate
    | .wait => some fun count => decide (count ≤ 0)
    | .countdown | .count => none
  body := body
  during
    | .countdown, count => if count = 0 then .all else .nobody
    | .wait, _ | .count, _ => .nobody
  after _ := .nobody

variable {Thread : Type} {count : ℕ}

/-- How often `Countdown` has taken effect. -/
def countdowns (history : List (Thread × Op)) : ℕ := history.countP fun call => call.2 = .countdown

/-- The count has stayed an `int`. -/
def Counted (count : ℕ) (history : List (Thread × Op)) : Prop :=
  count < 2 ^ 31 ∧ countdowns history ≤ count + 2 ^ 31

theorem run_count (history : List (Thread × Op)) :
    ((spec count).object.run (Int32.ofInt count) history).2 =
      Int32.ofInt (count - countdowns history) := by
  induction history using List.reverseRecOn with
  | nil => simp [SequentialObject.run, countdowns]
  | append_singleton history call ih =>
      obtain ⟨t, op⟩ := call
      rw [SequentialObject.run_append_call, ih]
      cases op with
      | countdown =>
          have hone : (1 : Int32) = Int32.ofInt 1 := rfl
          simp only [Spec.object, spec, body, countdowns, List.countP_append, List.countP_singleton,
            decide_true, if_true, Nat.cast_add, Nat.cast_one]
          rw [hone, ← Int32.ofInt_sub]
          congr 1
          ring
      | _ => simp [Spec.object, spec, body, countdowns]

theorem toInt_run {history : List (Thread × Op)} (hcounted : Counted count history) :
    ((spec count).object.run (Int32.ofInt count) history).2.toInt =
      count - countdowns history := by
  obtain ⟨hcount, hcalls⟩ := hcounted
  rw [run_count]
  exact Int32.toInt_ofInt_of_le (by omega) (by omega)

variable [DecidableEq Thread] {s : State Int32 Op Ret Thread}

theorem data_eq (hreach : (system (spec count) Thread).Reachable s)
    (hcounted : Counted count s.history) : s.data.toInt = count - countdowns s.history := by
  have hrun := (inv_of_reachable hreach).linearizes.contents_eq
  rw [← hrun]
  exact toInt_run hcounted

/-- No `Wait` gets through early: it takes effect behind at least `count` calls of
`Countdown`. -/
theorem counted_down (hreach : (system (spec count) Thread).Reachable s)
    (hcounted : Counted count s.history) {before after : List (Thread × Op)} {t : Thread}
    (hhistory : s.history = before ++ (t, .wait) :: after) : count ≤ countdowns before := by
  have hready := (inv_of_reachable hreach).eachReady
  rw [hhistory] at hready hcounted
  obtain ⟨-, hwait, -⟩ := eachReady_append_cons.mp hready
  have hbefore : Counted count before := by
    refine ⟨hcounted.1, le_trans ?_ hcounted.2⟩
    rw [countdowns, countdowns, List.countP_append]
    exact Nat.le_add_right _ _
  have hle := Int32.le_iff_toInt_le.mp (show _ ≤ (0 : Int32) from of_decide_eq_true hwait)
  change ((spec count).object.run (Int32.ofInt count) before).2.toInt ≤ 0 at hle
  rw [toInt_run hbefore] at hle
  omega

/-- A positive count is counted down, and no further than to zero. -/
theorem pos_sub_one {data : Int32} (hpos : 0 < data) (hne : data - 1 ≠ 0) : 0 < data - 1 := by
  have hpos : 0 < data.toInt := Int32.lt_iff_toInt_lt.mp hpos
  have hlt := data.toInt_lt
  have hsub : (data - 1).toInt = data.toInt - 1 :=
    (Int32.toInt_sub data 1).trans (Int.bmod_eq_of_le (by change _ ≤ data.toInt - 1; omega)
      (by change data.toInt - 1 < _; omega))
  have hne : (data - 1).toInt ≠ 0 := mt (Int32.toInt_inj (y := 0)).mp hne
  refine Int32.lt_iff_toInt_lt.mpr (show (0 : ℤ) < _ from ?_)
  omega

/-- The last `Countdown` that counts notifies all. -/
theorem signals (count : ℕ) : Signals (spec count) (· ≤ 0) (fun _ => 0) where
  predicate_iff op p data hp := by
    cases op with
    | wait =>
        obtain rfl := Option.some.inj hp
        simp
    | _ => cases hp
  effect op data hready hreleased htells := by
    cases op with
    | wait => exact absurd (of_decide_eq_true hready) hreleased
    | countdown =>
        have hne : data - 1 ≠ 0 := by
          intro heq
          simp [Spec.tells, spec, body, heq] at htells
        have hpos := pos_sub_one (Int32.not_le.mp hreleased) hne
        simpa [spec, body, Spec.waits] using hpos
    | count => simpa [spec, body, Spec.waits] using hreleased

/-- No `Wait` is left behind: once `Countdown` was called often enough and the mutex is free,
nobody is blocked. -/
theorem nobody_blocked (hreach : (system (spec count) Thread).Reachable s)
    (hcounted : Counted count s.history) (hcount : count ≤ countdowns s.history)
    (hopen : s.mutex = none) : s.waiting = ∅ := by
  have hdata := data_eq hreach hcounted
  rcases (signals count).supplied hreach with hempty | ⟨t, ht⟩ | ⟨hreleased, -⟩
  · exact hempty
  · -- who is about to notify still holds the mutex
    have hinside : (s.pc t).inside = true := by
      cases hpc : s.pc t <;> simp [hpc, At.tells, At.inside, spec] at ht ⊢
    have hmutex := ((inv_of_reachable hreach).guards t).mp hinside
    rw [hopen] at hmutex
    cases hmutex
  · have hle : s.data.toInt ≤ 0 := by omega
    exact absurd (Int32.le_iff_toInt_le.mpr hle) hreleased

/-- **The latch opens behind exactly `count` calls of `Countdown`**, for any number of threads that
wait and count, as long as the count is an `int`. -/
theorem opens (hreach : (system (spec count) Thread).Reachable s)
    (hcounted : Counted count s.history) :
    (∀ before t after, s.history = before ++ (t, .wait) :: after → count ≤ countdowns before) ∧
      (count ≤ countdowns s.history → s.mutex = none → s.waiting = ∅) :=
  ⟨fun _ _ _ => counted_down hreach hcounted, nobody_blocked hreach hcounted⟩

/-- Two threads wait for two calls, and the first of them gets through. -/
def twice : List (Monitor.Action Op ℕ) :=
  List.flatten [[.call 0 .wait, .step 0 0, .step 0 0, .call 1 .wait, .step 1 0, .step 1 0,
    .call 2 .countdown], List.replicate 5 (.step 2 0), [.call 2 .countdown],
    List.replicate 4 (.step 2 0), List.replicate 4 (.step 0 0)]

theorem opens_twice :
    ∃ s : State Int32 Op Ret ℕ,
      s.history = [(2, .countdown), (2, .countdown)] ++ (0, .wait) :: [] ∧
        2 ≤ countdowns [((2 : ℕ), Op.countdown), (2, .countdown)] ∧ s.waiting = ∅ := by
  have hfacts : ((system (spec 2) ℕ).run ⟨2, none, ∅, fun _ => .idle, [], []⟩ twice).map
      (fun s => (s.history, s.mutex)) =
      some ([(2, .countdown), (2, .countdown), (0, .wait)], none) := by decide
  obtain ⟨s, hrun, hs⟩ := Option.map_eq_some_iff.mp hfacts
  simp only [Prod.mk.injEq] at hs
  obtain ⟨hhistory, hmutex⟩ := hs
  obtain ⟨hearly, hlate⟩ := opens ⟨_, twice, rfl, hrun⟩
    (by rw [hhistory]; exact ⟨by decide, by decide⟩)
  exact ⟨s, hhistory, hearly _ 0 _ hhistory, hlate (by rw [hhistory]; decide) hmutex⟩

end Eureka.CountDownLatch

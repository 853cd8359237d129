import Eureka.Library.Monitor

/-!
# The blocking queue

`BlockingQueue` of `BlockingQueue/src/blocking_queue.h`, which `ActiveThread` has
as well, with `Enqueue` and `Dequeue` for `Push` and `Pop`.  The two overloads of
`Push` and those of `Pop` and `TryPop` differ only in how they take or return
the element.

Whatever the producers and the consumers do, the elements are popped in the order
of the pushes, each by one consumer (`popped_in_order`), and no consumer sleeps
through an element (`consumer_not_stuck`).
-/

namespace Eureka.BlockingQueue

open Transition Monitor

inductive Op (T : Type)
  | push (ele : T)
  | pop
  | tryPop
  | size
  deriving DecidableEq

inductive Ret (T : Type)
  | done
  | ele (ele : T)
  /-- `TryPop` on an empty queue -/
  | nothing
  | size (n : ℕ)
  /-- `front()` of an empty queue -/
  | undefined
  deriving DecidableEq

variable {T Thread : Type}

/-- What the member functions do under `mutex_`. -/
def body (queue : List T) : Op T → Ret T × List T
  | .push ele => (.done, queue ++ [ele])
  | .pop =>
      match queue with
      | [] => (.undefined, [])
      | ele :: queue => (.ele ele, queue)
  | .tryPop =>
      match queue with
      | [] => (.nothing, [])
      | ele :: queue => (.ele ele, queue)
  | .size => (.size queue.length, queue)

/-- `Pop` waits on `not_empty_`, and `Push` notifies it after the scope of the lock. -/
def spec (T : Type) : Spec (List T) (Op T) (Ret T) where
  start := []
  predicate
    | .pop => some fun queue => !queue.isEmpty
    | .push _ | .tryPop | .size => none
  body := body
  during _ _ := .nobody
  after
    | .push _ => .one
    | .pop | .tryPop | .size => .nobody

/-- The pushed elements, in the order in which they came into the queue. -/
def pushes (history : List (Thread × Op T)) : List T :=
  history.filterMap fun call =>
    match call.2 with
    | .push ele => some ele
    | .pop | .tryPop | .size => none

def Ret.ele? : Ret T → Option T
  | .ele item => some item
  | .done | .nothing | .size _ | .undefined => none

theorem pushes_append (first second : List (Thread × Op T)) :
    pushes (first ++ second) = pushes first ++ pushes second := List.filterMap_append ..

theorem body_conserves (queue : List T) (t : Thread) (op : Op T) :
    (handedOut Ret.ele? [(t, (body queue op).1)]).map Prod.snd ++ (body queue op).2 =
      queue ++ pushes [(t, op)] := by
  cases op with
  | push ele => rfl
  | pop => cases queue <;> simp [body, handedOut, pushes, Ret.ele?]
  | tryPop => cases queue <;> simp [body, handedOut, pushes, Ret.ele?]
  | size => simp [body, handedOut, pushes, Ret.ele?]

theorem run_conserves (queue : List T) (history : List (Thread × Op T)) :
    (handedOut Ret.ele? ((spec T).object.run queue history).1).map Prod.snd ++
      ((spec T).object.run queue history).2 = queue ++ pushes history := by
  induction history using List.reverseRecOn with
  | nil => simp [SequentialObject.run, handedOut, pushes]
  | append_singleton history call ih =>
      obtain ⟨t, op⟩ := call
      rw [SequentialObject.run_append_call, handedOut_append, pushes_append, ← List.append_assoc,
        ← ih, List.map_append, List.append_assoc, List.append_assoc]
      exact congrArg _ (body_conserves _ t op)

/-- The elements that the operations take from the queue, with the threads that take them. -/
def popped (history : List (Thread × Op T)) : List (Thread × T) :=
  handedOut Ret.ele? ((spec T).object.run [] history).1

/-- If the others only push, then only `t` gets elements. -/
theorem fst_of_mem_popped {history : List (Thread × Op T)} {t : Thread}
    (h : ∀ call ∈ history, call.1 ≠ t → ∃ ele, call.2 = .push ele) :
    ∀ p ∈ popped history, p.1 = t := by
  induction history using List.reverseRecOn with
  | nil => simp [popped, handedOut, SequentialObject.run]
  | append_singleton history call ih =>
      obtain ⟨u, op⟩ := call
      intro p hp
      rw [popped, SequentialObject.run_append_call, handedOut_append] at hp
      rcases List.mem_append.mp hp with hp | hp
      · exact ih (fun call hcall => h call (List.mem_append_left _ hcall)) p hp
      · by_contra hne
        obtain ⟨answer, hanswer, hele⟩ := List.mem_filterMap.mp hp
        obtain rfl := List.mem_singleton.mp hanswer
        obtain ⟨ele, -, rfl⟩ := Option.map_eq_some_iff.mp hele
        obtain ⟨ele, rfl⟩ := h (u, op) (by simp) hne
        cases hele

variable [DecidableEq Thread] {s : State (List T) (Op T) (Ret T) Thread}

theorem popped_append_data (hreach : (system (spec T) Thread).Reachable s) :
    (popped s.history).map Prod.snd ++ s.data = pushes s.history := by
  have hconserves := run_conserves ([] : List T) s.history
  have hdata : ((spec T).object.run [] s.history).2 = s.data :=
    (inv_of_reachable hreach).linearizes.contents_eq
  rw [hdata] at hconserves
  exact hconserves

theorem ofThread_popped (hreach : (system (spec T) Thread).Reachable s) (t : Thread) :
    ofThread t (popped s.history) =
      (ofThread t s.returned).filterMap Ret.ele? ++ ((s.pc t).owed.bind Ret.ele?).toList :=
  (inv_of_reachable hreach).linearizes.ofThread_handedOut Ret.ele? t

/-- **First in, first out.**  The elements that were popped, in the order in which they left the
queue, and behind them the elements of the queue are the pushed ones in the order in which
they came.  Each was handed to one thread, which has got it or is about to return with it. -/
theorem popped_in_order (hreach : (system (spec T) Thread).Reachable s) :
    (popped s.history).map Prod.snd ++ s.data = pushes s.history ∧
      ∀ t, ofThread t (popped s.history) =
        (ofThread t s.returned).filterMap Ret.ele? ++ ((s.pc t).owed.bind Ret.ele?).toList :=
  ⟨popped_append_data hreach, ofThread_popped hreach⟩

/-- A consumer waits, and a producer has unlocked and not yet notified it. -/
def unnotified : List (Monitor.Action (Op ℕ) Bool) :=
  List.flatten [[.call true .pop, .step true true, .step true true, .call false (.push 7)],
    List.replicate 4 (.step false true)]

/-- The producer pushes another element, and the consumer wakes up and gets the first one. -/
def overtaken : List (Monitor.Action (Op ℕ) Bool) :=
  List.flatten [unnotified, [.step false true, .call false (.push 8)],
    List.replicate 4 (.step false true), List.replicate 2 (.step true true)]

theorem popped_in_order_overtaken :
    ∃ s : State (List ℕ) (Op ℕ) (Ret ℕ) Bool, s.data = [8] ∧ pushes s.history = [7, 8] ∧
      (popped s.history).map Prod.snd ++ s.data = [7, 8] ∧
      ofThread true (popped s.history) = [7] := by
  have hfacts : ((system (spec ℕ) Bool).run ⟨[], none, ∅, fun _ => .idle, [], []⟩ overtaken).map
      (fun s => (s.data, pushes s.history, (ofThread true s.returned).filterMap Ret.ele? ++
        ((s.pc true).owed.bind Ret.ele?).toList)) = some ([8], [7, 8], [7]) := by decide
  obtain ⟨s, hrun, hs⟩ := Option.map_eq_some_iff.mp hfacts
  simp only [Prod.mk.injEq] at hs
  obtain ⟨hdata, hpushes, hgot⟩ := hs
  obtain ⟨horder, hthreads⟩ := popped_in_order ⟨_, overtaken, rfl, hrun⟩
  exact ⟨s, hdata, hpushes, horder.trans hpushes, (hthreads true).trans hgot⟩

/-- `Pop` returns an element: `front()` is never called on an empty queue. -/
theorem pop_answer (hreach : (system (spec T) Thread).Reachable s) {t : Thread} {ret : Ret T}
    (hop : (s.pc t).op? = some .pop) (howed : (s.pc t).owed = some ret) :
    ∃ ele, ret = .ele ele := by
  obtain ⟨queue, hready, rfl⟩ := answered hreach t .pop ret hop howed
  cases queue with
  | nil => cases hready
  | cons ele queue => exact ⟨ele, rfl⟩

theorem signals (T : Type) : Signals (spec T) (fun _ => False) List.length where
  predicate_iff op p queue hp := by
    cases op with
    | pop =>
        obtain rfl := Option.some.inj hp
        cases queue <;> simp
    | _ => cases hp
  effect op queue hready _ _ := by
    cases op with
    | push ele => simp [spec, body, Spec.waits, Spec.tells]
    | pop => cases queue <;> simp_all [spec, body, Spec.ready, Spec.waits, Spec.tells]
    | tryPop => cases queue <;> simp [spec, body, Spec.waits, Spec.tells]
    | size => simp [spec, body, Spec.waits, Spec.tells]

/-- Only `Pop` waits. -/
theorem pc_of_waiting (hreach : (system (spec T) Thread).Reachable s) {t : Thread}
    (ht : t ∈ s.waiting) : s.pc t = .wait .pop := by
  have hinv := inv_of_reachable hreach
  obtain ⟨op, hop⟩ := hinv.blocked t ht
  have hwaits := hinv.waits t op hop
  cases op with
  | pop => exact hop
  | _ => cases hwaits

theorem ready_pop {queue : List T} (hqueue : queue ≠ []) : (spec T).ready .pop queue = true := by
  cases queue with
  | nil => exact absurd rfl hqueue
  | cons => rfl

/-- **No consumer sleeps through an element.**  While one is blocked in `Pop` and the queue is not
empty, another thread was woken or has still to notify, and some thread that is not blocked can go
on. -/
theorem consumer_not_stuck (hreach : (system (spec T) Thread).Reachable s) {t : Thread}
    (ht : t ∈ s.waiting) (hqueue : s.data ≠ []) :
    (∃ u, u ∉ s.waiting ∧ (Helps (spec T) s u ∨ (s.pc u).tells (spec T) .all = true)) ∧
      ∃ u, u ∉ s.waiting ∧
        ∃ chosen s', (system (spec T) Thread).step s (.step u chosen) = some s' := by
  have hpc := pc_of_waiting hreach ht
  have hready : (spec T).ready .pop s.data = true := ready_pop hqueue
  exact ⟨(signals T).awake hreach ht hpc hready, (signals T).not_stuck hreach ht hpc hready⟩

theorem consumer_not_stuck_unnotified :
    ∃ s : State (List ℕ) (Op ℕ) (Ret ℕ) Bool, s.data = [7] ∧ s.waiting = {true} ∧
      (∃ u, u ∉ s.waiting ∧ (Helps (spec ℕ) s u ∨ (s.pc u).tells (spec ℕ) .all = true)) ∧
        ∃ u, u ∉ s.waiting ∧
          ∃ chosen s', (system (spec ℕ) Bool).step s (.step u chosen) = some s' := by
  have hfacts : ((system (spec ℕ) Bool).run ⟨[], none, ∅, fun _ => .idle, [], []⟩ unnotified).map
      (fun s => (s.data, s.waiting)) = some ([7], {true}) := by decide
  obtain ⟨s, hrun, hs⟩ := Option.map_eq_some_iff.mp hfacts
  simp only [Prod.mk.injEq] at hs
  obtain ⟨hdata, hwaiting⟩ := hs
  have hstuck := consumer_not_stuck (t := true) ⟨_, unnotified, rfl, hrun⟩ (by simp [hwaiting])
    (by simp [hdata])
  exact ⟨s, hdata, hwaiting, hstuck⟩

end Eureka.BlockingQueue

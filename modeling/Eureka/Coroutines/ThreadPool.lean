import Eureka.Library.Monitor

/-!
# The thread pool of the coroutines

`coro::thread_pool` of `learn-cxx/coroutine/thread_pool/thread_pool.h`.  A coroutine that
awaits `schedule()` is enqueued, and some worker resumes it; a coroutine may await
`schedule()` again while a worker runs it.  What else it does after `resume` is not
modelled: it is taken to come to its next `schedule()` or to its end.  The destructor
stops the pool, and the workers end without looking at what is left in the queue.

* `resumed_in_order`: the coroutines are taken in the order in which they were enqueued,
  each once, and none behind `shutdown`;
* `workers_end`: behind `shutdown` no worker is stuck short of the end of its loop.
-/

namespace Eureka.Coroutines

open Transition Monitor

/-- What `mtx_` guards. -/
structure Guarded (C : Type) where
  stopped : Bool
  coros : List C
  deriving DecidableEq

/-- The part of `worker_loop` under the lock, `enqueue_task` and `shutdown`. -/
inductive Op (C : Type)
  | take
  | enqueue (coro : C)
  | shutdown
  deriving DecidableEq

inductive Ret (C : Type)
  /-- the worker leaves its loop -/
  | stop
  /-- the worker resumes the coroutine -/
  | resume (coro : C)
  | done
  /-- `front()` of an empty queue -/
  | undefined
  deriving DecidableEq

variable {C Worker Client Thread : Type}

def Ret.stops : Ret C → Bool
  | .stop => true
  | .resume _ | .done | .undefined => false

def body (pool : Guarded C) : Op C → Ret C × Guarded C
  | .take =>
      if pool.stopped then (.stop, pool)
      else
        match pool.coros with
        | [] => (.undefined, pool)
        | coro :: coros => (.resume coro, { pool with coros := coros })
  | .enqueue coro => (.done, { pool with coros := pool.coros ++ [coro] })
  | .shutdown => (.done, { pool with stopped := true })

/-- The workers wait on `not_empty_`; the notifications come after the scopes of the locks. -/
def spec (C : Type) : Spec (Guarded C) (Op C) (Ret C) where
  start := ⟨false, []⟩
  predicate
    | .take => some fun pool => pool.stopped || !pool.coros.isEmpty
    | .enqueue _ | .shutdown => none
  body := body
  during _ _ := .nobody
  after
    | .take => .nobody
    | .enqueue _ => .one
    | .shutdown => .all

/-- A worker, or a thread outside of the pool. -/
inductive Agent (Worker Client : Type)
  | worker (w : Worker)
  | client (c : Client)
  deriving DecidableEq

/-- A worker takes coroutines until it is told to stop; the coroutine that it runs may be enqueued
again.  The others enqueue coroutines, and call the destructor. -/
def Agent.may (answers : List (Ret C)) : Agent Worker Client → Op C → Bool
  | .worker _, .take | .worker _, .enqueue _ => answers.all (!·.stops)
  | .worker _, .shutdown => false
  | .client _, .take => false
  | .client _, .enqueue _ | .client _, .shutdown => true

abbrev Pool (C Worker Client : Type) : Type :=
  State (Guarded C) (Op C) (Ret C) (Agent Worker Client)

def pools (C Worker Client : Type) [DecidableEq Worker] [DecidableEq Client] :
    System (Pool C Worker Client) (Monitor.Action (Op C) (Agent Worker Client)) :=
  (system (spec C) (Agent Worker Client)).restrict fun s action =>
    match action with
    | .call t op => t.may (ofThread t s.returned) op
    | .step _ _ | .spurious _ => true

/-- The coroutines that were enqueued, in this order. -/
def enqueued (history : List (Thread × Op C)) : List C :=
  history.filterMap fun call =>
    match call.2 with
    | .enqueue coro => some coro
    | .take | .shutdown => none

/-- The coroutine that an answer hands out. -/
def Ret.coro? : Ret C → Option C
  | .resume coro => some coro
  | .stop | .done | .undefined => none

theorem enqueued_append (first second : List (Thread × Op C)) :
    enqueued (first ++ second) = enqueued first ++ enqueued second := List.filterMap_append ..

theorem body_conserves (pool : Guarded C) (t : Thread) (op : Op C) :
    (handedOut Ret.coro? [(t, (body pool op).1)]).map Prod.snd ++ (body pool op).2.coros =
      pool.coros ++ enqueued [(t, op)] := by
  obtain ⟨stopped, coros⟩ := pool
  cases op with
  | take => cases stopped <;> cases coros <;> simp [body, handedOut, Ret.coro?, enqueued]
  | enqueue coro => simp [body, handedOut, Ret.coro?, enqueued]
  | shutdown => simp [body, handedOut, Ret.coro?, enqueued]

theorem run_conserves (pool : Guarded C) (history : List (Thread × Op C)) :
    (handedOut Ret.coro? ((spec C).object.run pool history).1).map Prod.snd ++
        ((spec C).object.run pool history).2.coros =
      pool.coros ++ enqueued history := by
  induction history using List.reverseRecOn with
  | nil => simp [SequentialObject.run, handedOut, enqueued]
  | append_singleton history call ih =>
      obtain ⟨t, op⟩ := call
      rw [SequentialObject.run_append_call, handedOut_append, enqueued_append, ← List.append_assoc,
        ← ih, List.map_append, List.append_assoc, List.append_assoc]
      exact congrArg _ (body_conserves _ t op)

theorem body_of_stopped {pool : Guarded C} (hstopped : pool.stopped = true) (op : Op C) :
    (body pool op).2.stopped = true ∧ (body pool op).1.coro? = none := by
  cases op <;> simp [body, hstopped, Ret.coro?]

theorem handedOut_of_stopped {pool : Guarded C} (hstopped : pool.stopped = true)
    (history : List (Thread × Op C)) :
    handedOut Ret.coro? ((spec C).object.run pool history).1 = [] := by
  induction history generalizing pool with
  | nil => rfl
  | cons call history ih =>
      obtain ⟨t, op⟩ := call
      obtain ⟨hstopped', hnone⟩ := body_of_stopped hstopped op
      have hhead : ((spec C).object.call pool op).1.coro? = none := hnone
      simp only [SequentialObject.run, handedOut, List.filterMap_cons, hhead, Option.map_none]
      exact ih hstopped'

/-- An enqueued coroutine notifies one worker, and `shutdown` notifies all. -/
theorem signals (C : Type) :
    Signals (spec C) (fun pool => pool.stopped = true) (fun pool => pool.coros.length) where
  predicate_iff op p pool hp := by
    cases op with
    | take =>
        obtain rfl := Option.some.inj hp
        obtain ⟨stopped, coros⟩ := pool
        cases stopped <;> cases coros <;> simp
    | _ => cases hp
  effect op pool hready hreleased htells := by
    obtain ⟨stopped, coros⟩ := pool
    obtain rfl : stopped = false := by simpa using hreleased
    cases op with
    | take =>
        cases coros with
        | nil => cases hready
        | cons => simp [spec, body, Spec.waits, Spec.tells]
    | enqueue coro => simp [spec, body, Spec.waits, Spec.tells]
    | shutdown => simp [spec, Spec.tells] at htells

/-- The coroutines that were taken, with the workers that took them. -/
def taken (history : List (Thread × Op C)) : List (Thread × C) :=
  handedOut Ret.coro? ((spec C).object.run ⟨false, []⟩ history).1

theorem taken_shutdown (before after : List (Thread × Op C)) (t : Thread) :
    taken (before ++ (t, .shutdown) :: after) = taken before := by
  rw [taken, SequentialObject.run_append, handedOut_append]
  have hnone : handedOut Ret.coro? ((spec C).object.run
      ((spec C).object.run ⟨false, []⟩ before).2 ((t, .shutdown) :: after)).1 = [] := by
    simp only [SequentialObject.run, handedOut, List.filterMap_cons]
    exact handedOut_of_stopped rfl after
  rw [hnone, List.append_nil]
  rfl

variable [DecidableEq Worker] [DecidableEq Client] {s : Pool C Worker Client}

/-- **The coroutines are resumed in the order in which they were enqueued**, each once, by the
worker that has taken it, and none behind `shutdown`; the others stay in the queue. -/
theorem resumed_in_order (hreach : (pools C Worker Client).Reachable s) :
    (taken s.history).map Prod.snd ++ s.data.coros = enqueued s.history ∧
      (∀ t, ofThread t (taken s.history) =
        (ofThread t s.returned).filterMap Ret.coro? ++ ((s.pc t).owed.bind Ret.coro?).toList) ∧
      ∀ before t after, s.history = before ++ (t, .shutdown) :: after →
        taken s.history = taken before := by
  have hinv := inv_of_reachable hreach.of_restrict
  refine ⟨?_, hinv.linearizes.ofThread_handedOut Ret.coro?, ?_⟩
  · have hconserves := run_conserves ⟨false, []⟩ s.history
    have hdata : ((spec C).object.run ⟨false, []⟩ s.history).2 = s.data :=
      hinv.linearizes.contents_eq
    rw [hdata] at hconserves
    exact hconserves
  · intro before t after hhistory
    rw [hhistory, taken_shutdown]

/-- **The pool comes to an end.**  Behind `shutdown`, as long as a worker has not been told to leave
its loop, it can look for the next coroutine or some thread can go on. -/
theorem workers_end (hreach : (pools C Worker Client).Reachable s)
    (hstopped : s.data.stopped = true) (w : Worker) :
    .stop ∈ ofThread (.worker w) s.returned ∨
      ((pools C Worker Client).step s (.call (.worker w) .take)).isSome ∨
        ∃ t chosen, ((pools C Worker Client).step s (.step t chosen)).isSome := by
  have hmonitor := hreach.of_restrict
  have hinv := inv_of_reachable hmonitor
  have hlift : (∃ u, u ∉ s.waiting ∧
      ∃ chosen s', (system (spec C) (Agent Worker Client)).step s (.step u chosen) = some s') →
        ∃ t chosen, ((pools C Worker Client).step s (.step t chosen)).isSome := by
    rintro ⟨u, -, chosen, s', hstep⟩
    exact ⟨u, chosen, Option.isSome_iff_exists.mpr ⟨s', System.restrict_step.mpr ⟨rfl, hstep⟩⟩⟩
  cases hop : (s.pc (.worker w)).op? with
  | none =>
      have hidle : s.pc (.worker w) = .idle := by
        cases hpc : s.pc (.worker w) <;> simp [hpc, At.op?] at hop ⊢
      by_cases hmay : Agent.may (ofThread (.worker w) s.returned)
          (.worker w : Agent Worker Client) (.take : Op C) = true
      · have hcall : (pools C Worker Client).step s (.call (.worker w) .take) =
            some (s.goto (.worker w) (.lock .take)) :=
          System.restrict_step.mpr ⟨hmay, call_eq_some.mpr ⟨hidle, rfl⟩⟩
        exact .inr (.inl (Option.isSome_iff_exists.mpr ⟨_, hcall⟩))
      · refine .inl ?_
        simp only [Agent.may, List.all_eq_true, not_forall] at hmay
        obtain ⟨ret, hret, hstops⟩ := hmay
        cases ret <;> simp_all [Ret.stops]
  | some op =>
      refine .inr (.inr (hlift ?_))
      by_cases hwaiting : .worker w ∈ s.waiting
      · obtain ⟨op', hop'⟩ := hinv.blocked _ hwaiting
        refine (signals C).not_stuck hmonitor hwaiting hop' ?_
        have hwaits := hinv.waits _ op' hop'
        cases op' with
        | take => simp [Spec.ready, spec, hstopped]
        | _ => cases hwaits
      · exact exists_step_of_busy hinv hop hwaiting

/-- One worker runs a coroutine that enqueues itself again, the other one waits; then the pool is
stopped. -/
def stopped : List (Monitor.Action (Op ℕ) (Agent Bool Unit)) :=
  List.flatten [[.call (.worker true) .take],
    List.replicate 2 (.step (.worker true) (.worker true)), [.call (.client ()) (.enqueue 1)],
    List.replicate 5 (.step (.client ()) (.worker true)),
    List.replicate 5 (.step (.worker true) (.worker true)), [.call (.worker true) (.enqueue 1)],
    List.replicate 5 (.step (.worker true) (.worker true)), [.call (.client ()) .shutdown],
    List.replicate 4 (.step (.client ()) (.worker true))]

theorem resumed_in_order_stopped :
    ∃ s : Pool ℕ Bool Unit, s.data = ⟨true, [1]⟩ ∧ enqueued s.history = [1, 1] ∧
      (taken s.history).map Prod.snd ++ s.data.coros = [1, 1] := by
  have hfacts : ((pools ℕ Bool Unit).run ⟨⟨false, []⟩, none, ∅, fun _ => .idle, [], []⟩ stopped).map
      (fun s => (s.data, enqueued s.history)) = some (⟨true, [1]⟩, [1, 1]) := by decide
  obtain ⟨s, hrun, hs⟩ := Option.map_eq_some_iff.mp hfacts
  simp only [Prod.mk.injEq] at hs
  exact ⟨s, hs.1, hs.2, (resumed_in_order ⟨_, stopped, rfl, hrun⟩).1.trans hs.2⟩

theorem workers_end_stopped :
    ∃ s : Pool ℕ Bool Unit, s.data = ⟨true, [1]⟩ ∧ ofThread (.worker false) s.returned = [] ∧
      (.stop ∈ ofThread (.worker false) s.returned ∨
        ((pools ℕ Bool Unit).step s (.call (.worker false) .take)).isSome ∨
          ∃ t chosen, ((pools ℕ Bool Unit).step s (.step t chosen)).isSome) := by
  have hfacts : ((pools ℕ Bool Unit).run ⟨⟨false, []⟩, none, ∅, fun _ => .idle, [], []⟩ stopped).map
      (fun s => (s.data, ofThread (.worker false) s.returned)) = some (⟨true, [1]⟩, []) := by decide
  obtain ⟨s, hrun, hs⟩ := Option.map_eq_some_iff.mp hfacts
  simp only [Prod.mk.injEq] at hs
  exact ⟨s, hs.1, hs.2, workers_end ⟨_, stopped, rfl, hrun⟩ (by rw [hs.1]) false⟩

end Eureka.Coroutines

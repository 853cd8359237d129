import Eureka.EventLoop.Loop
import Eureka.Library.Fifo

/-!
# No task is lost, repeated or stranded

The loop simulates a first-in-first-out queue whose waiting elements are what is
left of the swapped-out batch and the pending tasks (`simulates_fifo`).  A push
cannot fall between the swap and the next sleep unnoticed: outside the stretch
from `Poll` to the swap every pending task is covered by an unread wakeup or by
a thread on its way to `Wakeup` (`Guarded`).
-/

namespace Eureka.EventLoop

open Transition

namespace Call

/-- A call of `QueueTask` behind its push and in front of `Wakeup`. -/
def aboutToWake : Call → Bool
  | pushed => true
  | waking => true
  | _ => false

end Call

namespace Phase

variable {Task : Type}

/-- A pending task is not swapped out before the next sleep. -/
def pastSwap : Phase Task → Bool
  | outside => true
  | checking => true
  | polling => true
  | executing _ => true
  | inTask _ => true
  | _ => false

/-- `executing_pending_task_` has been set and not been reset. -/
def processing : Phase Task → Bool
  | swapping => true
  | executing _ => true
  | inTask _ => true
  | _ => false

theorem processing_of_inUserCode_of_pastSwap {phase : Phase Task} (huser : phase.inUserCode)
    (hpast : phase.pastSwap) : phase.processing := by
  cases phase <;> simp_all [inUserCode, pastSwap, processing]

end Phase

variable {Thread Task : Type} [DecidableEq Thread]

namespace State

/-- An unread wakeup or a thread that is about to send one. -/
def Covered (s : State Thread Task) : Prop :=
  0 < s.wakeupFd ∨ ∃ caller, (s.calls caller).aboutToWake

structure Guarded (s : State Thread Task) : Prop where
  /-- the loop thread is inside a member function only when a callback called it -/
  loopCall : s.calls .loop ≠ .idle → s.phase.inUserCode
  flag : s.phase.processing → s.executingPendingTask
  covered : s.phase.pastSwap → s.pendingTasks ≠ [] → s.Covered

variable {s s' : State Thread Task}

/-! ## The steps of a call -/

theorem Covered.of_aboutToWake {caller : Caller Thread} {call : Call} (hcall : call.aboutToWake) :
    (s.setCall caller call).Covered :=
  .inr ⟨caller, by simpa [setCall] using hcall⟩

theorem setCall_loop_ne_idle {caller : Caller Thread} {call : Call}
    (hne : (s.setCall caller call).calls .loop ≠ .idle) :
    caller = .loop ∨ s.calls .loop ≠ .idle := by
  by_cases hcaller : caller = .loop
  · exact .inl hcaller
  · exact .inr (by simpa [setCall, Function.update_of_ne (Ne.symm hcaller)] using hne)

theorem inUserCode_of_mayCall (hmay : s.mayCall .loop) : s.phase.inUserCode := by
  simp only [mayCall, ne_eq, not_true_eq_false, decide_false, Bool.false_or, Bool.and_eq_true] at hmay
  exact hmay.2

theorem Guarded.pushTask {caller : Caller Thread} {task : Task} (hs : s.Guarded)
    (hstep : s.pushTask caller task = some s') : s'.Guarded := by
  simp only [State.pushTask, Option.ite_none_right_eq_some, Option.some.injEq] at hstep
  obtain ⟨hmay, rfl⟩ := hstep
  refine ⟨fun hne => ?_, hs.flag, fun _ _ => .of_aboutToWake rfl⟩
  rcases setCall_loop_ne_idle hne with rfl | hne
  · exact inUserCode_of_mayCall (s := s) hmay
  · exact hs.loopCall hne

theorem Guarded.decideWakeup {caller : Caller Thread} (hs : s.Guarded)
    (hstep : s.decideWakeup caller = some s') : s'.Guarded := by
  simp only [State.decideWakeup, Option.ite_none_right_eq_some] at hstep
  obtain ⟨hpushed, hstep⟩ := hstep
  have hloop : ∀ call, (s.setCall caller call).calls .loop ≠ .idle → s.phase.inUserCode := by
    intro call hne
    rcases setCall_loop_ne_idle hne with rfl | hne
    · exact hs.loopCall (by simp [hpushed])
    · exact hs.loopCall hne
  split_ifs at hstep with hwake
  · obtain rfl := Option.some.inj hstep
    exact ⟨hloop _, hs.flag, fun _ _ => .of_aboutToWake rfl⟩
  · obtain rfl := Option.some.inj hstep
    -- the wakeup is skipped: the loop thread is the caller, and no task is executing
    simp only [ne_eq, Bool.or_eq_true, decide_eq_true_eq, not_or, not_not] at hwake
    obtain ⟨rfl, hflag⟩ := hwake
    refine ⟨hloop _, hs.flag, fun hpast _ => absurd (hs.flag ?_) hflag⟩
    exact Phase.processing_of_inUserCode_of_pastSwap (hs.loopCall (by simp [hpushed])) hpast

theorem Guarded.wakeup {caller : Caller Thread} (hs : s.Guarded)
    (hstep : s.wakeup caller = some s') : s'.Guarded := by
  simp only [State.wakeup, Option.ite_none_right_eq_some] at hstep
  obtain ⟨hcalls, hstep⟩ := hstep
  have hloop : (s.setCall caller .idle).calls .loop ≠ .idle → s.phase.inUserCode := by
    intro hne
    rcases setCall_loop_ne_idle hne with rfl | hne
    · exact hs.loopCall (by rcases hcalls with hcalls | hcalls <;> simp [hcalls])
    · exact hs.loopCall hne
  unfold eventfdWrite at hstep
  split_ifs at hstep with hroom
  · obtain rfl := Option.some.inj hstep
    exact ⟨hloop, hs.flag, fun _ _ => .inl (Nat.succ_pos _)⟩
  · obtain rfl := Option.some.inj hstep
    -- a full counter is an unread wakeup
    refine ⟨hloop, hs.flag, fun _ _ => .inl ?_⟩
    simp only [maxCounter, not_le] at hroom
    simp only [setCall]
    omega

theorem Covered.setCall_of_idle {caller : Caller Thread} {call : Call}
    (hidle : s.calls caller = .idle) (hcovered : s.Covered) : (s.setCall caller call).Covered := by
  rcases hcovered with hfd | ⟨waker, hwaker⟩
  · exact .inl hfd
  · have hne : waker ≠ caller := by
      rintro rfl
      simp [hidle, Call.aboutToWake] at hwaker
    exact .inr ⟨waker, by simpa [setCall, Function.update_of_ne hne] using hwaker⟩

theorem Guarded.quit {caller : Caller Thread} (hs : s.Guarded)
    (hstep : s.quit caller = some s') : s'.Guarded := by
  simp only [State.quit, Option.ite_none_right_eq_some] at hstep
  obtain ⟨hmay, hstep⟩ := hstep
  split_ifs at hstep with hcaller
  · obtain rfl := Option.some.inj hstep
    refine ⟨fun hne => ?_, hs.flag, fun hpast hpending => ?_⟩
    · exact hs.loopCall ((setCall_loop_ne_idle hne).resolve_left hcaller)
    · simp only [mayCall, Bool.and_eq_true, decide_eq_true_eq] at hmay
      exact Covered.setCall_of_idle (s := { s with isRunning := false }) hmay.1
        (hs.covered hpast hpending)
  · obtain rfl := Option.some.inj hstep
    exact ⟨hs.loopCall, hs.flag, hs.covered⟩

/-! ## The steps of `Run` and `ProcessPendingTasks` -/

section Loop

omit [DecidableEq Thread]

theorem Guarded.loop_idle (hs : s.Guarded) (huser : s.phase.inUserCode = false) :
    s.calls .loop = .idle := by
  by_contra hne
  exact absurd (hs.loopCall hne) (by simp [huser])

theorem Guarded.run (hs : s.Guarded) (hstep : s.run = some s') : s'.Guarded := by
  rcases hphase : s.phase <;> simp only [State.run, hphase, reduceCtorEq] at hstep
  split_ifs at hstep
  obtain rfl := Option.some.inj hstep
  exact ⟨fun hne => absurd (hs.loop_idle (by rw [hphase]; rfl)) hne, nofun,
    fun _ => hs.covered (by rw [hphase]; rfl)⟩

theorem Guarded.checkRunning (hs : s.Guarded) (hstep : s.checkRunning = some s') :
    s'.Guarded := by
  rcases hphase : s.phase <;> simp only [State.checkRunning, hphase, reduceCtorEq] at hstep
  obtain rfl := Option.some.inj hstep
  refine ⟨fun hne => absurd (hs.loop_idle (by rw [hphase]; rfl)) hne, fun hprocessing => ?_,
    fun _ => hs.covered (by rw [hphase]; rfl)⟩
  cases hrunning : s.isRunning <;> simp [hrunning, Phase.processing] at hprocessing

theorem Guarded.pollReturns {active : List Channel} (hs : s.Guarded)
    (hstep : s.pollReturns active = some s') : s'.Guarded := by
  rcases hphase : s.phase <;> simp only [State.pollReturns, hphase, reduceCtorEq] at hstep
  split_ifs at hstep
  obtain rfl := Option.some.inj hstep
  exact ⟨fun hne => absurd (hs.loop_idle (by rw [hphase]; rfl)) hne, nofun, nofun⟩

theorem Guarded.handleNext (hs : s.Guarded) (hstep : s.handleNext = some s') : s'.Guarded := by
  rcases hphase : s.phase with _ | _ | _ | (_ | ⟨_ | _, active⟩) | _ | _ | _ | _ | _ | _ <;>
    simp only [State.handleNext, hphase, reduceCtorEq] at hstep
  · obtain rfl := Option.some.inj hstep
    exact ⟨fun hne => absurd (hs.loop_idle (by rw [hphase]; rfl)) hne, nofun, nofun⟩
  · have hidle := hs.loop_idle (by rw [hphase]; rfl)
    split at hstep <;> obtain rfl := Option.some.inj hstep
    · exact ⟨fun hne => absurd hidle hne, nofun, nofun⟩
    · exact ⟨fun hne => absurd hidle hne, nofun, nofun⟩
  · obtain rfl := Option.some.inj hstep
    exact ⟨fun _ => rfl, nofun, nofun⟩

theorem guarded_of_handlerReturns (hstep : s.handlerReturns = some s') :
    s'.Guarded := by
  rcases hphase : s.phase <;> simp only [State.handlerReturns, hphase, reduceCtorEq] at hstep
  split_ifs at hstep with hidle
  obtain rfl := Option.some.inj hstep
  exact ⟨fun hne => absurd hidle hne, nofun, nofun⟩

theorem Guarded.beginProcessing (hs : s.Guarded) (hstep : s.beginProcessing = some s') :
    s'.Guarded := by
  rcases hphase : s.phase <;> simp only [State.beginProcessing, hphase, reduceCtorEq] at hstep
  obtain rfl := Option.some.inj hstep
  exact ⟨fun hne => absurd (hs.loop_idle (by rw [hphase]; rfl)) hne, fun _ => rfl, nofun⟩

theorem Guarded.swapTasks (hs : s.Guarded) (hstep : s.swapTasks = some s') : s'.Guarded := by
  rcases hphase : s.phase <;> simp only [State.swapTasks, hphase, reduceCtorEq] at hstep
  obtain rfl := Option.some.inj hstep
  exact ⟨fun hne => absurd (hs.loop_idle (by rw [hphase]; rfl)) hne,
    fun _ => hs.flag (by rw [hphase]; rfl), fun _ hpending => absurd rfl hpending⟩

theorem Guarded.executeNext (hs : s.Guarded) (hstep : s.executeNext = some s') : s'.Guarded := by
  rcases hphase : s.phase with _ | _ | _ | _ | _ | _ | _ | (_ | ⟨task, batch⟩) | _ | _ <;>
    simp only [State.executeNext, hphase, reduceCtorEq] at hstep
  · obtain rfl := Option.some.inj hstep
    exact ⟨fun hne => absurd (hs.loop_idle (by rw [hphase]; rfl)) hne, nofun,
      fun _ => hs.covered (by rw [hphase]; rfl)⟩
  · obtain rfl := Option.some.inj hstep
    exact ⟨fun _ => rfl, fun _ => hs.flag (by rw [hphase]; rfl),
      fun _ => hs.covered (by rw [hphase]; rfl)⟩

theorem Guarded.taskReturns (hs : s.Guarded) (hstep : s.taskReturns = some s') : s'.Guarded := by
  rcases hphase : s.phase <;> simp only [State.taskReturns, hphase, reduceCtorEq] at hstep
  split_ifs at hstep with hidle
  obtain rfl := Option.some.inj hstep
  exact ⟨fun hne => absurd hidle hne, fun _ => hs.flag (by rw [hphase]; rfl),
    fun _ => hs.covered (by rw [hphase]; rfl)⟩

theorem Guarded.throw (hs : s.Guarded) (hstep : s.throw = some s') : s'.Guarded := by
  rcases hphase : s.phase <;> simp only [State.throw, hphase, reduceCtorEq] at hstep
  · obtain rfl := Option.some.inj hstep
    exact ⟨fun hne => absurd (hs.loop_idle (by rw [hphase]; rfl)) hne, nofun, nofun⟩
  · split_ifs at hstep with hidle
    obtain rfl := Option.some.inj hstep
    exact ⟨fun hne => absurd hidle hne, nofun, nofun⟩
  · split_ifs at hstep with hidle
    obtain rfl := Option.some.inj hstep
    exact ⟨fun hne => absurd hidle hne, nofun, nofun⟩

theorem initial_guarded : (initial : State Thread Task).Guarded :=
  ⟨fun hne => absurd rfl hne, nofun, fun _ hpending => absurd rfl hpending⟩

end Loop

theorem Guarded.step {action : Action Thread Task} (hs : s.Guarded)
    (hstep : s.step action = some s') : s'.Guarded := by
  cases action with
  | pushTask => exact hs.pushTask hstep
  | decideWakeup => exact hs.decideWakeup hstep
  | wakeup => exact hs.wakeup hstep
  | quit => exact hs.quit hstep
  | run => exact hs.run hstep
  | checkRunning => exact hs.checkRunning hstep
  | pollReturns => exact hs.pollReturns hstep
  | handleNext => exact hs.handleNext hstep
  | handlerReturns => exact guarded_of_handlerReturns hstep
  | beginProcessing => exact hs.beginProcessing hstep
  | swapTasks => exact hs.swapTasks hstep
  | executeNext => exact hs.executeNext hstep
  | taskReturns => exact hs.taskReturns hstep
  | throw => exact hs.throw hstep

end State

theorem guarded_of_reachable {s : State Thread Task} (hreach : (system Thread Task).Reachable s) :
    s.Guarded := by
  refine hreach.invariant ?_ fun _ _ _ hs hstep => hs.step hstep
  rintro s rfl
  exact State.initial_guarded

/-! ## The order of execution -/

open Fifo in
/-- The state as a queue: the tasks that wait are the rest of the batch and the pending tasks. -/
def Represents (s : State Thread Task) (q : Queue Task) : Prop :=
  q = ⟨s.pushed, s.executed, s.phase.batch ++ s.pendingTasks⟩

namespace State

variable {s s' : State Thread Task}

theorem step_logs {action : Action Thread Task} (hstep : s.step action = some s') :
    (∃ caller task, action = .pushTask caller task ∧ s'.pushed = s.pushed ++ [task] ∧
      s'.executed = s.executed ∧
      s'.phase.batch ++ s'.pendingTasks = s.phase.batch ++ s.pendingTasks ++ [task]) ∨
    (∃ task, s'.pushed = s.pushed ∧ s'.executed = s.executed ++ [task] ∧
      s.phase.batch ++ s.pendingTasks = task :: (s'.phase.batch ++ s'.pendingTasks)) ∨
    (s'.pushed = s.pushed ∧ s'.executed = s.executed ∧
      s'.phase.batch ++ s'.pendingTasks = s.phase.batch ++ s.pendingTasks) := by
  cases action with
  | pushTask caller task =>
      simp only [step, pushTask, Option.ite_none_right_eq_some, Option.some.injEq] at hstep
      obtain ⟨-, rfl⟩ := hstep
      exact .inl ⟨caller, task, rfl, rfl, rfl, (List.append_assoc _ _ _).symm⟩
  | decideWakeup caller =>
      simp only [step, decideWakeup, Option.ite_none_right_eq_some] at hstep
      obtain ⟨-, hstep⟩ := hstep
      split_ifs at hstep <;> obtain rfl := Option.some.inj hstep <;> exact .inr (.inr ⟨rfl, rfl, rfl⟩)
  | wakeup caller =>
      simp only [step, wakeup, Option.ite_none_right_eq_some] at hstep
      obtain ⟨-, hstep⟩ := hstep
      split at hstep <;> obtain rfl := Option.some.inj hstep <;> exact .inr (.inr ⟨rfl, rfl, rfl⟩)
  | quit caller =>
      simp only [step, quit, Option.ite_none_right_eq_some] at hstep
      obtain ⟨-, hstep⟩ := hstep
      split_ifs at hstep <;> obtain rfl := Option.some.inj hstep <;> exact .inr (.inr ⟨rfl, rfl, rfl⟩)
  | swapTasks =>
      rcases hphase : s.phase <;> simp only [step, swapTasks, hphase, reduceCtorEq] at hstep
      obtain rfl := Option.some.inj hstep
      exact .inr (.inr ⟨rfl, rfl, by simp [Phase.batch]⟩)
  | executeNext =>
      rcases hphase : s.phase with _ | _ | _ | _ | _ | _ | _ | (_ | ⟨task, batch⟩) | _ | _ <;>
        simp only [step, executeNext, hphase, reduceCtorEq] at hstep
      · obtain rfl := Option.some.inj hstep
        exact .inr (.inr ⟨rfl, rfl, rfl⟩)
      · obtain rfl := Option.some.inj hstep
        exact .inr (.inl ⟨task, rfl, rfl, rfl⟩)
  | handleNext =>
      refine .inr (.inr ?_)
      rcases hphase : s.phase with _ | _ | _ | (_ | ⟨_ | _, active⟩) | _ | _ | _ | _ | _ | _ <;>
        simp only [step, handleNext, hphase, reduceCtorEq] at hstep
      · obtain rfl := Option.some.inj hstep
        exact ⟨rfl, rfl, rfl⟩
      · split at hstep <;> obtain rfl := Option.some.inj hstep <;> exact ⟨rfl, rfl, rfl⟩
      · obtain rfl := Option.some.inj hstep
        exact ⟨rfl, rfl, rfl⟩
  | checkRunning =>
      refine .inr (.inr ?_)
      rcases hphase : s.phase <;> simp only [step, checkRunning, hphase, reduceCtorEq] at hstep
      obtain rfl := Option.some.inj hstep
      cases s.isRunning <;> exact ⟨rfl, rfl, rfl⟩
  | beginProcessing =>
      refine .inr (.inr ?_)
      rcases hphase : s.phase <;> simp only [step, beginProcessing, hphase, reduceCtorEq] at hstep
      obtain rfl := Option.some.inj hstep
      exact ⟨rfl, rfl, rfl⟩
  | run | pollReturns | handlerReturns | taskReturns | throw =>
      refine .inr (.inr ?_)
      rcases hphase : s.phase <;>
        simp only [step, run, pollReturns, handlerReturns, taskReturns, throw, hphase,
          reduceCtorEq, Option.ite_none_left_eq_some, Option.ite_none_right_eq_some,
          Option.some.injEq] at hstep
      all_goals
        obtain ⟨-, rfl⟩ := hstep
        exact ⟨rfl, rfl, rfl⟩

end State

theorem simulates_fifo :
    System.Simulates (system Thread Task) (Fifo.system Task) Represents := by
  refine ⟨?_, ?_⟩
  · rintro s rfl
    exact ⟨_, rfl, rfl⟩
  · rintro s _ action s' rfl hstep
    rcases State.step_logs hstep with ⟨-, task, -, hpushed, hexecuted, hwaiting⟩ |
      ⟨task, hpushed, hexecuted, hwaiting⟩ | ⟨hpushed, hexecuted, hwaiting⟩
    · refine ⟨[.enqueue task], _, rfl, ?_⟩
      rw [Represents, hpushed, hexecuted, hwaiting]
    · refine ⟨[.serve], ⟨s'.pushed, s'.executed, s'.phase.batch ++ s'.pendingTasks⟩, ?_, rfl⟩
      rw [hpushed, hexecuted]
      simp [System.run, Fifo.system, Fifo.Queue.step, hwaiting]
    · refine ⟨[], _, rfl, ?_⟩
      rw [Represents, hpushed, hexecuted, hwaiting]

/-- **Queued tasks are neither lost, repeated nor stranded.**  The tasks executed
so far are the first ones pushed, in the order of the pushes; the others wait in
the batch or in `pending_tasks_`; and the loop never sleeps in `Poll` on a
pending task without an unread wakeup or a thread on its way to `Wakeup`. -/
theorem tasks_in_order_and_never_stranded {s : State Thread Task}
    (hreach : (system Thread Task).Reachable s) :
    s.executed <+: s.pushed ∧
      s.executed ++ (s.phase.batch ++ s.pendingTasks) = s.pushed ∧
      ¬ (s.phase = .polling ∧ s.pendingTasks ≠ [] ∧ s.wakeupFd = 0 ∧
        ∀ caller, (s.calls caller).aboutToWake = false) := by
  obtain ⟨_, hqueue, rfl⟩ := simulates_fifo.reachable hreach
  refine ⟨Fifo.served_prefix_enqueued hqueue, Fifo.served_append_waiting hqueue, ?_⟩
  rintro ⟨hpolling, hpending, hfd, hnobody⟩
  rcases (guarded_of_reachable hreach).covered (by rw [hpolling]; rfl) hpending with
    hunread | ⟨caller, hcaller⟩
  · omega
  · simp [hnobody caller] at hcaller

/-- A run into `Poll` with two pending tasks: task 7 of thread 0 queues task 8,
and while it runs thread 1 queues task 9. -/
def sleepyRun : List (Action (Fin 2) ℕ) :=
  [.run, .checkRunning, .pushTask (.other 0) 7, .pollReturns [], .handleNext, .beginProcessing,
    .swapTasks, .executeNext, .pushTask .loop 8, .decideWakeup .loop, .pushTask (.other 1) 9,
    .wakeup .loop, .taskReturns, .executeNext, .checkRunning]

def sleepyState : State (Fin 2) ℕ :=
  ((system (Fin 2) ℕ).run .initial sleepyRun).get (by decide)

theorem sleepyState_never_stranded :
    sleepyState.phase = .polling ∧ sleepyState.executed = [7] ∧
      sleepyState.executed <+: sleepyState.pushed ∧
      sleepyState.executed ++ (sleepyState.phase.batch ++ sleepyState.pendingTasks) =
        sleepyState.pushed ∧
      ¬ (sleepyState.phase = .polling ∧ sleepyState.pendingTasks ≠ [] ∧
        sleepyState.wakeupFd = 0 ∧ ∀ caller, (sleepyState.calls caller).aboutToWake = false) :=
  ⟨by decide, by decide,
    tasks_in_order_and_never_stranded ⟨.initial, sleepyRun, rfl, (Option.some_get _).symm⟩⟩

end Eureka.EventLoop

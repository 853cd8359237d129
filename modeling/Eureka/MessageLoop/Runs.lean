import Mathlib
import Eureka.MessageLoop.Loop

/-!
# What a message loop does

* **Tasks are conserved** (`Conserved`): what was added was run or is in one of
  the queues, and the immediate tasks keep their order.
* **Delayed tasks run in time** (`Delayed`): `_delayedTasks` is in the order of
  end time and sequence number, and the loop's view of the clock is never ahead.
* **No task is slept over** (`Idle`): from where `takeTask` has found nothing to
  the end of the wait, a task in `_incomingTasks` is one of another thread, which
  has signalled or is about to.
-/

namespace Eureka.MessageLoop

open Transition
open scoped List

namespace PendingTask

variable {lhs rhs : PendingTask}

/-- Sequence numbers are no further apart than a `long` can tell. -/
theorem long_sub (lhs rhs : PendingTask) :
    long ((lhs.seqNum : ℤ) - rhs.seqNum) = lhs.seqNum - rhs.seqNum := by
  have hlhs := lhs.seqNum_lt
  have hrhs := rhs.seqNum_lt
  unfold long
  exact Int.bmod_eq_of_le (by omega) (by omega)

/-- The comparator is the order of end time and sequence number. -/
theorem before_iff : Before lhs rhs ↔
    lhs.endTime < rhs.endTime ∨ lhs.endTime = rhs.endTime ∧ lhs.seqNum ≤ rhs.seqNum := by
  unfold Before compare
  dsimp only
  rw [long_sub]
  split
  · simp [*]
  · split
    · omega
    · split
      · omega
      · split <;> omega

instance : Std.Total Before where
  total lhs rhs := by
    rw [before_iff, before_iff]
    omega

instance : IsTrans PendingTask Before where
  trans a b c hab hbc := by
    rw [before_iff] at hab hbc ⊢
    omega

theorem immediate_iff : lhs.immediate = true ↔ lhs.endTime = epoch := decide_eq_true_iff

end PendingTask

/-! ## Tasks are conserved -/

/-- The tasks that were added are those that were run, those in `_delayedTasks` and those in the two
queues; immediate ones are run in the order in which they were added. -/
structure Conserved (added ran delayedTasks queue : List PendingTask) : Prop where
  order : added.filter PendingTask.immediate =
    ran.filter PendingTask.immediate ++ queue.filter PendingTask.immediate
  perm : added ~ ran ++ (delayedTasks ++ queue)

namespace Conserved

variable {added ran delayedTasks queue : List PendingTask} {task : PendingTask}

theorem initial : Conserved [] [] [] [] := ⟨rfl, List.Perm.refl _⟩

theorem add (h : Conserved added ran delayedTasks queue) (task : PendingTask) :
    Conserved (added ++ [task]) ran delayedTasks (queue ++ [task]) where
  order := by rw [List.filter_append, List.filter_append, h.order, List.append_assoc]
  perm := by
    calc added ++ [task]
      _ ~ ran ++ (delayedTasks ++ queue) ++ [task] := h.perm.append_right [task]
      _ = ran ++ (delayedTasks ++ (queue ++ [task])) := by rw [List.append_assoc, List.append_assoc]

theorem run (h : Conserved added ran delayedTasks (task :: queue)) (htask : task.immediate = true) :
    Conserved added (ran ++ [task]) delayedTasks queue where
  order := by
    rw [h.order, List.filter_append, List.filter_cons_of_pos htask, List.append_assoc,
      List.filter_cons_of_pos htask]
    rfl
  perm := by
    calc added
      _ ~ ran ++ (delayedTasks ++ task :: queue) := h.perm
      _ ~ ran ++ (task :: (delayedTasks ++ queue)) := List.perm_middle.append_left ran
      _ = ran ++ [task] ++ (delayedTasks ++ queue) := by rw [List.append_assoc]; rfl

theorem delay (h : Conserved added ran delayedTasks (task :: queue)) (htask : task.immediate = false) :
    Conserved added ran (delayedTasks.orderedInsert PendingTask.Before task) queue where
  order := by
    rw [h.order, List.filter_cons_of_neg (by rw [htask]; nofun)]
  perm := by
    have hinsert := List.perm_orderedInsert PendingTask.Before task delayedTasks
    calc added
      _ ~ ran ++ (delayedTasks ++ task :: queue) := h.perm
      _ ~ ran ++ (task :: delayedTasks ++ queue) := List.perm_middle.append_left ran
      _ ~ ran ++ (delayedTasks.orderedInsert PendingTask.Before task ++ queue) :=
        (hinsert.symm.append_right queue).append_left ran

theorem runDelayed (h : Conserved added ran (task :: delayedTasks) queue)
    (htask : task.immediate = false) : Conserved added (ran ++ [task]) delayedTasks queue where
  order := by
    rw [h.order, List.filter_append, List.filter_singleton, htask, cond_false, List.append_nil]
  perm := by
    calc added
      _ ~ ran ++ (task :: delayedTasks ++ queue) := h.perm
      _ = ran ++ [task] ++ (delayedTasks ++ queue) := by rw [List.append_assoc]; rfl

theorem count_le (h : Conserved added ran delayedTasks queue) (task : PendingTask) :
    ran.count task ≤ added.count task := by
  rw [h.perm.count_eq task, List.count_append]
  exact Nat.le_add_right _ _

end Conserved

/-! ## Delayed tasks -/

/-- The task was due when it was run, and was the first of those in `_delayedTasks`. -/
structure Run.Timely (r : Run) : Prop where
  due : r.task.endTime ≤ r.time
  mem : r.task ∈ r.delayedTasks
  least : ∀ other ∈ r.delayedTasks, r.task.endTime < other.endTime ∨
    r.task.endTime = other.endTime ∧ r.task.seqNum ≤ other.seqNum

/-- `_delayedTasks` has its least task first, and `_recentTime` is not ahead of the clock. -/
structure Delayed (delayedTasks : List PendingTask) (recentTime : ℤ) (clock : ℕ) : Prop where
  sorted : delayedTasks.Pairwise PendingTask.Before
  delayed : ∀ task ∈ delayedTasks, task.immediate = false
  recent_le : recentTime ≤ clock

namespace Delayed

variable {delayedTasks : List PendingTask} {recentTime : ℤ} {clock : ℕ} {task : PendingTask}

theorem insert (h : Delayed delayedTasks recentTime clock) (htask : task.immediate = false) :
    Delayed (delayedTasks.orderedInsert PendingTask.Before task) recentTime clock where
  sorted := h.sorted.orderedInsert task delayedTasks
  delayed other hother := by
    obtain rfl | hother := (List.mem_orderedInsert PendingTask.Before).mp hother
    · exact htask
    · exact h.delayed other hother
  recent_le := h.recent_le

theorem tail (h : Delayed (task :: delayedTasks) recentTime clock) :
    Delayed delayedTasks recentTime clock where
  sorted := (List.pairwise_cons.mp h.sorted).2
  delayed other hother := h.delayed other (List.mem_cons_of_mem task hother)
  recent_le := h.recent_le

theorem least (h : Delayed (task :: delayedTasks) recentTime clock) {other : PendingTask}
    (hother : other ∈ task :: delayedTasks) :
    task.endTime < other.endTime ∨ task.endTime = other.endTime ∧ task.seqNum ≤ other.seqNum := by
  obtain rfl | hother := List.mem_cons.mp hother
  · exact .inr ⟨rfl, le_refl _⟩
  · exact PendingTask.before_iff.mp ((List.pairwise_cons.mp h.sorted).1 other hother)

theorem timely (h : Delayed (task :: delayedTasks) recentTime clock) (hdue : task.endTime ≤ recentTime) :
    Run.Timely ⟨task, clock, task :: delayedTasks⟩ where
  due := hdue.trans h.recent_le
  mem := List.mem_cons_self
  least _ hother := h.least hother

end Delayed

/-! ## Waiting -/

/-- From where `takeTask` has found nothing to the end of the wait. -/
def Pc.idle : Pc → Bool
  | didWork doneWork | doDelayedWork doneWork | didDelayedWork doneWork => !doneWork
  | nextDelayedWorkExpiration | waiting _ | parked _ => true
  | _ => false

/-- The loop is in `await` or, with the end time, in `awaitUntil`. -/
def Pc.wait : Pc → Option (Option ℤ)
  | waiting endTime | parked endTime => some endTime
  | _ => none

/-- The wait ends when the first delayed task is due. -/
def Deadline (delayedTasks : List PendingTask) (endTime : Option ℤ) : Prop :=
  endTime = (delayedTasks.head?).map PendingTask.endTime

/-- While the loop looks for something to wait for there is no task that nobody signals. -/
structure Idle {Thread : Type} (s : Loop Thread) : Prop where
  queue : s.pc.idle → s.outgoingTasks = [] ∧
    (s.incomingTasks ≠ [] → s.signaled = true ∨ s.waking.Nonempty)
  deadline : ∀ endTime, s.pc.wait = some endTime → Deadline s.delayedTasks endTime
  unsignaled : ∀ endTime, s.pc = .parked endTime → s.signaled = false

namespace Loop

variable {Thread : Type} {s s' : Loop Thread}

/-- The tasks that were run. -/
def tasks (s : Loop Thread) : List PendingTask := s.ran.map Run.task

structure Coherent (s : Loop Thread) : Prop where
  conserved : Conserved s.added s.tasks s.delayedTasks (s.outgoingTasks ++ s.incomingTasks)
  delayed : Delayed s.delayedTasks s.recentTime s.clock
  timely : ∀ r ∈ s.ran, r.task.immediate = false → r.Timely
  idle : Idle s

theorem coherent_initial (clock : ℕ) : (initial clock : Loop Thread).Coherent where
  conserved := .initial
  delayed := ⟨List.Pairwise.nil, nofun, Int.natCast_nonneg clock⟩
  timely := nofun
  idle := ⟨nofun, nofun, nofun⟩

/-- Where the loop is not idle and does not wait, nothing is said of the queues. -/
theorem idle_of_pc (hidle : s.pc.idle = false) (hwait : s.pc.wait = none) : Idle s where
  queue h := nomatch hidle.symm.trans h
  deadline _ h := nomatch hwait.symm.trans h
  unsignaled endTime h := by
    rw [h] at hidle
    cases hidle

/-! ## The steps -/

theorem Coherent.leave (h : s.Coherent) : s.leave.Coherent := by
  unfold Loop.leave
  split
  all_goals exact ⟨h.conserved, h.delayed, h.timely, idle_of_pc rfl rfl⟩

theorem Coherent.reset (h : s.Coherent) : s.reset.Coherent :=
  ⟨h.conserved, h.delayed, h.timely, idle_of_pc rfl rfl⟩

theorem Coherent.signal (h : s.Coherent) (waking : Finset Thread) :
    Coherent { s.signal with waking := waking } where
  conserved := h.conserved
  delayed := h.delayed
  timely := h.timely
  idle := by
    have hqueue := h.idle.queue
    have hdeadline := h.idle.deadline
    unfold Loop.signal
    cases hpc : s.pc with
    | parked endTime =>
        rw [hpc] at hqueue hdeadline
        exact ⟨fun _ => ⟨(hqueue rfl).1, fun _ => .inl rfl⟩, hdeadline, nofun⟩
    | _ =>
        rw [hpc] at hqueue hdeadline
        exact ⟨fun hidle => ⟨(hqueue hidle).1, fun _ => .inl rfl⟩, hdeadline, nofun⟩

theorem refill_eq (s : Loop Thread) :
    ∃ outgoing incoming, s.refill = { s with
      outgoingTasks := outgoing
      incomingTasks := incoming } ∧ outgoing ++ incoming = s.outgoingTasks ++ s.incomingTasks ∧
      (outgoing = [] → incoming = []) := by
  unfold refill
  split
  next hempty =>
    refine ⟨_, _, rfl, ?_, fun _ => rfl⟩
    rw [hempty, List.append_nil, List.nil_append]
  next hne => exact ⟨_, _, rfl, rfl, fun hempty => absurd hempty hne⟩

theorem tasks_startTask (s : Loop Thread) (task : PendingTask) (caller : Caller) :
    (s.startTask task caller).tasks = s.tasks ++ [task] := List.map_append

theorem Coherent.doWork (h : s.Coherent) (hpc : s.pc = .doWork) : s.doWork.Coherent := by
  obtain ⟨outgoing, incoming, hrefill, hqueue, hempty⟩ := s.refill_eq
  have hconserved := h.conserved
  rw [← hqueue] at hconserved
  unfold Loop.doWork
  rw [hrefill]
  cases outgoing with
  | nil =>
      refine ⟨hconserved, h.delayed, h.timely, ⟨fun _ => ⟨rfl, fun hne => ?_⟩, nofun, nofun⟩⟩
      exact absurd (hempty rfl) hne
  | cons task tasks =>
      dsimp only
      split
      next himmediate =>
        refine ⟨?_, h.delayed, fun r hr hdelayed => ?_, idle_of_pc rfl rfl⟩
        · rw [tasks_startTask]
          exact hconserved.run himmediate
        · obtain hr | hr := List.mem_append.mp hr
          · exact h.timely r hr hdelayed
          · rw [List.mem_singleton.mp hr, himmediate] at hdelayed
            cases hdelayed
      next hdelayed =>
        rw [Bool.not_eq_true] at hdelayed
        exact ⟨hconserved.delay hdelayed, h.delayed.insert hdelayed, h.timely,
          idle_of_pc (by rw [hpc]; rfl) (by rw [hpc]; rfl)⟩

/-- `_recentTime` may be set to the time. -/
theorem calibrate_eq (s : Loop Thread) (time : ℤ) (hle : s.recentTime ≤ s.clock) :
    ∃ recentTime, s.calibrate time = { s with recentTime := recentTime } ∧ recentTime ≤ s.clock := by
  unfold calibrate
  split
  · exact ⟨_, rfl, le_refl _⟩
  · exact ⟨_, rfl, hle⟩

theorem Coherent.doDelayedWork (h : s.Coherent) {doneWork : Bool} (hpc : s.pc = .doDelayedWork doneWork) :
    (s.doDelayedWork doneWork).Coherent := by
  have hqueue := h.idle.queue
  rw [hpc] at hqueue
  unfold Loop.doDelayedWork
  split
  next hnil => exact ⟨h.conserved, h.delayed, h.timely, ⟨hqueue, nofun, nofun⟩⟩
  next task tasks hcons =>
    obtain ⟨recentTime, hcalibrate, hle⟩ := s.calibrate_eq task.endTime h.delayed.recent_le
    have hdelayed : Delayed s.delayedTasks recentTime s.clock :=
      ⟨h.delayed.sorted, h.delayed.delayed, hle⟩
    rw [hcalibrate]
    dsimp only
    split
    next => exact ⟨h.conserved, hdelayed, h.timely, ⟨hqueue, nofun, nofun⟩⟩
    next hdue =>
      have hconserved := h.conserved
      rw [hcons] at hconserved hdelayed
      have hlate := hdelayed.delayed task List.mem_cons_self
      refine ⟨?_, hdelayed.tail, fun r hr himmediate => ?_, idle_of_pc rfl rfl⟩
      · show Conserved s.added ((s.ran ++ [_]).map Run.task) tasks _
        rw [List.map_append]
        exact hconserved.runDelayed hlate
      · obtain hr | hr := List.mem_append.mp hr
        · exact h.timely r hr himmediate
        · rw [List.mem_singleton.mp hr]
          show Run.Timely ⟨task, s.clock, s.delayedTasks⟩
          rw [hcons]
          exact hdelayed.timely (not_lt.mp hdue)

/-- The loop waits for the first of the delayed tasks, whose end time is not `Instant.EPOCH`. -/
theorem Coherent.expire (h : s.Coherent) (hpc : s.pc = .nextDelayedWorkExpiration) {expiration : ℤ}
    (hexpiration : expiration = (s.delayedTasks.head?.map PendingTask.endTime).getD epoch) :
    Coherent { s with pc := .waiting (if expiration = epoch then none else some expiration) } := by
  have hqueue := h.idle.queue
  rw [hpc] at hqueue
  refine ⟨h.conserved, h.delayed, h.timely, ⟨fun _ => hqueue rfl, fun endTime hwait => ?_, nofun⟩⟩
  rw [← Option.some.inj hwait, hexpiration]
  unfold Deadline
  cases hdelayed : s.delayedTasks with
  | nil => rfl
  | cons top tasks =>
      have hlate := h.delayed.delayed top (hdelayed ▸ List.mem_cons_self)
      have hne : top.endTime ≠ epoch := fun heq => by
        rw [PendingTask.immediate_iff.mpr heq] at hlate
        cases hlate
      exact if_neg hne

theorem Coherent.wait (h : s.Coherent) {endTime : Option ℤ} (hpc : s.pc = .waiting endTime) :
    (s.wait endTime).Coherent := by
  have hqueue := h.idle.queue
  have hdeadline := h.idle.deadline
  rw [hpc] at hqueue hdeadline
  unfold Loop.wait
  split
  next => exact h.reset
  next hsignaled =>
    rw [Bool.not_eq_true] at hsignaled
    split
    next => exact ⟨h.conserved, h.delayed, h.timely, ⟨hqueue, hdeadline, fun _ _ => hsignaled⟩⟩
    next time =>
      split
      next => exact h.leave
      next millis hmillis =>
        split
        next => exact ⟨h.conserved, h.delayed, h.timely, ⟨hqueue, hdeadline, fun _ _ => hsignaled⟩⟩
        next => exact h.reset

theorem Coherent.next (h : s.Coherent) (hnext : s.next = some s') : s'.Coherent := by
  have hqueue := h.idle.queue
  unfold Loop.next at hnext
  split at hnext
  case h_1 | h_2 | h_3 => cases hnext
  case h_4 hpc => exact Option.some.inj hnext ▸ h.doWork hpc
  case h_5 doneWork hpc =>
    rw [hpc] at hqueue
    rw [← Option.some.inj hnext]
    split
    · exact ⟨h.conserved, h.delayed, h.timely, ⟨hqueue, nofun, nofun⟩⟩
    · exact h.leave
  case h_6 doneWork hpc => exact Option.some.inj hnext ▸ h.doDelayedWork hpc
  case h_7 doneWork hpc =>
    rw [hpc] at hqueue
    rw [← Option.some.inj hnext]
    split
    · cases doneWork with
      | true => exact ⟨h.conserved, h.delayed, h.timely, idle_of_pc rfl rfl⟩
      | false => exact ⟨h.conserved, h.delayed, h.timely, ⟨hqueue, nofun, nofun⟩⟩
    · exact h.leave
  case h_8 hpc =>
    refine Option.some.inj hnext ▸ h.expire hpc ?_
    cases s.delayedTasks <;> rfl
  -- The condition of the loop in `await` or `awaitUntil`.
  case h_9 endTime hpc => exact Option.some.inj hnext ▸ h.wait hpc

variable [DecidableEq Thread]

theorem Coherent.step (h : s.Coherent) {action : Action Thread} (hstep : s.step action = some s') :
    s'.Coherent := by
  cases action with
  | enqueueTask t task =>
      obtain ⟨-, heq⟩ := Option.ite_none_left_eq_some.mp hstep
      have hconserved := h.conserved.add task
      rw [List.append_assoc] at hconserved
      refine Option.some.inj heq ▸ ⟨hconserved, h.delayed, h.timely, ⟨fun hidle => ?_,
        h.idle.deadline, h.idle.unsignaled⟩⟩
      exact ⟨(h.idle.queue hidle).1, fun _ => .inr (Finset.insert_nonempty _ _)⟩
  | wakeupAfter t =>
      obtain ⟨-, heq⟩ := Option.ite_none_right_eq_some.mp hstep
      exact Option.some.inj heq ▸ h.signal _
  | wakeup => exact Option.some.inj hstep ▸ h.signal s.waking
  | tick nanos =>
      refine Option.some.inj hstep ▸ ⟨h.conserved, ⟨h.delayed.sorted, h.delayed.delayed, ?_⟩, h.timely,
        ⟨h.idle.queue, h.idle.deadline, h.idle.unsignaled⟩⟩
      exact h.delayed.recent_le.trans (Int.ofNat_le.mpr (Nat.le_add_right _ _))
  | enqueueOwn task =>
      obtain ⟨hforeign, heq⟩ := Option.ite_none_right_eq_some.mp hstep
      have hconserved := h.conserved.add task
      rw [List.append_assoc] at hconserved
      have hpc : s.pc.idle = false ∧ s.pc.wait = none := by
        unfold foreign at hforeign
        split at hforeign
        case h_1 hpc | h_2 hpc => exact hpc ▸ ⟨rfl, rfl⟩
        case h_3 => cases hforeign
      exact Option.some.inj heq ▸ ⟨hconserved, h.delayed, h.timely, idle_of_pc hpc.1 hpc.2⟩
  | quit =>
      obtain ⟨-, heq⟩ := Option.ite_none_right_eq_some.mp hstep
      exact Option.some.inj heq ▸ ⟨h.conserved, h.delayed, h.timely,
        ⟨h.idle.queue, h.idle.deadline, h.idle.unsignaled⟩⟩
  | run =>
      replace hstep : s.run = some s' := hstep
      unfold Loop.run at hstep
      split at hstep
      case h_1 | h_2 =>
        exact Option.some.inj hstep ▸ ⟨h.conserved, h.delayed, h.timely, idle_of_pc rfl rfl⟩
      case h_3 => cases hstep
  | «return» =>
      replace hstep : s.return = some s' := hstep
      unfold Loop.return at hstep
      split at hstep
      case h_1 | h_2 =>
        exact Option.some.inj hstep ▸ ⟨h.conserved, h.delayed, h.timely, idle_of_pc rfl rfl⟩
      case h_3 => cases hstep
  | throw =>
      replace hstep : s.throw = some s' := hstep
      unfold Loop.throw at hstep
      split at hstep
      case h_1 => exact Option.some.inj hstep ▸ h.leave
      case h_2 => cases hstep
  | step => exact h.next hstep
  | unpark =>
      replace hstep : s.unpark = some s' := hstep
      have hqueue := h.idle.queue
      have hdeadline := h.idle.deadline
      unfold Loop.unpark at hstep
      split at hstep
      case h_1 endTime hpc =>
        rw [hpc] at hqueue hdeadline
        exact Option.some.inj hstep ▸ ⟨h.conserved, h.delayed, h.timely, ⟨hqueue, hdeadline, nofun⟩⟩
      case h_2 => cases hstep

theorem Coherent.of_reachable (hreach : (loop Thread).Reachable s) : s.Coherent := by
  refine hreach.invariant (fun s hs => ?_) fun s action s' h hstep => h.step hstep
  obtain ⟨clock, rfl⟩ := hs
  exact coherent_initial clock

/-! ## Where the loop goes to sleep -/

/-- What was run was added as often, and the immediate tasks were run in the order in which they were
added; delayed tasks were due, and the least of their kind; and the loop does not wait past the first
of the delayed tasks, nor while there is a task that nobody signals. -/
structure Orderly (s : Loop Thread) : Prop where
  at_most_once : ∀ task, s.tasks.count task ≤ s.added.count task
  in_order : s.tasks.filter PendingTask.immediate <+: s.added.filter PendingTask.immediate
  timely : ∀ r ∈ s.ran, r.task.immediate = false → r.Timely
  await : s.pc.wait = some none → s.delayedTasks = []
  awaitUntil : ∀ time, s.pc.wait = some (some time) →
    (∃ task ∈ s.delayedTasks, task.endTime = time) ∧ ∀ task ∈ s.delayedTasks, time ≤ task.endTime
  awake : s.pc.wait.isSome = true → s.outgoingTasks = [] ∧
    (s.incomingTasks ≠ [] → s.signaled = true ∨ s.waking.Nonempty)
  unsignaled : ∀ endTime, s.pc = .parked endTime → s.signaled = false

omit [DecidableEq Thread] in
theorem Coherent.orderly (h : s.Coherent) : s.Orderly where
  at_most_once := h.conserved.count_le
  in_order := ⟨_, h.conserved.order.symm⟩
  timely := h.timely
  await hwait := by
    have hdeadline := h.idle.deadline none hwait
    unfold Deadline at hdeadline
    exact List.head?_eq_none_iff.mp (Option.map_eq_none_iff.mp hdeadline.symm)
  awaitUntil time hwait := by
    have hdelayed := h.delayed
    obtain ⟨top, htop, rfl⟩ := Option.map_eq_some_iff.mp (h.idle.deadline (some time) hwait).symm
    obtain ⟨tasks, htasks⟩ := List.head?_eq_some_iff.mp htop
    rw [htasks] at hdelayed ⊢
    refine ⟨⟨top, List.mem_cons_self, rfl⟩, fun task htask => ?_⟩
    have hleast := hdelayed.least htask
    omega
  awake hwait := h.idle.queue (by
    cases hpc : s.pc <;> rw [hpc] at hwait <;> first | rfl | cases hwait)
  unsignaled := h.idle.unsignaled

end Loop

end Eureka.MessageLoop

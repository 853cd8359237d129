import Mathlib
import Eureka.Library.Transition

/-!
# A message loop

`MessageLoop`, `MessagePumpDefault`, `SyncEvent` and `PendingTask` of
ActiveThread-Java: one thread takes tasks from a queue that any thread adds to,
and waits on an event when there is nothing to do.

A step is a section under one of the locks, or what the loop's thread does to
its own data.  A task is any code of the loop's thread: it may add tasks, quit
the pump, and run the loop again inside itself.  Instants are nanoseconds since
`Instant.EPOCH`; the clock does not run backwards, and is not before that.

A task's sequence number comes from an `AtomicLong` that begins with zero; it is
less than `2 ^ 63` as long as no more tasks are created.
-/

namespace Eureka.MessageLoop

open Transition

/-- `Instant.EPOCH`. -/
def epoch : ℤ := 0

/-- The value of a `long`. -/
def long (n : ℤ) : ℤ := Int.bmod n (2 ^ 64)

structure PendingTask where
  seqNum : ℕ
  endTime : ℤ
  seqNum_lt : seqNum < 2 ^ 63
deriving DecidableEq, Repr

namespace PendingTask

/-- `PendingTaskComparator.compare`. -/
def compare (lhs rhs : PendingTask) : ℤ :=
  if lhs.endTime < rhs.endTime then -1
  else if rhs.endTime < lhs.endTime then 1
  else
    let diff := long (lhs.seqNum - rhs.seqNum)
    if diff < 0 then -1 else if 0 < diff then 1 else 0

/-- The order of the priority queue. -/
def Before (lhs rhs : PendingTask) : Prop := compare lhs rhs ≤ 0

instance : DecidableRel Before := fun lhs rhs => inferInstanceAs (Decidable (compare lhs rhs ≤ 0))

/-- The task is run by `doWork`. -/
def immediate (task : PendingTask) : Bool := task.endTime = epoch

end PendingTask

/-- `Instant.toEpochMilli`, unless it throws. -/
def toEpochMilli (time : ℤ) : Option ℤ :=
  let millis := time / 1000000
  if -2 ^ 63 ≤ millis ∧ millis < 2 ^ 63 then some millis else none

/-- Which call runs the task. -/
inductive Caller
  | doWork
  | doDelayedWork
deriving DecidableEq, Repr

/-- Where the loop's thread is. -/
inductive Pc
  /-- Outside `run`. -/
  | stopped
  | doWork
  | task (caller : Caller)
  /-- `if (!_running) break` behind `doWork`. -/
  | didWork (doneWork : Bool)
  | doDelayedWork (doneWork : Bool)
  /-- `if (!_running) break` behind `doDelayedWork`. -/
  | didDelayedWork (doneWork : Bool)
  | nextDelayedWorkExpiration
  /-- The condition of the loop in `await` or, with the end time, in `awaitUntil`. -/
  | waiting (endTime : Option ℤ)
  /-- `_cond.await()` or `_cond.awaitUntil`. -/
  | parked (endTime : Option ℤ)
deriving DecidableEq, Repr

/-- A task that was run, when it was, and what was in `_delayedTasks` then. -/
structure Run where
  task : PendingTask
  time : ℕ
  delayedTasks : List PendingTask
deriving DecidableEq, Repr

/-- The queues, `_delayedTasks` in the order of its comparator; the pump and its event; the loop's
thread with the tasks that have run the loop again; the threads that have added a task and are about
to call `wakeup`; and the tasks that were added and run so far. -/
structure Loop (Thread : Type) where
  incomingTasks : List PendingTask
  outgoingTasks : List PendingTask
  delayedTasks : List PendingTask
  recentTime : ℤ
  running : Bool
  signaled : Bool
  pc : Pc
  outer : List Caller
  waking : Finset Thread
  clock : ℕ
  added : List PendingTask
  ran : List Run

inductive Action (Thread : Type)
  /-- `enqueueTask` by another thread: its section under the lock. -/
  | enqueueTask (t : Thread) (task : PendingTask)
  /-- `enqueueTask` by another thread: its call of `wakeup`. -/
  | wakeupAfter (t : Thread)
  /-- Anybody calls `wakeup`. -/
  | wakeup
  /-- Time passes. -/
  | tick (nanos : ℕ)
  /-- `enqueueTask` by the loop's thread. -/
  | enqueueOwn (task : PendingTask)
  | quit
  | run
  /-- The task returns. -/
  | «return»
  /-- The task throws an exception. -/
  | throw
  /-- The next step of the loop. -/
  | step
  /-- The loop's thread wakes up: by a signal, at the end time, or without a reason. -/
  | unpark

namespace Loop

variable {Thread : Type}

def initial (clock : ℕ) : Loop Thread where
  incomingTasks := []
  outgoingTasks := []
  delayedTasks := []
  recentTime := epoch
  running := false
  signaled := false
  pc := .stopped
  outer := []
  waking := ∅
  clock := clock
  added := []
  ran := []

/-- Code of the loop's thread that is not the loop's own runs. -/
def foreign (s : Loop Thread) : Bool :=
  match s.pc with
  | .stopped | .task _ => true
  | _ => false

def add (s : Loop Thread) (task : PendingTask) : Loop Thread :=
  { s with incomingTasks := s.incomingTasks ++ [task], added := s.added ++ [task] }

/-- `SyncEvent.signal`. -/
def signal (s : Loop Thread) : Loop Thread :=
  { s with
    signaled := true
    pc := match s.pc with
      | .parked endTime => .waiting endTime
      | pc => pc }

/-- `run` comes to its end; a task that has called it goes on. -/
def leave (s : Loop Thread) : Loop Thread :=
  match s.outer with
  | [] => { s with pc := .stopped }
  | caller :: outer => { s with pc := .task caller, outer := outer }

def startTask (s : Loop Thread) (task : PendingTask) (caller : Caller) : Loop Thread :=
  { s with pc := .task caller, ran := s.ran ++ [⟨task, s.clock, s.delayedTasks⟩] }

/-- The section of `takeTask` under the lock. -/
def refill (s : Loop Thread) : Loop Thread :=
  if s.outgoingTasks = [] then { s with outgoingTasks := s.incomingTasks, incomingTasks := [] } else s

/-- One round of the loop of `doWork`. -/
def doWork (s : Loop Thread) : Loop Thread :=
  let s := s.refill
  match s.outgoingTasks with
  | [] => { s with pc := .didWork false }
  | task :: tasks =>
      let s := { s with outgoingTasks := tasks }
      if task.immediate then s.startTask task .doWork
      else { s with delayedTasks := s.delayedTasks.orderedInsert PendingTask.Before task }

/-- `_recentTime` is calibrated only if it has fallen behind. -/
def calibrate (s : Loop Thread) (nextRunTime : ℤ) : Loop Thread :=
  if s.recentTime < nextRunTime then { s with recentTime := s.clock } else s

def doDelayedWork (s : Loop Thread) (doneWork : Bool) : Loop Thread :=
  match s.delayedTasks with
  | [] => { s with pc := .didDelayedWork doneWork }
  | task :: tasks =>
      let s := s.calibrate task.endTime
      if s.recentTime < task.endTime then { s with pc := .didDelayedWork doneWork }
      else { s.startTask task .doDelayedWork with delayedTasks := tasks }

/-- `_signaled` is set back, and the loop goes on. -/
def reset (s : Loop Thread) : Loop Thread := { s with signaled := false, pc := .doWork }

/-- The condition of the loops in `await` and `awaitUntil`. -/
def wait (s : Loop Thread) (endTime : Option ℤ) : Loop Thread :=
  if s.signaled then s.reset
  else
    match endTime with
    | none => { s with pc := .parked none }
    | some time =>
        match toEpochMilli time with
        | none => s.leave
        | some millis =>
            if (s.clock : ℤ) / 1000000 < millis then { s with pc := .parked (some time) } else s.reset

def next (s : Loop Thread) : Option (Loop Thread) :=
  match s.pc with
  | .stopped | .task _ | .parked _ => none
  | .doWork => some s.doWork
  | .didWork doneWork => some (if s.running then { s with pc := .doDelayedWork doneWork } else s.leave)
  | .doDelayedWork doneWork => some (s.doDelayedWork doneWork)
  | .didDelayedWork doneWork =>
      some (if s.running then
        { s with pc := if doneWork then .doWork else .nextDelayedWorkExpiration } else s.leave)
  | .nextDelayedWorkExpiration =>
      let expiration := match s.delayedTasks with
        | [] => epoch
        | top :: _ => top.endTime
      some { s with pc := .waiting (if expiration = epoch then none else some expiration) }
  | .waiting endTime => some (s.wait endTime)

/-- `run`, on a thread that is not in the loop or from inside a task. -/
def run (s : Loop Thread) : Option (Loop Thread) :=
  match s.pc with
  | .stopped => some { s with running := true, pc := .doWork }
  | .task caller => some { s with running := true, pc := .doWork, outer := caller :: s.outer }
  | _ => none

/-- A task returns, and its caller answers `true`. -/
def «return» (s : Loop Thread) : Option (Loop Thread) :=
  match s.pc with
  | .task .doWork => some { s with pc := .didWork true }
  | .task .doDelayedWork => some { s with pc := .didDelayedWork true }
  | _ => none

def throw (s : Loop Thread) : Option (Loop Thread) :=
  match s.pc with
  | .task _ => some s.leave
  | _ => none

def unpark (s : Loop Thread) : Option (Loop Thread) :=
  match s.pc with
  | .parked endTime => some { s with pc := .waiting endTime }
  | _ => none

variable [DecidableEq Thread]

def step (s : Loop Thread) : Action Thread → Option (Loop Thread)
  | .enqueueTask t task =>
      if t ∈ s.waking then none else some { s.add task with waking := insert t s.waking }
  | .wakeupAfter t =>
      if t ∈ s.waking then some { s.signal with waking := s.waking.erase t } else none
  | .wakeup => some s.signal
  | .tick nanos => some { s with clock := s.clock + nanos }
  | .enqueueOwn task => if s.foreign then some (s.add task) else none
  | .quit => if s.foreign then some { s with running := false } else none
  | .run => s.run
  | .return => s.return
  | .throw => s.throw
  | .step => s.next
  | .unpark => s.unpark

end Loop

/-- A loop and any other threads. -/
def loop (Thread : Type) [DecidableEq Thread] : System (Loop Thread) (Action Thread) where
  start s := ∃ clock, s = .initial clock
  step := Loop.step

end Eureka.MessageLoop

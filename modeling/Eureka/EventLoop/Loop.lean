import Eureka.Library.Transition

/-!
# The event loop

`EventLoop` of `event_loop.cpp` as a transition system.  Its threads are the
loop thread, which owns the loop and calls `Run`, and any number of others.  A
step is what one thread does between two points at which another one can
observe it: a mutex section, the evaluation of a condition, a call on the
`eventfd`, or a part of `Run` or `ProcessPendingTasks`.

The code that the loop calls back, event handlers and tasks, may call
`QueueTask` and `Quit` any number of times, return, or throw.  The other threads
may call them at any time.  Calls of the loop thread outside `Run` are not part
of the system.
-/

namespace Eureka.EventLoop

/-- The thread that calls a member function. -/
inductive Caller (Thread : Type)
  | loop
  | other (thread : Thread)
deriving DecidableEq

/-- Where a thread is inside `QueueTask` or `Quit`. -/
inductive Call
  /-- inside neither -/
  | idle
  /-- `QueueTask` has pushed the task and not yet evaluated its condition -/
  | pushed
  /-- `QueueTask` is about to call `Wakeup` -/
  | waking
  /-- `Quit` is about to call `Wakeup` -/
  | quitting
deriving DecidableEq

/-- The channels the poller watches: `wakeup_channel_` and those of the users. -/
inductive Channel
  | wakeup
  | user
deriving DecidableEq

/-- Where the loop thread is. -/
inductive Phase (Task : Type)
  /-- outside `Run` -/
  | outside
  /-- at the condition of the loop of `Run` -/
  | checking
  /-- in `Poll` -/
  | polling
  /-- handling the events of these channels, between two of them -/
  | handling (active : List Channel)
  /-- in an event handler, with these channels left -/
  | inHandler (active : List Channel)
  /-- at the start of `ProcessPendingTasks` -/
  | entering
  /-- in `ProcessPendingTasks`, in front of the swap -/
  | swapping
  /-- in `ProcessPendingTasks`, between two tasks, with these left -/
  | executing (batch : List Task)
  /-- in a task, with these left -/
  | inTask (batch : List Task)
  /-- `Run` was left by an exception, and these tasks of the batch are gone -/
  | unwound (lost : List Task)
deriving DecidableEq

/-- The loop, its threads, and two logs of which the code knows nothing:
`pushed` has the tasks in the order of their pushes to `pending_tasks_`,
`executed` the tasks in the order in which their execution began. -/
structure State (Thread Task : Type) where
  isRunning : Bool
  executingPendingTask : Bool
  pendingTasks : List Task
  /-- the counter of the `eventfd` -/
  wakeupFd : ℕ
  phase : Phase Task
  calls : Caller Thread → Call
  pushed : List Task
  executed : List Task

/-- What a thread can do next. -/
inductive Action (Thread Task : Type)
  | pushTask (caller : Caller Thread) (task : Task)
  | decideWakeup (caller : Caller Thread)
  | wakeup (caller : Caller Thread)
  | quit (caller : Caller Thread)
  | run
  | checkRunning
  | pollReturns (active : List Channel)
  | handleNext
  | handlerReturns
  | beginProcessing
  | swapTasks
  | executeNext
  | taskReturns
  | throw

/-- The counter of an `eventfd` never exceeds this value. -/
def maxCounter : ℕ := 2 ^ 64 - 2

/-- `write` on the non-blocking `eventfd`; `none` if it fails. -/
def eventfdWrite (counter data : ℕ) : Option ℕ :=
  if counter + data ≤ maxCounter then some (counter + data) else none

/-- `read` on the non-blocking `eventfd`; `none` if it fails. -/
def eventfdRead (counter : ℕ) : Option ℕ :=
  if counter = 0 then none else some 0

namespace Phase

variable {Task : Type}

/-- The loop thread runs code of the users, a handler or a task. -/
def inUserCode : Phase Task → Bool
  | inHandler _ => true
  | inTask _ => true
  | _ => false

/-- The tasks that were swapped out and that are not executed yet. -/
def batch : Phase Task → List Task
  | executing batch => batch
  | inTask batch => batch
  | unwound lost => lost
  | _ => []

end Phase

namespace State

variable {Thread Task : Type}

def initial : State Thread Task where
  isRunning := false
  executingPendingTask := false
  pendingTasks := []
  wakeupFd := 0
  phase := .outside
  calls := fun _ => .idle
  pushed := []
  executed := []

variable [DecidableEq Thread]

def setCall (s : State Thread Task) (caller : Caller Thread) (call : Call) :
    State Thread Task :=
  { s with calls := Function.update s.calls caller call }

/-- The caller runs code that may call a member function. -/
def mayCall (s : State Thread Task) (caller : Caller Thread) : Bool :=
  s.calls caller = .idle && (caller ≠ .loop || s.phase.inUserCode)

/-! ## `QueueTask` and `Quit` -/

/-- The section of `QueueTask` under the mutex. -/
def pushTask (s : State Thread Task) (caller : Caller Thread) (task : Task) :
    Option (State Thread Task) :=
  if s.mayCall caller then
    some ({ s with pendingTasks := s.pendingTasks ++ [task],
                   pushed := s.pushed ++ [task] }.setCall caller .pushed)
  else
    none

/-- `!BelongsToCurrentThread() || executing_pending_task_`. -/
def decideWakeup (s : State Thread Task) (caller : Caller Thread) :
    Option (State Thread Task) :=
  if s.calls caller = .pushed then
    if caller ≠ .loop || s.executingPendingTask then
      some (s.setCall caller .waking)
    else
      some (s.setCall caller .idle)
  else
    none

/-- `Wakeup`.  A failing check throws into the code that called `QueueTask` or
`Quit`, as a return would. -/
def wakeup (s : State Thread Task) (caller : Caller Thread) : Option (State Thread Task) :=
  if s.calls caller = .waking ∨ s.calls caller = .quitting then
    match eventfdWrite s.wakeupFd 1 with
    | some counter => some ({ s with wakeupFd := counter }.setCall caller .idle)
    | none => some (s.setCall caller .idle)
  else
    none

/-- `Quit`, up to its call of `Wakeup`. -/
def quit (s : State Thread Task) (caller : Caller Thread) : Option (State Thread Task) :=
  if s.mayCall caller then
    if caller ≠ .loop then
      some ({ s with isRunning := false }.setCall caller .quitting)
    else
      some { s with isRunning := false }
  else
    none

/-! ## `Run` -/

/-- The start of `Run`. -/
def run (s : State Thread Task) : Option (State Thread Task) :=
  match s.phase with
  | .outside => if s.isRunning then none else some { s with isRunning := true, phase := .checking }
  | _ => none

/-- The condition of the loop. -/
def checkRunning (s : State Thread Task) : Option (State Thread Task) :=
  match s.phase with
  | .checking => some { s with phase := if s.isRunning then .polling else .outside }
  | _ => none

/-- `Poll` returns, after an event or a timeout; `wakeup_channel_` is active
only while its descriptor is readable. -/
def pollReturns (s : State Thread Task) (active : List Channel) : Option (State Thread Task) :=
  match s.phase with
  | .polling =>
      if .wakeup ∈ active → 0 < s.wakeupFd then some { s with phase := .handling active } else none
  | _ => none

/-- The next `HandleEvents`; the handler of `wakeup_channel_` is `OnWakeup`. -/
def handleNext (s : State Thread Task) : Option (State Thread Task) :=
  match s.phase with
  | .handling [] => some { s with phase := .entering }
  | .handling (.wakeup :: active) =>
      match eventfdRead s.wakeupFd with
      | some counter => some { s with wakeupFd := counter, phase := .handling active }
      | none => some { s with phase := .unwound [] }
  | .handling (.user :: active) => some { s with phase := .inHandler active }
  | _ => none

def handlerReturns (s : State Thread Task) : Option (State Thread Task) :=
  match s.phase with
  | .inHandler active =>
      if s.calls .loop = .idle then some { s with phase := .handling active } else none
  | _ => none

/-! ## `ProcessPendingTasks` -/

/-- `executing_pending_task_ = true`. -/
def beginProcessing (s : State Thread Task) : Option (State Thread Task) :=
  match s.phase with
  | .entering => some { s with executingPendingTask := true, phase := .swapping }
  | _ => none

/-- The section under the mutex. -/
def swapTasks (s : State Thread Task) : Option (State Thread Task) :=
  match s.phase with
  | .swapping => some { s with pendingTasks := [], phase := .executing s.pendingTasks }
  | _ => none

/-- The next task of the batch, or the end of `ProcessPendingTasks`. -/
def executeNext (s : State Thread Task) : Option (State Thread Task) :=
  match s.phase with
  | .executing [] => some { s with executingPendingTask := false, phase := .checking }
  | .executing (task :: batch) =>
      some { s with phase := .inTask batch, executed := s.executed ++ [task] }
  | _ => none

def taskReturns (s : State Thread Task) : Option (State Thread Task) :=
  match s.phase with
  | .inTask batch =>
      if s.calls .loop = .idle then some { s with phase := .executing batch } else none
  | _ => none

/-- `Poll`, an event handler or a task throws an exception that nobody catches
inside `Run`. -/
def throw (s : State Thread Task) : Option (State Thread Task) :=
  match s.phase with
  | .polling => some { s with phase := .unwound [] }
  | .inHandler _ => if s.calls .loop = .idle then some { s with phase := .unwound [] } else none
  | .inTask batch =>
      if s.calls .loop = .idle then some { s with phase := .unwound batch } else none
  | _ => none

def step (s : State Thread Task) : Action Thread Task → Option (State Thread Task)
  | .pushTask caller task => s.pushTask caller task
  | .decideWakeup caller => s.decideWakeup caller
  | .wakeup caller => s.wakeup caller
  | .quit caller => s.quit caller
  | .run => s.run
  | .checkRunning => s.checkRunning
  | .pollReturns active => s.pollReturns active
  | .handleNext => s.handleNext
  | .handlerReturns => s.handlerReturns
  | .beginProcessing => s.beginProcessing
  | .swapTasks => s.swapTasks
  | .executeNext => s.executeNext
  | .taskReturns => s.taskReturns
  | .throw => s.throw

end State

open Transition in
def system (Thread Task : Type) [DecidableEq Thread] :
    System (State Thread Task) (Action Thread Task) where
  start s := s = .initial
  step := State.step

end Eureka.EventLoop

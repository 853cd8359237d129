import Eureka.Library.Transition

/-!
# The thread pool

The workers, the callers of `PostTask` and the destructor, one action at a time.
What is done under `pool_mutex_` is split at every access to `running_` and to
the queue.  A worker that waits on `not_empty_` may be woken at any time, by a
notification or spuriously, and has to lock the mutex again.

A task is the number of its acceptance; the function it wraps is never empty.
A post after the shutdown is refused by `ENSURE` and leaves no task.  The logs
`posted`, `retrieved` and `executed` are not in the code.
-/

namespace Eureka.ThreadPool

open Transition

inductive TaskShutdownBehavior
  | blockShutdown
  | skipOnShutdown
  deriving DecidableEq

/-- The loop of `RunInThread`, with `RetrieveTask` in it. -/
inductive WorkerAt
  | lock
  | check
  | waiting
  | scan
  | unlock (task : Option ℕ)
  | call (task : ℕ)
  | executing (task : ℕ)
  | exited
  deriving DecidableEq

/-- `PostTaskWithShutdownBehavior`. -/
inductive PosterAt
  | idle
  | lock (behavior : TaskShutdownBehavior)
  | ensure (behavior : TaskShutdownBehavior)
  | push (behavior : TaskShutdownBehavior)
  | unlock
  deriving DecidableEq

/-- The destructor, which in the end joins the workers. -/
inductive DestructorAt
  | notCalled
  | lock
  | stop
  | unlock
  | join
  deriving DecidableEq

/-- Who can hold the mutex. -/
inductive Agent (Worker Poster : Type)
  | worker (w : Worker)
  | poster (p : Poster)
  | destructor
  deriving DecidableEq

/-- A task that was taken from the queue, to be run or to be skipped. -/
structure Retrieval where
  task : ℕ
  behavior : TaskShutdownBehavior
  running : Bool
  taken : Bool

structure Pool (Worker Poster : Type) where
  taskQueue : List (ℕ × TaskShutdownBehavior)
  running : Bool
  poolMutex : Option (Agent Worker Poster)
  worker : Worker → WorkerAt
  poster : Poster → PosterAt
  destructor : DestructorAt
  /-- The accepted tasks. -/
  posted : List TaskShutdownBehavior
  retrieved : List Retrieval
  /-- The tasks that were called. -/
  executed : List ℕ

inductive Action (Worker Poster : Type)
  | post (p : Poster) (behavior : TaskShutdownBehavior)
  | destroy
  | worker (w : Worker)
  | poster (p : Poster)
  | destructor

namespace Pool

variable {Worker Poster : Type} [DecidableEq Worker] [DecidableEq Poster]

def gotoWorker (s : Pool Worker Poster) (w : Worker) (pc : WorkerAt) : Pool Worker Poster :=
  { s with worker := Function.update s.worker w pc }

def gotoPoster (s : Pool Worker Poster) (p : Poster) (pc : PosterAt) : Pool Worker Poster :=
  { s with poster := Function.update s.poster p pc }

def gotoDestructor (s : Pool Worker Poster) (pc : DestructorAt) : Pool Worker Poster :=
  { s with destructor := pc }

/-- Takes the first task from the queue. -/
def popFront (s : Pool Worker Poster) (taken : Bool) : Pool Worker Poster :=
  match s.taskQueue with
  | [] => s
  | (task, behavior) :: rest =>
      { s with
        taskQueue := rest
        retrieved := s.retrieved ++ [⟨task, behavior, s.running, taken⟩] }

/-- One turn of the loop of `RetrieveTask`. -/
def scan (s : Pool Worker Poster) (w : Worker) : Pool Worker Poster :=
  match s.taskQueue with
  | [] => s.gotoWorker w (.unlock none)
  | (task, behavior) :: _ =>
      if s.running = false ∧ behavior = .skipOnShutdown then (s.popFront false).gotoWorker w .scan
      else (s.popFront true).gotoWorker w (.unlock (some task))

/-- The next step of a worker, if it can be done. -/
def workerNext (s : Pool Worker Poster) (w : Worker) : Option (Pool Worker Poster) :=
  match s.worker w with
  | .lock =>
      if s.poolMutex = none then
        some ({ s with poolMutex := some (.worker w) }.gotoWorker w .check)
      else none
  | .check =>
      if s.running = false ∨ s.taskQueue ≠ [] then some (s.gotoWorker w .scan)
      else some ({ s with poolMutex := none }.gotoWorker w .waiting)
  | .waiting => some (s.gotoWorker w .lock)
  | .scan => some (s.scan w)
  | .unlock none => some ({ s with poolMutex := none }.gotoWorker w .exited)
  | .unlock (some task) => some ({ s with poolMutex := none }.gotoWorker w (.call task))
  | .call task =>
      some ({ s with executed := s.executed ++ [task] }.gotoWorker w (.executing task))
  | .executing _ => some (s.gotoWorker w .lock)
  | .exited => none

/-- The next step of a caller of `PostTask`, if it can be done. -/
def posterNext (s : Pool Worker Poster) (p : Poster) : Option (Pool Worker Poster) :=
  match s.poster p with
  | .idle => none
  | .lock behavior =>
      if s.poolMutex = none then
        some ({ s with poolMutex := some (.poster p) }.gotoPoster p (.ensure behavior))
      else none
  | .ensure behavior => some (s.gotoPoster p (if s.running then .push behavior else .unlock))
  | .push behavior =>
      some ({ s with
        taskQueue := s.taskQueue ++ [(s.posted.length, behavior)]
        posted := s.posted ++ [behavior] }.gotoPoster p .unlock)
  | .unlock => some ({ s with poolMutex := none }.gotoPoster p .idle)

/-- The next step of the destructor, if it can be done. -/
def destructorNext (s : Pool Worker Poster) : Option (Pool Worker Poster) :=
  match s.destructor with
  | .notCalled => none
  | .lock =>
      if s.poolMutex = none then
        some ({ s with poolMutex := some .destructor }.gotoDestructor .stop)
      else none
  | .stop => some ({ s with running := false }.gotoDestructor .unlock)
  | .unlock => some ({ s with poolMutex := none }.gotoDestructor .join)
  | .join => none

end Pool

section Steps

variable {Worker Poster : Type} [DecidableEq Worker] [DecidableEq Poster]

def step (s : Pool Worker Poster) (action : Action Worker Poster) : Option (Pool Worker Poster) :=
  match action with
  | .post p behavior =>
      if s.poster p = .idle then some (s.gotoPoster p (.lock behavior)) else none
  | .destroy =>
      if s.destructor = .notCalled then some (s.gotoDestructor .lock) else none
  | .worker w => s.workerNext w
  | .poster p => s.posterNext p
  | .destructor => s.destructorNext

/-- The pool behind its constructor. -/
def initial : Pool Worker Poster where
  taskQueue := []
  running := true
  poolMutex := none
  worker _ := .lock
  poster _ := .idle
  destructor := .notCalled
  posted := []
  retrieved := []
  executed := []

/-- The pool with any workers, callers and order of their steps. -/
def tinyThreadPool (Worker Poster : Type) [DecidableEq Worker] [DecidableEq Poster] :
    System (Pool Worker Poster) (Action Worker Poster) where
  start s := s = initial
  step := step

end Steps

end Eureka.ThreadPool

import Eureka.Library.Transition

/-!
# The recursive light mutex

`lock`, `try_lock` and `unlock` as the threads execute them: a step is an
interlocked operation, a wait for or a release of the semaphore, or an access to
`owner_tid_` or `recursion_count_`.  The mutex stands for no thread by `none`,
where the code has the thread id 0.

`use_count_` and `recursion_count_` have the type `long`, of 32 bits.  `depth`
is not in the code: it has the acquisitions that a thread has completed and
whose `unlock` has not given back their part of `use_count_`.
-/

namespace Eureka.LightMutex

open Transition

/-- The values of a `long`. -/
def long (n : ℤ) : ℤ := Int.bmod n (2 ^ 32)

def longMax : ℤ := 2 ^ 31 - 1

/-- How far a thread is. -/
inductive Local
  | idle
  -- lock
  | lockAdd
  | lockRead
  | wait
  -- try_lock
  | tryRead
  | tryAdd
  | tryExchange
  -- behind both, with the guard gained
  | setOwner
  | loadRecursion
  | storeRecursion (count : ℤ)
  -- unlock
  | unlockAssert
  | unlockLoad
  | unlockStore (count : ℤ)
  | clearOwner
  | unlockSub (newRecur : ℤ)
  | release
  deriving DecidableEq

structure Mutex (Thread : Type) where
  /-- The count of the semaphore, which is at most 1. -/
  sem : ℕ
  ownerTid : Option Thread
  useCount : ℤ
  recursionCount : ℤ
  thread : Thread → Local
  depth : Thread → ℕ
  /-- The assertion of an `unlock` failed. -/
  assertFailed : Bool
  /-- The semaphore could not be released, since its count was 1. -/
  releaseFailed : Bool

inductive Action (Thread : Type)
  | lock (t : Thread)
  | tryLock (t : Thread)
  | unlock (t : Thread)
  | step (t : Thread)

namespace Mutex

variable {Thread : Type} [DecidableEq Thread]

def goto (m : Mutex Thread) (t : Thread) (pc : Local) : Mutex Thread :=
  { m with thread := Function.update m.thread t pc }

def setDepth (m : Mutex Thread) (t : Thread) (depth : ℕ) : Mutex Thread :=
  { m with depth := Function.update m.depth t depth }

/-- `_InterlockedExchangeAdd` on the use count. -/
def addUse (m : Mutex Thread) (delta : ℤ) : Mutex Thread :=
  { m with useCount := long (m.useCount + delta) }

def setRecursion (m : Mutex Thread) (count : ℤ) : Mutex Thread :=
  { m with recursionCount := long count }

/-- The next step of a thread, if it can be done. -/
def next? (m : Mutex Thread) (t : Thread) : Option (Mutex Thread) :=
  match m.thread t with
  | .idle => none
  | .lockAdd =>
      some ((m.addUse 1).goto t (if m.useCount > 0 then .lockRead else .setOwner))
  | .lockRead => some (m.goto t (if m.ownerTid ≠ some t then .wait else .setOwner))
  | .wait =>
      if 0 < m.sem then some ({ m with sem := m.sem - 1 }.goto t .setOwner) else none
  | .tryRead => some (m.goto t (if m.ownerTid = some t then .tryAdd else .tryExchange))
  | .tryAdd => some ((m.addUse 1).goto t .loadRecursion)
  | .tryExchange =>
      -- try_lock returns false where the count is not 0
      if m.useCount ≠ 0 then some (m.goto t .idle)
      else some ({ m with useCount := 1 }.goto t .setOwner)
  | .setOwner => some ({ m with ownerTid := some t }.goto t .loadRecursion)
  | .loadRecursion => some (m.goto t (.storeRecursion m.recursionCount))
  | .storeRecursion count =>
      some (((m.setRecursion (count + 1)).setDepth t (m.depth t + 1)).goto t .idle)
  | .unlockAssert =>
      if m.ownerTid = some t then some (m.goto t .unlockLoad)
      else some { m with assertFailed := true }
  | .unlockLoad => some (m.goto t (.unlockStore m.recursionCount))
  | .unlockStore count =>
      some ((m.setRecursion (count - 1)).goto t
        (if long (count - 1) = 0 then .clearOwner else .unlockSub (long (count - 1))))
  | .clearOwner => some ({ m with ownerTid := none }.goto t (.unlockSub 0))
  | .unlockSub newRecur =>
      some (((m.addUse (-1)).setDepth t (m.depth t - 1)).goto t
        (if m.useCount > 1 ∧ newRecur = 0 then .release else .idle))
  | .release =>
      if m.sem < 1 then some ({ m with sem := m.sem + 1 }.goto t .idle)
      else some ({ m with releaseFailed := true }.goto t .idle)

end Mutex

section Steps

variable {Thread : Type} [DecidableEq Thread]

/-- Only a thread that holds the lock calls `unlock`. -/
def step (m : Mutex Thread) (action : Action Thread) : Option (Mutex Thread) :=
  if m.assertFailed then none
  else
    match action with
    | .lock t => if m.thread t = .idle then some (m.goto t .lockAdd) else none
    | .tryLock t => if m.thread t = .idle then some (m.goto t .tryRead) else none
    | .unlock t =>
        if m.thread t = .idle ∧ 0 < m.depth t then some (m.goto t .unlockAssert) else none
    | .step t => m.next? t

def initial : Mutex Thread where
  sem := 0
  ownerTid := none
  useCount := 0
  recursionCount := 0
  thread _ := .idle
  depth _ := 0
  assertFailed := false
  releaseFailed := false

/-- The mutex under any calls of any threads. -/
def recursiveLightMutex (Thread : Type) [DecidableEq Thread] :
    System (Mutex Thread) (Action Thread) where
  start m := m = initial
  step := step

end Steps

end Eureka.LightMutex

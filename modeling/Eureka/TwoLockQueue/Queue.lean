import Eureka.Library.LinkedList
import Eureka.Library.SequentialObject
import Eureka.Library.Transition

/-!
# The two-lock queue

`Enqueue` and `Dequeue` as the threads execute them, one access to a field or a
mutex at a time.  Nodes live at addresses: `new` may take any address that is
not in use, also one that was deleted before, and an access to an address that
is not in use is a fault, after which nothing is known.

The fields behind `fault` are not in the code.  `history` has the insertions at
the tail, the removals at the head and the reads of an empty queue in their
order, and `returned` what the calls returned.
-/

namespace Eureka.TwoLockQueue

open Transition

structure Node (Addr T : Type) where
  value : T
  next : Option Addr

/-- How far a thread is. -/
inductive Local (Addr T : Type)
  | idle
  -- Enqueue
  | alloc (value : T)
  | lockTail (value : T) (newTail : Addr)
  | readTail (value : T) (newTail : Addr)
  | writeNext (value : T) (newTail tail : Addr)
  | writeTail (newTail : Addr)
  | unlockTail
  -- Dequeue
  | lockHead
  | readHead
  | readNext (head : Addr)
  | unlockEmpty
  | readOldHead (newHead : Addr)
  | readValue (newHead oldHead : Addr)
  | writeHead (newHead oldHead : Addr) (value : T)
  | unlockHead (oldHead : Addr) (value : T)
  | delete (oldHead : Addr) (value : T)

/-! ## The sequential queue -/

inductive Op (T : Type)
  | enqueue (value : T)
  | dequeue

/-- What a call returns; `Dequeue` returns `false` for an empty queue. -/
inductive Ret (T : Type)
  | enqueued
  | dequeued (value : T)
  | empty

def fifo (T : Type) : SequentialObject (List T) (Op T) (Ret T) where
  start := []
  call
    | values, .enqueue value => (.enqueued, values ++ [value])
    | [], .dequeue => (.empty, [])
    | value :: values, .dequeue => (.dequeued value, values)

/-! ## The state -/

structure Queue (Thread Addr T : Type) where
  /-- The nodes, by their addresses. -/
  node : Addr → Option (Node Addr T)
  head : Addr
  tail : Addr
  /-- The threads that have locked the mutexes. -/
  headMtx : Option Thread
  tailMtx : Option Thread
  thread : Thread → Local Addr T
  fault : Bool
  history : List (Thread × Op T)
  returned : List (Thread × Ret T)

/-- A thread calls, its `new` is given an address, or it does its next step. -/
inductive Action (Thread Addr T : Type)
  | enqueue (t : Thread) (value : T)
  | dequeue (t : Thread)
  | new (t : Thread) (addr : Addr)
  | step (t : Thread)

section Steps

variable {Thread Addr T : Type} [DecidableEq Thread] [DecidableEq Addr]

namespace Queue

def next (q : Queue Thread Addr T) (addr : Addr) : Option Addr :=
  (q.node addr).bind Node.next

def value? (q : Queue Thread Addr T) (addr : Addr) : Option T :=
  (q.node addr).map Node.value

def goto (q : Queue Thread Addr T) (t : Thread) (pc : Local Addr T) : Queue Thread Addr T :=
  { q with thread := Function.update q.thread t pc }

def setNode (q : Queue Thread Addr T) (addr : Addr) (node : Option (Node Addr T)) :
    Queue Thread Addr T :=
  { q with node := Function.update q.node addr node }

def record (q : Queue Thread Addr T) (t : Thread) (op : Op T) : Queue Thread Addr T :=
  { q with history := q.history ++ [(t, op)] }

def ret (q : Queue Thread Addr T) (t : Thread) (ret : Ret T) : Queue Thread Addr T :=
  { q.goto t .idle with returned := q.returned ++ [(t, ret)] }

/-- An access to the node at an address. -/
def access (q : Queue Thread Addr T) (addr : Addr)
    (use : Node Addr T → Queue Thread Addr T) : Queue Thread Addr T :=
  match q.node addr with
  | some node => use node
  | none => { q with fault := true }

/-- The next step of a thread, if it can be done; `idle` and `alloc` wait for other actions. -/
def next? (q : Queue Thread Addr T) (t : Thread) : Option (Queue Thread Addr T) :=
  match q.thread t with
  | .idle => none
  | .alloc _ => none
  | .lockTail value newTail =>
      if q.tailMtx = none then
        some ({ q with tailMtx := some t }.goto t (.readTail value newTail))
      else none
  | .readTail value newTail => some (q.goto t (.writeNext value newTail q.tail))
  | .writeNext value newTail tail =>
      -- tail_->next = new_tail;
      some (q.access tail fun node =>
        ((q.setNode tail (some { node with next := some newTail })).record t
          (.enqueue value)).goto t (.writeTail newTail))
  | .writeTail newTail => some ({ q with tail := newTail }.goto t .unlockTail)
  | .unlockTail => some ({ q with tailMtx := none }.ret t .enqueued)
  | .lockHead =>
      if q.headMtx = none then some ({ q with headMtx := some t }.goto t .readHead) else none
  | .readHead => some (q.goto t (.readNext q.head))
  | .readNext head =>
      -- auto new_head = head_->next;
      some (q.access head fun node =>
        match node.next with
        | none => (q.record t .dequeue).goto t .unlockEmpty
        | some newHead => q.goto t (.readOldHead newHead))
  | .unlockEmpty => some ({ q with headMtx := none }.ret t .empty)
  | .readOldHead newHead => some (q.goto t (.readValue newHead q.head))
  | .readValue newHead oldHead =>
      some (q.access newHead fun node => q.goto t (.writeHead newHead oldHead node.value))
  | .writeHead newHead oldHead value =>
      some (({ q with head := newHead }.record t .dequeue).goto t (.unlockHead oldHead value))
  | .unlockHead oldHead value =>
      some ({ q with headMtx := none }.goto t (.delete oldHead value))
  | .delete oldHead value =>
      some (q.access oldHead fun _ => (q.setNode oldHead none).ret t (.dequeued value))

end Queue

def step (q : Queue Thread Addr T) (action : Action Thread Addr T) :
    Option (Queue Thread Addr T) :=
  if q.fault then none
  else
    match action with
    | .enqueue t value =>
        match q.thread t with
        | .idle => some (q.goto t (.alloc value))
        | _ => none
    | .dequeue t =>
        match q.thread t with
        | .idle => some (q.goto t .lockHead)
        | _ => none
    | .new t addr =>
        match q.thread t, q.node addr with
        | .alloc value, none =>
            some ((q.setNode addr (some ⟨value, none⟩)).goto t (.lockTail value addr))
        | _, _ => none
    | .step t => q.next? t

/-- The queue behind its constructor, whose sentinel was given this address. -/
def initial [Inhabited T] (sentinel : Addr) : Queue Thread Addr T where
  node := Function.update (fun _ => none) sentinel (some ⟨default, none⟩)
  head := sentinel
  tail := sentinel
  headMtx := none
  tailMtx := none
  thread _ := .idle
  fault := false
  history := []
  returned := []

/-- The queue under any calls of any threads. -/
def tlQueue (Thread Addr T : Type) [DecidableEq Thread] [DecidableEq Addr] [Inhabited T] :
    System (Queue Thread Addr T) (Action Thread Addr T) where
  start q := ∃ sentinel, q = initial sentinel
  step := step

end Steps

end Eureka.TwoLockQueue

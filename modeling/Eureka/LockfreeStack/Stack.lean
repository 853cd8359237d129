import Eureka.Library.LinkedList
import Eureka.Library.SequentialObject
import Eureka.Library.Transition

/-!
# The lock-free stack

`Push` and `Pop` as the threads execute them.  Both take a node off one of two
lists with `PopHead` and put it on the other one with `PushHead`; a step is a
load or a compare-exchange of a list head, or an access to a field of a node.
Nodes are their indices in `node_buf_`, whose raw memory holds any values; it is never
constructed, so `T` has to be trivially copyable, and a value is copied with its bits.

`compare_exchange_weak` may fail although the head is as expected.  `history`
and `returned` are not in the code: they have the exchanges on `head_`, and the
loads of `head_` that find it null, in their order, and what the calls returned.
A `Push` that finds no free node returns `false` and is in neither.
-/

namespace Eureka.LockfreeStack

open Transition

structure Node (T : Type) where
  value : T
  next : Option ℕ

structure Head where
  abaTag : ℕ
  node : Option ℕ
  deriving DecidableEq

/-- The lists, by the members that hold their heads. -/
inductive Which
  | head
  | free
  deriving DecidableEq

/-! ## The sequential stack -/

inductive Op (T : Type)
  | push (value : T)
  | pop

inductive Ret (T : Type)
  | pushed
  | popped (value : T)
  | empty

/-- A stack that is used by one thread. -/
def stack (T : Type) : SequentialObject (List T) (Op T) (Ret T) where
  start := []
  call
    | values, .push value => (.pushed, value :: values)
    | [], .pop => (.empty, [])
    | value :: values, .pop => (.popped value, values)

/-- The list that `PopHead` is called for. -/
def Op.source {T : Type} : Op T → Which
  | push _ => .free
  | pop => .head

/-! ## The state -/

/-- How far a thread is.  `PushHead` puts the pushed element on `head_`, or the
node of the popped one back on `free_`. -/
inductive Local (T : Type)
  | idle
  -- PopHead
  | popLoad (op : Op T)
  | popNext (op : Op T) (abaTag node : ℕ)
  | popExchange (op : Op T) (abaTag node : ℕ) (next : Option ℕ)
  -- behind it, in Push and in Pop
  | writeValue (ele : T) (node : ℕ)
  | decSize (node : ℕ)
  | readValue (node : ℕ)
  | retEmpty
  -- PushHead
  | pushLoad (list : Which) (ele : T) (node : ℕ)
  | pushNext (list : Which) (ele : T) (node : ℕ) (old : Head)
  | pushExchange (list : Which) (ele : T) (node : ℕ) (old : Head)
  -- behind it, in Push
  | incSize

structure Stack (Thread T : Type) where
  nodeBuf : ℕ → Node T
  atomicHead : Which → Head
  size : UInt64
  thread : Thread → Local T
  history : List (Thread × Op T)
  returned : List (Thread × Ret T)

/-- A thread calls, or does its next step; with `weak`, a compare-exchange fails. -/
inductive Action (Thread T : Type)
  | call (t : Thread) (op : Op T)
  | step (t : Thread) (weak : Bool)

namespace Stack

variable {Thread T : Type} [DecidableEq Thread]

def next (s : Stack Thread T) (node : ℕ) : Option ℕ := (s.nodeBuf node).next

def value (s : Stack Thread T) (node : ℕ) : T := (s.nodeBuf node).value

def goto (s : Stack Thread T) (t : Thread) (pc : Local T) : Stack Thread T :=
  { s with thread := Function.update s.thread t pc }

def setNode (s : Stack Thread T) (i : ℕ) (node : Node T) : Stack Thread T :=
  { s with nodeBuf := Function.update s.nodeBuf i node }

def setHead (s : Stack Thread T) (list : Which) (head : Head) : Stack Thread T :=
  { s with atomicHead := Function.update s.atomicHead list head }

def record (s : Stack Thread T) (t : Thread) (op : Op T) : Stack Thread T :=
  { s with history := s.history ++ [(t, op)] }

def ret (s : Stack Thread T) (t : Thread) (ret : Ret T) : Stack Thread T :=
  { s.goto t .idle with returned := s.returned ++ [(t, ret)] }

/-- `PopHead` has the head in `old_head`, loaded or left there by a failed exchange. -/
def popOld (s : Stack Thread T) (t : Thread) (op : Op T) : Stack Thread T :=
  match (s.atomicHead op.source).node with
  | some node => s.goto t (.popNext op (s.atomicHead op.source).abaTag node)
  | none =>
      match op with
      | .push _ => s.goto t .idle
      | .pop => (s.record t .pop).goto t .retEmpty

/-- `PopHead` has exchanged the head and returns the node. -/
def popDone (s : Stack Thread T) (t : Thread) (op : Op T) (node : ℕ) : Stack Thread T :=
  match op with
  | .push ele => s.goto t (.writeValue ele node)
  | .pop => (s.record t .pop).goto t (.decSize node)

/-- `PushHead` has exchanged the head and returns. -/
def pushDone (s : Stack Thread T) (t : Thread) (list : Which) (ele : T) : Stack Thread T :=
  match list with
  | .head => (s.record t (.push ele)).goto t .incSize
  | .free => s.ret t (.popped ele)

/-- The next step of a thread. -/
def next? (s : Stack Thread T) (t : Thread) (weak : Bool) : Option (Stack Thread T) :=
  match s.thread t with
  | .idle => none
  | .popLoad op => some (s.popOld t op)
  | .popNext op abaTag node => some (s.goto t (.popExchange op abaTag node (s.next node)))
  | .popExchange op abaTag node next =>
      if weak = false ∧ s.atomicHead op.source = ⟨abaTag, some node⟩ then
        some ((s.setHead op.source ⟨abaTag + 1, next⟩).popDone t op node)
      else some (s.popOld t op)
  | .writeValue ele node =>
      some ((s.setNode node { s.nodeBuf node with value := ele }).goto t (.pushLoad .head ele node))
  | .decSize node => some ({ s with size := s.size - 1 }.goto t (.readValue node))
  | .readValue node => some (s.goto t (.pushLoad .free (s.value node) node))
  | .retEmpty => some (s.ret t .empty)
  | .pushLoad list ele node => some (s.goto t (.pushNext list ele node (s.atomicHead list)))
  | .pushNext list ele node old =>
      some ((s.setNode node { s.nodeBuf node with next := old.node }).goto t
        (.pushExchange list ele node old))
  | .pushExchange list ele node old =>
      if weak = false ∧ s.atomicHead list = old then
        some ((s.setHead list ⟨old.abaTag + 1, some node⟩).pushDone t list ele)
      else some (s.goto t (.pushNext list ele node (s.atomicHead list)))
  | .incSize => some ({ s with size := s.size + 1 }.ret t .pushed)

end Stack

section Steps

variable {Thread T : Type} [DecidableEq Thread]

def step (s : Stack Thread T) (action : Action Thread T) : Option (Stack Thread T) :=
  match action with
  | .call t op =>
      match s.thread t with
      | .idle => some (s.goto t (.popLoad op))
      | _ => none
  | .step t weak => s.next? t weak

/-- The stack behind its constructor: all nodes are free. -/
def initial [Inhabited T] (maxsize : ℕ) : Stack Thread T where
  nodeBuf i := ⟨default, if i < maxsize - 1 then some (i + 1) else none⟩
  atomicHead
    | .head => ⟨0, none⟩
    | .free => ⟨0, some 0⟩
  size := 0
  thread _ := .idle
  history := []
  returned := []

/-- The stack under any calls of any threads. -/
def lstack (Thread T : Type) [DecidableEq Thread] [Inhabited T] (maxsize : ℕ) :
    System (Stack Thread T) (Action Thread T) where
  start s := s = initial maxsize
  step := step

end Steps

end Eureka.LockfreeStack

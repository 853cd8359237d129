import Mathlib
import Eureka.RcString.Strings

/-!
# Strings of several threads

`ThreadSafeRCString` of `thread_safe_rc_string.cpp`: threads whose calls are cut
at every load, store, addition and subtraction of the atomic count, and before
every write of a buffer.  What a thread does to its own variables and to new data
between two such places goes with the place before.

Data that its last owner has released leaves the heap at once, and is deleted by
a later step of the same thread: a step of another thread that used it between
the two is already `Fault.dangling`.
-/

namespace Eureka.RcString

open Transition

namespace StringData

/-- `ref_count_.fetch_add(1)`. -/
def fetchAdd (d : StringData) : StringData := ⟨d.toContent, (d.refCount + 1) % 2 ^ 32⟩

/-- `ref_count_.fetch_sub(1)`. -/
def fetchSub (d : StringData) : StringData := ⟨d.toContent, (d.refCount + (2 ^ 32 - 1)) % 2 ^ 32⟩

/-- `ref_count_.store` at the end of `PrepareToModify`. -/
def store (d : StringData) (makeUnsharable : Bool) : StringData :=
  ⟨d.toContent, if makeUnsharable then kUnsharedRefMark else 1⟩

end StringData

/-- What is done to data that is the string's own. -/
inductive Change
  | append (str : Bytes)
  | set (pos : ℕ) (ch : Byte)
  /-- A read by the `operator[]` that is not `const`. -/
  | get (pos : ℕ)
deriving DecidableEq, Repr

namespace Change

def makeUnsharable : Change → Bool
  | append _ => false
  | set _ _ => true
  | get _ => true

def growth : Change → ℕ
  | append str => str.length
  | set _ _ => 0
  | get _ => 0

def op {Var : Type} (x : Var) : Change → Op Var
  | append str => .append x str
  | set pos ch => .set x pos ch
  | get pos => .get x pos

/-- Behind the assertion of `CopyData` on the count, if there is one. -/
def write (d : StringData) : Change → Except Fault StringData
  | append str => do
      let c ← d.toContent.copyData str d.size
      return ⟨c, d.refCount⟩
  | set pos ch => .ok ⟨d.toContent.set pos ch, d.refCount⟩
  | get _ => .ok d

end Change

/-- What comes behind `Release()`. -/
inductive After
  /-- The end of the destructor. -/
  | ends
  /-- The rest of `PrepareToModify` and the change; the new data is the thread's own. -/
  | renews (newData : StringData) (change : Change)
deriving DecidableEq, Repr

/-- Where a thread is: what its next step does. -/
inductive Pc (Var : Type)
  | idle
  | construct (x : Var)
  | constructText (x : Var) (str : Bytes)
  /-- `other.data_->Unsharedable()`. -/
  | copyTest (x other : Var)
  | copyClone (x other : Var)
  /-- The assertion of `AddRef`. -/
  | copyAssert (x other : Var)
  | copyAdd (x other : Var)
  /-- `data_->Unique()` of `PrepareToModify`. -/
  | unique (x : Var) (requiredCapacity : ℕ) (change : Change)
  | reserve (x : Var) (requiredCapacity : ℕ) (change : Change)
  | clone (x : Var) (requiredCapacity : ℕ) (change : Change)
  /-- The assertion of `Release`. -/
  | releaseAssert (x : Var) (after : After)
  /-- `Unsharedable()` of `Release`. -/
  | releaseTest (x : Var) (after : After)
  | releaseSub (x : Var) (after : After)
  /-- `delete data_`. -/
  | delete (x : Var) (p : ℕ) (d : StringData) (after : After)
  /-- The assertion of `MakeUnsharedable` and `ResetSharedable`. -/
  | storeAssert (x : Var) (change : Change)
  | store (x : Var) (change : Change)
  /-- The assertion of `CopyData`. -/
  | writeAssert (x : Var) (change : Change)
  | write (x : Var) (change : Change)
deriving DecidableEq, Repr

namespace Pc

variable {Var : Type}

/-- The variable that is constructed, changed or destroyed. -/
def target : Pc Var → Option Var
  | idle => none
  | construct x | constructText x _ => some x
  | copyTest x _ | copyClone x _ | copyAssert x _ | copyAdd x _ => some x
  | unique x _ _ | reserve x _ _ | clone x _ _ => some x
  | releaseAssert x _ | releaseTest x _ | releaseSub x _ | delete x _ _ _ => some x
  | storeAssert x _ | store x _ | writeAssert x _ | write x _ => some x

def source : Pc Var → Option Var
  | copyTest _ other | copyClone _ other | copyAssert _ other | copyAdd _ other => some other
  | _ => none

/-- The data that is about to be deleted. -/
def doomed : Pc Var → Option ℕ
  | delete _ p _ _ => some p
  | _ => none

/-- The data whose buffer the next step writes. -/
def writes (m : Memory Var) : Pc Var → Option ℕ
  | reserve x _ _ => some (m.vars.obj x)
  | write x _ => some (m.vars.obj x)
  | _ => none

end Pc

/-- What a step comes to: the data that was deleted, and the operation whose effect is there now. -/
structure Outcome (Var : Type) where
  memory : Memory Var
  pc : Pc Var
  deleted : Option ℕ
  effect : Option (Op Var)

variable {Var : Type} [DecidableEq Var]

/-- The last owner has released its data. -/
def Memory.retire (m : Memory Var) (x : Var) : Memory Var :=
  { m with
    heap := Function.update m.heap (m.vars.obj x) none
    vars := m.vars.drop x
    deleted := m.deleted ++ [m.vars.obj x] }

namespace After

/-- `Release()` was true. -/
def last (m : Memory Var) (x : Var) (d : StringData) (after : After) : Outcome Var :=
  ⟨m.retire x, .delete x (m.vars.obj x) d after, none,
    match after with
    | ends => some (.destroy x)
    | renews _ _ => none⟩

/-- `Release()` was false, and has left this data. -/
def left (m : Memory Var) (x : Var) (d : StringData) : After → Outcome Var
  | ends => ⟨{ m.put (m.vars.obj x) d with vars := m.vars.drop x }, .idle, none, some (.destroy x)⟩
  | renews newData change =>
      ⟨(m.put (m.vars.obj x) d).allocate x newData, .storeAssert x change, none, none⟩

def deleted (m : Memory Var) (x : Var) (p : ℕ) : After → Outcome Var
  | ends => ⟨m, .idle, some p, none⟩
  | renews newData change => ⟨m.allocate x newData, .storeAssert x change, some p, none⟩

end After

namespace Pc

def exec (m : Memory Var) : Pc Var → Except Fault (Outcome Var)
  | idle => .ok ⟨m, idle, none, none⟩
  | construct x => do
      let m ← m.construct x
      return ⟨m, idle, none, some (.construct x)⟩
  | constructText x str => do
      let m ← m.constructText x str
      return ⟨m, idle, none, some (.constructText x str)⟩
  | copyTest x other => do
      let d ← m.deref (m.vars.obj other)
      return ⟨m, if d.unsharedable then copyClone x other else copyAssert x other, none, none⟩
  | copyClone x other => do
      let d ← m.deref (m.vars.obj other)
      let e ← d.clone 0 d.size
      return ⟨m.allocate x e, idle, none, some (.copy x other)⟩
  | copyAssert x other => do
      let d ← m.deref (m.vars.obj other)
      if 0 < d.refCount then return ⟨m, copyAdd x other, none, none⟩ else .error .assertion
  | copyAdd x other => do
      let p := m.vars.obj other
      let d ← m.deref p
      return ⟨(m.put p d.fetchAdd).point x p, idle, none, some (.copy x other)⟩
  | unique x n change => do
      let d ← m.deref (m.vars.obj x)
      return ⟨m, if d.unique then reserve x n change else clone x n change, none, none⟩
  | reserve x n change => do
      let p := m.vars.obj x
      let d ← m.deref p
      let d ← d.reserve n
      return ⟨m.put p d, storeAssert x change, none, none⟩
  | clone x n change => do
      let d ← m.deref (m.vars.obj x)
      let e ← d.clone 0 n
      return ⟨m, releaseAssert x (.renews e change), none, none⟩
  | releaseAssert x after => do
      let d ← m.deref (m.vars.obj x)
      if 0 < d.refCount then return ⟨m, releaseTest x after, none, none⟩ else .error .assertion
  | releaseTest x after => do
      let d ← m.deref (m.vars.obj x)
      return if d.unsharedable then after.last m x d else ⟨m, releaseSub x after, none, none⟩
  | releaseSub x after => do
      let d ← m.deref (m.vars.obj x)
      return if d.fetchSub.refCount = 0 then after.last m x d.fetchSub else after.left m x d.fetchSub
  | delete x p d after =>
      if d.destructible then .ok (after.deleted m x p) else .error .assertion
  | storeAssert x change => do
      let d ← m.deref (m.vars.obj x)
      if d.unique then return ⟨m, store x change, none, none⟩ else .error .assertion
  | store x change => do
      let p := m.vars.obj x
      let d ← m.deref p
      let next := match change with
        | .append _ => writeAssert x change
        | .set _ _ | .get _ => write x change
      return ⟨m.put p (d.store change.makeUnsharable), next, none, none⟩
  | writeAssert x change => do
      let d ← m.deref (m.vars.obj x)
      if d.unique then return ⟨m, write x change, none, none⟩ else .error .assertion
  | write x change => do
      let p := m.vars.obj x
      let d ← m.deref p
      let d ← change.write d
      return ⟨m.put p d, idle, none, some (change.op x)⟩

/-- `Append` and `operator[]` read the size before `PrepareToModify`. -/
def modify (m : Memory Var) (x : Var) (change : Change) : Except Fault (Pc Var) := do
  let d ← m.deref (m.vars.obj x)
  return unique x (d.size + change.growth) change

/-- The beginning of a call.  Assignments are not considered here. -/
def call (m : Memory Var) : Op Var → Option (Except Fault (Pc Var))
  | .construct x => some (.ok (construct x))
  | .constructText x str => some (.ok (constructText x str))
  | .constructCString x str => some (.ok (constructText x (cString str)))
  | .copy x other => some (.ok (copyTest x other))
  | .append x str => some (modify m x (.append str))
  | .appendCString x str => some (modify m x (.append (cString str)))
  | .set x pos ch => some (modify m x (.set pos ch))
  | .get x pos => some (modify m x (.get pos))
  | .destroy x => some (.ok (releaseAssert x .ends))
  | .assign _ _ => none

end Pc

/-! ## All threads -/

/-- The threads, the data that was deleted, and what independent strings have come to.  In
`memory.deleted` is the data that was released by its last owner. -/
structure Machine (Thread Var : Type) where
  memory : Memory Var
  pcs : Thread → Pc Var
  deleted : List ℕ
  texts : Var → Option Bytes

inductive Action (Thread Var : Type)
  | call (t : Thread) (op : Op Var)
  | step (t : Thread)

namespace Machine

variable {Thread : Type} [DecidableEq Thread]

def initial : Machine Thread Var := ⟨.initial, fun _ => .idle, [], fun _ => none⟩

def textsAfter (s : Machine Thread Var) (o : Outcome Var) : Var → Option Bytes :=
  match o.effect with
  | some op => op.apply s.texts
  | none => s.texts

def after (s : Machine Thread Var) (t : Thread) (o : Outcome Var) : Machine Thread Var where
  memory := o.memory
  pcs := Function.update s.pcs t o.pc
  deleted := s.deleted ++ o.deleted.toList
  texts := s.textsAfter o

def step (s : Except Fault (Machine Thread Var)) (action : Action Thread Var) :
    Option (Except Fault (Machine Thread Var)) :=
  match s, action with
  | .error _, _ => none
  | .ok s, .call t op =>
      if s.pcs t = .idle ∧ op.Legal s.memory then
        (Pc.call s.memory op).map fun pc => do
          let pc ← pc
          return { s with pcs := Function.update s.pcs t pc }
      else none
  | .ok s, .step t =>
      if s.pcs t = .idle then none
      else some do
        let o ← (s.pcs t).exec s.memory
        return s.after t o

end Machine

def threads (Thread Var : Type) [DecidableEq Thread] [DecidableEq Var] :
    System (Except Fault (Machine Thread Var)) (Action Thread Var) where
  start s := s = .ok .initial
  step := Machine.step

end Eureka.RcString

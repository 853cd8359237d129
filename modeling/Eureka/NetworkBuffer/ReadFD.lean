import Eureka.NetworkBuffer.Operations

/-!
# Reading from a file descriptor

`ReadFD` of `buffer.cpp`: the bytes that `readv` delivers go to the writable area
of the buffer and, once that is full, to an array on the stack, which is then
written behind them.

What `readv` returns is an argument: the delivered bytes, in the order in which
it fills its vectors, or no bytes for a negative result.
-/

namespace Eureka.NetworkBuffer

/-- `kExtraBufSize`. -/
def extraBufSize : ℕ := 65535

namespace Buffer

/-- The sizes of the vectors that are passed to `readv`. -/
def vectors (b : Buffer) : List ℕ :=
  if b.writableSize < extraBufSize then [b.writableSize, extraBufSize] else [b.writableSize]

/-- `readv` delivers at most as many bytes as its vectors hold.  It fails if the sum of their sizes
is not an `ssize_t`. -/
def Delivers (b : Buffer) (received : Option Bytes) : Prop :=
  ∀ data ∈ received, b.vectors.sum < 2 ^ 63 ∧ data.length ≤ b.vectors.sum

instance (b : Buffer) (received : Option Bytes) : Decidable (b.Delivers received) :=
  inferInstanceAs (Decidable (∀ data ∈ received, _))

/-- `ReadFD`. -/
def readFD (b : Buffer) (received : Option Bytes) : Result ℤ :=
  match received with
  | none => (b, .done (-1))
  | some data =>
      let extra := data.drop b.writableSize
      match overwrite b.buf b.writerIndex (data.take b.writableSize) with
      | none => (b, .undefined)
      | some buf =>
          let b := { b with buf := buf }
          if data.length ≤ b.writableSize then
            (b.endWrite data.length).andThen fun b _ => (b, .done data.length)
          else
            (b.endWrite b.writableSize).andThen fun b _ =>
              (b.write extra).andThen fun b _ => (b, .done data.length)

/-- The state of a buffer whose initial size has wrapped around. -/
structure Wrapped (b : Buffer) : Prop where
  size_lt : b.buf.length < defaultPrependSize
  readerIndex_eq : b.readerIndex = defaultPrependSize
  writerIndex_eq : b.writerIndex = defaultPrependSize

variable {b : Buffer}

/-- The writable area of such a buffer is taken to be almost all of the address space, and `readv`
does not accept it. -/
theorem Wrapped.eq_none_of_delivers (hb : b.Wrapped) {received : Option Bytes}
    (hreceived : b.Delivers received) : received = none := by
  have hsize := hb.size_lt
  have hwritable : 2 ^ 63 ≤ b.writableSize := by
    unfold writableSize sizeSub sizeModulus
    rw [hb.writerIndex_eq]
    unfold defaultPrependSize at *
    omega
  have hvectors : b.vectors = [b.writableSize] := if_neg (by unfold extraBufSize; omega)
  cases received with
  | none => rfl
  | some data =>
      have hsum := (hreceived data rfl).1
      rw [hvectors, List.sum_singleton] at hsum
      omega

theorem Valid.overwrite_writable (hb : b.Valid) {data : Bytes} (hfits : data.length ≤ b.writableSize) :
    ∃ buf, overwrite b.buf b.writerIndex data = some buf ∧ buf.length = b.buf.length ∧
      buf.take (b.writerIndex + data.length) = b.buf.take b.writerIndex ++ data := by
  have hwriter := hb.writer_le_size
  rw [hb.writableSize_eq] at hfits
  have hle : b.writerIndex + data.length ≤ b.buf.length := by omega
  refine ⟨_, overwrite_eq hle, length_overwritten hle, ?_⟩
  have hfront : (b.buf.take b.writerIndex ++ data).length = b.writerIndex + data.length := by
    rw [List.length_append, List.length_take, Nat.min_eq_left hwriter]
  exact List.take_left' hfront

/-- **Bytes that fit the writable area** are appended by `EndWrite`. -/
theorem Valid.endWrite_overwritten (hb : b.Valid) {data : Bytes}
    (hfits : data.length ≤ b.writableSize) :
    ∃ buf b', overwrite b.buf b.writerIndex data = some buf ∧
      ({ b with buf := buf } : Buffer).writableSize = b.writableSize ∧
      ({ b with buf := buf } : Buffer).endWrite data.length = (b', .done ()) ∧ b'.Valid ∧
      b'.readable = b.readable ++ data ∧ b'.buf.length = b.buf.length ∧
      b'.writerIndex = b.writerIndex + data.length := by
  obtain ⟨buf, hbuf, hlength, htake⟩ := hb.overwrite_writable hfits
  have hreader := hb.reader_le_writer
  have hwriter := hb.writer_le_size
  have hprepend := hb.prepend_le_size
  have hmax := hb.size_le_max
  have hwritable := hb.writableSize_eq
  have hsame : ({ b with buf := buf } : Buffer).writableSize = b.writableSize := by
    unfold writableSize
    rw [hlength]
  have hend : sizeAdd b.writerIndex data.length = b.writerIndex + data.length :=
    sizeAdd_eq (by unfold maxSize at *; omega)
  refine ⟨buf, ⟨buf, b.readerIndex, b.writerIndex + data.length⟩, hbuf, hsame, ?_, ?_, ?_, hlength, rfl⟩
  · unfold endWrite
    rw [if_pos (hsame.symm ▸ hfits), hend]
  · constructor <;> dsimp only <;> omega
  · unfold readable
    dsimp only
    rw [htake, List.drop_append_of_le_length]
    rw [List.length_take, Nat.min_eq_left hwriter]
    exact hreader

/-- **`ReadFD` appends what `readv` delivers**, whether it fits the writable area or not, and leaves
the buffer as it was if `readv` fails.  The one exception is that of a vector which would grow beyond
its `max_size()`. -/
theorem readFD_spec (hb : b.Valid ∨ b.Wrapped) (received : Option Bytes)
    (hreceived : b.Delivers received) :
    match received with
    | none => b.readFD received = (b, .done (-1))
    | some data =>
        (∃ b', b.readFD received = (b', .done data.length) ∧ b'.Valid ∧
          b'.readable = b.readable ++ data) ∨
        ((b.readFD received).2 = .lengthError ∧
          maxSize < b.buf.length + (data.length - b.writableSize)) := by
  cases received with
  | none => rfl
  | some data =>
      obtain hb | hb := hb
      swap
      · exact nomatch hb.eq_none_of_delivers hreceived
      obtain ⟨hsum, hdata⟩ := hreceived data rfl
      have hwritable := hb.writableSize_eq
      have hwriter := hb.writer_le_size
      by_cases hfits : data.length ≤ b.writableSize
      · obtain ⟨buf, b', hbuf, hsame, hend, hvalid, hreadable, -, -⟩ := hb.endWrite_overwritten hfits
        refine .inl ⟨b', ?_, hvalid, hreadable⟩
        unfold readFD
        dsimp only
        rw [List.take_of_length_le hfits, hbuf]
        dsimp only
        rw [if_pos (hsame.symm ▸ hfits), hend]
        rfl
      · -- the first vector is full, and the rest is in the extra buffer
        rw [not_le] at hfits
        have hfull : (data.take b.writableSize).length = b.writableSize :=
          List.length_take_of_le hfits.le
        have hextra : (data.drop b.writableSize).length ≤ maxSize := by
          rw [List.length_drop]
          unfold maxSize
          omega
        obtain ⟨buf, b₁, hbuf, hsame, hend, hvalid, hreadable, hlength, hindex⟩ :=
          hb.endWrite_overwritten hfull.le
        rw [hfull] at hend hindex
        have hrun : b.readFD (some data) = (b₁.write (data.drop b.writableSize)).andThen fun b _ =>
            (b, .done (data.length : ℤ)) := by
          unfold readFD
          dsimp only
          rw [hbuf]
          dsimp only
          rw [if_neg (hsame.symm ▸ not_le.mpr hfits), hsame, hend]
          rfl
        rw [hrun]
        obtain ⟨b', hwrite, hvalid', hreadable'⟩ | ⟨hwrite, hlong⟩ := write_spec hvalid hextra
        · refine .inl ⟨b', ?_, hvalid', ?_⟩
          · rw [hwrite]
            rfl
          · rw [hreadable', hreadable, List.append_assoc, List.take_append_drop]
        · refine .inr ⟨?_, ?_⟩
          · rw [hwrite]
            rfl
          · rw [List.length_drop] at hlong
            omega

/-- Two of five bytes fit behind the unread one. -/
theorem readFD_spec_spilled :
    ∃ b', readFD ⟨[0, 0, 0, 0, 0, 0, 0, 0, 1, 0, 0], 8, 9⟩ (some [2, 3, 4, 5, 6]) =
        (b', .done 5) ∧ b'.Valid ∧ b'.readable = [1, 2, 3, 4, 5, 6] := by
  have hvalid : Valid ⟨[0, 0, 0, 0, 0, 0, 0, 0, 1, 0, 0], 8, 9⟩ :=
    ⟨by decide, by decide, by decide, by decide⟩
  obtain hread | ⟨hread, -⟩ := readFD_spec (.inl hvalid) (some [2, 3, 4, 5, 6]) (by decide)
  · exact hread
  · exact absurd hread (by decide)

end Buffer

end Eureka.NetworkBuffer

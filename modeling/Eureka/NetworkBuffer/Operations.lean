import Eureka.NetworkBuffer.Buffer

/-!
# What the member functions do

One lemma for each member function of a buffer whose indices are in order
(`Valid`), in terms of its readable bytes.  Growth and compaction keep the
readable bytes and leave room for the write (`reserveWritable_spec`).
-/

namespace Eureka.NetworkBuffer

/-! ## `size_t` without wrap-around -/

theorem sizeAdd_eq {a b : ℕ} (hlt : a + b < 2 ^ 64) : sizeAdd a b = a + b :=
  Nat.mod_eq_of_lt hlt

theorem sizeSub_eq {a b : ℕ} (hle : b ≤ a) (hlt : a < 2 ^ 64) : sizeSub a b = a - b := by
  unfold sizeSub sizeModulus
  omega

theorem length_resize {bytes : Bytes} {size : ℕ} (hle : bytes.length ≤ size) :
    (resize bytes size).length = size := by
  rw [resize, List.length_append, List.length_take, List.length_replicate]
  omega

theorem take_resize {bytes : Bytes} {size pos : ℕ} (hle : bytes.length ≤ size)
    (hpos : pos ≤ bytes.length) : (resize bytes size).take pos = bytes.take pos := by
  rw [resize, List.take_of_length_le hle, List.take_append_of_le_length hpos]

theorem overwrite_eq {bytes data : Bytes} {pos : ℕ} (hle : pos + data.length ≤ bytes.length) :
    overwrite bytes pos data =
      some (bytes.take pos ++ data ++ bytes.drop (pos + data.length)) :=
  if_pos hle

theorem slice_eq {bytes : Bytes} {pos size : ℕ} (hle : pos + size ≤ bytes.length) :
    slice bytes pos size = some ((bytes.drop pos).take size) :=
  if_pos hle

theorem length_overwritten {bytes data : Bytes} {pos : ℕ}
    (hle : pos + data.length ≤ bytes.length) :
    (bytes.take pos ++ data ++ bytes.drop (pos + data.length)).length = bytes.length := by
  rw [List.length_append, List.length_append, List.length_take, List.length_drop]
  omega

namespace Buffer

/-- The indices are in order, and the vector is not longer than a vector can be. -/
structure Valid (b : Buffer) : Prop where
  reader_le_writer : b.readerIndex ≤ b.writerIndex
  writer_le_size : b.writerIndex ≤ b.buf.length
  prepend_le_size : defaultPrependSize ≤ b.buf.length
  size_le_max : b.buf.length ≤ maxSize

def readable (b : Buffer) : Bytes := (b.buf.take b.writerIndex).drop b.readerIndex

variable {b : Buffer}

theorem Valid.readableSize_eq (hb : b.Valid) : b.readableSize = b.writerIndex - b.readerIndex := by
  have hwriter := hb.writer_le_size
  have hmax := hb.size_le_max
  exact sizeSub_eq hb.reader_le_writer (by unfold maxSize at hmax; omega)

theorem Valid.writableSize_eq (hb : b.Valid) : b.writableSize = b.buf.length - b.writerIndex := by
  have hmax := hb.size_le_max
  exact sizeSub_eq hb.writer_le_size (by unfold maxSize at hmax; omega)

theorem Valid.length_readable (hb : b.Valid) : b.readable.length = b.readableSize := by
  rw [hb.readableSize_eq, readable, List.length_drop, List.length_take,
    Nat.min_eq_left hb.writer_le_size]

theorem Valid.consumeAll (hb : b.Valid) : b.consumeAll.Valid :=
  ⟨le_rfl, hb.prepend_le_size, hb.prepend_le_size, hb.size_le_max⟩

theorem readable_consumeAll (b : Buffer) : b.consumeAll.readable = [] := by
  rw [readable, consumeAll]
  exact List.drop_eq_nil_of_le (List.length_take_le _ _)

/-! ## Writing -/

/-- The two ways to make room keep the readable bytes and leave enough of it. -/
theorem reserveWritable_spec (hb : b.Valid) {newSize : ℕ} (hsize : newSize ≤ maxSize) :
    (∃ b', b.reserveWritable newSize = (b', .done ()) ∧ b'.Valid ∧ b'.readable = b.readable ∧
      newSize ≤ b'.writableSize) ∨
    (b.reserveWritable newSize = (b, .lengthError) ∧ maxSize < b.writerIndex + newSize) := by
  have hreader := hb.reader_le_writer
  have hwriter := hb.writer_le_size
  have hprepend := hb.prepend_le_size
  have hmax := hb.size_le_max
  by_cases hroom : b.writableSize ≥ newSize
  · exact .inl ⟨b, if_pos hroom, hb, rfl, hroom⟩
  have hwritable := hb.writableSize_eq
  have hadd : sizeAdd b.prependableSize b.writableSize =
      b.readerIndex + (b.buf.length - b.writerIndex) := by
    rw [hwritable]
    exact sizeAdd_eq (by unfold prependableSize maxSize at *; omega)
  have hneed : sizeAdd defaultPrependSize newSize = defaultPrependSize + newSize :=
    sizeAdd_eq (by unfold defaultPrependSize maxSize at *; omega)
  have hend : sizeAdd b.writerIndex newSize = b.writerIndex + newSize :=
    sizeAdd_eq (by unfold maxSize at *; omega)
  by_cases hgrow : b.readerIndex + (b.buf.length - b.writerIndex) < defaultPrependSize + newSize
  · -- the vector grows at its end
    have hgrows : b.buf.length ≤ b.writerIndex + newSize := by omega
    by_cases hfits : b.writerIndex + newSize ≤ maxSize
    · refine .inl ⟨{ b with buf := resize b.buf (b.writerIndex + newSize) }, ?_, ?_, ?_, ?_⟩
      · simp only [reserveWritable, hroom, if_false, hadd, hneed, hgrow, if_true, hend, hfits]
      · have hlength := length_resize hgrows
        constructor <;> dsimp only <;> omega
      · rw [readable, readable, take_resize hgrows hwriter]
      · have hlt : b.writerIndex + newSize < 2 ^ 64 := by unfold maxSize at *; omega
        rw [writableSize, length_resize hgrows, sizeSub_eq (Nat.le_add_right _ _) hlt]
        omega
    · refine .inr ⟨?_, by omega⟩
      simp only [reserveWritable, hroom, if_false, hadd, hneed, hgrow, if_true, hend, hfits]
  · -- the readable bytes move to the front
    set data := (b.buf.drop b.readerIndex).take (b.writerIndex - b.readerIndex) with hdata
    have hlength : data.length = b.writerIndex - b.readerIndex := by
      rw [hdata, List.length_take, List.length_drop]
      omega
    have hfits : defaultPrependSize + data.length ≤ b.buf.length := by omega
    have hnew : sizeAdd defaultPrependSize b.readableSize = defaultPrependSize + data.length := by
      rw [hb.readableSize_eq, hlength]
      exact sizeAdd_eq (by unfold maxSize at *; omega)
    refine .inl ⟨⟨b.buf.take defaultPrependSize ++ data ++
      b.buf.drop (defaultPrependSize + data.length), defaultPrependSize,
      defaultPrependSize + data.length⟩, ?_, ?_, ?_, ?_⟩
    · simp only [reserveWritable, hroom, if_false, hadd, hneed, hgrow, hnew]
      rw [hb.readableSize_eq, slice_eq (by omega), Option.bind_some, ← hdata, overwrite_eq hfits]
    · have hmoved := length_overwritten hfits
      constructor <;> dsimp only <;> omega
    · have hskip : (b.buf.take defaultPrependSize).length = defaultPrependSize := by
        rw [List.length_take, Nat.min_eq_left hprepend]
      have hfront : (b.buf.take defaultPrependSize ++ data).length =
          defaultPrependSize + data.length := by
        rw [List.length_append, hskip]
      rw [readable, List.take_left' hfront, List.drop_left' hskip, readable, List.drop_take]
    · have hlt : b.buf.length < 2 ^ 64 := by unfold maxSize at *; omega
      rw [writableSize, length_overwritten hfits, sizeSub_eq hfits hlt]
      omega

/-- `Write` appends the bytes, unless the vector cannot become so long. -/
theorem write_spec (hb : b.Valid) {data : Bytes} (hsize : data.length ≤ maxSize) :
    (∃ b', b.write data = (b', .done ()) ∧ b'.Valid ∧ b'.readable = b.readable ++ data) ∨
    (b.write data = (b, .lengthError) ∧ maxSize < b.writerIndex + data.length) := by
  rcases reserveWritable_spec hb hsize with ⟨b', hreserve, hb', hreadable, hroom⟩ |
    ⟨hreserve, hlong⟩
  · refine .inl ?_
    have hreader := hb'.reader_le_writer
    have hwriter := hb'.writer_le_size
    have hmax := hb'.size_le_max
    have hwritable := hb'.writableSize_eq
    have hfits : b'.writerIndex + data.length ≤ b'.buf.length := by omega
    set buf := b'.buf.take b'.writerIndex ++ data ++ b'.buf.drop (b'.writerIndex + data.length)
      with hbuf
    have hlength : buf.length = b'.buf.length := length_overwritten hfits
    have hend : sizeAdd b'.writerIndex data.length = b'.writerIndex + data.length :=
      sizeAdd_eq (by unfold maxSize at *; omega)
    have hstill : ({ b' with buf := buf } : Buffer).writableSize ≥ data.length := by
      rw [writableSize, hlength, ← writableSize]
      exact hroom
    refine ⟨{ b' with buf := buf, writerIndex := b'.writerIndex + data.length }, ?_, ?_, ?_⟩
    · simp only [write, hreserve, Result.andThen, ge_iff_le, hroom, if_true, overwrite_eq hfits,
        ← hbuf, endWrite, hstill.le, hend]
    · have hprepend := hb'.prepend_le_size
      constructor <;> dsimp only <;> omega
    · have hwritten : (b'.buf.take b'.writerIndex).length = b'.writerIndex := by
        rw [List.length_take, Nat.min_eq_left hwriter]
      have hfront : (b'.buf.take b'.writerIndex ++ data).length = b'.writerIndex + data.length := by
        rw [List.length_append, hwritten]
      rw [← hreadable, readable, readable, hbuf, List.take_left' hfront]
      exact List.drop_append_of_le_length (hwritten.symm ▸ hreader)
  · refine .inr ⟨?_, hlong⟩
    simp only [write, hreserve, Result.andThen]

/-- `Consume` drops from the front, if there is so much. -/
theorem consume_spec (hb : b.Valid) (size : ℕ) :
    (size ≤ b.readable.length ∧
      ∃ b', b.consume size = (b', .done ()) ∧ b'.Valid ∧ b'.readable = b.readable.drop size) ∨
    (b.readable.length < size ∧ b.consume size = (b, .checkFailed)) := by
  have hreader := hb.reader_le_writer
  have hwriter := hb.writer_le_size
  have hmax := hb.size_le_max
  have hreadable := hb.readableSize_eq
  rw [hb.length_readable]
  by_cases hle : size ≤ b.readableSize
  · refine .inl ⟨hle, ?_⟩
    by_cases hlt : size < b.readableSize
    · have hadd : sizeAdd b.readerIndex size = b.readerIndex + size :=
        sizeAdd_eq (by unfold maxSize at *; omega)
      refine ⟨{ b with readerIndex := b.readerIndex + size }, ?_, ?_, ?_⟩
      · simp only [consume, hle, if_true, hlt, hadd]
      · exact ⟨by dsimp only; omega, hwriter, hb.prepend_le_size, hmax⟩
      · rw [readable, readable, List.drop_drop]
    · refine ⟨b.consumeAll, ?_, hb.consumeAll, ?_⟩
      · simp only [consume, hle, if_true, hlt, if_false]
      · rw [readable_consumeAll, List.drop_eq_nil_of_le]
        rw [hb.length_readable]
        omega
  · exact .inr ⟨not_le.mp hle, if_neg hle⟩

theorem peek_spec (hb : b.Valid) (size : ℕ) :
    (size ≤ b.readable.length ∧ b.peek size = .done (b.readable.take size)) ∨
    (b.readable.length < size ∧ b.peek size = .checkFailed) := by
  have hreader := hb.reader_le_writer
  have hwriter := hb.writer_le_size
  have hreadable := hb.readableSize_eq
  rw [hb.length_readable]
  by_cases hle : size ≤ b.readableSize
  · refine .inl ⟨hle, ?_⟩
    have hdata : (b.buf.drop b.readerIndex).take size = b.readable.take size := by
      rw [readable, List.drop_take, List.take_take, Nat.min_eq_left (hreadable ▸ hle)]
    simp only [peek, ge_iff_le, hle, if_true, slice_eq (show b.readerIndex + size ≤ b.buf.length by
      omega), hdata]
  · exact .inr ⟨not_le.mp hle, if_neg hle⟩

end Buffer

end Eureka.NetworkBuffer

/-!
## Where a buffer keeps its bytes

The content of a buffer is the subject of `Operations.lean`; this file says
where in the vector it lies.  That matters to whoever holds a pointer into it.

* `write_placement`: a `Write` appends in place, grows the vector, or moves the
  readable bytes to the front;
* `consume_placement`: a `Consume` leaves the end of the readable bytes where it
  is, or resets the buffer.
-/

namespace Eureka.NetworkBuffer

namespace Buffer

variable {b b' : Buffer}

/-- Behind its `ReserveWritable`, a `Write` changes neither the reader index nor
the size of the vector. -/
theorem write_eq_done {data : Bytes} (hwrite : b.write data = (b', .done ())) :
    ∃ mid, b.reserveWritable data.length = (mid, .done ()) ∧
      b'.readerIndex = mid.readerIndex ∧ b'.buf.length = mid.buf.length := by
  rcases hreserve : b.reserveWritable data.length with ⟨mid, value | _ | _ | _⟩
  · refine ⟨mid, rfl, ?_⟩
    simp only [write, hreserve, Result.andThen] at hwrite
    split at hwrite
    · unfold overwrite at hwrite
      split at hwrite
      · simp at hwrite
      · next hdata buf hsome =>
        split at hsome
        · next hfits =>
          have hlength := length_overwritten hfits
          simp only [endWrite] at hwrite
          split at hwrite
          · rw [← (Prod.mk.inj hwrite).1, ← Option.some.inj hsome]
            exact ⟨rfl, hlength⟩
          · simp at hwrite
        · cases hsome
    · simp at hwrite
  · simp [write, hreserve, Result.andThen] at hwrite
  · simp [write, hreserve, Result.andThen] at hwrite
  · simp [write, hreserve, Result.andThen] at hwrite

/-- The conditions of `ReserveWritable`, without the wrap-around that a valid buffer
does not have. -/
theorem Valid.reserve_conditions (hb : b.Valid) {newSize : ℕ} (hsize : newSize ≤ maxSize) :
    sizeAdd b.prependableSize b.writableSize = b.readerIndex + b.writableSize ∧
      sizeAdd defaultPrependSize newSize = defaultPrependSize + newSize ∧
      sizeAdd b.writerIndex newSize = b.writerIndex + newSize := by
  have hreader := hb.reader_le_writer
  have hwriter := hb.writer_le_size
  have hmax := hb.size_le_max
  have hwritable := hb.writableSize_eq
  unfold maxSize at *
  refine ⟨sizeAdd_eq ?_, sizeAdd_eq ?_, sizeAdd_eq ?_⟩
  · rw [hwritable, prependableSize]
    omega
  · rw [defaultPrependSize]
    omega
  · omega

/-- **Where a `Write` puts the buffer.**  With room at the end nothing moves; a
short buffer grows and keeps its indices; and otherwise the readable bytes move
to the front. -/
theorem write_placement (hb : b.Valid) {data : Bytes} (hsize : data.length ≤ maxSize)
    (hwrite : b.write data = (b', .done ())) :
    (data.length ≤ b.writableSize ∧ b'.readerIndex = b.readerIndex ∧
      b'.buf.length = b.buf.length) ∨
    (b.writableSize < data.length ∧
      b.readerIndex + b.writableSize < defaultPrependSize + data.length ∧
      b'.readerIndex = b.readerIndex ∧ b'.buf.length = b.writerIndex + data.length) ∨
    (b.writableSize < data.length ∧
      defaultPrependSize + data.length ≤ b.readerIndex + b.writableSize ∧
      b'.readerIndex = defaultPrependSize ∧ b'.buf.length = b.buf.length) := by
  obtain ⟨mid, hreserve, hreader, hlength⟩ := write_eq_done hwrite
  obtain ⟨hroom, hneed, hend⟩ := hb.reserve_conditions hsize
  rw [hreader, hlength]
  unfold reserveWritable at hreserve
  rw [hroom, hneed, hend] at hreserve
  split at hreserve
  · next hfits =>
    obtain rfl := (Prod.mk.inj hreserve).1
    exact .inl ⟨hfits, rfl, rfl⟩
  next hshort =>
  rw [not_le] at hshort
  split at hreserve
  · next hgrow =>
    dsimp only at hreserve
    split at hreserve
    · obtain rfl := (Prod.mk.inj hreserve).1
      refine .inr (.inl ⟨hshort, hgrow, rfl, length_resize ?_⟩)
      have hwritable := hb.writableSize_eq
      omega
    · simp at hreserve
  · next hmove =>
    dsimp only at hreserve
    split at hreserve
    · simp at hreserve
    · next buf hbuf =>
      obtain rfl := (Prod.mk.inj hreserve).1
      obtain ⟨data', -, hover⟩ := Option.bind_eq_some_iff.mp hbuf
      refine .inr (.inr ⟨hshort, not_lt.mp hmove, rfl, ?_⟩)
      unfold overwrite at hover
      split at hover
      · next hfits =>
        rw [← Option.some.inj hover]
        exact length_overwritten hfits
      · cases hover

/-- **Where a `Consume` leaves the buffer.** -/
theorem consume_placement (hb : b.Valid) {size : ℕ} (hconsume : b.consume size = (b', .done ())) :
    b'.buf = b.buf ∧
      ((size < b.readable.length ∧ b'.writerIndex = b.writerIndex) ∨
        (size = b.readable.length ∧ b'.writerIndex = defaultPrependSize)) := by
  rw [hb.length_readable]
  unfold consume at hconsume
  split at hconsume
  · next hle =>
    split at hconsume
    · next hlt =>
      obtain rfl := (Prod.mk.inj hconsume).1
      exact ⟨rfl, .inl ⟨hlt, rfl⟩⟩
    · next hge =>
      obtain rfl := (Prod.mk.inj hconsume).1
      exact ⟨rfl, .inr ⟨by omega, rfl⟩⟩
  · simp at hconsume

end Buffer

end Eureka.NetworkBuffer

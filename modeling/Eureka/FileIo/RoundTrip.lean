import Eureka.Bytes
import Mathlib

/-!
# Low-level file input and output

`write_to_file` and `read_from_file` of `file_io/file_io.cpp`, over a kernel
that decides call by call how much is transferred.  The loops are given fuel;
they run out of it only while the kernel keeps them going.

The reader fills its string from the front.  `buf` and `count` are the region
that is passed to the next `read`, and behind the region nothing is left of the
string, so that a round ends with a full string or at the end of the file.
-/

namespace Eureka.FileIo

/-- What `write` and `read` come back with. -/
inductive Outcome
  | transferred (bytes : ℕ)
  /-- `EINTR`. -/
  | interrupted
  | failed (errno : ℕ)
deriving DecidableEq, Repr

/-- The system calls.  `write` and `read` are told how many calls came before
and how many bytes are requested, `read` also how many are left in the file. -/
structure Kernel where
  openForWriting : Option ℕ
  openForReading : Option ℕ
  /-- `st_size`, unless `fstat64` fails. -/
  fstat : Option ℤ
  write : ℕ → ℕ → Outcome
  read : ℕ → ℕ → ℕ → Outcome

variable (k : Kernel)

/-- The size is cast to `std::size_t`. -/
def getFileSize : ℕ :=
  match k.fstat with
  | some size => (size % 2 ^ 64).toNat
  | none => 0

/-! ## Writing -/

/-- The loop of `write_to_file`: `ec` and the file it leaves, if it ends. -/
def writeLoop : (fuel call : ℕ) → (file data : Bytes) → Option (Option ℕ × Bytes)
  | 0, _, _, _ => none
  | fuel + 1, call, file, data =>
      if data = [] then some (none, file)
      else match k.write call data.length with
        | .interrupted => writeLoop fuel (call + 1) file data
        | .failed errno => some (some errno, file)
        | .transferred bytes =>
            writeLoop fuel (call + 1) (file ++ data.take bytes) (data.drop bytes)

/-- Opening the file truncates it. -/
def writeToFile (fuel : ℕ) (file content : Bytes) : Option (Option ℕ × Bytes) :=
  match k.openForWriting with
  | some errno => some (some errno, file)
  | none => if content = [] then some (none, []) else writeLoop k fuel 0 [] content

/-! ## Reading -/

def initialChunkSize : ℕ := 1024 * 4

def defaultChunkSize : ℕ := 1024 * 16

def resize (content : Bytes) (size : ℕ) : Bytes :=
  content.take size ++ List.replicate (size - content.length) 0

/-- The variables of `read_from_file`; `buf` is an offset into `content`. -/
structure Reading where
  content : Bytes
  totalSizeRead : ℕ
  readChunkSize : ℕ
  actualRead : ℕ
  buf : ℕ
  count : ℕ
deriving DecidableEq, Repr

namespace Reading

/-- The beginning of a round, behind what was read already. -/
def startRound (content : Bytes) (totalSizeRead readChunkSize : ℕ) : Reading :=
  ⟨resize content (totalSizeRead + readChunkSize), totalSizeRead, readChunkSize, 0, totalSizeRead,
    readChunkSize⟩

def start (fileSize : ℕ) : Reading :=
  startRound [] 0 (if 0 < fileSize then (fileSize + 1) % 2 ^ 64 else initialChunkSize)

/-- `read` has put these bytes at `buf`. -/
def received (r : Reading) (data : Bytes) : Reading :=
  { r with
    content := r.content.take r.buf ++ data ++ r.content.drop (r.buf + data.length)
    actualRead := r.actualRead + data.length
    buf := r.buf + data.length
    count := r.count - data.length }

/-- The end of a round: the next round, or the content if the file has ended. -/
def endRound (r : Reading) : Reading ⊕ Bytes :=
  let totalSizeRead := r.totalSizeRead + r.actualRead
  if totalSizeRead < r.content.length then .inr (resize r.content totalSizeRead)
  else
    let readChunkSize :=
      if r.readChunkSize = initialChunkSize then defaultChunkSize else r.readChunkSize
    .inl (startRound r.content totalSizeRead readChunkSize)

/-- The condition of the `do` loop, when `read` has returned. -/
def next (r : Reading) (ended : Prop) [Decidable ended] : Reading ⊕ Bytes :=
  if ¬ ended ∧ r.count ≠ 0 then .inl r else r.endRound

end Reading

/-- What becomes of a call of `read_from_file`. -/
inductive ReadResult
  /-- It returns with `ec` and `content`. -/
  | returned (ec : Option ℕ) (content : Bytes)
  /-- The region it passes to `read` is not within the string. -/
  | outOfBounds
deriving DecidableEq, Repr

/-- The loops of `read_from_file`; `left` is what is left in the file. -/
def readLoop : (fuel call : ℕ) → Reading → (left : Bytes) → Option ReadResult
  | 0, _, _, _ => none
  | fuel + 1, call, r, left =>
      if r.content.length < r.buf + r.count then some .outOfBounds
      else match k.read call r.count left.length with
        | .failed errno => some (.returned (some errno) r.content)
        | .interrupted =>
            match r.next False with
            | .inl r => readLoop fuel (call + 1) r left
            | .inr content => some (.returned none content)
        | .transferred bytes =>
            match (r.received (left.take bytes)).next (bytes = 0) with
            | .inl r => readLoop fuel (call + 1) r (left.drop bytes)
            | .inr content => some (.returned none content)

def readFromFile (fuel : ℕ) (file : Bytes) : Option ReadResult :=
  match k.openForReading with
  | some errno => some (.returned (some errno) [])
  | none => readLoop k fuel 0 (Reading.start (getFileSize k)) file

/-- The kernels of which the round trip is asked: files open, every transfer
moves between one and the requested number of bytes, `read` returns nothing
only at the end of the file, and interrupts come to an end. -/
structure Kernel.Transfers : Prop where
  openForWriting : k.openForWriting = none
  openForReading : k.openForReading = none
  write : ∀ call requested, k.write call requested = .interrupted ∨
    ∃ bytes, k.write call requested = .transferred bytes ∧
      (0 < requested → 0 < bytes) ∧ bytes ≤ requested
  read : ∀ call requested left, k.read call requested left = .interrupted ∨
    ∃ bytes, k.read call requested left = .transferred bytes ∧ bytes ≤ requested ∧ bytes ≤ left ∧
      (0 < requested → 0 < left → 0 < bytes)
  interrupts_end : ∃ calls, ∀ call, calls ≤ call →
    (∀ requested, k.write call requested ≠ .interrupted) ∧
    (∀ requested left, k.read call requested left ≠ .interrupted)

/-- The size that is reported is that of a string: one more byte can be counted. -/
def Kernel.Allocates : Prop := getFileSize k + 1 < 2 ^ 64

end Eureka.FileIo

/-!
## What is written is read back

Both loops are followed call by call.  Every call either transfers bytes, of
which finitely many are left, or is one of finitely many interrupts, so the
bytes and the interrupts that are left bound the fuel.

* **Writing** keeps the file and the data left together the content.
* **Reading** keeps the filled part of the string and the bytes left in the
  file together the file (`Reads`), whatever size was reported: a small size
  costs more rounds and a large one is cut off at the end.

`write_then_read` puts the two together.
-/

namespace Eureka.FileIo

variable {k : Kernel} {file content left : Bytes} {calls call fuel : ℕ}

/-- From this call on nothing is interrupted. -/
def Quiet (k : Kernel) (calls : ℕ) : Prop :=
  ∀ call, calls ≤ call →
    (∀ requested, k.write call requested ≠ .interrupted) ∧
    (∀ requested left, k.read call requested left ≠ .interrupted)

theorem lt_of_interrupted_write (hquiet : Quiet k calls) {requested : ℕ}
    (hwrite : k.write call requested = .interrupted) : call < calls := by
  by_contra hge
  exact (hquiet call (not_lt.mp hge)).1 requested hwrite

theorem lt_of_interrupted_read (hquiet : Quiet k calls) {requested remaining : ℕ}
    (hread : k.read call requested remaining = .interrupted) : call < calls := by
  by_contra hge
  exact (hquiet call (not_lt.mp hge)).2 requested remaining hread

/-! ## Writing -/

theorem writeLoop_eq (hk : k.Transfers) (hquiet : Quiet k calls) {data : Bytes}
    (hfuel : data.length + (calls - call) < fuel) :
    writeLoop k fuel call file data = some (none, file ++ data) := by
  induction fuel generalizing call file data with
  | zero => exact absurd hfuel (Nat.not_lt_zero _)
  | succ fuel ih =>
      unfold writeLoop
      by_cases hdata : data = []
      · rw [if_pos hdata, hdata, List.append_nil]
      · rw [if_neg hdata]
        have hpos : 0 < data.length := List.length_pos_iff.mpr hdata
        obtain hwrite | ⟨bytes, hwrite, hbytes, hle⟩ := hk.write call data.length
        · have hlt : call < calls := lt_of_interrupted_write hquiet hwrite
          rw [hwrite]
          apply ih
          omega
        · have hlt : 0 < bytes := hbytes hpos
          rw [hwrite]
          dsimp only
          rw [ih, List.append_assoc, List.take_append_drop]
          rw [List.length_drop]
          omega

theorem writeToFile_eq (hk : k.Transfers) (hquiet : Quiet k calls)
    (hfuel : content.length + calls < fuel) :
    writeToFile k fuel file content = some (none, content) := by
  unfold writeToFile
  rw [hk.openForWriting]
  dsimp only
  split
  next hempty => rw [hempty]
  next =>
    apply writeLoop_eq hk hquiet
    omega

/-! ## Reading -/

@[simp] theorem length_resize (content : Bytes) (size : ℕ) : (resize content size).length = size := by
  unfold resize
  rw [List.length_append, List.length_take, List.length_replicate]
  omega

theorem take_resize {size n : ℕ} (hn : n ≤ content.length) (hle : n ≤ size) :
    (resize content size).take n = content.take n := by
  unfold resize
  rw [List.take_append_of_le_length, List.take_take, Nat.min_eq_left hle]
  rw [List.length_take]
  omega

theorem resize_of_le {size : ℕ} (hle : size ≤ content.length) :
    resize content size = content.take size := by
  unfold resize
  rw [Nat.sub_eq_zero_of_le hle, List.replicate_zero, List.append_nil]

/-- The string is filled up to `buf`, and the region behind ends with it. -/
structure Reads (file : Bytes) (r : Reading) (left : Bytes) : Prop where
  filled : r.content.take r.buf ++ left = file
  buf_eq : r.buf = r.totalSizeRead + r.actualRead
  region : r.buf + r.count = r.content.length
  readChunkSize_pos : 0 < r.readChunkSize

theorem reads_startRound {total chunk : ℕ} (hfilled : content.take total ++ left = file)
    (htotal : total ≤ content.length) (hchunk : 0 < chunk) :
    Reads file (Reading.startRound content total chunk) left where
  filled := by
    show (resize content (total + chunk)).take total ++ left = file
    rw [take_resize htotal (Nat.le_add_right _ _), hfilled]
  buf_eq := rfl
  region := (length_resize _ _).symm
  readChunkSize_pos := hchunk

theorem reads_start (hk : k.Allocates) : Reads file (Reading.start (getFileSize k)) file := by
  apply reads_startRound rfl (Nat.zero_le _)
  split
  · rw [Nat.mod_eq_of_lt hk]
    exact Nat.succ_pos _
  · decide

section Call

variable {r : Reading} {bytes : ℕ}

theorem Reads.received (hr : Reads file r left) (hcount : bytes ≤ r.count)
    (hleft : bytes ≤ left.length) :
    Reads file (r.received (left.take bytes)) (left.drop bytes) := by
  have hregion := hr.region
  have hlength : (left.take bytes).length = bytes := List.length_take_of_le hleft
  have hbuf : (r.content.take r.buf).length = r.buf := List.length_take_of_le (by omega)
  refine ⟨?_, ?_, ?_, hr.readChunkSize_pos⟩
  · show (r.content.take r.buf ++ left.take bytes ++ r.content.drop _).take
      (r.buf + (left.take bytes).length) ++ _ = file
    have hfront : (r.content.take r.buf ++ left.take bytes).length =
        r.buf + (left.take bytes).length := by rw [List.length_append, hbuf]
    rw [← hfront, List.take_left, List.append_assoc, List.take_append_drop, hr.filled]
  · show r.buf + _ = r.totalSizeRead + (r.actualRead + _)
    rw [hr.buf_eq, Nat.add_assoc]
  · show r.buf + (left.take bytes).length + (r.count - (left.take bytes).length) =
      (r.content.take r.buf ++ left.take bytes ++
        r.content.drop (r.buf + (left.take bytes).length)).length
    rw [List.length_append, List.length_append, hbuf, hlength, List.length_drop]
    omega

theorem Reads.endRound_of_full (hr : Reads file r left) (hcount : r.count = 0) :
    ∃ later, r.endRound = .inl later ∧ Reads file later left ∧ 0 < later.count := by
  have hregion := hr.region
  have hbuf := hr.buf_eq
  have hfull : ¬ r.totalSizeRead + r.actualRead < r.content.length := by omega
  unfold Reading.endRound
  dsimp only
  rw [if_neg hfull]
  refine ⟨_, rfl, ?_, ?_⟩
  · apply reads_startRound
    · rw [← hbuf, hr.filled]
    · omega
    · split
      · decide
      · exact hr.readChunkSize_pos
  · show 0 < if _ then _ else _
    split
    · decide
    · exact hr.readChunkSize_pos

/-- A round that has not is the last, and the string is cut to what was read. -/
theorem Reads.endRound_of_short (hr : Reads file r []) (hcount : 0 < r.count) :
    r.endRound = .inr file := by
  have hregion := hr.region
  have hbuf := hr.buf_eq
  have hshort : r.totalSizeRead + r.actualRead < r.content.length := by omega
  unfold Reading.endRound
  dsimp only
  rw [if_pos hshort, resize_of_le (by omega), ← hbuf, ← hr.filled, List.append_nil]

end Call

theorem readLoop_eq (hk : k.Transfers) (hquiet : Quiet k calls) {r : Reading}
    (hr : Reads file r left) (hcount : 0 < r.count)
    (hfuel : left.length + 1 + (calls - call) < fuel) :
    readLoop k fuel call r left = some (.returned none file) := by
  induction fuel generalizing call r left with
  | zero => exact absurd hfuel (Nat.not_lt_zero _)
  | succ fuel ih =>
      have hregion := hr.region
      unfold readLoop
      rw [if_neg (by omega)]
      obtain hread | ⟨bytes, hread, hle, hleft, hpos⟩ := hk.read call r.count left.length
      · have hlt : call < calls := lt_of_interrupted_read hquiet hread
        have hagain : r.next False = .inl r := if_pos ⟨not_false, hcount.ne'⟩
        rw [hread]
        dsimp only
        rw [hagain]
        exact ih hr hcount (by omega)
      · have hreceived := hr.received hle hleft
        rw [hread]
        dsimp only
        by_cases hended : bytes = 0
        · -- nothing is left, and the region was not empty
          have hnil : left = [] := by
            by_contra hne
            exact absurd hended (hpos hcount (List.length_pos_iff.mpr hne)).ne'
          subst hended hnil
          have hlast : (r.received ([].take 0)).next (0 = 0) = .inr file := by
            unfold Reading.next
            rw [if_neg (by simp)]
            exact hreceived.endRound_of_short hcount
          rw [hlast]
        · have hfewer : (left.drop bytes).length < left.length := by
            rw [List.length_drop]
            omega
          by_cases hfull : (r.received (left.take bytes)).count = 0
          · obtain ⟨later, hlater, hreads, hlaterCount⟩ := hreceived.endRound_of_full hfull
            have hnext : (r.received (left.take bytes)).next (bytes = 0) = .inl later := by
              unfold Reading.next
              rw [if_neg (by simp [hfull]), hlater]
            rw [hnext]
            exact ih hreads hlaterCount (by omega)
          · have hnext : (r.received (left.take bytes)).next (bytes = 0) =
                .inl (r.received (left.take bytes)) := if_pos ⟨hended, hfull⟩
            rw [hnext]
            exact ih hreceived (Nat.pos_of_ne_zero hfull) (by omega)

theorem readFromFile_eq (hk : k.Transfers) (hsize : k.Allocates) (hquiet : Quiet k calls)
    (hfuel : file.length + 1 + calls < fuel) :
    readFromFile k fuel file = some (.returned none file) := by
  have hcount : 0 < (Reading.start (getFileSize k)).count := by
    show 0 < if _ then _ else _
    split
    · rw [Nat.mod_eq_of_lt hsize]
      exact Nat.succ_pos _
    · decide
  unfold readFromFile
  rw [hk.openForReading]
  dsimp only
  apply readLoop_eq hk hquiet (reads_start hsize) hcount
  omega

/-- **A file that was written is read back**, after finitely many calls and
within the bounds of the string. -/
theorem write_then_read (hk : k.Transfers) (hsize : k.Allocates) (old content : Bytes) :
    ∃ enough, ∀ fuel, enough ≤ fuel → ∃ file,
      writeToFile k fuel old content = some (none, file) ∧
        readFromFile k fuel file = some (.returned none content) := by
  obtain ⟨calls, hquiet⟩ := hk.interrupts_end
  refine ⟨content.length + calls + 2, fun fuel hfuel => ⟨content, ?_, ?_⟩⟩
  · exact writeToFile_eq hk hquiet (by omega)
  · exact readFromFile_eq hk hsize hquiet (by omega)

/-- A kernel that is interrupted, moves few bytes at a time and reports a wrong size. -/
def reluctant : Kernel where
  openForWriting := none
  openForReading := none
  fstat := some 2
  write call requested := if call = 1 then .interrupted else .transferred (min 3 requested)
  read call requested left :=
    if call < 3 then .interrupted else .transferred (min 2 (min requested left))

theorem reluctant_transfers : reluctant.Transfers where
  openForWriting := rfl
  openForReading := rfl
  write call requested := by
    show (if call = 1 then _ else _) = _ ∨ _
    split
    · exact .inl rfl
    · exact .inr ⟨_, if_neg ‹_›, fun hpos => by omega, Nat.min_le_right _ _⟩
  read call requested left := by
    show (if call < 3 then _ else _) = _ ∨ _
    split
    · exact .inl rfl
    · exact .inr ⟨_, if_neg ‹_›, by omega, by omega, fun hrequested hleft => by omega⟩
  interrupts_end := by
    refine ⟨3, fun call hge => ⟨fun requested => ?_, fun requested left => ?_⟩⟩
    · show (if call = 1 then _ else _) ≠ _
      rw [if_neg (by omega)]
      exact Outcome.noConfusion
    · show (if call < 3 then _ else _) ≠ _
      rw [if_neg (by omega)]
      exact Outcome.noConfusion

theorem write_then_read_reluctant :
    ∃ enough, ∀ fuel, enough ≤ fuel → ∃ file,
      writeToFile reluctant fuel [] (ascii "hello, file") = some (none, file) ∧
        readFromFile reluctant fuel file = some (.returned none (ascii "hello, file")) :=
  write_then_read reluctant_transfers (show getFileSize reluctant + 1 < 2 ^ 64 by decide) []
    (ascii "hello, file")

/-! ## Any kernel -/

end Eureka.FileIo

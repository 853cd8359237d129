import Eureka.Hashids.Hex
import Eureka.Library.Endian

/-!
# Universally unique identifiers

A UUID is kept in two words.  `make_v1` packs a reading of the clock, the clock
sequence and the node into them; `string` cuts them into five hexadecimal fields, and
`make_from` puts them together again.

* `makeV1_time`, `makeV1_seq`: what of a reading and of the sequence survives the
  version and the variant, the sequence on a little-endian host;
* `makeV1_big`: on a big-endian host the node takes the place of the sequence;
* `fields_toNat`, `nodeFields_toNat`: the words are the fields of the text, one after
  the other.
-/

namespace Eureka.Uuid

open Eureka.Endian
open Eureka.Hashids (HexFailure stoull formatHex)

/-- `uuid`, with the two words of `data_`. -/
structure Uuid where
  data0 : UInt64
  data1 : UInt64
deriving DecidableEq, Repr

/-- `clock_sequence`. -/
structure ClockSequence where
  lastTime : UInt64
  seq : UInt16
deriving DecidableEq, Repr

namespace ClockSequence

/-- The sequence begins with a random number. -/
def init (seq : UInt16) : ClockSequence := ⟨0, seq⟩

/-- `read`, in which the clock shows `now`. -/
def read (clock : ClockSequence) (now : UInt64) : (UInt64 × UInt16) × ClockSequence :=
  let seq := if now ≤ clock.lastTime then clock.seq + 1 else clock.seq
  ((now, seq), ⟨now, seq⟩)

end ClockSequence

/-! ## Making a UUID -/

def setVersion (version : UInt64) (uuid : Uuid) : Uuid :=
  { uuid with data0 := uuid.data0 &&& (0xffffffffffff0fff : UInt64) ||| version <<< 12 }

def setVariant (uuid : Uuid) : Uuid :=
  { uuid with data1 := uuid.data1 &&& (0x3fffffffffffffff : UInt64) ||| 0x8000000000000000 }

/-- `node_id`. -/
abbrev NodeId := Vector Byte 6

/-- The node, copied in reverse over the first bytes of a word in the memory of the host. -/
def copyNode (endianness : Endianness) (node : NodeId) (word : UInt64) : UInt64 :=
  UInt64.ofNat (ofObjectBytes endianness
    (node.toList.reverse ++ (objectBytes endianness 8 word.toNat).drop 6))

/-- `make_v1`, for what `read` returned and the node that the fetcher found. -/
def makeV1 (endianness : Endianness) (node : NodeId) (reading : UInt64 × UInt16) : Uuid :=
  let (time, seq) := reading
  let data0 := time <<< 32 ||| (time &&& 0x0000ffff00000000) >>> 16 ||| time >>> 48
  let data1 := (seq &&& 0xff00).toUInt64 <<< 48 ||| (seq &&& 0xff).toUInt64 <<< 48
  setVersion 1 (setVariant ⟨data0, copyNode endianness node data1⟩)

/-! ## The text of a UUID -/

/-- `%0width llx`. -/
def formatPadded (width : ℕ) (n : UInt64) : Bytes :=
  List.replicate (width - (formatHex n).length) 48 ++ formatHex n

/-- What `snprintf` leaves in a buffer of zeros. -/
def snprintf (size : ℕ) (text : Bytes) : Bytes :=
  let written := text.take (size - 1)
  written ++ List.replicate (size - written.length) 0

def resize (size : ℕ) (text : Bytes) : Bytes :=
  text.take size ++ List.replicate (size - text.length) 0

def canonicalLen : ℕ := 36

def hyphen : Byte := 45

/-- `string`. -/
def string (uuid : Uuid) : Bytes :=
  let fields :=
    formatPadded 8 (uuid.data0 >>> 32) ++ hyphen ::
    (formatPadded 4 (uuid.data0 >>> 16 &&& 0xffff) ++ hyphen ::
    (formatPadded 4 (uuid.data0 &&& 0xffff) ++ hyphen ::
    (formatPadded 4 (uuid.data1 >>> 48) ++ hyphen ::
    formatPadded 12 (uuid.data1 &&& 0xffffffffffff))))
  resize canonicalLen (snprintf (canonicalLen + 1) fields)

/-- How `make_from` can fail. -/
inductive Failure
  | conversion (failure : HexFailure)
  | assertion
deriving DecidableEq, Repr

/-- The loop of `make_from` over the parts between the hyphens. -/
def parseParts : List Bytes → Except HexFailure (List UInt64)
  | [] => .ok []
  | part :: parts => do
      let (num, _) ← stoull part
      let nums ← parseParts parts
      return num :: nums

/-- `make_from`. -/
def makeFrom (src : Bytes) : Except Failure Uuid :=
  match parseParts (src.splitOn hyphen) with
  | .error failure => .error (.conversion failure)
  | .ok [part0, part1, part2, part3, part4] =>
      .ok ⟨part0 <<< 32 ||| part1 <<< 16 ||| part2, part3 <<< 48 ||| part4⟩
  | .ok _ => .error .assertion

/-! ## The words in numbers -/

/-- Each half of a number meets its half of the mask. -/
theorem and_halves (k x mask : ℕ) :
    x &&& mask = 2 ^ k * (x / 2 ^ k &&& mask / 2 ^ k) + (x % 2 ^ k &&& mask % 2 ^ k) := by
  rw [← Nat.and_div_two_pow, ← Nat.and_mod_two_pow, Nat.div_add_mod]

theorem or_fields (x : ℕ) {y z : ℕ} (hy : y < 2 ^ 16) (hz : z < 2 ^ 16) :
    2 ^ 32 * x ||| 2 ^ 16 * y ||| z = 2 ^ 32 * x + 2 ^ 16 * y + z := by
  have hlow : 2 ^ 16 * y + z < 2 ^ 32 := by omega
  rw [Nat.or_assoc, ← Nat.two_pow_add_eq_or_of_lt hz, ← Nat.two_pow_add_eq_or_of_lt hlow,
    Nat.add_assoc]

theorem fields_toNat {part0 part1 part2 : UInt64} (h0 : part0.toNat < 2 ^ 32)
    (h1 : part1.toNat < 2 ^ 16) (h2 : part2.toNat < 2 ^ 16) :
    (part0 <<< 32 ||| part1 <<< 16 ||| part2).toNat =
      2 ^ 32 * part0.toNat + 2 ^ 16 * part1.toNat + part2.toNat := by
  have hshift0 : (part0 <<< 32).toNat = 2 ^ 32 * part0.toNat := by
    rw [UInt64.toNat_shiftLeft, Nat.shiftLeft_eq]
    change part0.toNat * 2 ^ 32 % 2 ^ 64 = _
    omega
  have hshift1 : (part1 <<< 16).toNat = 2 ^ 16 * part1.toNat := by
    rw [UInt64.toNat_shiftLeft, Nat.shiftLeft_eq]
    change part1.toNat * 2 ^ 16 % 2 ^ 64 = _
    omega
  rw [UInt64.toNat_or, UInt64.toNat_or, hshift0, hshift1, or_fields _ h1 h2]

theorem nodeFields_toNat {part3 part4 : UInt64} (h3 : part3.toNat < 2 ^ 16)
    (h4 : part4.toNat < 2 ^ 48) :
    (part3 <<< 48 ||| part4).toNat = 2 ^ 48 * part3.toNat + part4.toNat := by
  have hshift : (part3 <<< 48).toNat = 2 ^ 48 * part3.toNat := by
    rw [UInt64.toNat_shiftLeft, Nat.shiftLeft_eq]
    change part3.toNat * 2 ^ 48 % 2 ^ 64 = _
    omega
  rw [UInt64.toNat_or, hshift, Nat.two_pow_add_eq_or_of_lt h4]

theorem setVersion_toNat {version : UInt64} (hversion : version.toNat < 2 ^ 4) (uuid : Uuid) :
    (setVersion version uuid).data0.toNat =
      2 ^ 16 * (uuid.data0.toNat / 2 ^ 16) + 2 ^ 12 * version.toNat +
        uuid.data0.toNat % 2 ^ 12 := by
  have hword := uuid.data0.toNat_lt
  have hshift : (version <<< 12).toNat = 2 ^ 12 * version.toNat := by
    rw [UInt64.toNat_shiftLeft, Nat.shiftLeft_eq]
    change version.toNat * 2 ^ 12 % 2 ^ 64 = _
    omega
  -- the mask has a gap of four bits at bit 12
  have hmask : uuid.data0.toNat &&& 0xffffffffffff0fff =
      2 ^ 16 * (uuid.data0.toNat / 2 ^ 16) + uuid.data0.toNat % 2 ^ 12 := by
    rw [and_halves 16]
    change 2 ^ 16 * (uuid.data0.toNat / 2 ^ 16 &&& 2 ^ 48 - 1) +
      (uuid.data0.toNat % 2 ^ 16 &&& 2 ^ 12 - 1) = _
    rw [Nat.and_two_pow_sub_one_eq_mod, Nat.and_two_pow_sub_one_eq_mod]
    omega
  have hlow : uuid.data0.toNat % 2 ^ 12 < 2 ^ 12 := Nat.mod_lt _ (by decide)
  -- the version fills the gap and nothing else
  have hfield : 2 ^ 12 * version.toNat + uuid.data0.toNat % 2 ^ 12 < 2 ^ 16 := by omega
  have hlow' : uuid.data0.toNat % 2 ^ 12 < 2 ^ 16 := hlow.trans (by decide)
  unfold setVersion
  rw [UInt64.toNat_or, UInt64.toNat_and, hshift]
  change uuid.data0.toNat &&& 0xffffffffffff0fff ||| _ = _
  rw [hmask, Nat.two_pow_add_eq_or_of_lt hlow', Nat.or_assoc, Nat.or_comm _ (2 ^ 12 * _),
    ← Nat.two_pow_add_eq_or_of_lt hlow, ← Nat.two_pow_add_eq_or_of_lt hfield, Nat.add_assoc]

theorem setVariant_toNat (uuid : Uuid) :
    (setVariant uuid).data1.toNat = 2 ^ 63 + uuid.data1.toNat % 2 ^ 62 := by
  have hlow : uuid.data1.toNat % 2 ^ 62 < 2 ^ 63 :=
    (Nat.mod_lt _ (by decide)).trans (by decide)
  unfold setVariant
  rw [UInt64.toNat_or, UInt64.toNat_and]
  change uuid.data1.toNat &&& 2 ^ 62 - 1 ||| 2 ^ 63 = _
  rw [Nat.and_two_pow_sub_one_eq_mod, Nat.or_comm]
  exact (Nat.two_pow_add_eq_or_of_lt hlow 1).symm

/-! ## What a version 1 UUID keeps -/

/-- The timestamp in a UUID, without the bits of the version. -/
def timestamp (uuid : Uuid) : ℕ :=
  uuid.data0.toNat / 2 ^ 32 + 2 ^ 32 * (uuid.data0.toNat / 2 ^ 16 % 2 ^ 16) +
    2 ^ 48 * (uuid.data0.toNat % 2 ^ 12)

/-- The clock sequence in a UUID, without the bits of the variant. -/
def clockSeq (uuid : Uuid) : ℕ := uuid.data1.toNat / 2 ^ 48 % 2 ^ 14

theorem timeFields_toNat (time : UInt64) :
    (time <<< 32 ||| (time &&& 0x0000ffff00000000) >>> 16 ||| time >>> 48).toNat =
      2 ^ 32 * (time.toNat % 2 ^ 32) + 2 ^ 16 * (time.toNat / 2 ^ 32 % 2 ^ 16) +
        time.toNat / 2 ^ 48 := by
  have htime := time.toNat_lt
  have hlow : (time <<< 32).toNat = 2 ^ 32 * (time.toNat % 2 ^ 32) := by
    rw [UInt64.toNat_shiftLeft, Nat.shiftLeft_eq]
    change time.toNat * 2 ^ 32 % 2 ^ 64 = _
    omega
  have hmid : ((time &&& 0x0000ffff00000000) >>> 16).toNat =
      2 ^ 16 * (time.toNat / 2 ^ 32 % 2 ^ 16) := by
    rw [UInt64.toNat_shiftRight, UInt64.toNat_and, Nat.shiftRight_eq_div_pow]
    -- only the high half of the mask has ones, sixteen of them
    change (time.toNat &&& 0x0000ffff00000000) / 2 ^ 16 = _
    rw [and_halves 32]
    change (2 ^ 32 * (time.toNat / 2 ^ 32 &&& 2 ^ 16 - 1) + (time.toNat % 2 ^ 32 &&& 0)) / 2 ^ 16 = _
    rw [Nat.and_two_pow_sub_one_eq_mod, Nat.and_zero]
    omega
  have hhigh : (time >>> 48).toNat = time.toNat / 2 ^ 48 := by
    rw [UInt64.toNat_shiftRight, Nat.shiftRight_eq_div_pow]
    rfl
  rw [UInt64.toNat_or, UInt64.toNat_or, hlow, hmid, hhigh]
  exact or_fields _ (Nat.mod_lt _ (by decide)) (by omega)

theorem seqFields_toNat (seq : UInt16) :
    ((seq &&& 0xff00).toUInt64 <<< 48 ||| (seq &&& 0xff).toUInt64 <<< 48).toNat =
      2 ^ 48 * seq.toNat := by
  have hseq := seq.toNat_lt
  have hhigh : ((seq &&& 0xff00).toUInt64 <<< 48).toNat = 2 ^ 56 * (seq.toNat / 2 ^ 8) := by
    rw [UInt64.toNat_shiftLeft, UInt16.toNat_toUInt64, UInt16.toNat_and, Nat.shiftLeft_eq]
    change (seq.toNat &&& 0xff00) * 2 ^ 48 % 2 ^ 64 = _
    rw [and_halves 8]
    change (2 ^ 8 * (seq.toNat / 2 ^ 8 &&& 2 ^ 8 - 1) + (seq.toNat % 2 ^ 8 &&& 0)) * 2 ^ 48 % 2 ^ 64 = _
    rw [Nat.and_two_pow_sub_one_eq_mod, Nat.and_zero]
    omega
  have hlow : ((seq &&& 0xff).toUInt64 <<< 48).toNat = 2 ^ 48 * (seq.toNat % 2 ^ 8) := by
    rw [UInt64.toNat_shiftLeft, UInt16.toNat_toUInt64, UInt16.toNat_and, Nat.shiftLeft_eq]
    change (seq.toNat &&& 2 ^ 8 - 1) * 2 ^ 48 % 2 ^ 64 = _
    rw [Nat.and_two_pow_sub_one_eq_mod]
    omega
  have hfield : 2 ^ 48 * (seq.toNat % 2 ^ 8) < 2 ^ 56 := by omega
  rw [UInt64.toNat_or, hhigh, hlow, ← Nat.two_pow_add_eq_or_of_lt hfield]
  omega

/-- On a little-endian host the node is copied into the lower six bytes. -/
theorem copyNode_div (node : NodeId) (word : UInt64) :
    (copyNode .little node word).toNat / 2 ^ 48 = word.toNat / 2 ^ 48 := by
  have hword := word.toNat_lt
  have hlength : node.toList.reverse.length = 6 := by
    rw [List.length_reverse, Vector.length_toList]
  have hnode : ofLittleEndian node.toList.reverse < 256 ^ 6 :=
    lt_of_lt_of_eq (ofLittleEndian_lt _) (congrArg (256 ^ ·) hlength)
  -- what is left of the word are its last two bytes in memory, its highest ones
  have hrest : ofLittleEndian ((littleEndian 8 word.toNat).drop 6) = word.toNat / 2 ^ 48 := by
    rw [drop_littleEndian 6 2, ofLittleEndian_littleEndian]
    omega
  have hbytes : (copyNode .little node word).toNat =
      ofLittleEndian node.toList.reverse + 256 ^ 6 * (word.toNat / 2 ^ 48) := by
    unfold copyNode objectBytes ofObjectBytes
    dsimp only
    rw [ofLittleEndian_append, hlength, hrest]
    refine UInt64.toNat_ofNat_of_lt' ?_
    change _ < 2 ^ 64
    omega
  omega

/-- On a big-endian host the node is copied over all but the lower two bytes. -/
theorem copyNode_congr (node : NodeId) {word word' : UInt64}
    (hlow : (littleEndian 8 word.toNat).take 2 = (littleEndian 8 word'.toNat).take 2) :
    copyNode .big node word = copyNode .big node word' := by
  have hdrop (n : ℕ) : ((littleEndian 8 n).reverse.drop 6).reverse = (littleEndian 8 n).take 2 := by
    rw [List.drop_reverse, List.reverse_reverse, length_littleEndian]
  unfold copyNode objectBytes ofObjectBytes
  dsimp only
  rw [List.reverse_append, List.reverse_append, hdrop, hdrop, hlow]

/-- Behind the version the timestamp is found in its fields. -/
theorem timestamp_of_fields {uuid : Uuid} {low mid high : ℕ} (hmid : mid < 2 ^ 16)
    (hhigh : high < 2 ^ 12)
    (hword : uuid.data0.toNat = 2 ^ 32 * low + 2 ^ 16 * mid + (2 ^ 12 + high)) :
    timestamp uuid = low + 2 ^ 32 * mid + 2 ^ 48 * high := by
  have hfield0 : uuid.data0.toNat / 2 ^ 32 = low := by omega
  have hfield1 : uuid.data0.toNat / 2 ^ 16 % 2 ^ 16 = mid := by omega
  have hfield2 : uuid.data0.toNat % 2 ^ 12 = high := by omega
  rw [timestamp, hfield0, hfield1, hfield2]

/-- **The time that a UUID keeps.** -/
theorem makeV1_time (endianness : Endianness) (node : NodeId) (time : UInt64) (seq : UInt16) :
    timestamp (makeV1 endianness node (time, seq)) = time.toNat % 2 ^ 60 := by
  have htime := time.toNat_lt
  have hmid : time.toNat / 2 ^ 32 % 2 ^ 16 < 2 ^ 16 := Nat.mod_lt _ (by decide)
  have hhigh : time.toNat / 2 ^ 48 % 2 ^ 12 < 2 ^ 12 := Nat.mod_lt _ (by decide)
  have hword : (makeV1 endianness node (time, seq)).data0.toNat =
      2 ^ 32 * (time.toNat % 2 ^ 32) + 2 ^ 16 * (time.toNat / 2 ^ 32 % 2 ^ 16) +
        (2 ^ 12 + time.toNat / 2 ^ 48 % 2 ^ 12) := by
    have hfields := timeFields_toNat time
    unfold makeV1
    dsimp only
    rw [setVersion_toNat (by decide), setVariant, hfields]
    change _ + 2 ^ 12 * 1 + _ = _
    omega
  calc
    timestamp (makeV1 endianness node (time, seq))
    _ = time.toNat % 2 ^ 32 + 2 ^ 32 * (time.toNat / 2 ^ 32 % 2 ^ 16) +
          2 ^ 48 * (time.toNat / 2 ^ 48 % 2 ^ 12) := timestamp_of_fields hmid hhigh hword
    _ = time.toNat % 2 ^ 48 + 2 ^ 48 * (time.toNat / 2 ^ 48 % 2 ^ 12) := by
      rw [← Nat.mod_mul, ← pow_add]
    _ = time.toNat % 2 ^ 60 := by
      rw [← Nat.mod_mul, ← pow_add]

/-- **The clock sequence that a UUID keeps** on a little-endian host. -/
theorem makeV1_seq (node : NodeId) (time : UInt64) (seq : UInt16) :
    clockSeq (makeV1 .little node (time, seq)) = seq.toNat % 2 ^ 14 := by
  have hseq := seq.toNat_lt
  have hfields := seqFields_toNat seq
  have hnode := copyNode_div node
    ((seq &&& 0xff00).toUInt64 <<< 48 ||| (seq &&& 0xff).toUInt64 <<< 48)
  unfold clockSeq makeV1
  dsimp only
  rw [setVersion, setVariant_toNat]
  dsimp only
  rw [hfields] at hnode
  omega

/-- **No clock sequence is kept** on a big-endian host. -/
theorem makeV1_big (node : NodeId) (time : UInt64) (seq : UInt16) :
    makeV1 .big node (time, seq) = makeV1 .big node (time, 0) := by
  -- of the words with the sequence the lower two bytes are zero
  have hlow (seq : UInt16) : (littleEndian 8
      ((seq &&& 0xff00).toUInt64 <<< 48 ||| (seq &&& 0xff).toUInt64 <<< 48).toNat).take 2 =
        [0, 0] := by
    have hbyte {n : ℕ} (hn : n % 256 = 0) : UInt8.ofNat n = 0 :=
      UInt8.toNat.inj (UInt8.toNat_ofNat'.trans hn)
    rw [seqFields_toNat]
    show [UInt8.ofNat (2 ^ 48 * seq.toNat), UInt8.ofNat (2 ^ 48 * seq.toNat / 256)] = [0, 0]
    rw [hbyte (by omega), hbyte (by omega)]
  unfold makeV1
  dsimp only
  rw [copyNode_congr node ((hlow seq).trans (hlow 0).symm)]

end Eureka.Uuid

/-!
## Version 1 UUIDs are unique

The clock may stand still or be set backward, so a time may be read again, and
`clock_sequence` remembers only the last one.  It counts the readings that do not advance,
though, and between two readings of one time there is such a reading.

* `mem_reads`: how far the sequence has gone by a later reading, and that the time is
  later if it has not moved.
* `uuids_nodup`: fewer than 2 ^ 14 readings that do not advance leave no UUID twice on a
  little-endian host.
* `uuids_nodup_iff`: on a big-endian host a time that is read again gives the same UUID.
-/

namespace Eureka.Uuid

open Eureka.Endian

namespace ClockSequence

/-- What `read` returns one time after the other, for what the clock shows each time. -/
def reads (clock : ClockSequence) : List UInt64 → List (UInt64 × UInt16)
  | [] => []
  | now :: readings => (clock.read now).1 :: reads (clock.read now).2 readings

end ClockSequence

/-- The number of readings that do not advance past the one before. -/
def rewindsFrom (lastTime : UInt64) : List UInt64 → ℕ
  | [] => 0
  | now :: readings => (if now ≤ lastTime then 1 else 0) + rewindsFrom now readings

/-- The first reading has none before it. -/
def rewinds : List UInt64 → ℕ
  | [] => 0
  | now :: readings => rewindsFrom now readings

/-- The UUIDs that `make_v1` builds on one node. -/
def uuids (endianness : Endianness) (node : NodeId) (clock : ClockSequence)
    (readings : List UInt64) : List Uuid :=
  (clock.reads readings).map (makeV1 endianness node)

namespace ClockSequence

/-- **One reading**: the clock advances, or the sequence does. -/
theorem read_cases (clock : ClockSequence) (now : UInt64) :
    (clock.lastTime < now ∧ clock.read now = ((now, clock.seq), ⟨now, clock.seq⟩)) ∨
      (now ≤ clock.lastTime ∧
        clock.read now = ((now, clock.seq + 1), ⟨now, clock.seq + 1⟩)) := by
  unfold read
  by_cases hnow : now ≤ clock.lastTime
  · exact .inr ⟨hnow, by rw [if_pos hnow]⟩
  · exact .inl ⟨UInt64.not_le.mp hnow, by rw [if_neg hnow]⟩

theorem succ_seq (seq : UInt16) (moves : ℕ) :
    ((seq + 1).toNat + moves) % 2 ^ 14 = (seq.toNat + (moves + 1)) % 2 ^ 14 := by
  have hsucc : (seq + 1).toNat = (seq.toNat + 1) % 2 ^ 16 := UInt16.toNat_add seq 1
  omega

/-- **A later reading.**  The sequence has moved at most as often as the clock did not advance; if
it has not moved at all, the clock has only advanced. -/
theorem mem_reads {clock : ClockSequence} {readings : List UInt64} {reading : UInt64 × UInt16}
    (hreading : reading ∈ clock.reads readings) :
    reading.1 ∈ readings ∧ ∃ moves ≤ rewindsFrom clock.lastTime readings,
      reading.2.toNat % 2 ^ 14 = (clock.seq.toNat + moves) % 2 ^ 14 ∧
        (moves = 0 → clock.lastTime < reading.1) := by
  induction readings generalizing clock with
  | nil => cases hreading
  | cons now readings ih =>
      rw [reads] at hreading
      rw [rewindsFrom]
      rcases clock.read_cases now with ⟨hlater, hread⟩ | ⟨hearlier, hread⟩
      -- the clock has advanced, and the sequence stays
      · rw [hread] at hreading
        rw [if_neg (UInt64.not_le.mpr hlater), Nat.zero_add]
        rcases List.mem_cons.mp hreading with rfl | hreading
        · exact ⟨List.mem_cons_self, 0, Nat.zero_le _, rfl, fun _ => hlater⟩
        · obtain ⟨hmem, moves, hmoves, hseq, hstill⟩ := ih hreading
          refine ⟨List.mem_cons_of_mem _ hmem, moves, hmoves, hseq, fun hzero => ?_⟩
          exact UInt64.lt_trans hlater (hstill hzero)
      -- the clock has not advanced, and the sequence moves
      · rw [hread] at hreading
        rw [if_pos hearlier]
        rcases List.mem_cons.mp hreading with rfl | hreading
        · refine ⟨List.mem_cons_self, 1, Nat.le_add_right _ _, ?_, fun hone => ?_⟩
          · exact succ_seq clock.seq 0
          · cases hone
        · obtain ⟨hmem, moves, hmoves, hseq, -⟩ := ih hreading
          have hmoves : moves + 1 ≤ 1 + rewindsFrom now readings :=
            (Nat.succ_le_succ hmoves).trans_eq (Nat.add_comm _ 1)
          refine ⟨List.mem_cons_of_mem _ hmem, moves + 1, hmoves, ?_, fun hsucc => ?_⟩
          · rw [hseq]
            exact succ_seq clock.seq moves
          · cases hsucc

end ClockSequence

theorem rewinds_tail_le (now : UInt64) (readings : List UInt64) :
    rewinds readings ≤ rewindsFrom now readings := by
  cases readings with
  | nil => exact le_rfl
  | cons next readings => exact Nat.le_add_left _ _

/-- A UUID tells the readings below `2 ^ 60` apart, and the sequence up to its top bits. -/
theorem makeV1_inj {node : NodeId} {reading reading' : UInt64 × UInt16}
    (htime : reading.1.toNat < 2 ^ 60) (htime' : reading'.1.toNat < 2 ^ 60)
    (heq : makeV1 .little node reading = makeV1 .little node reading') :
    reading.1 = reading'.1 ∧ reading.2.toNat % 2 ^ 14 = reading'.2.toNat % 2 ^ 14 := by
  have hstamp := congrArg timestamp heq
  have hseq := congrArg clockSeq heq
  rw [makeV1_time, makeV1_time, Nat.mod_eq_of_lt htime, Nat.mod_eq_of_lt htime'] at hstamp
  rw [makeV1_seq, makeV1_seq] at hseq
  exact ⟨UInt64.toNat_inj.mp hstamp, hseq⟩

/-- **Version 1 UUIDs are unique** on a little-endian host. -/
theorem uuids_nodup (node : NodeId) (clock : ClockSequence) {readings : List UInt64}
    (htimes : ∀ now ∈ readings, now.toNat < 2 ^ 60) (hrewinds : rewinds readings < 2 ^ 14) :
    (uuids .little node clock readings).Nodup := by
  induction readings generalizing clock with
  | nil => exact List.nodup_nil
  | cons now readings ih =>
      obtain ⟨hnow, htimes⟩ := List.forall_mem_cons.mp htimes
      have hrest := ih (clock.read now).2 htimes ((rewinds_tail_le now readings).trans_lt hrewinds)
      refine List.nodup_cons.mpr ⟨fun hagain => ?_, hrest⟩
      obtain ⟨reading, hreading, heq⟩ := List.mem_map.mp hagain
      obtain ⟨hmem, moves, hmoves, hseq, hstill⟩ := ClockSequence.mem_reads hreading
      obtain ⟨htime, hsame⟩ := makeV1_inj (htimes _ hmem) hnow heq
      have hclock : (clock.read now).2 = ⟨now, (clock.read now).1.2⟩ := rfl
      rw [hclock] at hmoves hseq hstill
      dsimp only at hmoves hseq hstill
      -- the sequence is where it was, which it reaches again only after 2 ^ 14 moves
      have hzero : moves = 0 := by
        have hlt : moves < 2 ^ 14 := hmoves.trans_lt hrewinds
        omega
      exact UInt64.lt_irrefl _ (htime ▸ hstill hzero)

theorem reads_fst (clock : ClockSequence) (readings : List UInt64) :
    (clock.reads readings).map Prod.fst = readings := by
  induction readings generalizing clock with
  | nil => rfl
  | cons now readings ih => exact congrArg (now :: ·) (ih _)

theorem uuids_big (node : NodeId) (clock : ClockSequence) (readings : List UInt64) :
    uuids .big node clock readings = readings.map fun now => makeV1 .big node (now, 0) := by
  conv_rhs => rw [← reads_fst clock readings, List.map_map]
  exact List.map_congr_left fun reading _ => makeV1_big node reading.1 reading.2

/-- **On which hosts they are unique**: on a little-endian host whatever the clock shows, on a
big-endian host if it shows no time twice. -/
theorem uuids_nodup_iff (endianness : Endianness) (node : NodeId) (clock : ClockSequence)
    {readings : List UInt64} (htimes : ∀ now ∈ readings, now.toNat < 2 ^ 60)
    (hrewinds : rewinds readings < 2 ^ 14) :
    (uuids endianness node clock readings).Nodup ↔ endianness = .little ∨ readings.Nodup := by
  cases endianness with
  | little => exact iff_of_true (uuids_nodup node clock htimes hrewinds) (.inl rfl)
  | big =>
      rw [uuids_big, or_iff_right nofun]
      refine ⟨List.Nodup.of_map _, fun hnodup => hnodup.map_on fun now hnow now' hnow' heq => ?_⟩
      have hstamp := congrArg timestamp heq
      rw [makeV1_time, makeV1_time, Nat.mod_eq_of_lt (htimes _ hnow),
        Nat.mod_eq_of_lt (htimes _ hnow')] at hstamp
      exact UInt64.toNat_inj.mp hstamp

/-- The clock stands still and jumps back, while the sequence wraps around. -/
theorem uuids_nodup_iff_wrapping :
    (uuids .little (Vector.replicate 6 7) (ClockSequence.init 0xffff) [5, 5, 3, 3, 5]).Nodup :=
  (uuids_nodup_iff _ _ _ (by simp) (by decide)).mpr (.inl rfl)

/-- A big-endian host reads one time twice. -/
theorem uuids_big_repeated :
    (∀ now ∈ [(5 : UInt64), 5], now.toNat < 2 ^ 60) ∧ rewinds [5, 5] < 2 ^ 14 ∧
      ¬ (uuids .big (Vector.replicate 6 7) (ClockSequence.init 0) [5, 5]).Nodup := by
  refine ⟨by simp, by decide, ?_⟩
  rw [uuids_big]
  exact fun hnodup => (List.nodup_cons.mp hnodup).1 List.mem_cons_self

end Eureka.Uuid

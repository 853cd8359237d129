import Mathlib
import Eureka.Bytes
import Eureka.Library.BitArray

/-!
# A Bloom filter

`bloom_filter` of `bloom-filter/bloom_filter.cpp`.  How many hashes and bits a
filter has is computed from its error rate in floating point; here they are
parameters of `create`.  The hash function is a parameter as well.

On the set of the bits that are set an element is the set of its `probes`:

* `addElement` joins the probes to the set and tells whether any was missing,
  even if several probes are the same bit (`checkAddHash_write`);
* `mayContain` tells whether all of them are there (`checkAddHash_read`).

Reading stops at the first clear bit and writing goes on, so the loop is
followed once for each mode.
-/

namespace Eureka.BloomFilter

open BitArray

inductive AccessMode
  | read
  | write
deriving DecidableEq, Repr

/-- Why a call does not return. -/
inductive Fault
  | invalidArgument (what : String)
  /-- An access that is not within `bytes_`. -/
  | outOfRange
deriving DecidableEq, Repr

/-- The filter; `hashes` is a `uint32_t`, `numBits` and `size` have 64 bits. -/
structure Filter where
  hashes : ℕ
  numBits : ℕ
  size : ℕ
  bytes : Bytes
deriving DecidableEq, Repr

namespace Filter

/-- What the constructor leaves, for the numbers it computes. -/
def create (hashes numBits : ℕ) : Filter :=
  ⟨hashes, numBits, 0, List.replicate (numBits / 8) 0⟩

def testSetBit (f : Filter) (bitIndex : ℕ) (mode : AccessMode) : Except Fault (Bool × Filter) :=
  match f.bytes[bitIndex / 8]? with
  | none => .error .outOfRange
  | some byte =>
      if byte &&& mask (bitIndex % 8) ≠ 0 then .ok (true, f)
      else match mode with
        | .write => .ok (false, { f with bytes := BitArray.set f.bytes bitIndex })
        | .read => .ok (false, f)

/-- The bit that hash number `i` selects, in `uint64_t`. -/
def index (numBits hvA hvB i : ℕ) : ℕ := (hvA + i * hvB) % 2 ^ 64 % numBits

/-- The loop of `check_add_hash`, from hash number `i` on. -/
def checkLoop (hvA hvB : ℕ) (mode : AccessMode) :
    (remaining i : ℕ) → (unsetFound : Bool) → Filter → Except Fault (Bool × Filter)
  | 0, _, unsetFound, f =>
      match mode with
      | .read => .ok (true, f)
      | .write => .ok (unsetFound, f)
  | remaining + 1, i, unsetFound, f => do
      let (isSet, f) ← f.testSetBit (index f.numBits hvA hvB i) mode
      if isSet then checkLoop hvA hvB mode remaining (i + 1) unsetFound f
      else match mode with
        | .read => .ok (false, f)
        | .write => checkLoop hvA hvB mode remaining (i + 1) true f

def checkAddHash (f : Filter) (hvA hvB : ℕ) (mode : AccessMode) : Except Fault (Bool × Filter) :=
  checkLoop hvA hvB mode f.hashes 0 false f

end Filter

/-- `MurmurHash2`, of the data, its length and a seed. -/
abbrev Hash := Bytes → ℤ → UInt32 → UInt32

def calcDataHash (hash : Hash) (data : Bytes) (len : ℤ) : UInt32 × UInt32 :=
  let a := hash data len 0x9747b28c
  let b := hash data len a
  (a, b)

namespace Filter

def addElement (hash : Hash) (f : Filter) (data : Bytes) (len : ℤ) :
    Except Fault (Bool × Filter) :=
  if len ≤ 0 then .error (.invalidArgument "len must be positive")
  else do
    let hashval := calcDataHash hash data len
    let (added, f) ← f.checkAddHash hashval.1.toNat hashval.2.toNat .write
    if added then return (added, { f with size := (f.size + 1) % 2 ^ 64 })
    else return (added, f)

def mayContain (hash : Hash) (f : Filter) (data : Bytes) (len : ℤ) : Except Fault (Bool × Filter) :=
  if len ≤ 0 then .error (.invalidArgument "len must be positive")
  else
    let hashval := calcDataHash hash data len
    f.checkAddHash hashval.1.toNat hashval.2.toNat .read

/-! ## The bits of an element -/

/-- The bits that hash numbers `i` to `i + remaining - 1` select. -/
def probesFrom (numBits hvA hvB remaining i : ℕ) : Finset ℕ :=
  ((List.range' i remaining).map (index numBits hvA hvB)).toFinset

/-- The bits of an element. -/
def probes (hash : Hash) (hashes numBits : ℕ) (data : Bytes) (len : ℤ) : Finset ℕ :=
  probesFrom numBits (calcDataHash hash data len).1.toNat (calcDataHash hash data len).2.toNat
    hashes 0

theorem probesFrom_succ (numBits hvA hvB remaining i : ℕ) :
    probesFrom numBits hvA hvB (remaining + 1) i =
      insert (index numBits hvA hvB i) (probesFrom numBits hvA hvB remaining (i + 1)) := by
  simp only [probesFrom, List.range'_succ, List.map_cons, List.toFinset_cons]

/-- The array holds all the bits, of which there is at least one. -/
structure Valid (f : Filter) : Prop where
  numBits_eq : f.numBits = 8 * f.bytes.length
  numBits_pos : 0 < f.numBits

theorem valid_create {hashes numBits : ℕ} (hdvd : 8 ∣ numBits) (hpos : 0 < numBits) :
    (create hashes numBits).Valid where
  numBits_eq := by
    show numBits = 8 * (List.replicate (numBits / 8) (0 : Byte)).length
    rw [List.length_replicate, Nat.mul_div_cancel' hdvd]
  numBits_pos := hpos

variable {f : Filter} {hvA hvB i remaining bitIndex : ℕ} {unsetFound : Bool}

theorem Valid.index_lt (hf : f.Valid) : index f.numBits hvA hvB i < 8 * f.bytes.length := by
  rw [← hf.numBits_eq]
  exact Nat.mod_lt _ hf.numBits_pos

theorem Valid.withBytes {bytes : Bytes} (hf : f.Valid) (hlength : bytes.length = f.bytes.length) :
    { f with bytes }.Valid where
  numBits_eq := by rw [hlength]; exact hf.numBits_eq
  numBits_pos := hf.numBits_pos

/-- A bit within the array is tested, and set when it is to be written and was clear. -/
theorem testSetBit_eq (hlt : bitIndex < 8 * f.bytes.length) (mode : AccessMode) :
    f.testSetBit bitIndex mode =
      if bitIndex ∈ ones f.bytes then .ok (true, f)
      else match mode with
        | .write => .ok (false, { f with bytes := BitArray.set f.bytes bitIndex })
        | .read => .ok (false, f) := by
  obtain ⟨byte, hbyte, hiff⟩ := test_eq hlt
  unfold testSetBit
  rw [hbyte]
  dsimp only
  exact if_congr hiff rfl rfl

theorem checkLoop_read (hf : f.Valid) :
    checkLoop hvA hvB .read remaining i unsetFound f =
      .ok (decide (probesFrom f.numBits hvA hvB remaining i ⊆ ones f.bytes), f) := by
  induction remaining generalizing i with
  | zero => simp [checkLoop, probesFrom]
  | succ remaining ih =>
      unfold checkLoop
      rw [testSetBit_eq hf.index_lt, probesFrom_succ]
      by_cases hset : index f.numBits hvA hvB i ∈ ones f.bytes
      · rw [if_pos hset]
        show checkLoop hvA hvB .read remaining (i + 1) unsetFound f = _
        rw [ih]
        simp only [Finset.insert_subset_iff, hset, true_and]
      · rw [if_neg hset]
        simp only [Finset.insert_subset_iff, hset, false_and, decide_false]
        rfl

theorem checkLoop_write (hf : f.Valid) :
    ∃ bytes, checkLoop hvA hvB .write remaining i unsetFound f =
        .ok (unsetFound || !decide (probesFrom f.numBits hvA hvB remaining i ⊆ ones f.bytes),
          { f with bytes }) ∧
      bytes.length = f.bytes.length ∧
      ones bytes = probesFrom f.numBits hvA hvB remaining i ∪ ones f.bytes := by
  induction remaining generalizing i unsetFound f with
  | zero => exact ⟨f.bytes, by simp [checkLoop, probesFrom], rfl, by simp [probesFrom]⟩
  | succ remaining ih =>
      unfold checkLoop
      rw [testSetBit_eq hf.index_lt, probesFrom_succ]
      by_cases hset : index f.numBits hvA hvB i ∈ ones f.bytes
      · obtain ⟨bytes, hloop, hlength, hones⟩ := @ih f (i + 1) unsetFound hf
        rw [if_pos hset]
        refine ⟨bytes, ?_, hlength, ?_⟩
        · show checkLoop hvA hvB .write remaining (i + 1) unsetFound f = _
          rw [hloop]
          simp only [Finset.insert_subset_iff, hset, true_and]
        · rw [hones, Finset.insert_union, Finset.insert_eq_of_mem (Finset.mem_union_right _ hset)]
      · -- the later probes find this bit set, which changes nothing for the answer
        have hwritten : { f with bytes := BitArray.set f.bytes (index f.numBits hvA hvB i) }.Valid :=
          hf.withBytes length_set
        obtain ⟨bytes, hloop, hlength, hones⟩ := @ih _ (i + 1) true hwritten
        rw [if_neg hset]
        refine ⟨bytes, ?_, hlength.trans length_set, ?_⟩
        · show checkLoop hvA hvB .write remaining (i + 1) true _ = _
          rw [hloop]
          simp only [Finset.insert_subset_iff, hset, false_and, decide_false, Bool.true_or,
            Bool.not_false, Bool.or_true]
        · rw [hones, ones_set hf.index_lt, Finset.union_insert, Finset.insert_union]

theorem checkAddHash_read (hf : f.Valid) :
    f.checkAddHash hvA hvB .read =
      .ok (decide (probesFrom f.numBits hvA hvB f.hashes 0 ⊆ ones f.bytes), f) :=
  checkLoop_read hf

theorem checkAddHash_write (hf : f.Valid) :
    ∃ bytes, f.checkAddHash hvA hvB .write =
        .ok (!decide (probesFrom f.numBits hvA hvB f.hashes 0 ⊆ ones f.bytes), { f with bytes }) ∧
      bytes.length = f.bytes.length ∧
      ones bytes = probesFrom f.numBits hvA hvB f.hashes 0 ∪ ones f.bytes :=
  @checkLoop_write f hvA hvB 0 f.hashes false hf

end Filter

end Eureka.BloomFilter

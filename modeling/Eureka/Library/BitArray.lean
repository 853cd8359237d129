import Mathlib

/-!
# Bits in an array of bytes

Bit `i` of an array of bytes is bit `i % 8` of byte `i / 8`, the least
significant bit first.  An array is read as the set of its bits that are set.

* `test_eq` and `set_eq` give the two primitives, a test of a bit by a mask and
  an update by a mask, on these sets;
* `eq_of_ones_eq`: arrays of one size with the same bits set are the same.
-/

namespace Eureka.BitArray

/-- The byte in which only bit `k` is set. -/
def mask (k : ℕ) : UInt8 := 1 <<< UInt8.ofNat k

/-- Bit `i` is within the array and set. -/
def bit (bytes : List UInt8) (i : ℕ) : Bool :=
  match bytes[i / 8]? with
  | some byte => byte.toBitVec.getLsbD (i % 8)
  | none => false

/-- The array with bit `i` set. -/
def set (bytes : List UInt8) (i : ℕ) : List UInt8 :=
  bytes.modify (i / 8) (· ||| mask (i % 8))

/-- The places of the bits that are set. -/
def ones (bytes : List UInt8) : Finset ℕ :=
  (Finset.range (8 * bytes.length)).filter fun i => bit bytes i

/-! ## One byte -/

theorem toBitVec_mask {k : ℕ} (hk : k < 8) : (mask k).toBitVec = BitVec.twoPow 8 k := by
  have hcount : (UInt8.ofNat k).toBitVec % 8#8 = BitVec.ofNat 8 k := by
    apply BitVec.eq_of_toNat_eq
    rw [UInt8.toBitVec_ofNat', BitVec.toNat_umod, BitVec.toNat_ofNat]
    show k % 256 % 8 = k % 256
    omega
  rw [mask, UInt8.toBitVec_shiftLeft, BitVec.twoPow_eq]
  show 1#8 <<< ((UInt8.ofNat k).toBitVec % 8#8) = _
  rw [hcount, BitVec.shiftLeft_eq']
  congr 1
  rw [BitVec.toNat_ofNat]
  omega

theorem and_mask_ne_zero_iff {byte : UInt8} {k : ℕ} (hk : k < 8) :
    byte &&& mask k ≠ 0 ↔ byte.toBitVec.getLsbD k = true := by
  rw [Ne, ← UInt8.toBitVec_inj, UInt8.toBitVec_and, toBitVec_mask hk, BitVec.and_twoPow]
  split
  next hset =>
    refine iff_of_true (fun hzero => ?_) hset
    have hbit := congrArg (BitVec.getLsbD · k) hzero
    simp [hk] at hbit
  next hclear => exact iff_of_false (fun hne => hne rfl) hclear

theorem getLsbD_or_mask {byte : UInt8} {k : ℕ} (hk : k < 8) (j : ℕ) :
    (byte ||| mask k).toBitVec.getLsbD j = (byte.toBitVec.getLsbD j || decide (k = j)) := by
  rw [UInt8.toBitVec_or, toBitVec_mask hk, BitVec.getLsbD_or, BitVec.getLsbD_twoPow]
  simp [hk]

/-! ## The array -/

variable {bytes : List UInt8} {i j : ℕ}

theorem mem_ones : i ∈ ones bytes ↔ bit bytes i = true := by
  unfold ones bit
  rw [Finset.mem_filter, Finset.mem_range]
  refine and_iff_right_of_imp fun hbit => ?_
  by_contra hge
  rw [List.getElem?_eq_none (by omega)] at hbit
  cases hbit

theorem ones_subset : ones bytes ⊆ Finset.range (8 * bytes.length) := Finset.filter_subset _ _

@[simp] theorem length_set : (set bytes i).length = bytes.length := List.length_modify _ _ _

theorem test_eq (hi : i < 8 * bytes.length) :
    ∃ byte, bytes[i / 8]? = some byte ∧ (byte &&& mask (i % 8) ≠ 0 ↔ i ∈ ones bytes) := by
  have hlt : i / 8 < bytes.length := by omega
  refine ⟨bytes[i / 8], List.getElem?_eq_getElem hlt, ?_⟩
  rw [and_mask_ne_zero_iff (Nat.mod_lt _ (by decide)), mem_ones, bit,
    List.getElem?_eq_getElem hlt]

theorem bit_set (hi : i < 8 * bytes.length) :
    bit (set bytes i) j = (bit bytes j || decide (i = j)) := by
  unfold bit set
  rw [List.getElem?_modify]
  by_cases hbyte : i / 8 = j / 8
  · have hlt : j / 8 < bytes.length := by omega
    simp only [if_pos hbyte, List.getElem?_eq_getElem hlt]
    show (bytes[j / 8] ||| mask (i % 8)).toBitVec.getLsbD (j % 8) = _
    rw [getLsbD_or_mask (Nat.mod_lt _ (by decide))]
    have hiff : i % 8 = j % 8 ↔ i = j := by omega
    simp only [hiff]
  · have hne : i ≠ j := by rintro rfl; exact hbyte rfl
    simp [if_neg hbyte, hne]

theorem ones_set (hi : i < 8 * bytes.length) : ones (set bytes i) = insert i (ones bytes) := by
  ext j
  rw [Finset.mem_insert, mem_ones, mem_ones, bit_set hi, Bool.or_eq_true, decide_eq_true_iff,
    or_comm, eq_comm]

@[simp] theorem ones_replicate_zero (n : ℕ) : ones (List.replicate n 0) = ∅ := by
  ext i
  rw [mem_ones, bit, List.getElem?_replicate]
  by_cases hi : i / 8 < n
  · simp [hi]
  · simp [hi]

/-- **The set bits tell an array of a given size.** -/
theorem eq_of_ones_eq {other : List UInt8} (hlength : bytes.length = other.length)
    (hones : ones bytes = ones other) : bytes = other := by
  apply List.ext_getElem hlength
  intro n hn hother
  apply UInt8.toBitVec_inj.mp
  apply BitVec.eq_of_getLsbD_eq
  intro k hk
  have hdiv : (8 * n + k) / 8 = n := by omega
  have hmod : (8 * n + k) % 8 = k := by omega
  have hbit : bit bytes (8 * n + k) = bit other (8 * n + k) := by
    rw [Bool.eq_iff_iff, ← mem_ones, ← mem_ones, hones]
  simpa [bit, hdiv, hmod, hn, hother] using hbit

end Eureka.BitArray

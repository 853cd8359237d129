import Eureka.Buddy.BinManager
import Eureka.Library.AlignedBlock

/-!
# The layout of the tree in the array

The node of the block of order `k` and index `i`, in a tree over `2 ^ height`
slots, is the array element `nodeIndex height k i`.  `Represents` says that the
array holds the capacity of every block; there is exactly one such array for a
set of taken blocks (`Represents.unique`).
-/

namespace Eureka.Buddy

open AlignedBlock

/-! ## Powers of two -/

theorem isPowerOf2_iff {number : ℕ} : isPowerOf2 number = true ↔ ∃ k, number = 2 ^ k := by
  rw [isPowerOf2, Bool.and_eq_true, decide_eq_true_eq, decide_eq_true_eq]
  exact Nat.ne_zero_and_sub_one_eq_zero_iff_isPowerOfTwo

/-- One round of the loop doubles the reach of every bit. -/
theorem testBit_or_shiftRight {n m w : ℕ}
    (hreach : ∀ j, n.testBit j = true ↔ ∃ d < w, m.testBit (j + d) = true) (j : ℕ) :
    (n ||| n >>> w).testBit j = true ↔ ∃ d < w + w, m.testBit (j + d) = true := by
  rw [Nat.testBit_or, Nat.testBit_shiftRight, Bool.or_eq_true, hreach, hreach]
  constructor
  · rintro (⟨d, hd, hbit⟩ | ⟨d, hd, hbit⟩)
    · exact ⟨d, by omega, hbit⟩
    · exact ⟨w + d, by omega, by rwa [← Nat.add_assoc, Nat.add_comm j]⟩
  · rintro ⟨d, hd, hbit⟩
    rcases Nat.lt_or_ge d w with hlt | hge
    · exact .inl ⟨d, hlt, hbit⟩
    · exact .inr ⟨d - w, by omega, by rwa [show w + j + (d - w) = j + d by omega]⟩

/-- What the loop of `nearestUpperPowerOf2` makes of a number. -/
def smear (m : ℕ) : ℕ := [1, 2, 4, 8, 16].foldl (fun number i => number ||| number >>> i) m

/-- The loop sets the 31 bits below every bit that is set. -/
theorem testBit_smear (m j : ℕ) :
    (smear m).testBit j = true ↔ ∃ d < 32, m.testBit (j + d) = true := by
  have h1 : ∀ j, m.testBit j = true ↔ ∃ d < 1, m.testBit (j + d) = true := by simp
  exact testBit_or_shiftRight (testBit_or_shiftRight (testBit_or_shiftRight
    (testBit_or_shiftRight (testBit_or_shiftRight h1)))) j

theorem smear_lt {m k : ℕ} (hm : m < 2 ^ k) : smear m < 2 ^ k := by
  refine Nat.lt_pow_two_of_testBit (smear m) fun j hj => ?_
  rw [← Bool.not_eq_true, testBit_smear]
  rintro ⟨d, -, hbit⟩
  have hge := Nat.ge_two_pow_of_testBit hbit
  have hle : 2 ^ k ≤ 2 ^ (j + d) := Nat.pow_le_pow_right (by decide) (Nat.le_add_right_of_le hj)
  omega

theorem nearestUpperPowerOf2_succ {m : ℕ} (hm : m < 2 ^ 64) :
    nearestUpperPowerOf2 (m + 1) = (smear m + 1) % 2 ^ 64 := by
  have hwrap : (m + 1 + (2 ^ 64 - 1)) % 2 ^ 64 = m := by omega
  simp only [nearestUpperPowerOf2, hwrap, smear]

/-- Below the leading bit there are no 32 zeros in a row. -/
def NoGap (m : ℕ) : Prop := ∀ p, 2 ^ p ≤ m → ∃ d < 32, m.testBit (p + d) = true

theorem noGap_of_lt {m : ℕ} (hm : m < 2 ^ 32) : NoGap m := by
  intro p hp
  obtain ⟨i, hi, hbit⟩ := Nat.exists_ge_and_testBit_of_ge_two_pow hp
  have hlt : i < 32 := (Nat.pow_lt_pow_iff_right (by decide : 1 < 2)).mp
    ((Nat.ge_two_pow_of_testBit hbit).trans_lt hm)
  exact ⟨i - p, by omega, by rwa [Nat.add_sub_cancel' hi]⟩

/-- **Without a gap** the loop sets all bits below the leading one. -/
theorem smear_of_noGap {m : ℕ} (h : NoGap m) : smear m + 1 = 2 ^ Nat.clog 2 (m + 1) := by
  have hsmear : smear m = 2 ^ Nat.clog 2 (m + 1) - 1 := by
    refine Nat.eq_of_testBit_eq fun j => ?_
    rw [Bool.eq_iff_iff, Nat.testBit_two_pow_sub_one, decide_eq_true_eq, testBit_smear,
      Nat.lt_clog_iff_pow_lt (by decide), Nat.lt_succ_iff]
    constructor
    · rintro ⟨d, -, hbit⟩
      exact (Nat.pow_le_pow_right (by decide) (Nat.le_add_right j d)).trans
        (Nat.ge_two_pow_of_testBit hbit)
    · exact h j
  have hpos : 0 < (2 : ℕ) ^ Nat.clog 2 (m + 1) := Nat.two_pow_pos _
  omega

/-- **With a gap** it does not come to a power of two. -/
theorem noGap_of_smear {m j : ℕ} (h : smear m + 1 = 2 ^ j) : NoGap m := by
  have hones : ∀ i, (smear m).testBit i = true ↔ i < j := by
    intro i
    rw [show smear m = 2 ^ j - 1 by omega, Nat.testBit_two_pow_sub_one, decide_eq_true_eq]
  intro p hp
  obtain ⟨i, hi, hbit⟩ := Nat.exists_ge_and_testBit_of_ge_two_pow hp
  have hij : i < j := (hones i).mp ((testBit_smear m i).mpr ⟨0, by decide, hbit⟩)
  exact (testBit_smear m p).mp ((hones p).mpr (hi.trans_lt hij))

theorem nearestUpperPowerOf2_of_noGap {n : ℕ} (hpos : 1 ≤ n) (hle : n ≤ 2 ^ 63)
    (h : NoGap (n - 1)) : nearestUpperPowerOf2 n = 2 ^ Nat.clog 2 n := by
  obtain ⟨m, rfl⟩ := Nat.exists_eq_add_of_le' hpos
  rw [Nat.add_sub_cancel] at h
  have hpow : (2 : ℕ) ^ Nat.clog 2 (m + 1) ≤ 2 ^ 63 :=
    Nat.pow_le_pow_right (by decide) (Nat.clog_le_of_le_pow hle)
  rw [nearestUpperPowerOf2_succ (by omega), smear_of_noGap h, Nat.mod_eq_of_lt (by omega)]

theorem nearestUpperPowerOf2_eq {n : ℕ} (hpos : 1 ≤ n) (hle : n ≤ 2 ^ 32) :
    nearestUpperPowerOf2 n = 2 ^ Nat.clog 2 n :=
  nearestUpperPowerOf2_of_noGap hpos (hle.trans (by decide)) (noGap_of_lt (by omega))

/-- If the result is a power of two all the same, then it is the least one that is enough. -/
theorem nearestUpperPowerOf2_of_eq_pow {n j : ℕ} (hpos : 1 ≤ n) (hlt : n < 2 ^ 64)
    (hpow : nearestUpperPowerOf2 n = 2 ^ j) :
    NoGap (n - 1) ∧ nearestUpperPowerOf2 n = 2 ^ Nat.clog 2 n := by
  obtain ⟨m, rfl⟩ := Nat.exists_eq_add_of_le' hpos
  have hsmall : smear m < 2 ^ 64 := smear_lt (by omega)
  have hnearest := nearestUpperPowerOf2_succ (by omega : m < 2 ^ 64)
  -- the successor is not zero, so it did not wrap around
  have hsucc : smear m + 1 = 2 ^ j := by
    have hone := Nat.two_pow_pos j
    omega
  have hgap := noGap_of_smear hsucc
  exact ⟨hgap, by rw [hpow, ← hsucc, smear_of_noGap hgap]⟩

theorem isLeast_clog (n : ℕ) :
    IsLeast {p | (∃ j, p = 2 ^ j) ∧ n ≤ p} (2 ^ Nat.clog 2 n) := by
  refine ⟨⟨⟨_, rfl⟩, Nat.le_pow_clog (by decide) n⟩, ?_⟩
  rintro p ⟨⟨j, rfl⟩, hle⟩
  exact Nat.pow_le_pow_right (by decide) (Nat.clog_le_of_le_pow hle)

/-- **The least power of two** comes out as long as there is no gap of 32 zeros. -/
theorem nearestUpperPowerOf2_isLeast_iff {number : ℕ} (hpos : 1 ≤ number) (hle : number ≤ 2 ^ 63) :
    IsLeast {p | (∃ j, p = 2 ^ j) ∧ number ≤ p} (nearestUpperPowerOf2 number) ↔
      NoGap (number - 1) := by
  constructor
  · rintro ⟨⟨⟨j, hj⟩, -⟩, -⟩
    exact (nearestUpperPowerOf2_of_eq_pow hpos (by omega) hj).1
  · intro h
    rw [nearestUpperPowerOf2_of_noGap hpos hle h]
    exact isLeast_clog number

theorem nearestUpperPowerOf2_isLeast_iff_five :
    (1 ≤ 5 ∧ 5 ≤ 2 ^ 63) ∧ (IsLeast {p | (∃ j, p = 2 ^ j) ∧ 5 ≤ p} (nearestUpperPowerOf2 5) ↔
      NoGap (5 - 1)) :=
  ⟨by decide, nearestUpperPowerOf2_isLeast_iff (by decide) (by decide)⟩

/-- In `2 ^ 32` there is a gap: the loop leaves out the last bit. -/
theorem not_isLeast_nearestUpperPowerOf2 :
    (1 ≤ 2 ^ 32 + 1 ∧ 2 ^ 32 + 1 ≤ 2 ^ 63) ∧ nearestUpperPowerOf2 (2 ^ 32 + 1) = 2 ^ 33 - 1 ∧
      ¬ IsLeast {p | (∃ j, p = 2 ^ j) ∧ 2 ^ 32 + 1 ≤ p} (nearestUpperPowerOf2 (2 ^ 32 + 1)) := by
  have hvalue : nearestUpperPowerOf2 (2 ^ 32 + 1) = 2 ^ 33 - 1 := by decide
  refine ⟨by decide, hvalue, ?_⟩
  rintro ⟨⟨⟨j, hj⟩, -⟩, -⟩
  rw [hvalue] at hj
  have hodd : j = 0 ∨ ∃ i, j = i + 1 := by cases j <;> simp
  rcases hodd with rfl | ⟨i, rfl⟩
  · exact absurd hj (by decide)
  · rw [pow_succ] at hj
    omega

/-! ## The index of a node -/

/-- The array index of the block of order `k` and index `i`. -/
def nodeIndex (height k i : ℕ) : ℕ := 2 ^ (height - k) + i - 1

/-- The blocks of the tree. -/
def InTree (height k i : ℕ) : Prop := k ≤ height ∧ i < 2 ^ (height - k)

theorem two_pow_height_sub {height k : ℕ} (hk : k < height) :
    2 ^ (height - k) = 2 * 2 ^ (height - (k + 1)) := by
  rw [← pow_succ']
  congr 1
  omega

theorem InTree.up {height k i : ℕ} (htree : InTree height k i) (hk : k < height) :
    InTree height (k + 1) (i / 2) := by
  have hi := htree.2
  rw [two_pow_height_sub hk] at hi
  exact ⟨hk, by omega⟩

theorem InTree.half {height k i j : ℕ} (htree : InTree height (k + 1) i) (hj : j / 2 = i) :
    InTree height k j := by
  have hi := htree.2
  have hpow : 2 ^ (height - k) = 2 * 2 ^ (height - (k + 1)) := two_pow_height_sub htree.1
  exact ⟨Nat.le_of_succ_le htree.1, by omega⟩

theorem InTree.within_root {height k i : ℕ} (htree : InTree height k i) :
    (⟨k, i⟩ : Block).Within ⟨height, 0⟩ := by
  obtain ⟨d, rfl⟩ := Nat.exists_eq_add_of_le htree.1
  have hi := htree.2
  rw [Nat.add_sub_cancel_left] at hi
  refine ⟨by simp [Block.start], ?_⟩
  rw [Block.stop_eq, Block.stop_eq, Block.size, Block.size, zero_add, one_mul, pow_add, mul_comm]
  exact Nat.mul_le_mul_left _ hi

theorem inTree_of_within_root {height k i : ℕ}
    (hwithin : (⟨k, i⟩ : Block).Within ⟨height, 0⟩) : InTree height k i := by
  obtain ⟨d, rfl⟩ := Nat.exists_eq_add_of_le hwithin.order_le
  have hstop := hwithin.2
  rw [Block.stop_eq, Block.stop_eq, Block.size, Block.size, zero_add, one_mul, pow_add,
    mul_comm] at hstop
  refine ⟨Nat.le_add_right k d, ?_⟩
  rw [Nat.add_sub_cancel_left]
  exact Nat.lt_of_succ_le (Nat.le_of_mul_le_mul_left hstop (Nat.two_pow_pos k))

theorem InTree.stop_le {height k i : ℕ} (htree : InTree height k i) :
    (⟨k, i⟩ : Block).stop ≤ 2 ^ height := by
  have hstop := htree.within_root.2
  rwa [Block.stop_eq ⟨height, 0⟩, Block.size, zero_add, one_mul] at hstop

theorem nodeIndex_root (height : ℕ) : nodeIndex height height 0 = 0 := by
  simp [nodeIndex]

theorem nodeIndex_leaf (height i : ℕ) : nodeIndex height 0 i = i + 2 ^ height - 1 := by
  simp [nodeIndex, Nat.add_comm]

theorem leaf_start (offset : ℕ) : (⟨0, offset⟩ : Block).start = offset := Nat.mul_one offset

theorem leaf_stop (offset : ℕ) : (⟨0, offset⟩ : Block).stop = offset + 1 := by
  rw [Block.stop, leaf_start]
  rfl

theorem leaf_within {b : Block} {offset : ℕ} (hstart : b.start ≤ offset) (hstop : offset < b.stop) :
    (⟨0, offset⟩ : Block).Within b :=
  ⟨(leaf_start offset).symm ▸ hstart, (leaf_stop offset).symm ▸ hstop⟩

theorem nodeIndex_add_one (height k i : ℕ) : nodeIndex height k i + 1 = 2 ^ (height - k) + i := by
  have hpos := Nat.two_pow_pos (height - k)
  unfold nodeIndex
  omega

theorem parent_nodeIndex {height k i : ℕ} (hk : k < height) :
    parent (nodeIndex height k i) = nodeIndex height (k + 1) (i / 2) := by
  have hpow := two_pow_height_sub hk
  rw [parent, nodeIndex_add_one, nodeIndex, hpow]
  omega

theorem leftChild_nodeIndex {height k i : ℕ} (hk : k < height) :
    leftChild (nodeIndex height (k + 1) i) = nodeIndex height k (2 * i) := by
  have hpow := two_pow_height_sub hk
  rw [leftChild, nodeIndex_add_one, nodeIndex, hpow]
  omega

theorem rightChild_nodeIndex {height k i : ℕ} (hk : k < height) :
    rightChild (nodeIndex height (k + 1) i) = nodeIndex height k (2 * i + 1) := by
  have hpow := two_pow_height_sub hk
  rw [rightChild, nodeIndex_add_one, nodeIndex, hpow]
  omega

theorem nodeIndex_ne_zero {height k i : ℕ} (hk : k < height) : nodeIndex height k i ≠ 0 := by
  have hpow := two_pow_height_sub hk
  have hpos := Nat.two_pow_pos (height - (k + 1))
  unfold nodeIndex
  omega

theorem log_nodeIndex {height k i : ℕ} (htree : InTree height k i) :
    Nat.log 2 (nodeIndex height k i + 1) = height - k := by
  rw [nodeIndex_add_one]
  refine Nat.log_eq_of_pow_le_of_lt_pow (Nat.le_add_right _ _) ?_
  rw [pow_succ]
  have := htree.2
  omega

theorem nodeIndex_inj {height k i k' i' : ℕ} (htree : InTree height k i)
    (htree' : InTree height k' i') (heq : nodeIndex height k i = nodeIndex height k' i') :
    k = k' ∧ i = i' := by
  have hlog := log_nodeIndex htree
  rw [heq, log_nodeIndex htree'] at hlog
  have hk : k = k' := by
    have := htree.1
    have := htree'.1
    omega
  subst hk
  have hi := nodeIndex_add_one height k i
  rw [heq, nodeIndex_add_one] at hi
  exact ⟨rfl, by omega⟩

theorem nodeIndex_lt {height k i : ℕ} (htree : InTree height k i) :
    nodeIndex height k i < 2 ^ (height + 1) - 1 := by
  have hi := htree.2
  have hle : 2 ^ (height - k) ≤ 2 ^ height := Nat.pow_le_pow_right (by decide) (Nat.sub_le _ _)
  rw [pow_succ]
  unfold nodeIndex
  omega

theorem exists_nodeIndex_eq {height j : ℕ} (hj : j < 2 ^ (height + 1) - 1) :
    ∃ k i, InTree height k i ∧ nodeIndex height k i = j := by
  have hlog : Nat.log 2 (j + 1) < height + 1 :=
    Nat.log_lt_of_lt_pow (Nat.succ_ne_zero j) (by omega)
  have hlo : 2 ^ Nat.log 2 (j + 1) ≤ j + 1 := Nat.pow_log_le_self 2 (Nat.succ_ne_zero j)
  have hhi : j + 1 < 2 ^ (Nat.log 2 (j + 1) + 1) := Nat.lt_pow_succ_log_self (by decide) _
  refine ⟨height - Nat.log 2 (j + 1), j + 1 - 2 ^ Nat.log 2 (j + 1), ⟨Nat.sub_le _ _, ?_⟩, ?_⟩
  · rw [pow_succ] at hhi
    rw [Nat.sub_sub_self (by omega)]
    omega
  · rw [nodeIndex, Nat.sub_sub_self (by omega)]
    omega

/-! ## The array of a set of taken blocks -/

/-- The array holds the capacity of every block of the tree. -/
structure Represents (height : ℕ) (taken : List Block) (slots : List ℕ) : Prop where
  length_eq : slots.length = 2 ^ (height + 1) - 1
  getElem?_eq : ∀ k i, InTree height k i →
    slots[nodeIndex height k i]? = some (capacity taken k i)

theorem Represents.unique {height : ℕ} {taken : List Block} {slots slots' : List ℕ}
    (hslots : Represents height taken slots) (hslots' : Represents height taken slots') :
    slots = slots' := by
  refine List.ext_getElem? fun j => ?_
  rcases Nat.lt_or_ge j (2 ^ (height + 1) - 1) with hlt | hge
  · obtain ⟨k, i, htree, rfl⟩ := exists_nodeIndex_eq hlt
    rw [hslots.getElem?_eq k i htree, hslots'.getElem?_eq k i htree]
  · rw [List.getElem?_eq_none (hslots.length_eq ▸ hge),
      List.getElem?_eq_none (hslots'.length_eq ▸ hge)]

end Eureka.Buddy

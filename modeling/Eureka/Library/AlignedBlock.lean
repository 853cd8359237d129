import Mathlib

/-!
# Aligned blocks of powers of two

A block is an interval of natural numbers whose length is a power of two and
whose start is a multiple of its length.  Two blocks are disjoint or one lies in
the other (`Block.within_or_disjoint`), so a set of disjoint blocks can be
searched by halving.

* `capacity taken k i`: the length of the largest free block within the block of
  order `k` and index `i`, computed by halving; a taken block counts as empty;
* `capacity_isLargestFree`: that is what it computes, unless the block lies in a
  larger taken one;
* `capacity_eq_full_iff`, `capacity_congr`: it depends only on the taken blocks
  within the block.
-/

namespace Eureka.AlignedBlock

/-- The block of length `2 ^ order` that starts at `index * 2 ^ order`. -/
structure Block where
  order : ℕ
  index : ℕ
deriving DecidableEq, Repr

namespace Block

def size (b : Block) : ℕ := 2 ^ b.order

def start (b : Block) : ℕ := b.index * b.size

def stop (b : Block) : ℕ := b.start + b.size

/-- The block lies in the other one. -/
def Within (b c : Block) : Prop := c.start ≤ b.start ∧ b.stop ≤ c.stop

/-- The blocks have no element in common. -/
def Disjoint (b c : Block) : Prop := b.stop ≤ c.start ∨ c.stop ≤ b.start

instance (b c : Block) : Decidable (b.Disjoint c) :=
  inferInstanceAs (Decidable (b.stop ≤ c.start ∨ c.stop ≤ b.start))

theorem size_pos (b : Block) : 0 < b.size := Nat.two_pow_pos _

theorem stop_eq (b : Block) : b.stop = (b.index + 1) * b.size := by
  rw [stop, start, Nat.succ_mul]

theorem start_lt_stop (b : Block) : b.start < b.stop :=
  Nat.lt_add_of_pos_right b.size_pos

theorem Within.refl (b : Block) : b.Within b := ⟨le_rfl, le_rfl⟩

theorem Within.trans {b c d : Block} (hbc : b.Within c) (hcd : c.Within d) : b.Within d :=
  ⟨hcd.1.trans hbc.1, hbc.2.trans hcd.2⟩

theorem Disjoint.symm {b c : Block} (hdisjoint : b.Disjoint c) : c.Disjoint b :=
  Or.symm hdisjoint

instance : Std.Symm Disjoint := ⟨fun _ _ hdisjoint => hdisjoint.symm⟩

theorem Disjoint.of_within {b c d : Block} (hdisjoint : c.Disjoint d) (hbc : b.Within c) :
    b.Disjoint d :=
  hdisjoint.imp (fun hle => hbc.2.trans hle) fun hle => hle.trans hbc.1

theorem not_disjoint_of_within {b c : Block} (hbc : b.Within c) : ¬ b.Disjoint c := by
  have hb := b.start_lt_stop
  rintro (hle | hle)
  · exact absurd (hle.trans hbc.1) (not_le.mpr hb)
  · exact absurd (hbc.2.trans hle) (not_le.mpr hb)

theorem Within.size_le {b c : Block} (hbc : b.Within c) : b.size ≤ c.size := by
  have hstart := hbc.1
  have hstop := hbc.2
  unfold stop at hstop
  omega

theorem Within.order_le {b c : Block} (hbc : b.Within c) : b.order ≤ c.order :=
  (Nat.pow_le_pow_iff_right (by decide)).mp hbc.size_le

/-- **Two blocks are nested or disjoint.** -/
theorem within_or_disjoint {b c : Block} (horder : b.order ≤ c.order) :
    b.Within c ∨ b.Disjoint c := by
  obtain ⟨d, hd⟩ := Nat.exists_eq_add_of_le horder
  have hsize : c.size = 2 ^ d * b.size := by
    rw [size, size, hd, pow_add, mul_comm]
  have hstart : c.start = c.index * 2 ^ d * b.size := by rw [start, hsize, mul_assoc]
  have hstop : c.stop = (c.index + 1) * 2 ^ d * b.size := by rw [stop_eq, hsize, mul_assoc]
  rw [Within, Disjoint, hstart, hstop, stop_eq, start]
  rcases lt_or_ge b.index (c.index * 2 ^ d) with hlt | hge
  · exact .inr (.inl (Nat.mul_le_mul_right _ hlt))
  · rcases lt_or_ge b.index ((c.index + 1) * 2 ^ d) with hlt | hge'
    · exact .inl ⟨Nat.mul_le_mul_right _ hge, Nat.mul_le_mul_right _ hlt⟩
    · exact .inr (.inr (Nat.mul_le_mul_right _ hge'))

theorem eq_of_within_of_order_eq {b c : Block} (hbc : b.Within c) (horder : b.order = c.order) :
    b = c := by
  have hsize : b.size = c.size := by rw [size, size, horder]
  have hstart : b.start = c.start := by
    have hle := hbc.1
    have hstop := hbc.2
    unfold stop at hstop
    omega
  have hindex : b.index = c.index := by
    rw [start, start, hsize] at hstart
    exact Nat.eq_of_mul_eq_mul_right c.size_pos hstart
  cases b
  cases c
  simp_all

theorem not_disjoint_self (b : Block) : ¬ b.Disjoint b :=
  not_disjoint_of_within (.refl b)

/-- Of two blocks that meet, the one of the smaller order lies in the other. -/
theorem within_of_not_disjoint {b c : Block} (horder : b.order ≤ c.order)
    (hmeet : ¬ b.Disjoint c) : b.Within c :=
  (within_or_disjoint horder).resolve_right hmeet

/-! ## Halves and the doubled block -/

section Halves

variable (k i : ℕ)

theorem left_within : (⟨k, 2 * i⟩ : Block).Within ⟨k + 1, i⟩ := by
  simp only [Within, start, stop, size, pow_succ]
  constructor <;> nlinarith [Nat.two_pow_pos k]

theorem right_within : (⟨k, 2 * i + 1⟩ : Block).Within ⟨k + 1, i⟩ := by
  simp only [Within, start, stop, size, pow_succ]
  constructor <;> nlinarith [Nat.two_pow_pos k]

theorem within_double : (⟨k, i⟩ : Block).Within ⟨k + 1, i / 2⟩ := by
  rcases Nat.even_or_odd' i with ⟨j, rfl | rfl⟩
  · simpa using left_within k j
  · rw [show (2 * j + 1) / 2 = j by omega]
    exact right_within k j

end Halves

/-- A block within another one is that one or lies in one of its halves. -/
theorem within_cases {b : Block} {k i : ℕ} (hb : b.Within ⟨k + 1, i⟩) :
    b = ⟨k + 1, i⟩ ∨ b.Within ⟨k, 2 * i⟩ ∨ b.Within ⟨k, 2 * i + 1⟩ := by
  rcases (Nat.le_succ_iff.mp hb.order_le) with hle | heq
  · refine .inr ?_
    have hhalf : (⟨k, 2 * i⟩ : Block).stop = (⟨k, 2 * i + 1⟩ : Block).start := by
      simp only [start, stop, size]
      ring
    have hlo : (⟨k + 1, i⟩ : Block).start = (⟨k, 2 * i⟩ : Block).start := by
      simp only [start, size, pow_succ]
      ring
    have hhi : (⟨k + 1, i⟩ : Block).stop = (⟨k, 2 * i + 1⟩ : Block).stop := by
      simp only [start, stop, size, pow_succ]
      ring
    rcases within_or_disjoint (c := ⟨k, 2 * i⟩) hle with hleft | hleft | hleft
    · exact .inl hleft
    · exact absurd (hleft.trans (hlo ▸ hb.1)) (not_le.mpr b.start_lt_stop)
    · exact .inr ⟨hhalf ▸ hleft, hhi ▸ hb.2⟩
  · exact .inl (eq_of_within_of_order_eq hb heq)

theorem within_of_half_within {b : Block} {k i : ℕ} (hb : (⟨k, i⟩ : Block).Within b) :
    b = ⟨k, i⟩ ∨ (⟨k + 1, i / 2⟩ : Block).Within b := by
  rcases Nat.lt_or_ge k b.order with hlt | hge
  · refine .inr (within_of_not_disjoint hlt fun hdisjoint => ?_)
    exact not_disjoint_of_within hb (hdisjoint.of_within (within_double k i))
  · exact .inl (eq_of_within_of_order_eq hb (le_antisymm hb.order_le hge)).symm

end Block

/-! ## The largest free block -/

/-- The length of the largest free block within the block of order `k` and
index `i`; a taken block counts as empty. -/
def capacity (taken : List Block) : ℕ → ℕ → ℕ
  | 0, i => if ⟨0, i⟩ ∈ taken then 0 else 1
  | k + 1, i =>
      if ⟨k + 1, i⟩ ∈ taken then 0
      else
        let left := capacity taken k (2 * i)
        let right := capacity taken k (2 * i + 1)
        if left + right = 2 ^ (k + 1) then 2 ^ (k + 1) else max left right

attribute [local simp] capacity

/-- The block meets no taken block. -/
def Free (taken : List Block) (b : Block) : Prop := ∀ c ∈ taken, b.Disjoint c

/-- The length of the largest free block within `c`, and 0 if there is none. -/
def IsLargestFree (taken : List Block) (c : Block) (length : ℕ) : Prop :=
  (∀ b, b.Within c → Free taken b → b.size ≤ length) ∧
    (length = 0 ∨ ∃ b, b.Within c ∧ Free taken b ∧ b.size = length)

variable {taken : List Block}

theorem capacity_le (taken : List Block) (k i : ℕ) : capacity taken k i ≤ 2 ^ k := by
  induction k generalizing i with
  | zero =>
      unfold capacity
      split_ifs <;> simp
  | succ k ih =>
      have hleft := ih (2 * i)
      have hright := ih (2 * i + 1)
      simp only [capacity]
      split_ifs
      · exact Nat.zero_le _
      · exact le_rfl
      · rw [pow_succ]
        omega

theorem capacity_of_mem {b : Block} (hb : b ∈ taken) : capacity taken b.order b.index = 0 := by
  rcases b with ⟨_ | k, i⟩ <;> simp [capacity, hb]

theorem capacity_succ {k i : ℕ} (hfree : ⟨k + 1, i⟩ ∉ taken) :
    capacity taken (k + 1) i =
      if capacity taken k (2 * i) + capacity taken k (2 * i + 1) = 2 ^ (k + 1) then 2 ^ (k + 1)
      else max (capacity taken k (2 * i)) (capacity taken k (2 * i + 1)) := by
  simp only [capacity, hfree, if_false]

/-- A block is full exactly if nothing within it is taken. -/
theorem capacity_eq_full_iff {k i : ℕ} :
    capacity taken k i = 2 ^ k ↔ ∀ b ∈ taken, ¬ b.Within ⟨k, i⟩ := by
  induction k generalizing i with
  | zero =>
      constructor
      · intro hfull b hb hwithin
        have heq := Block.eq_of_within_of_order_eq hwithin (Nat.le_zero.mp hwithin.order_le)
        subst heq
        simp [capacity, hb] at hfull
      · intro hnone
        have hfree : ⟨0, i⟩ ∉ taken := fun hb => hnone _ hb (.refl _)
        simp [capacity, hfree]
  | succ k ih =>
      have hleft := capacity_le taken k (2 * i)
      have hright := capacity_le taken k (2 * i + 1)
      have hpow : (2 : ℕ) ^ (k + 1) = 2 ^ k + 2 ^ k := by rw [pow_succ]; omega
      have hpos : 0 < (2 : ℕ) ^ k := Nat.two_pow_pos k
      constructor
      · intro hfull b hb hwithin
        by_cases hmem : ⟨k + 1, i⟩ ∈ taken
        · rw [capacity_of_mem hmem] at hfull
          omega
        · rw [capacity_succ hmem] at hfull
          have hsum : capacity taken k (2 * i) = 2 ^ k ∧ capacity taken k (2 * i + 1) = 2 ^ k := by
            split_ifs at hfull <;> omega
          rcases Block.within_cases hwithin with rfl | hwithin | hwithin
          · exact hmem hb
          · exact ih.mp hsum.1 b hb hwithin
          · exact ih.mp hsum.2 b hb hwithin
      · intro hnone
        have hmem : ⟨k + 1, i⟩ ∉ taken := fun hb => hnone _ hb (.refl _)
        have hl := ih.mpr fun b hb hwithin => hnone b hb (hwithin.trans (Block.left_within k i))
        have hr := ih.mpr fun b hb hwithin => hnone b hb (hwithin.trans (Block.right_within k i))
        rw [capacity_succ hmem, hl, hr, if_pos hpow.symm]

/-- The capacity depends only on the taken blocks within the block. -/
theorem capacity_congr {taken' : List Block} {k i : ℕ}
    (hsame : ∀ b : Block, b.Within ⟨k, i⟩ → (b ∈ taken ↔ b ∈ taken')) :
    capacity taken k i = capacity taken' k i := by
  induction k generalizing i with
  | zero => simp only [capacity, hsame _ (.refl _)]
  | succ k ih =>
      rw [capacity, capacity, ih fun b hb => hsame b (hb.trans (Block.left_within k i)),
        ih fun b hb => hsame b (hb.trans (Block.right_within k i))]
      simp only [hsame _ (.refl _)]

theorem free_of_unblocked {k i : ℕ} (hinner : ∀ b ∈ taken, ¬ b.Within ⟨k, i⟩)
    (houter : ∀ b ∈ taken, ¬ (⟨k, i⟩ : Block).Within b) : Free taken ⟨k, i⟩ := by
  intro b hb
  by_contra hmeet
  rcases Nat.le_total k b.order with hle | hle
  · exact houter b hb (Block.within_of_not_disjoint hle hmeet)
  · exact hinner b hb (Block.within_of_not_disjoint hle fun hdisjoint => hmeet hdisjoint.symm)

theorem isLargestFree_of_mem {c : Block} (hc : c ∈ taken) : IsLargestFree taken c 0 :=
  ⟨fun _ hb hfree => absurd (hfree c hc) (Block.not_disjoint_of_within hb), .inl rfl⟩

theorem isLargestFree_of_free {c : Block} (hfree : Free taken c) : IsLargestFree taken c c.size :=
  ⟨fun _ hb _ => hb.size_le, .inr ⟨c, .refl c, hfree, rfl⟩⟩

/-- **The capacity is the length of the largest free block**, unless the block
lies in a larger taken one. -/
theorem capacity_isLargestFree {k i : ℕ}
    (houter : ∀ b ∈ taken, (⟨k, i⟩ : Block).Within b → b = ⟨k, i⟩) :
    IsLargestFree taken ⟨k, i⟩ (capacity taken k i) := by
  by_cases hmem : ⟨k, i⟩ ∈ taken
  · rw [capacity_of_mem hmem]
    exact isLargestFree_of_mem hmem
  have hunblocked : ∀ b ∈ taken, ¬ (⟨k, i⟩ : Block).Within b := fun b hb hwithin =>
    hmem (houter b hb hwithin ▸ hb)
  by_cases hfull : capacity taken k i = 2 ^ k
  · rw [hfull]
    exact isLargestFree_of_free (free_of_unblocked (capacity_eq_full_iff.mp hfull) hunblocked)
  cases k with
  | zero => simp [capacity, hmem] at hfull
  | succ k =>
      have hhalf : ∀ j, j / 2 = i → IsLargestFree taken ⟨k, j⟩ (capacity taken k j) := by
        rintro j rfl
        refine capacity_isLargestFree fun b hb hwithin => ?_
        exact (Block.within_of_half_within hwithin).resolve_right (hunblocked b hb)
      have hleft := hhalf (2 * i) (by omega)
      have hright := hhalf (2 * i + 1) (by omega)
      have hmax : capacity taken (k + 1) i =
          max (capacity taken k (2 * i)) (capacity taken k (2 * i + 1)) := by
        rw [capacity_succ hmem] at hfull ⊢
        split_ifs at hfull ⊢ with hsum
        · exact absurd rfl hfull
        · rfl
      rw [hmax]
      refine ⟨fun b hb hfree => ?_, ?_⟩
      · rcases Block.within_cases hb with rfl | hb | hb
        · refine absurd (capacity_eq_full_iff.mpr fun c hc hwithin => ?_) hfull
          exact Block.not_disjoint_of_within hwithin (hfree c hc).symm
        · exact le_max_of_le_left (hleft.1 b hb hfree)
        · exact le_max_of_le_right (hright.1 b hb hfree)
      · rcases max_choice (capacity taken k (2 * i)) (capacity taken k (2 * i + 1)) with heq | heq
        · rw [heq]
          refine hleft.2.imp_right ?_
          rintro ⟨b, hb, hfree, hsize⟩
          exact ⟨b, hb.trans (Block.left_within k i), hfree, hsize⟩
        · rw [heq]
          refine hright.2.imp_right ?_
          rintro ⟨b, hb, hfree, hsize⟩
          exact ⟨b, hb.trans (Block.right_within k i), hfree, hsize⟩
termination_by k

theorem capacity_pos_of_free {b : Block} (hfree : Free taken b) {k i : ℕ}
    (hwithin : b.Within ⟨k, i⟩) : 0 < capacity taken k i := by
  have hlargest := capacity_isLargestFree fun c hc hcwithin =>
    absurd (hfree c hc) (Block.not_disjoint_of_within (hwithin.trans hcwithin))
  exact b.size_pos.trans_le (hlargest.1 b hwithin hfree)

end Eureka.AlignedBlock

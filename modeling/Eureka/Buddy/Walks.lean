import Eureka.Buddy.Layout

/-!
# The walks through the tree

What the loops of `Allocate` and `Free` do to an array that represents a set of
taken blocks: the way down ends at a free block (`descend_spec`), the way up to
the first node without slots ends at the taken block (`findBin_spec`), and the
way back to the root restores the array (`updateAncestors_spec`).
-/

namespace Eureka.Buddy

open AlignedBlock

variable {height : ℕ} {taken : List Block} {slots : List ℕ}

/-! ## Down to a free block -/

theorem descend_self (slots : List ℕ) (slotsNeeded index : ℕ) :
    BinManager.descend slots slotsNeeded index slotsNeeded = some index := by
  rw [BinManager.descend, if_pos rfl]

/-- One round of the way down goes to a half in which enough slots are left. -/
theorem descend_step (hslots : Represents height taken slots) {k i j : ℕ}
    (htree : InTree height (k + 1) i) (hj : j ≤ k) (hroom : 2 ^ j ≤ capacity taken (k + 1) i) :
    ∃ i', i' / 2 = i ∧ 2 ^ j ≤ capacity taken k i' ∧
      BinManager.descend slots (2 ^ j) (nodeIndex height (k + 1) i) (2 ^ (k + 1)) =
        BinManager.descend slots (2 ^ j) (nodeIndex height k i') (2 ^ k) := by
  have hne : (2 : ℕ) ^ (k + 1) ≠ 2 ^ j := by
    intro heq
    have := Nat.pow_right_injective (le_refl 2) heq
    omega
  have hpos : (2 : ℕ) ^ (k + 1) ≠ 0 := (Nat.two_pow_pos _).ne'
  have hhalf : (2 : ℕ) ^ (k + 1) / 2 = 2 ^ k := by rw [pow_succ]; omega
  have hleft := hslots.getElem?_eq k (2 * i) (htree.half (by omega))
  have hmem : ⟨k + 1, i⟩ ∉ taken := by
    intro hmem
    rw [capacity_of_mem hmem] at hroom
    exact absurd hroom (not_le.mpr (Nat.two_pow_pos j))
  have hunfold : BinManager.descend slots (2 ^ j) (nodeIndex height (k + 1) i) (2 ^ (k + 1)) =
      if capacity taken k (2 * i) ≥ 2 ^ j then
        BinManager.descend slots (2 ^ j) (nodeIndex height k (2 * i)) (2 ^ k)
      else
        BinManager.descend slots (2 ^ j) (nodeIndex height k (2 * i + 1)) (2 ^ k) := by
    rw [BinManager.descend, if_neg hne, if_neg hpos, leftChild_nodeIndex htree.1,
      rightChild_nodeIndex htree.1, hleft, hhalf]
  rw [hunfold]
  split_ifs with hge
  · exact ⟨2 * i, by omega, hge, rfl⟩
  · refine ⟨2 * i + 1, by omega, ?_, rfl⟩
    have hle := capacity_le taken k (2 * i + 1)
    have hpow : (2 : ℕ) ^ j ≤ 2 ^ k := Nat.pow_le_pow_right (by decide) hj
    rw [capacity_succ hmem, pow_succ] at hroom
    split_ifs at hroom <;> omega

theorem unblocked_of_pos {k i : ℕ} (hpos : 0 < capacity taken k i)
    (houter : ∀ b ∈ taken, (⟨k, i⟩ : Block).Within b → b = ⟨k, i⟩) :
    ∀ b ∈ taken, ¬ (⟨k, i⟩ : Block).Within b := by
  intro b hb hwithin
  obtain rfl := houter b hb hwithin
  exact hpos.ne' (capacity_of_mem hb)

/-- From a block with enough room that lies in no taken block, the way down ends
at a free block. -/
theorem descend_spec (hslots : Represents height taken slots) {k i j : ℕ}
    (htree : InTree height k i) (hj : j ≤ k) (hroom : 2 ^ j ≤ capacity taken k i)
    (houter : ∀ b ∈ taken, (⟨k, i⟩ : Block).Within b → b = ⟨k, i⟩) :
    ∃ i', InTree height j i' ∧ Free taken ⟨j, i'⟩ ∧
      BinManager.descend slots (2 ^ j) (nodeIndex height k i) (2 ^ k) =
        some (nodeIndex height j i') := by
  have hunblocked := unblocked_of_pos ((Nat.two_pow_pos j).trans_le hroom) houter
  obtain ⟨d, rfl⟩ := Nat.exists_eq_add_of_le hj
  induction d generalizing i with
  | zero =>
      have hfull : capacity taken j i = 2 ^ j := le_antisymm (capacity_le _ _ _) hroom
      exact ⟨i, htree, free_of_unblocked (capacity_eq_full_iff.mp hfull) hunblocked,
        descend_self _ _ _⟩
  | succ d ih =>
      obtain ⟨i', rfl, hroom', hdescend⟩ := descend_step hslots htree (Nat.le_add_right j d) hroom
      have houter' : ∀ b ∈ taken, (⟨j + d, i'⟩ : Block).Within b → b = ⟨j + d, i'⟩ :=
        fun b hb hwithin =>
          (Block.within_of_half_within hwithin).resolve_right (hunblocked b hb)
      have hunblocked' := unblocked_of_pos ((Nat.two_pow_pos j).trans_le hroom') houter'
      obtain ⟨i'', htree'', hfree, hdescend'⟩ := ih (htree.half rfl) (Nat.le_add_right j d) hroom'
        houter' hunblocked'
      exact ⟨i'', htree'', hfree, hdescend.trans hdescend'⟩

/-! ## Up to the taken block -/

theorem findBin_of_zero {index : ℕ} (nodeSlotCount : ℕ) (hslot : slots[index]? = some 0) :
    BinManager.findBin slots index nodeSlotCount = some (some (index, nodeSlotCount)) := by
  rw [BinManager.findBin, hslot]
  rfl

theorem findBin_of_pos {index value : ℕ} (nodeSlotCount : ℕ) (hslot : slots[index]? = some value)
    (hvalue : value ≠ 0) (hindex : index ≠ 0) :
    BinManager.findBin slots index nodeSlotCount =
      BinManager.findBin slots (parent index) (nodeSlotCount * 2) := by
  obtain ⟨value, rfl⟩ := Nat.exists_eq_succ_of_ne_zero hvalue
  rw [BinManager.findBin, hslot]
  exact if_neg hindex

/-- The way up from a node of a taken block ends at that block. -/
theorem findBin_spec (hslots : Represents height taken slots) {b : Block}
    (htree : InTree height b.order b.index) (hb : b ∈ taken)
    (hinner : ∀ c ∈ taken, c.Within b → c = b) {k i : ℕ} (hwithin : (⟨k, i⟩ : Block).Within b) :
    BinManager.findBin slots (nodeIndex height k i) (2 ^ k) =
      some (some (nodeIndex height b.order b.index, 2 ^ b.order)) := by
  obtain ⟨d, hd⟩ := Nat.exists_eq_add_of_le hwithin.order_le
  dsimp only at hd
  induction d generalizing k i with
  | zero =>
      obtain rfl := Block.eq_of_within_of_order_eq hwithin hd.symm
      exact findBin_of_zero _ ((hslots.getElem?_eq _ _ htree).trans
        (congrArg some (capacity_of_mem hb)))
  | succ d ih =>
      have hk : k < b.order := by omega
      have hne : b ≠ ⟨k, i⟩ := by
        rintro rfl
        exact lt_irrefl _ hk
      have htree' : InTree height k i := inTree_of_within_root (hwithin.trans htree.within_root)
      -- nothing within the block is taken, so its nodes are as they were before
      have hfull : capacity taken k i = 2 ^ k := by
        refine capacity_eq_full_iff.mpr fun c hc hcwithin => ?_
        have hle := hcwithin.order_le
        rw [hinner c hc (hcwithin.trans hwithin)] at hle
        exact absurd hle (not_le.mpr hk)
      have hlt : k < height := hk.trans_le htree.1
      rw [findBin_of_pos _ ((hslots.getElem?_eq _ _ htree').trans (congrArg some hfull))
        (Nat.two_pow_pos k).ne' (nodeIndex_ne_zero hlt), parent_nodeIndex hlt, ← pow_succ]
      exact ih ((Block.within_of_half_within hwithin).resolve_left hne) (by omega)

/-- The way up from a node above a free block meets no node without slots. -/
theorem findBin_of_free (hslots : Represents height taken slots) {b : Block} (hfree : Free taken b)
    {k i : ℕ} (htree : InTree height k i) (hwithin : b.Within ⟨k, i⟩) (nodeSlotCount : ℕ) :
    BinManager.findBin slots (nodeIndex height k i) nodeSlotCount = some none := by
  obtain ⟨d, hd⟩ := Nat.exists_eq_add_of_le htree.1
  induction d generalizing k i nodeSlotCount with
  | zero =>
      obtain rfl : k = height := hd.symm
      obtain rfl : i = 0 := by simpa using htree.2
      obtain ⟨value, hvalue⟩ :=
        Nat.exists_eq_succ_of_ne_zero (capacity_pos_of_free hfree hwithin).ne'
      rw [BinManager.findBin, hslots.getElem?_eq k 0 htree, hvalue]
      exact if_pos (nodeIndex_root k)
  | succ d ih =>
      have hlt : k < height := by omega
      rw [findBin_of_pos _ (hslots.getElem?_eq k i htree) (capacity_pos_of_free hfree hwithin).ne'
        (nodeIndex_ne_zero hlt), parent_nodeIndex hlt]
      exact ih (htree.up hlt) (hwithin.trans (Block.within_double k i)) _ (by omega)

/-! ## Back to the root -/

/-- The block lies strictly above the block of order `k` and index `i`. -/
def Above (k i k' i' : ℕ) : Prop := k < k' ∧ i / 2 ^ (k' - k) = i'

theorem Above.of_up {k i k' i' : ℕ} (habove : Above k i k' i') :
    (k' = k + 1 ∧ i' = i / 2) ∨ Above (k + 1) (i / 2) k' i' := by
  obtain ⟨hlt, rfl⟩ := habove
  rcases Nat.eq_or_lt_of_le (Nat.succ_le_of_lt hlt) with rfl | hlt'
  · exact .inl ⟨rfl, by simp⟩
  · refine .inr ⟨hlt', ?_⟩
    rw [Nat.div_div_eq_div_mul, ← pow_succ', show k' - (k + 1) + 1 = k' - k by omega]

theorem Above.up {k i k' i' : ℕ} (habove : Above (k + 1) (i / 2) k' i') : Above k i k' i' := by
  obtain ⟨hlt, rfl⟩ := habove
  refine ⟨by omega, ?_⟩
  rw [Nat.div_div_eq_div_mul, ← pow_succ', show k' - (k + 1) + 1 = k' - k by omega]

theorem Above.self_up (k i : ℕ) : Above k i (k + 1) (i / 2) :=
  ⟨Nat.lt_succ_self k, by simp⟩

theorem Above.within {k i k' i' : ℕ} (habove : Above k i k' i') :
    (⟨k, i⟩ : Block).Within ⟨k', i'⟩ := by
  obtain ⟨hlt, rfl⟩ := habove
  obtain ⟨d, rfl⟩ := Nat.exists_eq_add_of_lt hlt
  clear hlt
  induction d generalizing k i with
  | zero => simpa using Block.within_double k i
  | succ d ih =>
      have h := @ih (k + 1) (i / 2)
      rw [Nat.div_div_eq_div_mul, ← pow_succ'] at h
      rw [show k + (d + 1) + 1 = k + 1 + d + 1 by omega]
      rw [show k + 1 + d + 1 - (k + 1) + 1 = k + 1 + d + 1 - k by omega] at h
      exact (Block.within_double k i).trans h

/-- If the array is right except above a block, and the rule gives the right
value there, then the way back to the root makes it right. -/
theorem updateAncestors_spec {rule : ℕ → ℕ → ℕ → ℕ} {k i : ℕ} (htree : InTree height k i)
    (hlength : slots.length = 2 ^ (height + 1) - 1)
    (hright : ∀ k' i', InTree height k' i' → ¬ Above k i k' i' →
      slots[nodeIndex height k' i']? = some (capacity taken k' i'))
    (hrule : ∀ k' i', Above k i (k' + 1) i' →
      rule (2 ^ (k' + 1)) (capacity taken k' (2 * i')) (capacity taken k' (2 * i' + 1)) =
        capacity taken (k' + 1) i') :
    ∃ slots', BinManager.updateAncestors rule slots (nodeIndex height k i) (2 ^ k) = some slots' ∧
      Represents height taken slots' := by
  obtain ⟨d, hd⟩ := Nat.exists_eq_add_of_le htree.1
  induction d generalizing k i slots with
  | zero =>
      obtain rfl : k = height := hd.symm
      have hi : i = 0 := by simpa using htree.2
      subst hi
      refine ⟨slots, ?_, hlength, fun k' i' htree' => hright k' i' htree' fun habove => ?_⟩
      · rw [BinManager.updateAncestors, if_pos (nodeIndex_root k)]
      · exact absurd habove.1 (not_lt.mpr htree'.1)
  | succ d ih =>
      have hk : k < height := by omega
      have htree' := htree.up hk
      have hsame : ∀ j, ¬ Above k i k j := fun j habove => absurd habove.1 (lt_irrefl k)
      have hl := hright k (2 * (i / 2)) (htree'.half (by omega)) (hsame _)
      have hr := hright k (2 * (i / 2) + 1) (htree'.half (by omega)) (hsame _)
      set next := slots.set (nodeIndex height (k + 1) (i / 2)) (capacity taken (k + 1) (i / 2))
      have hright' : ∀ k' i', InTree height k' i' → ¬ Above (k + 1) (i / 2) k' i' →
          next[nodeIndex height k' i']? = some (capacity taken k' i') := by
        intro k' i' htree'' hnot
        by_cases hat : k' = k + 1 ∧ i' = i / 2
        · obtain ⟨rfl, rfl⟩ := hat
          exact List.getElem?_set_self (hlength ▸ nodeIndex_lt htree')
        · have hne : nodeIndex height (k + 1) (i / 2) ≠ nodeIndex height k' i' := by
            intro heq
            obtain ⟨rfl, rfl⟩ := nodeIndex_inj htree' htree'' heq
            exact hat ⟨rfl, rfl⟩
          rw [List.getElem?_set_ne hne]
          exact hright k' i' htree'' fun habove => habove.of_up.elim hat hnot
      obtain ⟨slots', hupdate, hslots'⟩ := ih htree' (by rw [List.length_set, hlength]) hright'
        (fun k' i' habove => hrule k' i' habove.up) (by omega)
      refine ⟨slots', ?_, hslots'⟩
      rw [BinManager.updateAncestors, if_neg (nodeIndex_ne_zero hk)]
      simp only [parent_nodeIndex hk, leftChild_nodeIndex hk, rightChild_nodeIndex hk, hl, hr,
        ← pow_succ]
      rw [hrule k (i / 2) (.self_up k i)]
      exact hupdate

end Eureka.Buddy

import Eureka.Buddy.Walks

/-!
# Allocating and freeing

The manager as an abstract allocator of aligned blocks: `Manages height taken m`
says that the array of `m` is the one of the taken blocks.  `Allocate` takes a
free block of the right order if there is one (`allocate_spec`), `Free` gives a
taken block back (`free_spec`), and the constructor takes nothing
(`construct_spec`).
-/

namespace Eureka.Buddy

open AlignedBlock

/-- The manager of `2 ^ height` slots in which these blocks are taken. -/
structure Manages (height : ℕ) (taken : List Block) (m : BinManager) : Prop where
  totalSlotCount_eq : m.totalSlotCount = 2 ^ height
  represents : Represents height taken m.maxConsecutiveSlot
  inTree : ∀ b ∈ taken, InTree height b.order b.index
  disjoint : taken.Pairwise Block.Disjoint

variable {height : ℕ} {taken : List Block} {m : BinManager}

theorem Manages.eq_or_disjoint (hm : Manages height taken m) {b c : Block} (hb : b ∈ taken)
    (hc : c ∈ taken) : b = c ∨ b.Disjoint c := by
  by_cases heq : b = c
  · exact .inl heq
  · exact .inr (hm.disjoint.forall hb hc heq)

theorem Manages.unique {m' : BinManager} (hm : Manages height taken m)
    (hm' : Manages height taken m') : m = m' := by
  have htotal := hm.totalSlotCount_eq.trans hm'.totalSlotCount_eq.symm
  have hslots := hm.represents.unique hm'.represents
  cases m
  cases m'
  simp_all

theorem Manages.root_outer (hm : Manages height taken m) :
    ∀ b ∈ taken, (⟨height, 0⟩ : Block).Within b → b = ⟨height, 0⟩ := by
  intro b hb hwithin
  exact (Block.eq_of_within_of_order_eq hwithin
    (le_antisymm hwithin.order_le (hm.inTree b hb).1)).symm

theorem above_of_within {b : Block} {k i : ℕ} (hwithin : b.Within ⟨k, i⟩) :
    b = ⟨k, i⟩ ∨ Above b.order b.index k i := by
  rcases hwithin.order_le.eq_or_lt with heq | hlt
  · exact .inl (Block.eq_of_within_of_order_eq hwithin heq)
  · refine .inr ⟨hlt, ?_⟩
    obtain ⟨d, rfl⟩ : ∃ d, k = b.order + d := Nat.exists_eq_add_of_le hlt.le
    have hsize : (⟨b.order + d, i⟩ : Block).size = 2 ^ d * b.size := by
      rw [Block.size, Block.size, pow_add, mul_comm]
    obtain ⟨hstart, hstop⟩ := hwithin
    rw [Block.start, Block.start, hsize, ← mul_assoc] at hstart
    rw [Block.stop_eq, Block.stop_eq, hsize, ← mul_assoc] at hstop
    rw [Nat.add_sub_cancel_left]
    refine Nat.div_eq_of_lt_le ?_ ?_
    · exact Nat.le_of_mul_le_mul_right hstart b.size_pos
    · exact Nat.lt_of_succ_le (Nat.le_of_mul_le_mul_right hstop b.size_pos)

/-- Writing a block's new capacity and walking back to the root moves the array
to another set of taken blocks that differs in that block only. -/
theorem update_spec {slots : List ℕ} (taken' : List Block) (rule : ℕ → ℕ → ℕ → ℕ) (b : Block)
    (hslots : Represents height taken slots) (htree : InTree height b.order b.index)
    (hsame : ∀ c, c ≠ b → (c ∈ taken ↔ c ∈ taken'))
    (hrule : ∀ k i, Above b.order b.index (k + 1) i →
      rule (2 ^ (k + 1)) (capacity taken' k (2 * i)) (capacity taken' k (2 * i + 1)) =
        capacity taken' (k + 1) i) :
    ∃ slots', BinManager.updateAncestors rule
        (slots.set (nodeIndex height b.order b.index) (capacity taken' b.order b.index))
        (nodeIndex height b.order b.index) b.size = some slots' ∧
      Represents height taken' slots' := by
  have hlt := nodeIndex_lt htree
  rw [← hslots.length_eq] at hlt
  refine updateAncestors_spec htree (by rw [List.length_set, hslots.length_eq]) ?_ hrule
  intro k i htree' hnot
  by_cases hat : b = ⟨k, i⟩
  · subst hat
    exact List.getElem?_set_self hlt
  · have hne : nodeIndex height b.order b.index ≠ nodeIndex height k i := by
      intro heq
      obtain ⟨hk, hi⟩ := nodeIndex_inj htree htree' heq
      exact hat (by cases b; simp_all)
    rw [List.getElem?_set_ne hne, hslots.getElem?_eq k i htree']
    refine congrArg some (capacity_congr fun c hc => hsame c ?_)
    rintro rfl
    exact (above_of_within hc).elim hat hnot

/-- A block above a block that is disjoint from all taken ones is not taken. -/
theorem not_mem_of_above {b : Block} {k i : ℕ} (hfree : Free taken b)
    (habove : Above b.order b.index k i) : ⟨k, i⟩ ∉ taken :=
  fun hmem => Block.not_disjoint_of_within habove.within (hfree _ hmem)

/-! ## `Allocate` -/

theorem maximumRule_above {b : Block} {k i : ℕ} (hfree : Free taken b)
    (habove : Above b.order b.index (k + 1) i) :
    BinManager.maximumRule (2 ^ (k + 1)) (capacity (b :: taken) k (2 * i))
      (capacity (b :: taken) k (2 * i + 1)) = capacity (b :: taken) (k + 1) i := by
  have hmem : ⟨k + 1, i⟩ ∉ b :: taken := by
    rw [List.mem_cons, not_or]
    refine ⟨?_, not_mem_of_above hfree habove⟩
    rintro rfl
    exact lt_irrefl _ habove.1
  have hnotfull : capacity (b :: taken) (k + 1) i ≠ 2 ^ (k + 1) := fun hfull =>
    capacity_eq_full_iff.mp hfull b List.mem_cons_self habove.within
  rw [capacity_succ hmem] at hnotfull ⊢
  split_ifs at hnotfull ⊢ with hsum
  · exact absurd rfl hnotfull
  · rfl

/-- The offset that `Allocate` computes is the start of the block. -/
theorem offset_eq {k i : ℕ} (htree : InTree height k i) :
    (nodeIndex height k i + 1) * 2 ^ k - 2 ^ height = (⟨k, i⟩ : Block).start := by
  rw [nodeIndex_add_one, add_mul, ← pow_add, Nat.sub_add_cancel htree.1, Nat.add_sub_cancel_left]
  rfl

/-- `Allocate` takes a free block of the order of the request, if there is one. -/
theorem allocate_spec (hm : Manages height taken m) {n : ℕ} (hpos : 1 ≤ n)
    (hneeded : nearestUpperPowerOf2 n = 2 ^ Nat.clog 2 n) :
    ((∀ i, InTree height (Nat.clog 2 n) i → ¬ Free taken ⟨Nat.clog 2 n, i⟩) ∧
      m.allocate n = some (m, noffset)) ∨
    ∃ i m', InTree height (Nat.clog 2 n) i ∧ Free taken ⟨Nat.clog 2 n, i⟩ ∧
      m.allocate n = some (m', (⟨Nat.clog 2 n, i⟩ : Block).start) ∧
      Manages height (⟨Nat.clog 2 n, i⟩ :: taken) m' := by
  set k := Nat.clog 2 n
  have hroot : InTree height height 0 := ⟨le_rfl, Nat.two_pow_pos _⟩
  have hlargest : m.maxConsecutiveSlot[0]? = some (capacity taken height 0) := by
    have := hm.represents.getElem?_eq height 0 hroot
    rwa [nodeIndex_root] at this
  have hn : n ≠ 0 := by omega
  rcases Nat.lt_or_ge (capacity taken height 0) (2 ^ k) with hlt | hge
  · refine .inl ⟨fun i htree hfree => ?_, ?_⟩
    · have hle := (capacity_isLargestFree hm.root_outer).1 _ htree.within_root hfree
      exact absurd hle (not_le.mpr hlt)
    · simp only [BinManager.allocate, hn, if_false, hlargest, hneeded,
        hlt, if_true]
  · have hkheight : k ≤ height :=
      (Nat.pow_le_pow_iff_right (le_refl 2)).mp (hge.trans (capacity_le taken height 0))
    obtain ⟨i, htree, hfree, hdescend⟩ :=
      descend_spec hm.represents hroot hkheight hge hm.root_outer
    obtain ⟨slots', hupdate, hslots'⟩ := update_spec (⟨k, i⟩ :: taken)
      BinManager.maximumRule ⟨k, i⟩ hm.represents htree
      (fun c hc => by rw [List.mem_cons, or_iff_right hc])
      (fun _ _ habove => maximumRule_above hfree habove)
    rw [nodeIndex_root] at hdescend
    rw [capacity_of_mem (b := ⟨k, i⟩) List.mem_cons_self] at hupdate
    refine .inr ⟨i, { m with maxConsecutiveSlot := slots' }, htree, hfree, ?_, ?_⟩
    · have hupdate' : BinManager.updateAncestors BinManager.maximumRule
          (m.maxConsecutiveSlot.set (nodeIndex height k i) 0) (nodeIndex height k i) (2 ^ k) =
            some slots' := hupdate
      simp only [BinManager.allocate, hn, if_false, hlargest, hneeded,
        not_lt.mpr hge, hm.totalSlotCount_eq, hdescend, hupdate', Option.map_some,
        offset_eq htree]
    · refine ⟨hm.totalSlotCount_eq, hslots', ?_, List.pairwise_cons.mpr ⟨hfree, hm.disjoint⟩⟩
      rintro b (_ | ⟨_, hb⟩)
      · exact htree
      · exact hm.inTree b hb

/-! ## `Free` -/

/-- The walk of `Free` from an offset in a taken block. -/
theorem findBin_of_mem (hm : Manages height taken m) {b : Block} (hb : b ∈ taken) {offset : ℕ}
    (hstart : b.start ≤ offset) (hstop : offset < b.stop) :
    BinManager.findBin m.maxConsecutiveSlot (offset + m.totalSlotCount - 1) 1 =
      some (some (nodeIndex height b.order b.index, b.size)) := by
  have hinner : ∀ c ∈ taken, c.Within b → c = b := fun c hc hwithin =>
    (hm.eq_or_disjoint hc hb).resolve_right (Block.not_disjoint_of_within hwithin)
  have hfind := findBin_spec hm.represents (hm.inTree b hb) hb hinner (leaf_within hstart hstop)
  rwa [pow_zero, nodeIndex_leaf, ← hm.totalSlotCount_eq] at hfind

/-- The walk of `Free` from an offset in no taken block. -/
theorem findBin_of_not_mem (hm : Manages height taken m) {offset : ℕ}
    (hoffset : offset < m.totalSlotCount)
    (hnone : ∀ b ∈ taken, ¬ (b.start ≤ offset ∧ offset < b.stop)) :
    BinManager.findBin m.maxConsecutiveSlot (offset + m.totalSlotCount - 1) 1 = some none := by
  rw [hm.totalSlotCount_eq] at hoffset ⊢
  have hfree : Free taken ⟨0, offset⟩ := by
    intro b hb
    have hoffset := hnone b hb
    rw [Block.Disjoint, leaf_start, leaf_stop]
    omega
  have htree : InTree height 0 offset := ⟨Nat.zero_le _, by rwa [Nat.sub_zero]⟩
  have hfind := findBin_of_free hm.represents hfree htree (.refl _) 1
  rwa [nodeIndex_leaf] at hfind

/-- `Free` gives a taken block back, at any offset in it. -/
theorem free_spec (hm : Manages height taken m) {b : Block} (hb : b ∈ taken) {offset : ℕ}
    (hstart : b.start ≤ offset) (hstop : offset < b.stop) :
    ∃ m', m.free offset = some m' ∧ Manages height (taken.filter (· ≠ b)) m' := by
  have htree := hm.inTree b hb
  have hoffset : offset < m.totalSlotCount := by
    rw [hm.totalSlotCount_eq]
    exact hstop.trans_le htree.stop_le
  have hfree : Free (taken.filter (· ≠ b)) b := by
    intro c hc
    rw [List.mem_filter, decide_eq_true_eq] at hc
    exact (hm.eq_or_disjoint hb hc.1).resolve_left fun heq => hc.2 heq.symm
  have hfull : capacity (taken.filter (· ≠ b)) b.order b.index = b.size :=
    capacity_eq_full_iff.mpr fun c hc hwithin =>
      Block.not_disjoint_of_within hwithin (hfree c hc).symm
  obtain ⟨slots', hupdate, hslots'⟩ := update_spec (taken.filter (· ≠ b))
    BinManager.mergeRule b hm.represents htree
    (fun c hc => by rw [List.mem_filter, decide_eq_true_eq, and_iff_left hc])
    (fun _ _ habove => (capacity_succ (not_mem_of_above hfree habove)).symm)
  rw [hfull] at hupdate
  refine ⟨{ m with maxConsecutiveSlot := slots' }, ?_, hm.totalSlotCount_eq, hslots', ?_, ?_⟩
  · unfold BinManager.free
    rw [if_neg (not_le.mpr hoffset), findBin_of_mem hm hb hstart hstop]
    dsimp only
    rw [hupdate, Option.map_some]
  · exact fun c hc => hm.inTree c (List.mem_of_mem_filter hc)
  · exact hm.disjoint.filter _

/-- `Free` changes nothing at an offset in no taken block. -/
theorem free_of_not_mem (hm : Manages height taken m) {offset : ℕ}
    (hoffset : offset < m.totalSlotCount)
    (hnone : ∀ b ∈ taken, ¬ (b.start ≤ offset ∧ offset < b.stop)) :
    m.free offset = some m := by
  unfold BinManager.free
  rw [if_neg (not_le.mpr hoffset), findBin_of_not_mem hm hoffset hnone]

/-! ## The constructor -/

theorem size_add_one (i : ℕ) :
    Nat.size (i + 1) = if isPowerOf2 (i + 1) then Nat.size i + 1 else Nat.size i := by
  have hlt := Nat.lt_size_self i
  split_ifs with hpower
  · obtain ⟨k, hk⟩ := isPowerOf2_iff.mp hpower
    have hsize : Nat.size i = k := by
      refine le_antisymm (Nat.size_le.mpr (by omega)) (not_lt.mp fun hsmall => ?_)
      have := Nat.pow_lt_pow_right (a := 2) (by decide) hsmall
      omega
    rw [hk, Nat.size_pow, hsize]
  · refine le_antisymm (Nat.size_le.mpr ?_) (Nat.size_le_size (Nat.le_succ i))
    refine lt_of_le_of_ne hlt fun heq => hpower (isPowerOf2_iff.mpr ⟨_, heq⟩)

theorem fill_getElem? (total i count t : ℕ) (ht : t < count) :
    (BinManager.fill i (total / 2 ^ Nat.size i) count)[t]? =
      some (total / 2 ^ Nat.size (i + t + 1)) := by
  induction count generalizing i t with
  | zero => omega
  | succ count ih =>
      have hnext : (if isPowerOf2 (i + 1) then total / 2 ^ Nat.size i / 2
          else total / 2 ^ Nat.size i) = total / 2 ^ Nat.size (i + 1) := by
        rw [size_add_one]
        split_ifs
        · rw [Nat.div_div_eq_div_mul, ← pow_succ]
        · rfl
      simp only [BinManager.fill, hnext]
      cases t with
      | zero => rfl
      | succ t =>
          rw [List.getElem?_cons_succ, ih (i + 1) t (by omega)]
          congr 4
          omega

theorem length_fill (i n count : ℕ) : (BinManager.fill i n count).length = count := by
  induction count generalizing i n with
  | zero => rfl
  | succ count ih => simp only [BinManager.fill, List.length_cons, ih]

theorem size_nodeIndex {k i : ℕ} (htree : InTree height k i) :
    Nat.size (nodeIndex height k i + 1) = height - k + 1 := by
  rw [nodeIndex_add_one]
  refine le_antisymm (Nat.size_le.mpr ?_) (Nat.succ_le_of_lt (Nat.lt_size.mpr ?_))
  · have := htree.2
    rw [pow_succ]
    omega
  · exact Nat.le_add_right _ _

theorem construct_spec (height : ℕ) :
    ∃ m, BinManager.construct (2 ^ height) = some m ∧ Manages height [] m := by
  refine ⟨_, if_pos (isPowerOf2_iff.mpr ⟨height, rfl⟩), rfl, ⟨?_, ?_⟩, nofun, .nil⟩
  · rw [length_fill, pow_succ]
  · intro k i htree
    have hlt := nodeIndex_lt htree
    rw [pow_succ] at hlt
    have hfill := fill_getElem? (2 ^ height * 2) 0 (2 ^ height * 2 - 1) _ hlt
    rw [Nat.size_zero, pow_zero, Nat.div_one, zero_add, size_nodeIndex htree] at hfill
    rw [hfill, capacity_eq_full_iff.mpr fun _ hb => absurd hb List.not_mem_nil]
    have hpow : 2 ^ height * 2 = 2 ^ k * 2 ^ (height - k + 1) := by
      rw [← pow_succ, ← pow_add]
      congr 1
      have := htree.1
      omega
    rw [hpow, Nat.mul_div_cancel _ (Nat.two_pow_pos _)]

end Eureka.Buddy

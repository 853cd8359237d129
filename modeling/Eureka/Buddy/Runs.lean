import Eureka.Buddy.Allocation

/-!
# Runs of the bin manager

In every state that allocations and frees reach, the manager is the one of the
bins its client holds (`Valid`).

* `allocate_aligned_and_disjoint`: `Allocate` never gives out overlapping bins;
* `maxConsecutiveSlot_exact`: the array is exact about the free space, and
  `Allocate` fails only if no block of the right size is free;
* `free_inverts_allocate`: `Free` undoes `Allocate`, and freeing everything in
  any order restores the new manager.
-/

namespace Eureka.Buddy

open AlignedBlock Transition

/-- The least power of two that is at least `n`. -/
def leastPowerOf2 (n : ℕ) : ℕ := 2 ^ Nat.clog 2 n

namespace Grant

def size (g : Grant) : ℕ := leastPowerOf2 g.slotsRequired

/-- The bin of the grant. -/
def bin (g : Grant) : Block := ⟨Nat.clog 2 g.slotsRequired, g.offset / g.size⟩

/-- The offset is one of the slots of the grant. -/
def Covers (g : Grant) (offset : ℕ) : Prop := g.offset ≤ offset ∧ offset < g.offset + g.size

instance (g : Grant) (offset : ℕ) : Decidable (g.Covers offset) :=
  inferInstanceAs (Decidable (g.offset ≤ offset ∧ offset < g.offset + g.size))

theorem covers_offset (g : Grant) : g.Covers g.offset :=
  ⟨le_rfl, Nat.lt_add_of_pos_right g.bin.size_pos⟩

theorem bin_of_start (i n : ℕ) :
    (⟨(⟨Nat.clog 2 n, i⟩ : Block).start, n⟩ : Grant).bin = ⟨Nat.clog 2 n, i⟩ := by
  simp only [bin, size, leastPowerOf2, Block.start, Block.size,
    Nat.mul_div_cancel _ (Nat.two_pow_pos _)]

end Grant

/-- The bins that are not free. -/
def State.taken (s : State) : List Block := s.live.map Grant.bin

/-- The manager is the one of the bins its client holds. -/
structure Valid (height : ℕ) (s : State) : Prop where
  manages : Manages height s.taken s.manager
  start_eq : ∀ g ∈ s.live, g.bin.start = g.offset

variable {height : ℕ} {s : State}

theorem Valid.allocate (hs : Valid height s) (hheight : height ≤ 59) {n : ℕ} (hpos : 1 ≤ n)
    (hneeded : nearestUpperPowerOf2 n = 2 ^ Nat.clog 2 n) :
    ((∀ i, InTree height (Nat.clog 2 n) i → ¬ Free s.taken ⟨Nat.clog 2 n, i⟩) ∧
      s.manager.allocate n = some (s.manager, noffset)) ∨
    ∃ i m', InTree height (Nat.clog 2 n) i ∧ Free s.taken ⟨Nat.clog 2 n, i⟩ ∧
      (⟨Nat.clog 2 n, i⟩ : Block).start ≠ noffset ∧
      s.manager.allocate n = some (m', (⟨Nat.clog 2 n, i⟩ : Block).start) ∧
      Valid height ⟨m', ⟨(⟨Nat.clog 2 n, i⟩ : Block).start, n⟩ :: s.live⟩ := by
  rcases allocate_spec hs.manages hpos hneeded with hfull | ⟨i, m', htree, hfree, hallocate, hm'⟩
  · exact .inl hfull
  · refine .inr ⟨i, m', htree, hfree, ?_, hallocate, ?_, ?_⟩
    · have hstop := htree.stop_le
      have hlt := (⟨Nat.clog 2 n, i⟩ : Block).start_lt_stop
      have hpow : (2 : ℕ) ^ height ≤ 2 ^ 59 := Nat.pow_le_pow_right (by decide) hheight
      unfold noffset
      omega
    · rw [State.taken, List.map_cons, Grant.bin_of_start]
      exact hm'
    · rintro g (_ | ⟨_, hg⟩)
      · rw [Grant.bin_of_start]
      · exact hs.start_eq g hg

theorem Valid.eq_of_offset_eq (hs : Valid height s) {g g' : Grant} (hg : g ∈ s.live)
    (hg' : g' ∈ s.live) (heq : g.offset = g'.offset) : g.bin = g'.bin := by
  refine (hs.manages.eq_or_disjoint (List.mem_map_of_mem hg) (List.mem_map_of_mem hg')).resolve_right
    fun hdisjoint => ?_
  have hstart : g.bin.start = g'.bin.start := by rw [hs.start_eq g hg, hs.start_eq g' hg', heq]
  have h1 := g.bin.start_lt_stop
  have h2 := g'.bin.start_lt_stop
  unfold Block.Disjoint at hdisjoint
  omega

theorem Valid.covers_iff (hs : Valid height s) {g : Grant} (hg : g ∈ s.live) {offset : ℕ} :
    g.Covers offset ↔ g.bin.start ≤ offset ∧ offset < g.bin.stop := by
  rw [Block.stop, hs.start_eq g hg]
  rfl

theorem Valid.bin_eq_iff (hs : Valid height s) {g g' : Grant} (hg : g ∈ s.live) (hg' : g' ∈ s.live)
    {offset : ℕ} (hcovers : g.Covers offset) : g'.bin = g.bin ↔ g'.Covers offset := by
  rw [hs.covers_iff hg']
  rw [hs.covers_iff hg] at hcovers
  constructor
  · rintro heq
    rwa [heq]
  · intro hcovers'
    refine (hs.manages.eq_or_disjoint (List.mem_map_of_mem hg')
      (List.mem_map_of_mem hg)).resolve_right fun hdisjoint => ?_
    unfold Block.Disjoint at hdisjoint
    omega

/-- `Free` at an offset of a live bin gives that bin back. -/
theorem Valid.free_covered (hs : Valid height s) {g : Grant} (hg : g ∈ s.live) {offset : ℕ}
    (hcovers : g.Covers offset) {p : Grant → Bool}
    (hp : ∀ g' ∈ s.live, p g' = true ↔ g'.bin ≠ g.bin) :
    ∃ m', s.manager.free offset = some m' ∧ Valid height ⟨m', s.live.filter p⟩ := by
  obtain ⟨hstart, hstop⟩ := (hs.covers_iff hg).mp hcovers
  obtain ⟨m', hfree, hm'⟩ := free_spec hs.manages (List.mem_map_of_mem hg) hstart hstop
  refine ⟨m', hfree, ?_, fun g' hg' => hs.start_eq g' (List.mem_of_mem_filter hg')⟩
  have htaken : (s.live.filter p).map Grant.bin = s.taken.filter (· ≠ g.bin) := by
    rw [State.taken, List.filter_map]
    refine congrArg (List.map Grant.bin) (List.filter_congr fun g' hg' => ?_)
    rw [Function.comp_apply, Bool.eq_iff_iff, hp g' hg', decide_eq_true_eq]
  rw [State.taken, htaken]
  exact hm'

theorem Valid.free (hs : Valid height s) {g : Grant} (hg : g ∈ s.live) :
    ∃ m', s.manager.free g.offset = some m' ∧
      Valid height ⟨m', s.live.filter fun g' => g'.offset ≠ g.offset⟩ := by
  refine hs.free_covered hg g.covers_offset fun g' hg' => ?_
  rw [decide_eq_true_eq, not_iff_not]
  refine ⟨fun heq => hs.eq_of_offset_eq hg' hg heq, fun heq => ?_⟩
  rw [← hs.start_eq g' hg', heq, hs.start_eq g hg]

theorem Valid.step (hs : Valid height s) (hheight : height ≤ 32) {action : Action} {s' : State}
    (hstep : s.step action = some s') : Valid height s' := by
  cases action with
  | allocate n =>
      simp only [State.step, Option.ite_none_right_eq_some] at hstep
      obtain ⟨⟨hpos, hle⟩, hstep⟩ := hstep
      rcases hs.allocate (hheight.trans (by decide)) hpos (nearestUpperPowerOf2_eq hpos hle) with
        ⟨-, hallocate⟩ | ⟨i, m', -, -, hne, hallocate, hs'⟩
      · simp only [hallocate, Option.map_some, if_true, Option.some.injEq] at hstep
        subst hstep
        exact ⟨hs.manages, hs.start_eq⟩
      · simp only [hallocate, Option.map_some, if_neg hne, Option.some.injEq] at hstep
        subst hstep
        exact hs'
  | free offset =>
      simp only [State.step, Option.ite_none_right_eq_some, List.mem_map] at hstep
      obtain ⟨⟨g, hg, rfl⟩, hstep⟩ := hstep
      obtain ⟨m', hfree, hs'⟩ := hs.free hg
      simp only [hfree, Option.map_some, Option.some.injEq] at hstep
      subst hstep
      exact hs'

/-- **In every reachable state the manager is exact.** -/
theorem valid_of_reachable (hreach : system.Reachable s) : ∃ height ≤ 32, Valid height s := by
  refine hreach.invariant (P := fun s => ∃ height ≤ 32, Valid height s) ?_ ?_
  · rintro s ⟨height, hheight, hconstruct, hlive⟩
    obtain ⟨m, hm, hmanages⟩ := construct_spec height
    obtain rfl := Option.some.inj (hm.symm.trans hconstruct)
    refine ⟨height, hheight, ?_, by simp [hlive]⟩
    rw [State.taken, hlive]
    exact hmanages
  · rintro s action s' ⟨height, hheight, hs⟩ hstep
    exact ⟨height, hheight, hs.step hheight hstep⟩

theorem Valid.offsets_nodup (hs : Valid height s) : (s.live.map Grant.offset).Nodup := by
  have hbins := hs.manages.disjoint
  rw [State.taken, List.pairwise_map] at hbins
  rw [List.Nodup, List.pairwise_map]
  refine hbins.imp_of_mem fun {g g'} hg hg' hdisjoint heq => ?_
  rw [hs.eq_of_offset_eq hg hg' heq] at hdisjoint
  exact Block.not_disjoint_self _ hdisjoint

theorem Valid.freeAll (hs : Valid height s) {offsets : List ℕ}
    (hperm : offsets.Perm (s.live.map Grant.offset)) :
    ∃ m', s.manager.freeAll offsets = some m' ∧ Manages height [] m' := by
  induction offsets generalizing s with
  | nil =>
      have hlive : s.live = [] := List.map_eq_nil_iff.mp hperm.nil_eq.symm
      have hmanages := hs.manages
      rw [State.taken, hlive] at hmanages
      exact ⟨s.manager, rfl, hmanages⟩
  | cons offset offsets ih =>
      obtain ⟨g, hg, rfl⟩ := List.mem_map.mp (hperm.subset List.mem_cons_self)
      obtain ⟨m', hfree, hs'⟩ := hs.free hg
      have hnodup := hperm.nodup_iff.mpr hs.offsets_nodup
      have hrest : offsets.Perm
          ((s.live.filter fun g' => g'.offset ≠ g.offset).map Grant.offset) := by
        have hfilter := hperm.filter (· ≠ g.offset)
        rw [List.filter_map] at hfilter
        rw [List.filter_cons_of_neg (by simp), List.filter_eq_self.mpr] at hfilter
        · exact hfilter
        · intro offset hoffset
          rw [decide_eq_true_eq]
          rintro rfl
          exact (List.nodup_cons.mp hnodup).1 hoffset
      obtain ⟨m'', hfreeAll, hmanages⟩ := ih hs' hrest
      exact ⟨m'', by rw [BinManager.freeAll, hfree, Option.bind_some, hfreeAll], hmanages⟩

/-! ## Main results -/

/-- Eight slots, of which 3 and then 2 were asked for. -/
def busyState : State :=
  ⟨⟨8, [2, 0, 2, 2, 2, 0, 2, 1, 1, 1, 1, 1, 1, 1, 1]⟩, [⟨4, 2⟩, ⟨0, 3⟩]⟩

theorem busyState_reachable : system.Reachable busyState :=
  ⟨⟨⟨8, [8, 4, 4, 2, 2, 2, 2, 1, 1, 1, 1, 1, 1, 1, 1]⟩, []⟩, [.allocate 3, .allocate 2],
    ⟨3, by decide, by decide +kernel, rfl⟩, by decide +kernel⟩

/-- **Allocation never overlaps.**  A bin that `Allocate` gives out has the least
power of two of slots that is enough, is aligned to its size, lies within the
slots, and is disjoint from every live bin. -/
theorem allocate_aligned_and_disjoint (hreach : system.Reachable s) {n : ℕ} (hpos : 1 ≤ n)
    (hle : n ≤ 2 ^ 32) :
    ∃ m' offset, s.manager.allocate n = some (m', offset) ∧
      (offset = noffset ∨
        leastPowerOf2 n ∣ offset ∧
        offset + leastPowerOf2 n ≤ s.manager.totalSlotCount ∧
        ∀ g ∈ s.live,
          offset + leastPowerOf2 n ≤ g.offset ∨ g.offset + leastPowerOf2 g.slotsRequired ≤ offset) := by
  obtain ⟨height, hheight, hs⟩ := valid_of_reachable hreach
  rcases hs.allocate (hheight.trans (by decide)) hpos (nearestUpperPowerOf2_eq hpos hle) with
    ⟨-, hallocate⟩ | ⟨i, m', htree, hfree, -, hallocate, -⟩
  · exact ⟨_, _, hallocate, .inl rfl⟩
  · refine ⟨_, _, hallocate, .inr ⟨Dvd.intro_left i rfl, ?_, fun g hg => ?_⟩⟩
    · rw [hs.manages.totalSlotCount_eq]
      exact htree.stop_le
    · have hdisjoint := hfree g.bin (List.mem_map_of_mem hg)
      rw [Block.Disjoint, hs.start_eq g hg] at hdisjoint
      refine hdisjoint.imp_right fun hstop => ?_
      rwa [Block.stop, hs.start_eq g hg] at hstop

theorem allocate_aligned_and_disjoint_busyState :
    ∃ m' offset, busyState.manager.allocate 2 = some (m', offset) ∧
      (offset = noffset ∨
        leastPowerOf2 2 ∣ offset ∧
        offset + leastPowerOf2 2 ≤ busyState.manager.totalSlotCount ∧
        ∀ g ∈ busyState.live,
          offset + leastPowerOf2 2 ≤ g.offset ∨
            g.offset + leastPowerOf2 g.slotsRequired ≤ offset) :=
  allocate_aligned_and_disjoint busyState_reachable (by decide) (by decide)

/-- **The array is exact about free space.**  The entry of every node that is not
strictly inside a live bin is the length of the largest free aligned block of a
power of two in the node's range; so `Allocate` fails exactly if no block of the
size it needs is free. -/
theorem maxConsecutiveSlot_exact (hreach : system.Reachable s)
    (htotal : s.manager.totalSlotCount = 2 ^ height) :
    (∀ g ∈ s.live, g.bin.start = g.offset ∧ g.bin.size = leastPowerOf2 g.slotsRequired) ∧
      (∀ k i, InTree height k i →
        (∀ g ∈ s.live, (⟨k, i⟩ : Block).Within g.bin → g.bin = ⟨k, i⟩) →
        ∃ largest, s.manager.maxConsecutiveSlot[nodeIndex height k i]? = some largest ∧
          IsLargestFree s.taken ⟨k, i⟩ largest) ∧
      ∀ n, 1 ≤ n → n ≤ 2 ^ 32 →
        ∃ m' offset, s.manager.allocate n = some (m', offset) ∧
          (offset = noffset ↔
            ∀ b : Block, b.size = leastPowerOf2 n → b.Within ⟨height, 0⟩ → ¬ Free s.taken b) := by
  obtain ⟨height', hheight, hs⟩ := valid_of_reachable hreach
  obtain rfl : height' = height :=
    Nat.pow_right_injective (le_refl 2) (hs.manages.totalSlotCount_eq.symm.trans htotal)
  refine ⟨fun g hg => ⟨hs.start_eq g hg, rfl⟩, fun k i htree houter => ?_, fun n hpos hle => ?_⟩
  · refine ⟨_, hs.manages.represents.getElem?_eq k i htree, capacity_isLargestFree ?_⟩
    intro b hb hwithin
    obtain ⟨g, hg, rfl⟩ := List.mem_map.mp hb
    exact houter g hg hwithin
  · rcases hs.allocate (hheight.trans (by decide)) hpos (nearestUpperPowerOf2_eq hpos hle) with
      ⟨hnone, hallocate⟩ |
      ⟨i, m', htree, hfree, hne, hallocate, -⟩
    · refine ⟨_, _, hallocate, iff_of_true rfl ?_⟩
      rintro ⟨k, i⟩ hsize hwithin
      obtain rfl : k = Nat.clog 2 n := Nat.pow_right_injective (le_refl 2) hsize
      exact hnone i (inTree_of_within_root hwithin)
    · refine ⟨_, _, hallocate, iff_of_false hne fun hnone => ?_⟩
      exact hnone _ rfl htree.within_root hfree

theorem maxConsecutiveSlot_exact_busyState :
    ∃ largest, busyState.manager.maxConsecutiveSlot[nodeIndex 3 3 0]? = some largest ∧
      IsLargestFree busyState.taken ⟨3, 0⟩ largest :=
  (maxConsecutiveSlot_exact busyState_reachable (show _ = 2 ^ 3 from rfl)).2.1 3 0
    ⟨le_rfl, by decide⟩ (by
      intro g hg hwithin
      have horder := hwithin.order_le
      fin_cases hg <;> exact absurd horder (by decide))

/-- **`Free` is the exact inverse of `Allocate`.**  Freeing what was just
allocated restores the manager, and freeing all live bins in any order leaves a
new manager. -/
theorem free_inverts_allocate (hreach : system.Reachable s) :
    (∀ n m' offset, 1 ≤ n → n ≤ 2 ^ 32 → s.manager.allocate n = some (m', offset) →
      offset ≠ noffset → m'.free offset = some s.manager) ∧
      ∀ offsets : List ℕ, offsets.Perm (s.live.map Grant.offset) →
        ∃ m', s.manager.freeAll offsets = some m' ∧
          BinManager.construct s.manager.totalSlotCount = some m' := by
  obtain ⟨height, hheight, hs⟩ := valid_of_reachable hreach
  constructor
  · intro n m' offset hpos hle hallocate hne
    rcases allocate_spec hs.manages hpos (nearestUpperPowerOf2_eq hpos hle) with ⟨-, hfull⟩ |
      ⟨i, m'', -, hfree, hgranted, hm''⟩
    · rw [hallocate, Option.some.injEq, Prod.mk.injEq] at hfull
      exact absurd hfull.2 hne
    · rw [hallocate, Option.some.injEq, Prod.mk.injEq] at hgranted
      obtain ⟨rfl, rfl⟩ := hgranted
      obtain ⟨m'', hback, hm''⟩ :=
        free_spec hm'' List.mem_cons_self le_rfl (Block.start_lt_stop _)
      have hnot : ⟨Nat.clog 2 n, i⟩ ∉ s.taken := fun hmem =>
        Block.not_disjoint_self _ (hfree _ hmem)
      have hsame : s.taken.filter (· ≠ ⟨Nat.clog 2 n, i⟩) = s.taken :=
        List.filter_eq_self.mpr fun b hb => decide_eq_true fun heq => hnot (heq ▸ hb)
      rw [List.filter_cons_of_neg (by simp), hsame] at hm''
      rw [hback, hm''.unique hs.manages]
  · intro offsets hperm
    obtain ⟨m', hfreeAll, hm'⟩ := hs.freeAll hperm
    obtain ⟨fresh, hconstruct, hfresh⟩ := construct_spec height
    refine ⟨m', hfreeAll, ?_⟩
    rw [hs.manages.totalSlotCount_eq, hconstruct, hfresh.unique hm']

theorem free_inverts_allocate_busyState :
    ∃ m', busyState.manager.freeAll [0, 4] = some m' ∧
      BinManager.construct busyState.manager.totalSlotCount = some m' :=
  (free_inverts_allocate busyState_reachable).2 [0, 4] (by decide)

end Eureka.Buddy

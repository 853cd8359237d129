import Eureka.Buddy.Runs

/-!
# Any offset

`Free` and `SlotCountFor` go up from the leaf of an offset to the first node without
slots.  At an offset in a live bin that is the node of the bin (`findBin_of_mem`); at
every other offset there is none, and then `Free` stops at the root, while `SlotCountFor`
goes on to its parent (`slotCountWalk_eq`), whose index has wrapped around.

The clients here ask for any number of slots that a `size_t` can hold, and free any
offset below the total, live or not.
-/

namespace Eureka.Buddy

open AlignedBlock Transition

namespace BinManager

/-- The loop of `SlotCountFor`. -/
def slotCountWalk (slots : List ℕ) (index nodeSlotCount : ℕ) : Option ℕ :=
  match slots[index]? with
  | none => none
  | some 0 => some nodeSlotCount
  | some _ =>
      -- the parent of the root is the largest `size_t`, which is outside the array
      if index = 0 then none else slotCountWalk slots (parent index) (nodeSlotCount * 2)
termination_by index
decreasing_by exact parent_lt ‹_›

/-- `BinManager::SlotCountFor`. -/
def slotCountFor (m : BinManager) (offset : ℕ) : Option ℕ :=
  if offset ≥ m.totalSlotCount then some 0
  else slotCountWalk m.maxConsecutiveSlot (offset + m.totalSlotCount - 1) 1

/-- **The two walks differ at the root only.** -/
theorem slotCountWalk_eq (slots : List ℕ) (index nodeSlotCount : ℕ) :
    slotCountWalk slots index nodeSlotCount =
      (findBin slots index nodeSlotCount).bind (Option.map Prod.snd) := by
  fun_induction findBin slots index nodeSlotCount with
  | case1 index nodeSlotCount hslot =>
      rw [slotCountWalk, hslot]
      rfl
  | case2 index nodeSlotCount hslot =>
      rw [slotCountWalk, hslot]
      rfl
  | case3 nodeSlotCount value hvalue hslot =>
      obtain ⟨value, rfl⟩ := Nat.exists_eq_succ_of_ne_zero hvalue
      rw [slotCountWalk, hslot]
      rfl
  | case4 index nodeSlotCount value hvalue hslot hroot ih =>
      obtain ⟨value, rfl⟩ := Nat.exists_eq_succ_of_ne_zero hvalue
      rw [slotCountWalk, hslot]
      exact (if_neg hroot).trans ih

end BinManager

variable {height : ℕ} {taken : List Block} {m : BinManager}

/-- `SlotCountFor` at an offset in a taken block. -/
theorem slotCountFor_of_mem (hm : Manages height taken m) {b : Block} (hb : b ∈ taken) {offset : ℕ}
    (hstart : b.start ≤ offset) (hstop : offset < b.stop) : m.slotCountFor offset = some b.size := by
  have hoffset : offset < m.totalSlotCount := by
    rw [hm.totalSlotCount_eq]
    exact hstop.trans_le (hm.inTree b hb).stop_le
  unfold BinManager.slotCountFor
  rw [if_neg (not_le.mpr hoffset), BinManager.slotCountWalk_eq,
    findBin_of_mem hm hb hstart hstop]
  rfl

/-- `SlotCountFor` at an offset in no taken block leaves the array. -/
theorem slotCountFor_of_not_mem (hm : Manages height taken m) {offset : ℕ}
    (hoffset : offset < m.totalSlotCount)
    (hnone : ∀ b ∈ taken, ¬ (b.start ≤ offset ∧ offset < b.stop)) :
    m.slotCountFor offset = none := by
  unfold BinManager.slotCountFor
  rw [if_neg (not_le.mpr hoffset), BinManager.slotCountWalk_eq,
    findBin_of_not_mem hm hoffset hnone]
  rfl

/-! ## Requests of any size -/

/-- The way down ends only for a power of two: it halves a power of two, and below the leaves it
leaves the array. -/
theorem exists_pow_of_descend {slots : List ℕ} (hlength : slots.length = 2 ^ (height + 1) - 1)
    {slotsNeeded k i index : ℕ} (htree : InTree height k i)
    (hdescend : BinManager.descend slots slotsNeeded (nodeIndex height k i) (2 ^ k) =
      some index) :
    ∃ j, slotsNeeded = 2 ^ j := by
  induction k generalizing i with
  | zero =>
      by_contra hnot
      have hne : 2 ^ 0 ≠ slotsNeeded := fun heq => hnot ⟨0, heq.symm⟩
      have hout : slots[leftChild (nodeIndex height 0 i)]? = none := by
        refine List.getElem?_eq_none ?_
        rw [hlength, leftChild, nodeIndex_add_one, Nat.sub_zero, pow_succ]
        omega
      rw [BinManager.descend, if_neg hne, if_neg (by decide), hout] at hdescend
      cases hdescend
  | succ k ih =>
      by_cases hne : 2 ^ (k + 1) = slotsNeeded
      · exact ⟨k + 1, hne.symm⟩
      have hhalf : (2 : ℕ) ^ (k + 1) / 2 = 2 ^ k := by
        rw [pow_succ]
        omega
      rw [BinManager.descend, if_neg hne, if_neg (Nat.two_pow_pos _).ne',
        leftChild_nodeIndex htree.1, rightChild_nodeIndex htree.1, hhalf] at hdescend
      split at hdescend
      · cases hdescend
      · split_ifs at hdescend with hleft
        · exact ih (htree.half (by omega)) hdescend
        · exact ih (htree.half (by omega)) hdescend

/-- Where `Allocate` returns, it gives out nothing or the number of slots that it needs is the
least power of two. -/
theorem allocate_cases (hm : Manages height taken m) {n offset : ℕ} {m' : BinManager}
    (hpos : 1 ≤ n) (hlt : n < 2 ^ 64) (hallocate : m.allocate n = some (m', offset)) :
    m' = m ∧ offset = noffset ∨ nearestUpperPowerOf2 n = 2 ^ Nat.clog 2 n := by
  unfold BinManager.allocate at hallocate
  rw [if_neg (by omega)] at hallocate
  dsimp only at hallocate
  split at hallocate
  · cases hallocate
  · split_ifs at hallocate with hroom
    · obtain ⟨rfl, rfl⟩ := Prod.mk.inj (Option.some.inj hallocate)
      exact .inl ⟨rfl, rfl⟩
    · split at hallocate
      · cases hallocate
      · next index hdescend =>
        rw [hm.totalSlotCount_eq, ← nodeIndex_root height] at hdescend
        obtain ⟨j, hj⟩ := exists_pow_of_descend hm.represents.length_eq
          ⟨le_rfl, Nat.two_pow_pos _⟩ hdescend
        exact .inr (nearestUpperPowerOf2_of_eq_pow hpos hlt hj).2

/-! ## Runs -/

/-- Any number of slots but 0 is asked for, and any offset below the total is freed.  What an
offset frees is the live bin that it lies in. -/
def State.call (s : State) : Action → Option State
  | .allocate slotsRequired =>
      if slotsRequired ≠ 0 ∧ slotsRequired < 2 ^ 64 then
        (s.manager.allocate slotsRequired).map fun (manager, offset) =>
          if offset = noffset then ⟨manager, s.live⟩
          else ⟨manager, ⟨offset, slotsRequired⟩ :: s.live⟩
      else
        none
  | .free offset =>
      if offset < s.manager.totalSlotCount then
        (s.manager.free offset).map fun manager =>
          ⟨manager, s.live.filter fun grant => ¬ grant.Covers offset⟩
      else
        none

/-- A manager of any size whose array can be allocated, and any calls of a client. -/
def anyCalls : System State Action where
  start s := ∃ height ≤ 59, BinManager.construct (2 ^ height) = some s.manager ∧ s.live = []
  step := State.call

variable {s : State}

theorem Valid.not_covered (hs : Valid height s) {offset : ℕ}
    (hnone : ∀ g ∈ s.live, ¬ g.Covers offset) :
    ∀ b ∈ s.taken, ¬ (b.start ≤ offset ∧ offset < b.stop) := by
  intro b hb
  obtain ⟨g, hg, rfl⟩ := List.mem_map.mp hb
  rw [← hs.covers_iff hg]
  exact hnone g hg

theorem Valid.call (hs : Valid height s) (hheight : height ≤ 59) {action : Action} {s' : State}
    (hcall : s.call action = some s') : Valid height s' := by
  cases action with
  | allocate n =>
      simp only [State.call, Option.ite_none_right_eq_some, Option.map_eq_some_iff] at hcall
      obtain ⟨⟨hne, hlt⟩, ⟨m', offset⟩, hallocate, hs'⟩ := hcall
      have hpos : 1 ≤ n := Nat.pos_of_ne_zero hne
      rcases allocate_cases hs.manages hpos hlt hallocate with ⟨rfl, rfl⟩ | hneeded
      · rw [if_pos rfl] at hs'
        subst hs'
        exact ⟨hs.manages, hs.start_eq⟩
      · rcases hs.allocate hheight hpos hneeded with ⟨-, hfull⟩ | ⟨i, m'', -, -, hoffset, hgranted, hv⟩
        · obtain ⟨rfl, rfl⟩ := Prod.mk.inj (Option.some.inj (hallocate.symm.trans hfull))
          rw [if_pos rfl] at hs'
          subst hs'
          exact ⟨hs.manages, hs.start_eq⟩
        · obtain ⟨rfl, rfl⟩ := Prod.mk.inj (Option.some.inj (hallocate.symm.trans hgranted))
          rw [if_neg hoffset] at hs'
          subst hs'
          exact hv
  | free offset =>
      simp only [State.call, Option.ite_none_right_eq_some, Option.map_eq_some_iff] at hcall
      obtain ⟨hoffset, m', hfree, rfl⟩ := hcall
      by_cases hcovered : ∃ g ∈ s.live, g.Covers offset
      · obtain ⟨g, hg, hcovers⟩ := hcovered
        obtain ⟨m'', hfree', hv⟩ := hs.free_covered hg hcovers
          (p := fun grant => ¬ grant.Covers offset) fun g' hg' => by
            rw [decide_eq_true_eq, not_iff_not]
            exact (hs.bin_eq_iff hg hg' hcovers).symm
        obtain rfl := Option.some.inj (hfree.symm.trans hfree')
        exact hv
      · have hnone : ∀ g ∈ s.live, ¬ g.Covers offset := by simpa using hcovered
        have hsame := free_of_not_mem hs.manages hoffset (hs.not_covered hnone)
        obtain rfl := Option.some.inj (hfree.symm.trans hsame)
        rw [List.filter_eq_self.mpr fun g hg => decide_eq_true (hnone g hg)]
        exact hs

/-- **The manager is exact after any calls.** -/
theorem valid_of_anyCalls (hreach : anyCalls.Reachable s) : ∃ height ≤ 59, Valid height s := by
  refine hreach.invariant (P := fun s => ∃ height ≤ 59, Valid height s) ?_ ?_
  · rintro s ⟨height, hheight, hconstruct, hlive⟩
    obtain ⟨m, hm, hmanages⟩ := construct_spec height
    obtain rfl := Option.some.inj (hm.symm.trans hconstruct)
    refine ⟨height, hheight, ?_, by simp [hlive]⟩
    rw [State.taken, hlive]
    exact hmanages
  · rintro s action s' ⟨height, hheight, hs⟩ hcall
    exact ⟨height, hheight, hs.call hheight hcall⟩

/-- **`Free` and `SlotCountFor` at any offset.**  Both stay within the array, and `SlotCountFor`
returns the size of a live bin, exactly at the offsets in a live bin. -/
theorem slotCountFor_iff (hreach : anyCalls.Reachable s) {offset : ℕ}
    (hoffset : offset < s.manager.totalSlotCount) :
    ((∃ m', s.manager.free offset = some m') ∧
      (∃ count, s.manager.slotCountFor offset = some count) ∧
      ∀ g ∈ s.live, g.offset = offset →
        s.manager.slotCountFor offset = some (leastPowerOf2 g.slotsRequired)) ↔
      ∃ g ∈ s.live, g.offset ≤ offset ∧ offset < g.offset + leastPowerOf2 g.slotsRequired := by
  obtain ⟨height, -, hs⟩ := valid_of_anyCalls hreach
  constructor
  · rintro ⟨-, ⟨count, hcount⟩, -⟩
    by_contra hnone
    have hnone : ∀ g ∈ s.live, ¬ g.Covers offset := fun g hg hcovers => hnone ⟨g, hg, hcovers⟩
    rw [slotCountFor_of_not_mem hs.manages hoffset (hs.not_covered hnone)] at hcount
    cases hcount
  · rintro ⟨g, hg, hcovers⟩
    have hspec : ∀ g ∈ s.live, g.Covers offset → s.manager.slotCountFor offset = some g.size := by
      intro g hg hcovers
      obtain ⟨hstart, hstop⟩ := (hs.covers_iff hg).mp hcovers
      exact slotCountFor_of_mem hs.manages (List.mem_map_of_mem hg) hstart hstop
    obtain ⟨hstart, hstop⟩ := (hs.covers_iff hg).mp hcovers
    obtain ⟨m', hfree, -⟩ := free_spec hs.manages (List.mem_map_of_mem hg) hstart hstop
    refine ⟨⟨m', hfree⟩, ⟨_, hspec g hg hcovers⟩, ?_⟩
    rintro g' hg' rfl
    exact hspec g' hg' g'.covers_offset

/-- In the bin of four slots at offset 4. -/
theorem slotCountFor_iff_busyState :
    ((∃ m', busyState.manager.free 6 = some m') ∧
      (∃ count, busyState.manager.slotCountFor 6 = some count) ∧
      ∀ g ∈ busyState.live, g.offset = 6 →
        busyState.manager.slotCountFor 6 = some (leastPowerOf2 g.slotsRequired)) ↔
      ∃ g ∈ busyState.live, g.offset ≤ 6 ∧ 6 < g.offset + leastPowerOf2 g.slotsRequired :=
  slotCountFor_iff ⟨⟨⟨8, [8, 4, 4, 2, 2, 2, 2, 1, 1, 1, 1, 1, 1, 1, 1]⟩, []⟩,
    [.allocate 3, .allocate 2], ⟨3, by decide, by decide +kernel, rfl⟩, by decide +kernel⟩
    (by decide)

def freshState : State := ⟨⟨8, [8, 4, 4, 2, 2, 2, 2, 1, 1, 1, 1, 1, 1, 1, 1]⟩, []⟩

/-- `SlotCountFor` goes beyond the root. -/
theorem slotCountFor_undefined :
    ¬ ∀ s offset, anyCalls.Reachable s → offset < s.manager.totalSlotCount →
      (∃ m', s.manager.free offset = some m') ∧
        ∃ count, s.manager.slotCountFor offset = some count := by
  intro hdefined
  have hreach : anyCalls.Reachable freshState :=
    ⟨freshState, [], ⟨3, by decide, by decide, rfl⟩, rfl⟩
  obtain ⟨-, count, hcount⟩ := hdefined freshState 0 hreach (by decide)
  have hundefined : freshState.manager.slotCountFor 0 = none := by decide +kernel
  rw [hundefined] at hcount
  cases hcount

end Eureka.Buddy

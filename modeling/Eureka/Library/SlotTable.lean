import Mathlib

/-!
# Slot tables

A list of slots together with the position of every key.  A slot is removed by
moving the last one into its place, which changes the position of one key.

* `Indexes.push`, `Indexes.set`, `Indexes.swapRemove`: the operations keep the
  positions right;
* `Indexes.length_eq`: there are as many slots as keys.
-/

namespace Eureka.SlotTable

variable {α κ : Type}

/-- `slots` without slot `i`, whose place the last slot takes. -/
def swapRemove (slots : List α) (i : ℕ) : List α :=
  match slots.getLast? with
  | none => []
  | some last => (slots.set i last).dropLast

/-- The position of a key is that of its slot, and keys without a slot have none. -/
def Indexes (slots : List α) (key : α → κ) (position : κ → Option ℕ) : Prop :=
  ∀ k i, position k = some i ↔ slots[i]?.map key = some k

variable {slots : List α} {key : α → κ} {position : κ → Option ℕ}

theorem Indexes.nil : Indexes ([] : List α) key fun _ => none := by
  intro k i
  simp

theorem Indexes.injective (h : Indexes slots key position) {k k' : κ} {i : ℕ}
    (hk : position k = some i) (hk' : position k' = some i) : k = k' := by
  rw [h] at hk hk'
  exact Option.some.inj (hk.symm.trans hk')

theorem Indexes.slot (h : Indexes slots key position) {k : κ} {i : ℕ}
    (hk : position k = some i) : ∃ slot, slots[i]? = some slot ∧ key slot = k := by
  rw [h] at hk
  exact Option.map_eq_some_iff.mp hk

theorem Indexes.lt_length (h : Indexes slots key position) {k : κ} {i : ℕ}
    (hk : position k = some i) : i < slots.length := by
  obtain ⟨slot, hslot, -⟩ := h.slot hk
  exact (List.getElem?_eq_some_iff.mp hslot).1

theorem Indexes.position_key (h : Indexes slots key position) {slot : α} {i : ℕ}
    (hslot : slots[i]? = some slot) : position (key slot) = some i := by
  rw [h, hslot]
  rfl

/-- **As many slots as keys.** -/
theorem Indexes.length_eq (h : Indexes slots key position) {keys : List κ} (hnodup : keys.Nodup)
    (hkeys : ∀ k, k ∈ keys ↔ (position k).isSome) : keys.length = slots.length := by
  have hslots : (slots.map key).Nodup := by
    rw [List.nodup_iff_injective_get]
    intro i j hij
    simp only [List.get_eq_getElem, List.getElem_map] at hij
    have hi := h.position_key (List.getElem?_eq_getElem (by simpa using i.isLt))
    have hj := h.position_key (List.getElem?_eq_getElem (by simpa using j.isLt))
    rw [hij, hj] at hi
    exact Fin.ext (Option.some.inj hi).symm
  have hperm : keys.Perm (slots.map key) := by
    rw [List.perm_ext_iff_of_nodup hnodup hslots]
    intro k
    rw [hkeys, Option.isSome_iff_exists]
    constructor
    · rintro ⟨i, hi⟩
      obtain ⟨slot, hslot, rfl⟩ := h.slot hi
      exact List.mem_map_of_mem (List.mem_of_getElem? hslot)
    · intro hk
      obtain ⟨slot, hslot, rfl⟩ := List.mem_map.mp hk
      obtain ⟨i, hi⟩ := List.mem_iff_getElem?.mp hslot
      exact ⟨i, h.position_key hi⟩
  rw [hperm.length_eq, List.length_map]

/-! ## Operations -/

theorem Indexes.set (h : Indexes slots key position) {slot new : α} {i : ℕ}
    (hslot : slots[i]? = some slot) (hkey : key new = key slot) :
    Indexes (slots.set i new) key position := by
  intro k j
  rw [h]
  by_cases hij : i = j
  · subst hij
    rw [List.getElem?_set_self (List.getElem?_eq_some_iff.mp hslot).1, hslot, Option.map_some,
      Option.map_some, hkey]
  · rw [List.getElem?_set_ne hij]

section Update

variable [DecidableEq κ]

theorem Indexes.push (h : Indexes slots key position) (new : α)
    (hnew : position (key new) = none) :
    Indexes (slots ++ [new]) key (Function.update position (key new) (some slots.length)) := by
  intro k i
  by_cases hk : k = key new
  · subst hk
    rw [Function.update_self, Option.some.injEq]
    constructor
    · rintro rfl
      simp
    · intro hi
      rcases lt_trichotomy i slots.length with hlt | heq | hgt
      · -- The key had no slot before.
        rw [List.getElem?_append_left hlt, ← h, hnew] at hi
        cases hi
      · exact heq.symm
      · rw [List.getElem?_eq_none (by simpa using hgt)] at hi
        cases hi
  · rw [Function.update_of_ne hk, h]
    rcases lt_or_ge i slots.length with hlt | hge
    · rw [List.getElem?_append_left hlt]
    · rw [List.getElem?_eq_none hge, List.getElem?_append_right hge]
      constructor
      · intro hnone
        cases hnone
      · intro hi
        obtain ⟨slot, hslot, hkey⟩ := Option.map_eq_some_iff.mp hi
        have hmem := List.mem_of_getElem? hslot
        rw [List.mem_singleton] at hmem
        exact absurd (hmem ▸ hkey).symm hk

theorem getElem?_swapRemove {last : α} {i j : ℕ} (hi : i < slots.length)
    (hlast : slots[slots.length - 1]? = some last) :
    (swapRemove slots i)[j]? =
      if j < slots.length - 1 then (if i = j then some last else slots[j]?) else none := by
  have hback : slots.getLast? = some last := by rw [List.getLast?_eq_getElem?, hlast]
  rw [swapRemove, hback]
  dsimp only
  rw [List.dropLast_eq_take, List.length_set, List.getElem?_take]
  by_cases hj : j < slots.length - 1
  · rw [if_pos hj, if_pos hj, List.getElem?_set]
    by_cases hij : i = j
    · rw [if_pos hij, if_pos hij, if_pos hi]
    · rw [if_neg hij, if_neg hij]
  · rw [if_neg hj, if_neg hj]

/-- **Removal.**  The removed key loses its position, and the key of the last
slot takes it. -/
theorem Indexes.swapRemove (h : Indexes slots key position) {slot last : α} {i : ℕ}
    (hslot : slots[i]? = some slot) (hlast : slots[slots.length - 1]? = some last) :
    Indexes (SlotTable.swapRemove slots i) key
      (Function.update (Function.update position (key last) (some i)) (key slot) none) := by
  have hi : i < slots.length := (List.getElem?_eq_some_iff.mp hslot).1
  intro k j
  rw [getElem?_swapRemove hi hlast]
  by_cases hremoved : k = key slot
  · -- Its only slot was the one removed.
    subst hremoved
    rw [Function.update_self]
    refine ⟨nofun, ?_⟩
    intro hj
    split_ifs at hj with hlt hij
    · have hkey : key last = key slot := by simpa using hj
      have hsame := (h.position_key hlast).symm.trans (hkey ▸ h.position_key hslot)
      rw [Option.some.injEq] at hsame
      omega
    · have hsame := ((h _ _).mpr hj).symm.trans (h.position_key hslot)
      exact absurd (Option.some.inj hsame).symm hij
    · cases hj
  · rw [Function.update_of_ne hremoved]
    by_cases hmoved : k = key last
    · subst hmoved
      rw [Function.update_self, Option.some.injEq]
      have hne : i ≠ slots.length - 1 := by
        intro heq
        rw [heq, hlast] at hslot
        exact hremoved (congrArg key (Option.some.inj hslot))
      constructor
      · rintro rfl
        rw [if_pos (by omega), if_pos rfl, Option.map_some]
      · intro hj
        split_ifs at hj with hlt hij
        · exact hij
        · have hsame := ((h _ _).mpr hj).symm.trans (h.position_key hlast)
          rw [Option.some.injEq] at hsame
          omega
        · cases hj
    · rw [Function.update_of_ne hmoved, h]
      split_ifs with hlt hij
      · subst hij
        rw [hslot, Option.map_some, Option.map_some, Option.some.injEq, Option.some.injEq]
        exact ⟨fun hk => absurd hk.symm hremoved, fun hk => absurd hk.symm hmoved⟩
      · rfl
      · refine ⟨?_, nofun⟩
        intro hj
        obtain ⟨other, hother, rfl⟩ := Option.map_eq_some_iff.mp hj
        have hlt' := (List.getElem?_eq_some_iff.mp hother).1
        have hend : j = slots.length - 1 := by omega
        rw [hend, hlast] at hother
        exact absurd (congrArg key (Option.some.inj hother).symm) hmoved

end Update

end Eureka.SlotTable

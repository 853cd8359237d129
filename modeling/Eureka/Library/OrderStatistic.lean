import Mathlib

/-!
# Order statistics

The `k`-th smallest element of a list, counted from one, by how many elements are below it.

* `isKth_getElem`: in a sorted list it stands at its place;
* `IsKth.unique`: there is only one;
* `IsKth.discard`: elements in front of it may be left out.
-/

namespace Eureka.OrderStatistic

section Counts

variable {α : Type*} {l : List α} {p : α → Prop} [DecidablePred p]

theorem countP_eq_zero_of_forall (h : ∀ x ∈ l, ¬ p x) : l.countP p = 0 := by
  simpa [List.countP_eq_zero] using h

theorem countP_eq_length_of_forall (h : ∀ x ∈ l, p x) : l.countP p = l.length := by
  simpa [List.countP_eq_length] using h

end Counts

variable {α : Type*} [LinearOrder α] {k : ℕ} {v w : α} {l l' : List α}

structure IsKth (k : ℕ) (v : α) (l : List α) : Prop where
  mem : v ∈ l
  below : l.countP (· < v) < k
  upTo : k ≤ l.countP (· ≤ v)

theorem IsKth.perm (h : IsKth k v l) (hperm : l.Perm l') : IsKth k v l' where
  mem := hperm.mem_iff.mp h.mem
  below := hperm.countP_eq _ ▸ h.below
  upTo := hperm.countP_eq _ ▸ h.upTo

theorem IsKth.le (hv : IsKth k v l) (hw : IsKth k w l) : w ≤ v := by
  by_contra hlt
  have hlt := not_le.mp hlt
  have hle : l.countP (· ≤ v) ≤ l.countP (· < w) :=
    List.countP_mono_left fun x _ hx =>
      decide_eq_true ((of_decide_eq_true hx).trans_lt hlt)
  exact absurd (hv.upTo.trans hle) (Nat.not_le.mpr hw.below)

/-- **There is only one** `k`-th element. -/
theorem IsKth.unique (hv : IsKth k v l) (hw : IsKth k w l) : v = w :=
  le_antisymm (hw.le hv) (hv.le hw)

/-- **In a sorted list** the `k`-th element stands at its place. -/
theorem isKth_getElem (hsorted : l.Pairwise (· ≤ ·)) (hk : k < l.length) :
    IsKth (k + 1) l[k] l where
  mem := List.getElem_mem hk
  below := by
    have hrest : (l.drop k).countP (· < l[k]) = 0 := by
      rw [List.drop_eq_getElem_cons hk]
      have hfrom := (List.drop_eq_getElem_cons hk ▸ hsorted.drop : List.Pairwise (· ≤ ·) _)
      apply countP_eq_zero_of_forall
      intro x hx
      rcases List.mem_cons.mp hx with rfl | hx
      · exact lt_irrefl _
      · exact not_lt.mpr ((List.pairwise_cons.mp hfrom).1 x hx)
    calc
      l.countP (· < l[k]) = (l.take k ++ l.drop k).countP (· < l[k]) := by
        rw [List.take_append_drop]
      _ = (l.take k).countP (· < l[k]) := by rw [List.countP_append, hrest, Nat.add_zero]
      _ ≤ (l.take k).length := List.countP_le_length
      _ ≤ k := List.length_take_le k l
      _ < k + 1 := Nat.lt_succ_self k
  upTo := by
    have hfront : (l.take (k + 1)).countP (· ≤ l[k]) = k + 1 := by
      rw [countP_eq_length_of_forall, List.length_take_of_le hk]
      intro x hx
      obtain ⟨i, hi, rfl⟩ := List.mem_take_iff_getElem.mp hx
      have hle : i ≤ k := by omega
      exact hsorted.rel_get_of_le (a := ⟨i, by omega⟩) (b := ⟨k, hk⟩) hle
    exact hfront.ge.trans (List.take_sublist _ _).countP_le

theorem IsKth.getElem?_eq (h : IsKth k v l) (hsorted : l.Pairwise (· ≤ ·)) :
    l[k - 1]? = some v := by
  have hpos : 1 ≤ k := Nat.one_le_of_lt h.below
  have hk : k - 1 < l.length := by
    have hle := h.upTo.trans List.countP_le_length
    omega
  have hplace := isKth_getElem hsorted hk
  rw [Nat.sub_add_cancel hpos] at hplace
  rw [List.getElem?_eq_getElem hk, hplace.unique h]

/-- **Elements in front may be left out.**  The pivot `p` is an upper bound of the ones that
are left out and a lower bound of all others but fewer than are still to be counted. -/
theorem IsKth.discard {discarded rest front back : List α} {p : α}
    (h : IsKth (k - discarded.length) v (rest ++ (front ++ back)))
    (hdiscarded : ∀ x ∈ discarded, x ≤ p) (hrest : ∀ x ∈ rest, p ≤ x)
    (hback : ∀ x ∈ back, p ≤ x) (hcount : discarded.length + front.length < k) :
    IsKth k v (discarded ++ (rest ++ (front ++ back))) := by
  have hpivot : p ≤ v := by
    by_contra hlt
    have hlt := not_le.mp hlt
    have hnone {l : List α} (hl : ∀ x ∈ l, p ≤ x) : l.countP (· ≤ v) = 0 :=
      countP_eq_zero_of_forall fun x hx hle => absurd (hl x hx) (not_le.mpr (hle.trans_lt hlt))
    have hupTo := h.upTo
    rw [List.countP_append, List.countP_append, hnone hrest, hnone hback] at hupTo
    have hfront : front.countP (· ≤ v) ≤ front.length := List.countP_le_length
    omega
  have hall : discarded.countP (· ≤ v) = discarded.length :=
    countP_eq_length_of_forall fun x hx => (hdiscarded x hx).trans hpivot
  have hbelow := h.below
  have hupTo := h.upTo
  refine ⟨List.mem_append_right _ h.mem, ?_, ?_⟩
  · rw [List.countP_append]
    have hle : discarded.countP (· < v) ≤ discarded.length := List.countP_le_length
    omega
  · rw [List.countP_append, hall]
    omega

end Eureka.OrderStatistic

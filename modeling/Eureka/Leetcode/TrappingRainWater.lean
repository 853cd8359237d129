import Eureka.Library.CheckedArray

/-!
# Trapping rain water

`trap` moves two positions towards each other, the lower one at a time, and keeps the greatest
height it has passed.  Positions and the volume are exact, where the source has `int`.

* `water_left`, `water_right`: the lower one of the two positions is filled up to the greatest
  height on its own side;
* `loop_spec`: what the loop adds up, by the greatest heights passed on both sides;
* `trap_spec`: the whole water, for every profile.
-/

namespace Eureka.Leetcode.TrappingRainWater

open CheckedArray

/-! ## The code -/

structure State where
  volume : ℤ
  l : ℤ
  r : ℤ
  upper : ℤ

/-- The loop, one unit of fuel for each turn. -/
def loop (height : List ℤ) : ℕ → State → Except Stop ℤ
  | 0, _ => .error .outOfFuel
  | fuel + 1, s =>
      if s.l < s.r then do
        let left ← get height s.l
        let right ← get height s.r
        let lower := min left right
        let upper := max lower s.upper
        let volume := s.volume + (upper - lower)
        if left < right then loop height fuel ⟨volume, s.l + 1, s.r, upper⟩
        else loop height fuel ⟨volume, s.l, s.r - 1, upper⟩
      else .ok s.volume

def trap (fuel : ℕ) (height : List ℤ) : Except Stop ℤ :=
  loop height fuel ⟨0, 0, height.length - 1, 0⟩

/-! ## What is promised -/

/-- The smaller of the greatest height at or left of a position and the greatest height at or right
of it, minus its own height. -/
def water (height : List ℤ) (i : Fin height.length) : ℤ :=
  min ((Finset.Iic i).sup' Finset.nonempty_Iic height.get)
    ((Finset.Ici i).sup' Finset.nonempty_Ici height.get) - height.get i

/-! ## The greatest heights -/

variable {height : List ℤ} {P Q : Fin height.length → Prop} {i l r : Fin height.length}
  {m a b : ℤ}

/-- The greatest height at some positions, which is zero if there are none. -/
def IsLevel (height : List ℤ) (P : Fin height.length → Prop) (m : ℤ) : Prop :=
  IsGreatest (insert 0 (height.get '' {j | P j})) m

theorem isLevel_zero (hnone : ∀ j, ¬ P j) : IsLevel height P 0 := by
  rw [IsLevel, Set.eq_empty_of_forall_notMem (s := {j | P j}) hnone, Set.image_empty,
    insert_empty_eq]
  exact isGreatest_singleton

theorem IsLevel.or_eq (h : IsLevel height P m) (hQ : ∀ j, Q j ↔ P j ∨ j = i) :
    IsLevel height Q (max m (height.get i)) := by
  have hset : {j | Q j} = insert i {j | P j} := by
    ext j
    rw [Set.mem_ofPred_eq, hQ, or_comm, Set.mem_insert_iff, Set.mem_ofPred_eq]
  rw [IsLevel, hset, Set.image_insert_eq, Set.insert_comm, max_comm]
  exact h.insert (height.get i)

theorem IsLevel.le_sup' (h : IsLevel height P m) (hnonneg : ∀ v ∈ height, 0 ≤ v)
    {s : Finset (Fin height.length)} (hs : s.Nonempty) (hP : ∀ j, P j → j ∈ s) :
    m ≤ s.sup' hs height.get := by
  rcases h.1 with rfl | ⟨j, hj, rfl⟩
  · obtain ⟨j, hj⟩ := hs
    exact (hnonneg _ (List.get_mem height j)).trans (Finset.le_sup' height.get hj)
  · exact Finset.le_sup' height.get (hP j hj)

theorem IsLevel.sup'_le (h : IsLevel height P m) {s : Finset (Fin height.length)} (hs : s.Nonempty)
    (hP : ∀ j ∈ s, P j ∨ j = i) : s.sup' hs height.get ≤ max m (height.get i) := by
  refine Finset.sup'_le hs _ fun j hj => ?_
  rcases hP j hj with hj | rfl
  · exact le_max_of_le_left (h.2 (.inr ⟨j, hj, rfl⟩))
  · exact le_max_right _ _

/-! ## The two positions -/

/-- What has been passed, `a` on the left side and `b` on the right side. -/
structure Passed (height : List ℤ) (l r : Fin height.length) (a b : ℤ) : Prop where
  left : IsLevel height (· < l) a
  right : IsLevel height (r < ·) b
  left_le : a ≤ max b (height.get r)
  right_le : b ≤ max a (height.get l)
  le : max a b ≤ max (height.get l) (height.get r)

section Step

variable (h : Passed height l r a b) (hnonneg : ∀ v ∈ height, 0 ≤ v) (hlr : l < r)
include h hnonneg hlr

/-- **The left position** is the lower one. -/
theorem water_left (hlt : height.get l < height.get r) :
    water height l = max a (height.get l) - height.get l := by
  have hleft : (Finset.Iic l).sup' Finset.nonempty_Iic height.get = max a (height.get l) :=
    le_antisymm (h.left.sup'_le _ fun j hj => (Finset.mem_Iic.mp hj).lt_or_eq)
      (max_le (h.left.le_sup' hnonneg _ fun j hj => Finset.mem_Iic.mpr hj.le)
        (Finset.le_sup' height.get (Finset.mem_Iic.mpr le_rfl)))
  have hb := h.right.le_sup' hnonneg (Finset.nonempty_Ici (a := l)) fun j hj =>
    Finset.mem_Ici.mpr (hlr.trans hj).le
  have hr := Finset.le_sup' height.get (Finset.mem_Ici.mpr hlr.le)
  have hall : max a (height.get l) ≤ (Finset.Ici l).sup' Finset.nonempty_Ici height.get :=
    max_le (h.left_le.trans (max_le hb hr)) (hlt.le.trans hr)
  rw [water, hleft, min_eq_left hall]

/-- **The right position** is the lower one, or they are equal. -/
theorem water_right (hle : height.get r ≤ height.get l) :
    water height r = max b (height.get r) - height.get r := by
  have hright : (Finset.Ici r).sup' Finset.nonempty_Ici height.get = max b (height.get r) :=
    le_antisymm (h.right.sup'_le _ fun j hj => (Finset.mem_Ici.mp hj).lt_or_eq.imp_right Eq.symm)
      (max_le (h.right.le_sup' hnonneg _ fun j hj => Finset.mem_Ici.mpr hj.le)
        (Finset.le_sup' height.get (Finset.mem_Ici.mpr le_rfl)))
  have ha := h.left.le_sup' hnonneg (Finset.nonempty_Iic (a := r)) fun j hj =>
    Finset.mem_Iic.mpr (hj.trans hlr).le
  have hl := Finset.le_sup' height.get (Finset.mem_Iic.mpr hlr.le)
  have hall : max b (height.get r) ≤ (Finset.Iic r).sup' Finset.nonempty_Iic height.get :=
    max_le (h.right_le.trans (max_le ha hl)) (hle.trans hl)
  rw [water, hright, min_eq_right hall]

end Step

theorem Passed.left_step (h : Passed height l r a b) (hlt : height.get l < height.get r)
    {l' : Fin height.length} (hl' : (l' : ℕ) = l + 1) :
    Passed height l' r (max a (height.get l)) b where
  left := h.left.or_eq fun j => by
    rw [Fin.lt_def, Fin.lt_def, Fin.ext_iff]
    omega
  right := h.right
  left_le := max_le h.left_le (le_max_of_le_right hlt.le)
  right_le := le_max_of_le_left h.right_le
  le := by
    have hle := max_eq_right hlt.le ▸ h.le
    exact le_max_of_le_right
      (max_le (max_le ((le_max_left a b).trans hle) hlt.le) ((le_max_right a b).trans hle))

theorem Passed.right_step (h : Passed height l r a b) (hle : height.get r ≤ height.get l)
    {r' : Fin height.length} (hr' : (r : ℕ) = r' + 1) :
    Passed height l r' a (max b (height.get r)) where
  left := h.left
  right := h.right.or_eq fun j => by
    rw [Fin.lt_def, Fin.lt_def, Fin.ext_iff]
    omega
  left_le := le_max_of_le_left h.left_le
  right_le := max_le h.right_le (le_max_of_le_right hle)
  le := by
    have hle' := max_eq_left hle ▸ h.le
    exact le_max_of_le_left
      (max_le ((le_max_left a b).trans hle') (max_le ((le_max_right a b).trans hle') hle))

/-- **Where the positions meet** there is no water. -/
theorem water_last (h : Passed height l l a b) : water height l = 0 := by
  have hle : max a b ≤ height.get l := max_self (height.get l) ▸ h.le
  have hleft : (Finset.Iic l).sup' Finset.nonempty_Iic height.get = height.get l :=
    le_antisymm
      ((h.left.sup'_le _ fun j hj => (Finset.mem_Iic.mp hj).lt_or_eq).trans
        (max_le ((le_max_left a b).trans hle) le_rfl))
      (Finset.le_sup' height.get (Finset.mem_Iic.mpr le_rfl))
  have hright : (Finset.Ici l).sup' Finset.nonempty_Ici height.get = height.get l :=
    le_antisymm
      ((h.right.sup'_le _ fun j hj => (Finset.mem_Ici.mp hj).lt_or_eq.imp_right Eq.symm).trans
        (max_le ((le_max_right a b).trans hle) le_rfl))
      (Finset.le_sup' height.get (Finset.mem_Ici.mpr le_rfl))
  rw [water, hleft, hright, min_self, sub_self]

theorem passed_ends (hnonneg : ∀ v ∈ height, 0 ≤ v) (hl : (l : ℕ) = 0)
    (hr : (r : ℕ) = height.length - 1) : Passed height l r 0 0 where
  left := isLevel_zero fun j hj => by
    rw [Fin.lt_def] at hj
    omega
  right := isLevel_zero fun j hj => by
    rw [Fin.lt_def] at hj
    omega
  left_le := le_max_left _ _
  right_le := le_max_left _ _
  le := by
    rw [max_self]
    exact le_max_of_le_left (hnonneg _ (List.get_mem height l))

/-! ## The loop -/

theorem sum_Icc_left {l' : Fin height.length} (hl' : (l' : ℕ) = l + 1) (hlr : l < r) :
    ∑ i ∈ Finset.Icc l r, water height i =
      water height l + ∑ i ∈ Finset.Icc l' r, water height i := by
  have hset : Finset.Icc l r = insert l (Finset.Icc l' r) := by
    ext j
    simp only [Finset.mem_insert, Finset.mem_Icc, Fin.ext_iff, Fin.le_def]
    rw [Fin.lt_def] at hlr
    omega
  have hnotMem : l ∉ Finset.Icc l' r := fun hmem => by
    have hle : (l' : ℕ) ≤ l := (Finset.mem_Icc.mp hmem).1
    omega
  rw [hset, Finset.sum_insert hnotMem]

theorem sum_Icc_right {r' : Fin height.length} (hr' : (r : ℕ) = r' + 1) (hlr : l < r) :
    ∑ i ∈ Finset.Icc l r, water height i =
      water height r + ∑ i ∈ Finset.Icc l r', water height i := by
  have hset : Finset.Icc l r = insert r (Finset.Icc l r') := by
    ext j
    simp only [Finset.mem_insert, Finset.mem_Icc, Fin.ext_iff, Fin.le_def]
    rw [Fin.lt_def] at hlr
    omega
  have hnotMem : r ∉ Finset.Icc l r' := fun hmem => by
    have hle : (r : ℕ) ≤ r' := (Finset.mem_Icc.mp hmem).2
    omega
  rw [hset, Finset.sum_insert hnotMem]

theorem loop_succ (fuel : ℕ) (hlr : l < r) (volume upper : ℤ) :
    loop height (fuel + 1) ⟨volume, (l : ℕ), (r : ℕ), upper⟩ =
      let lower := min (height.get l) (height.get r)
      let upper := max lower upper
      if height.get l < height.get r then
        loop height fuel ⟨volume + (upper - lower), ((l + 1 : ℕ) : ℤ), (r : ℕ), upper⟩
      else loop height fuel ⟨volume + (upper - lower), (l : ℕ), (r : ℕ) - 1, upper⟩ := by
  have hcond : ((l : ℕ) : ℤ) < ((r : ℕ) : ℤ) := Int.ofNat_lt.mpr hlr
  rw [loop, if_pos hcond, get_eq l.isLt, get_eq r.isLt]
  rfl

/-- **The loop** adds the water of all positions that are left. -/
theorem loop_spec {fuel : ℕ} (hfuel : (r : ℕ) - l < fuel) (hnonneg : ∀ v ∈ height, 0 ≤ v)
    (hlr : l ≤ r) (h : Passed height l r a b) (volume : ℤ) :
    loop height fuel ⟨volume, (l : ℕ), (r : ℕ), max a b⟩ =
      .ok (volume + ∑ i ∈ Finset.Icc l r, water height i) := by
  induction fuel generalizing l r a b volume with
  | zero => exact absurd hfuel (Nat.not_lt_zero _)
  | succ fuel ih =>
      rcases hlr.lt_or_eq with hless | rfl
      · have hless' : (l : ℕ) < r := hless
        rw [loop_succ fuel hless]
        dsimp only
        split_ifs with hlt
        · obtain ⟨l', hl'⟩ : ∃ l' : Fin height.length, (l' : ℕ) = l + 1 :=
            ⟨⟨l + 1, by omega⟩, rfl⟩
          have hfill : max (height.get l) (max a b) = max (max a (height.get l)) b := by
            rw [← max_assoc, max_comm (height.get l)]
          rw [min_eq_left hlt.le, hfill, ← hl',
            ih (by omega) (by rw [Fin.le_def]; omega) (h.left_step hlt hl'),
            max_eq_left h.right_le, sum_Icc_left hl' hless, water_left h hnonneg hless hlt,
            add_assoc]
        · have hle := not_lt.mp hlt
          obtain ⟨r', hr'⟩ : ∃ r' : Fin height.length, (r : ℕ) = r' + 1 :=
            ⟨⟨r - 1, by omega⟩, by dsimp only; omega⟩
          have hr : ((r : ℕ) : ℤ) - 1 = (r' : ℕ) := by omega
          have hfill : max (height.get r) (max a b) = max a (max b (height.get r)) := by
            rw [max_left_comm, max_comm (height.get r)]
          rw [min_eq_right hle, hfill, hr,
            ih (by omega) (by rw [Fin.le_def]; omega) (h.right_step hle hr'),
            max_eq_right h.left_le, sum_Icc_right hr' hless, water_right h hnonneg hless hle,
            add_assoc]
      · rw [loop, if_neg (lt_irrefl _), Finset.Icc_self, Finset.sum_singleton, water_last h,
          add_zero]

/-- **The whole water**, for every profile. -/
theorem trap_spec {height : List ℤ} (hnonneg : ∀ v ∈ height, 0 ≤ v) {fuel : ℕ}
    (hfuel : height.length < fuel) : trap fuel height = .ok (∑ i, water height i) := by
  rw [trap]
  rcases Nat.eq_zero_or_pos height.length with hzero | hpos
  · obtain ⟨fuel, rfl⟩ : ∃ k, fuel = k + 1 := ⟨fuel - 1, by omega⟩
    obtain rfl := List.length_eq_zero_iff.mp hzero
    rfl
  · let l : Fin height.length := ⟨0, hpos⟩
    let r : Fin height.length := ⟨height.length - 1, by omega⟩
    have hall : Finset.Icc l r = Finset.univ := by
      ext j
      have hj : (j : ℕ) ≤ height.length - 1 := by omega
      simpa only [Finset.mem_Icc, Finset.mem_univ, iff_true] using ⟨Nat.zero_le _, hj⟩
    have hlast : (height.length : ℤ) - 1 = ((height.length - 1 : ℕ) : ℤ) := by omega
    have hlr : (r : ℕ) - l < fuel := by
      change height.length - 1 - 0 < fuel
      omega
    have hrun := loop_spec hlr hnonneg (Nat.zero_le _) (passed_ends hnonneg rfl rfl) 0
    rw [hall, zero_add, max_self] at hrun
    rw [hlast]
    exact hrun

theorem trap_spec_basin :
    (∀ v ∈ [4, 2, 0, 3, 2, 5], (0 : ℤ) ≤ v) ∧ [4, 2, 0, 3, 2, 5].length < 7 ∧
      trap 7 [4, 2, 0, 3, 2, 5] = .ok 9 ∧
      trap 7 [4, 2, 0, 3, 2, 5] = .ok (∑ i, water [4, 2, 0, 3, 2, 5] i) :=
  ⟨by decide, by decide, by decide, trap_spec (by decide) (by decide)⟩

end Eureka.Leetcode.TrappingRainWater

import Eureka.Library.WhileLoop
import Mathlib

/-!
# The next permutation

`nextPermutation` looks for the last ascent `base`, exchanges its lower element with the last
greater one behind it and reverses what is behind `base`.

* `le_of_perm_sorted`: the sorted permutation is the least, and the one that decreases is the
  greatest (`le_of_perm_descending`);
* `isNext_of_pivot`: nothing lies between the old permutation and the new one;
* `foldl_last`: what the two loops find;
* `nextPermutation_spec`: for every list that is not empty and whose elements an `int` can count,
  the code does what it says.
-/

namespace Eureka.Leetcode.NextPermutation

open WhileLoop

/-! ## The code -/

/-- The first loop, if its index stays an `int`; the base `none` stands for `-1`. -/
def findBase (nums : List ℤ) : Option (Option ℕ) :=
  countedLoop intLimit
    (fun base i => some (if nums.getD i 0 < nums.getD (i + 1) 0 then some i else base))
    0 (nums.length - 1) none

/-- The second loop. -/
def findTarget (nums : List ℤ) (base : ℕ) : Option ℕ :=
  countedLoop intLimit (fun target j => some (if nums.getD base 0 < nums.getD j 0 then j else target))
    (base + 1) (nums.length - (base + 1)) base

def swap (nums : List ℤ) (i j : ℕ) : List ℤ := (nums.set i (nums.getD j 0)).set j (nums.getD i 0)

/-- `std::reverse` on the elements from `i` on. -/
def reverseFrom (nums : List ℤ) (i : ℕ) : List ℤ := nums.take i ++ (nums.drop i).reverse

/-- What the code leaves; for an empty list `nums.size() - 1` wraps around, and the first loop reads
what is not there. -/
def nextPermutation (nums : List ℤ) : Option (List ℤ) :=
  if nums.isEmpty then none
  else
    (findBase nums).bind fun base =>
      match base with
      | none => some nums.reverse
      | some base =>
          (findTarget nums base).map fun target =>
            reverseFrom (swap nums base target) (base + 1)

/-! ## The order of permutations -/

section Order

variable {α : Type*} {l p b₁ b₂ : List α} {x y : α}

theorem lex_of_perm {r : α → α → Prop} (hl : l.Pairwise fun a b => r a b ∨ a = b)
    (hp : p.Perm l) : l = p ∨ List.Lex r l p := by
  induction l generalizing p with
  | nil => exact .inl hp.eq_nil.symm
  | cons x l ih =>
      obtain ⟨hx, hl⟩ := List.pairwise_cons.mp hl
      cases p with
      | nil => exact absurd hp.symm.eq_nil (List.cons_ne_nil x l)
      | cons c p =>
          have hfirst : r x c ∨ x = c := by
            rcases List.mem_cons.mp (hp.mem_iff.mp List.mem_cons_self) with rfl | hc
            · exact .inr rfl
            · exact hx c hc
          rcases hfirst with hlt | rfl
          · exact .inr (.rel hlt)
          · rcases ih hl hp.cons_inv with rfl | hlt
            · exact .inl rfl
            · exact .inr (.cons hlt)

theorem lex_flip {r : α → α → Prop} (h : List.Lex r l p) (hlen : l.length = p.length) :
    List.Lex (fun a b => r b a) p l := by
  induction h with
  | nil => cases hlen
  | cons _ ih => exact .cons (ih (Nat.succ.inj hlen))
  | rel hlt => exact .rel hlt

variable [LinearOrder α]

/-- The immediate successor among the permutations. -/
structure IsSuccessor (l next : List α) : Prop where
  perm : next.Perm l
  lt : l < next
  least : ∀ p : List α, p.Perm l → l < p → next ≤ p

/-- The immediate successor, or the least permutation if there is no greater one. -/
def IsNext (l next : List α) : Prop :=
  IsSuccessor l next ∨
    (∀ p : List α, p.Perm l → p ≤ l) ∧ next.Perm l ∧ ∀ p : List α, p.Perm l → next ≤ p

/-- **The sorted permutation** is the least. -/
theorem le_of_perm_sorted (hl : l.Pairwise (· ≤ ·)) (hp : p.Perm l) : l ≤ p := by
  rcases lex_of_perm (r := (· < ·)) (hl.imp fun h => h.lt_or_eq) hp with rfl | hlt
  · exact le_rfl
  · exact (show l < p from hlt).le

/-- **The descending permutation** is the greatest. -/
theorem le_of_perm_descending (hl : l.Pairwise (· ≥ ·)) (hp : p.Perm l) : p ≤ l := by
  rcases lex_of_perm (r := (· > ·)) (hl.imp fun h => h.lt_or_eq.imp_right Eq.symm) hp
    with rfl | hgt
  · exact le_rfl
  · exact (show p < l from lex_flip hgt hp.length_eq.symm).le

theorem isNext_reverse (hl : l.Pairwise (· ≥ ·)) : IsNext l l.reverse := by
  refine .inr ⟨fun p hp => le_of_perm_descending hl hp, l.reverse_perm, fun p hp => ?_⟩
  exact le_of_perm_sorted (List.pairwise_reverse.mpr hl) (hp.trans l.reverse_perm.symm)

/-- **A common front** stays. -/
theorem IsSuccessor.append_left {next : List α} (h : IsSuccessor l next) (front : List α) :
    IsSuccessor (front ++ l) (front ++ next) := by
  induction front with
  | nil => exact h
  | cons c front ih =>
      refine ⟨ih.perm.cons c, List.cons_lt_cons_iff.mpr (.inr ⟨rfl, ih.lt⟩), fun p hp hlt => ?_⟩
      cases p with
      | nil => exact absurd hp.symm.eq_nil (List.cons_ne_nil c _)
      | cons d p =>
          rcases List.cons_lt_cons_iff.mp hlt with hcd | ⟨rfl, hrest⟩
          · exact (List.cons_lt_cons_iff.mpr (.inl hcd)).le
          · exact List.cons_le_cons _ (ih.least p hp.cons_inv hrest)

/-- **The pivot.**  Behind `x` the elements descend, and `y` is the last one that is greater. -/
theorem isSuccessor_pivot (hback : (b₁ ++ y :: b₂).Pairwise (· ≥ ·)) (hxy : x < y)
    (hrest : ∀ z ∈ b₂, z ≤ x) :
    IsSuccessor (x :: (b₁ ++ y :: b₂)) (y :: (b₁ ++ x :: b₂).reverse) := by
  obtain ⟨hb₁, hyb₂, hcross⟩ := List.pairwise_append.mp hback
  obtain ⟨hy, hb₂⟩ := List.pairwise_cons.mp hyb₂
  have hperm : (y :: (b₁ ++ x :: b₂).reverse).Perm (x :: (b₁ ++ y :: b₂)) :=
    calc
      (y :: (b₁ ++ x :: b₂).reverse).Perm (y :: (b₁ ++ x :: b₂)) := (List.reverse_perm _).cons y
      List.Perm _ (y :: x :: (b₁ ++ b₂)) := List.perm_middle.cons y
      List.Perm _ (x :: y :: (b₁ ++ b₂)) := .swap x y _
      List.Perm _ (x :: (b₁ ++ y :: b₂)) := List.perm_middle.symm.cons x
  have hdescending : (b₁ ++ x :: b₂).Pairwise (· ≥ ·) := by
    refine List.pairwise_append.mpr ⟨hb₁, List.pairwise_cons.mpr ⟨hrest, hb₂⟩, ?_⟩
    intro z hz w hw
    rcases List.mem_cons.mp hw with rfl | hw
    · exact hxy.le.trans (hcross z hz y List.mem_cons_self)
    · exact hcross z hz w (List.mem_cons_of_mem y hw)
  refine ⟨hperm, List.cons_lt_cons_iff.mpr (.inl hxy), fun p hp hlt => ?_⟩
  cases p with
  | nil => exact absurd hp.symm.eq_nil (List.cons_ne_nil x _)
  | cons c p =>
      rcases List.cons_lt_cons_iff.mp hlt with hxc | ⟨rfl, hmore⟩
      · -- the first letter is one behind `x` that is greater, and `y` is the least of these
        have hc : c ∈ x :: (b₁ ++ y :: b₂) := hp.mem_iff.mp List.mem_cons_self
        have hyc : y ≤ c := by
          rcases List.mem_cons.mp hc with rfl | hc
          · exact absurd hxc (lt_irrefl _)
          · rcases List.mem_append.mp hc with hc | hc
            · exact hcross c hc y List.mem_cons_self
            · rcases List.mem_cons.mp hc with rfl | hc
              · exact le_rfl
              · exact absurd (hxc.trans_le (hrest c hc)) (lt_irrefl _)
        rcases hyc.lt_or_eq with hyc | rfl
        · exact (List.cons_lt_cons_iff.mpr (.inl hyc)).le
        · have hp' : p.Perm (b₁ ++ x :: b₂).reverse := (hp.trans hperm.symm).cons_inv
          exact List.cons_le_cons _ (le_of_perm_sorted (List.pairwise_reverse.mpr hdescending) hp')
      · -- behind the same first letter nothing is greater
        exact absurd hmore (not_lt.mpr (le_of_perm_descending hback hp.cons_inv))

end Order

/-! ## The loops -/

theorem foldl_last {β : Type*} (P : ℕ → Prop) [DecidablePred P] (found : ℕ → β) (first : β)
    (start n : ℕ) :
    let r := (List.range' start n).foldl (fun r i => if P i then found i else r) first
    (r = first ∧ ∀ i, start ≤ i → i < start + n → ¬ P i) ∨
      ∃ i, start ≤ i ∧ i < start + n ∧ P i ∧ (∀ j, i < j → j < start + n → ¬ P j) ∧
        r = found i := by
  induction n with
  | zero => exact .inl ⟨rfl, fun i hi hlt => absurd hlt (Nat.not_lt.mpr hi)⟩
  | succ n ih =>
      rw [List.range'_1_concat, List.foldl_concat]
      split_ifs with hP
      · exact .inr ⟨start + n, by omega, by omega, hP, fun j hj hlt => by omega, rfl⟩
      · have hlast {j : ℕ} (hj : j < start + (n + 1)) (hPj : P j) : j < start + n := by
          refine Nat.lt_of_le_of_ne (by omega) ?_
          rintro rfl
          exact hP hPj
        rcases ih with ⟨hr, hnone⟩ | ⟨i, hi, hlt, hPi, hmax, hr⟩
        · exact .inl ⟨hr, fun j hj hlt hPj => hnone j hj (hlast hlt hPj) hPj⟩
        · exact .inr ⟨i, hi, by omega, hPi, fun j hj hlt hPj => hmax j hj (hlast hlt hPj) hPj, hr⟩

variable {nums front back : List ℤ} {x : ℤ} {k : ℕ}

theorem getD_pivot : (front ++ x :: back).getD front.length 0 = x := by
  rw [List.getD_append_right _ _ _ _ le_rfl, Nat.sub_self, List.getD_cons_zero]

theorem getD_behind (m : ℕ) :
    (front ++ x :: back).getD (front.length + 1 + m) 0 = back.getD m 0 := by
  rw [List.getD_append_right _ _ _ _ (by omega),
    show front.length + 1 + m - front.length = m + 1 by omega, List.getD_cons_succ]

theorem pairwise_drop (h : ∀ j, k ≤ j → j < nums.length - 1 →
    ¬ nums.getD j 0 < nums.getD (j + 1) 0) : (nums.drop k).Pairwise (· ≥ ·) := by
  rw [← List.isChain_iff_pairwise, List.isChain_iff_getElem]
  intro j hj
  rw [List.length_drop] at hj
  have hnot := h (k + j) (by omega) (by omega)
  rw [List.getD_eq_getElem _ _ (by omega), List.getD_eq_getElem _ _ (by omega), not_lt] at hnot
  rwa [List.getElem_drop, List.getElem_drop]

theorem findBase_spec (hlength : nums.length < intLimit) :
    (findBase nums = some none ∧ nums.Pairwise (· ≥ ·)) ∨
      ∃ front x y back, nums = front ++ x :: y :: back ∧
        findBase nums = some (some front.length) ∧ (y :: back).Pairwise (· ≥ ·) ∧ x < y := by
  rw [findBase, countedLoop_some _ (by omega)]
  rcases foldl_last (fun i => nums.getD i 0 < nums.getD (i + 1) 0) some none 0
    (nums.length - 1) with ⟨hnone, hall⟩ | ⟨i, -, hi, hasc, hall, hsome⟩
  · left
    refine ⟨congrArg some hnone, pairwise_drop (k := 0) fun j hj hlt => hall j hj (by omega)⟩
  · right
    have hi' : i + 1 < nums.length := by omega
    have hdrop : nums.drop i = nums[i] :: nums[i + 1] :: nums.drop (i + 2) := by
      rw [List.drop_eq_getElem_cons (by omega), List.drop_eq_getElem_cons hi']
    refine ⟨nums.take i, nums[i], nums[i + 1], nums.drop (i + 2), ?_, ?_, ?_, ?_⟩
    · rw [← hdrop, List.take_append_drop]
    · rw [List.length_take_of_le (by omega)]
      exact congrArg some hsome
    · rw [← List.drop_eq_getElem_cons hi']
      exact pairwise_drop fun j hj hlt => hall j hj (by omega)
    · rwa [List.getD_eq_getElem _ _ (by omega), List.getD_eq_getElem _ _ hi'] at hasc

theorem findTarget_spec (hlimit : (front ++ x :: back).length < intLimit)
    (hgreater : ∃ y ∈ back, x < y) :
    ∃ b₁ y b₂, back = b₁ ++ y :: b₂ ∧ x < y ∧ (∀ z ∈ b₂, z ≤ x) ∧
      findTarget (front ++ x :: back) front.length =
        some (front.length + 1 + b₁.length) := by
  have hlength : (front ++ x :: back).length - (front.length + 1) = back.length := by
    rw [List.length_append, List.length_cons]
    omega
  rcases foldl_last (fun j => x < (front ++ x :: back).getD j 0) id front.length
    (front.length + 1) back.length with ⟨-, hall⟩ | ⟨j, hj, hlt, hxy, hall, htarget⟩
  · obtain ⟨y, hy, hxy⟩ := hgreater
    obtain ⟨m, hm, rfl⟩ := List.mem_iff_getElem.mp hy
    have hnot := hall (front.length + 1 + m) (by omega) (by omega)
    rw [getD_behind, List.getD_eq_getElem _ _ hm] at hnot
    exact absurd hxy hnot
  · obtain ⟨m, rfl⟩ := Nat.exists_eq_add_of_le hj
    have hm : m < back.length := by omega
    rw [getD_behind, List.getD_eq_getElem _ _ hm] at hxy
    refine ⟨back.take m, back[m], back.drop (m + 1), ?_, hxy, ?_, ?_⟩
    · rw [← List.drop_eq_getElem_cons hm, List.take_append_drop]
    · intro z hz
      obtain ⟨l, hl, rfl⟩ := List.mem_drop_iff_getElem.mp hz
      have hnot := hall (front.length + 1 + (m + 1 + l)) (by omega) (by omega)
      rw [getD_behind, List.getD_eq_getElem _ _ (by omega), not_lt] at hnot
      exact hnot
    · rw [findTarget, hlength, countedLoop_some _ (by omega), getD_pivot,
        List.length_take_of_le hm.le]
      exact congrArg some htarget

theorem reverseFrom_swap {b₁ b₂ : List ℤ} {y : ℤ} :
    reverseFrom (swap (front ++ x :: (b₁ ++ y :: b₂)) front.length (front.length + 1 + b₁.length))
      (front.length + 1) = front ++ y :: (b₁ ++ x :: b₂).reverse := by
  have htarget : (b₁ ++ y :: b₂).getD b₁.length 0 = y := getD_pivot
  have hswap : swap (front ++ x :: (b₁ ++ y :: b₂)) front.length (front.length + 1 + b₁.length) =
      front ++ y :: (b₁ ++ x :: b₂) := by
    rw [swap, getD_pivot, getD_behind, htarget, List.set_append_right _ _ le_rfl, Nat.sub_self,
      List.set_cons_zero, List.set_append_right _ _ (by omega),
      show front.length + 1 + b₁.length - front.length = b₁.length + 1 by omega,
      List.set_cons_succ, List.set_append_right _ _ le_rfl, Nat.sub_self, List.set_cons_zero]
  rw [hswap, reverseFrom, List.take_append, List.drop_append, List.take_of_length_le (by omega),
    List.drop_of_length_le (by omega), Nat.add_sub_cancel_left, List.take_succ_cons, List.take_zero,
    List.drop_succ_cons, List.drop_zero, List.nil_append, List.append_assoc, List.singleton_append]

/-- **For every list that is not empty**, of fewer than 2^31 elements, the code leaves the immediate
successor, or the least permutation of the greatest one. -/
theorem nextPermutation_spec (hnums : nums ≠ []) (hlength : nums.length < intLimit) :
    ∃ next, nextPermutation nums = some next ∧ IsNext nums next := by
  have hempty : ¬ nums.isEmpty = true := by rwa [List.isEmpty_iff]
  rw [nextPermutation, if_neg hempty]
  rcases findBase_spec hlength with ⟨hbase, hdesc⟩ | ⟨front, x, y, back, rfl, hbase, hdesc, hxy⟩
  · rw [hbase]
    exact ⟨_, rfl, isNext_reverse hdesc⟩
  · obtain ⟨b₁, w, b₂, hback, hxw, hrest, htarget⟩ :=
      findTarget_spec hlength ⟨y, List.mem_cons_self (l := back), hxy⟩
    rw [hbase, Option.bind_some]
    dsimp only
    rw [htarget, Option.map_some]
    refine ⟨_, rfl, .inl ?_⟩
    rw [hback, reverseFrom_swap]
    rw [hback] at hdesc
    exact (isSuccessor_pivot hdesc hxw hrest).append_left front

theorem nextPermutation_spec_ties :
    [1, 3, 3, 2] ≠ ([] : List ℤ) ∧ nextPermutation [1, 3, 3, 2] = some [2, 1, 3, 3] ∧
      ∃ next, nextPermutation [1, 3, 3, 2] = some next ∧ IsNext [1, 3, 3, 2] next :=
  ⟨by decide, by decide, nextPermutation_spec (by decide) (by decide)⟩

/-- The index of the first loop cannot count 2^31 places. -/
theorem nextPermutation_zeros :
    List.replicate (2 ^ 31 + 1) (0 : ℤ) ≠ [] ∧
      nextPermutation (List.replicate (2 ^ 31 + 1) 0) = none := by
  have hne : List.replicate (2 ^ 31 + 1) (0 : ℤ) ≠ [] :=
    mt (List.replicate_eq_nil_iff 0).mp (by decide)
  refine ⟨hne, ?_⟩
  rw [nextPermutation, if_neg (mt List.isEmpty_iff.mp hne), findBase, countedLoop_eq_none _ _
    (by decide) (by rw [List.length_replicate]; decide)]
  rfl

end Eureka.Leetcode.NextPermutation

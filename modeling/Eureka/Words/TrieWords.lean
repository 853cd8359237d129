import Eureka.Words.Trees

/-!
# The words under a node

`words` lists the words that are marked under a node.  `mem_words` says which
they are, `nodup_words` that none is listed twice, and `words_congr` that the
list, with its order, depends on nothing else of the trie.  `search_eq` is the
traversal of `Search`: it visits the node on top of the stack with everything
under it (`searchLoop_visit`), by induction on the node and, within it, on the
children that are left.
-/

namespace Eureka.Words.TrieNode

/-! ## The walk along a word -/

@[simp] theorem locate_nil (t : TrieNode) : t.locate [] = some t := by
  cases t <;> rfl

@[simp] theorem locate_null (word : Bytes) : null.locate word = some null := by
  cases word <;> rfl

theorem locate_of_none {ch : Byte} (hindex : getCharacterIndex ch = none) (t : TrieNode)
    (word : Bytes) : t.locate (ch :: word) = some null := by
  cases t with
  | null => rfl
  | node character last children => rw [locate, hindex]

theorem locate_of_some {ch : Byte} {pos : ℕ} (hindex : getCharacterIndex ch = some pos)
    (character : Byte) (last : Bool) (children : Fin alphabetLength → TrieNode) (word : Bytes) :
    (node character last children).locate (ch :: word) =
      if hpos : pos < alphabetLength then (children ⟨pos, hpos⟩).locate word else none := by
  rw [locate, hindex]

theorem locate_append (t : TrieNode) (u v : Bytes) :
    t.locate (u ++ v) = (t.locate u).bind fun current => current.locate v := by
  induction u generalizing t with
  | nil => simp
  | cons ch u ih =>
      rw [List.cons_append]
      cases t with
      | null => simp
      | node character last children =>
          cases hindex : getCharacterIndex ch with
          | none => rw [locate_of_none hindex, locate_of_none hindex, Option.bind_some, locate_null]
          | some pos =>
              rw [locate_of_some hindex, locate_of_some hindex]
              split_ifs
              · exact ih _
              · rfl

theorem locate_cons (t : TrieNode) (ch : Byte) (word : Bytes) :
    t.locate (ch :: word) = (t.locate [ch]).bind fun current => current.locate word :=
  locate_append t [ch] word

theorem locate_child (character : Byte) (last : Bool)
    (children : Fin alphabetLength → TrieNode) (pos : Fin alphabetLength) :
    (node character last children).locate [getCharacter pos] = some (children pos) := by
  rw [locate_of_some (getCharacterIndex_getCharacter pos.isLt.le), dif_pos pos.isLt, locate_nil]

/-- The word is in the trie. -/
def Marked (t : TrieNode) (word : Bytes) : Prop :=
  ∃ current, t.locate word = some current ∧ current.lastCharOfWord

/-- There is a node for the last character of the word. -/
def Reaches (t : TrieNode) (word : Bytes) : Prop :=
  ∃ current, t.locate word = some current ∧ current.isNode

theorem marked_nil {t : TrieNode} : t.Marked [] ↔ t.lastCharOfWord := by
  simp [Marked]

theorem reaches_nil {t : TrieNode} : t.Reaches [] ↔ t.isNode := by
  simp [Reaches]

theorem marked_append {t current : TrieNode} {u : Bytes} (hlocate : t.locate u = some current)
    (v : Bytes) : t.Marked (u ++ v) ↔ current.Marked v := by
  rw [Marked, Marked, locate_append, hlocate, Option.bind_some]

theorem reaches_append {t current : TrieNode} {u : Bytes} (hlocate : t.locate u = some current)
    (v : Bytes) : t.Reaches (u ++ v) ↔ current.Reaches v := by
  rw [Reaches, Reaches, locate_append, hlocate, Option.bind_some]

theorem not_marked_null (word : Bytes) : ¬ null.Marked word := by
  simp [Marked, lastCharOfWord]

theorem not_reaches_null (word : Bytes) : ¬ null.Reaches word := by
  simp [Reaches, isNode]

theorem locate_not_legal {ch : Byte} (hindex : getCharacterIndex ch = none) (t : TrieNode) :
    t.locate [ch] = some null :=
  locate_of_none hindex t []

theorem locate_zero {character : Byte} {last : Bool}
    {children : Fin alphabetLength → TrieNode} :
    (node character last children).locate [0] = none := by
  rw [locate_of_some getCharacterIndex_zero]
  exact dif_neg (lt_irrefl _)

/-- The walk reads behind a node's children exactly at a character 0 that it comes to. -/
theorem locate_eq_none_iff {t : TrieNode} {word : Bytes} :
    t.locate word = none ↔ ∃ front back, word = front ++ 0 :: back ∧ t.Reaches front := by
  induction word generalizing t with
  | nil => simp
  | cons ch word ih =>
      cases t with
      | null => simp [not_reaches_null]
      | node character last children =>
          rcases character_cases ch with hindex | rfl | ⟨pos, rfl⟩
          · have hnull := locate_not_legal hindex (node character last children)
            rw [locate_cons, hnull, Option.bind_some, locate_null]
            refine iff_of_false nofun ?_
            rintro ⟨_ | ⟨ch', front⟩, back, heq, hreaches⟩
            · obtain ⟨rfl, -⟩ := List.cons.inj heq
              rw [getCharacterIndex_zero] at hindex
              cases hindex
            · obtain ⟨rfl, -⟩ := List.cons.inj heq
              exact not_reaches_null front ((reaches_append hnull front).mp hreaches)
          · rw [locate_cons, locate_zero]
            exact iff_of_true rfl ⟨[], word, rfl, reaches_nil.mpr rfl⟩
          · have hchild := locate_child character last children pos
            rw [locate_cons, hchild, Option.bind_some, ih]
            constructor
            · rintro ⟨front, back, rfl, hreaches⟩
              exact ⟨getCharacter pos :: front, back, rfl, (reaches_append hchild front).mpr hreaches⟩
            · rintro ⟨_ | ⟨ch', front⟩, back, heq, hreaches⟩
              · exact absurd (List.cons.inj heq).1 (getCharacter_ne_zero pos)
              · obtain ⟨rfl, rfl⟩ := List.cons.inj heq
                exact ⟨front, back, rfl, (reaches_append hchild front).mp hreaches⟩

/-! ## The words under a node -/

def words : TrieNode → List Bytes
  | null => []
  | node _ last children =>
      ((List.finRange alphabetLength).flatMap fun pos =>
        (children pos).words.map (getCharacter pos :: ·)) ++ if last then [[]] else []

theorem mem_words {t : TrieNode} {word : Bytes} : word ∈ t.words ↔ t.Marked word := by
  induction t generalizing word with
  | null => exact iff_of_false List.not_mem_nil (not_marked_null word)
  | node character last children ih =>
      rw [words, List.mem_append, List.mem_flatMap]
      cases word with
      | nil =>
          rw [marked_nil]
          cases last <;> simp [lastCharOfWord]
      | cons ch word =>
          have hend : ch :: word ∉ (if last then [[]] else [] : List Bytes) := by
            cases last <;> simp
          rw [or_iff_left hend]
          constructor
          · rintro ⟨pos, -, hmem⟩
            obtain ⟨word', hmem', heq⟩ := List.mem_map.mp hmem
            obtain ⟨rfl, rfl⟩ := List.cons.inj heq
            exact (marked_append (locate_child _ _ _ pos) word').mpr ((ih pos).mp hmem')
          · intro hmarked
            rcases character_cases ch with hindex | rfl | ⟨pos, rfl⟩
            · exact absurd ((marked_append (locate_not_legal hindex _) word).mp hmarked)
                (not_marked_null word)
            · obtain ⟨current, hlocate, -⟩ := hmarked
              rw [locate_cons, locate_zero] at hlocate
              cases hlocate
            · refine ⟨pos, List.mem_finRange pos, List.mem_map_of_mem ?_⟩
              exact (ih pos).mpr ((marked_append (locate_child _ _ _ pos) word).mp hmarked)

theorem nodup_words (t : TrieNode) : t.words.Nodup := by
  induction t with
  | null => exact List.nodup_nil
  | node character last children ih =>
      rw [words, List.nodup_append]
      refine ⟨List.nodup_flatMap.mpr ⟨fun pos _ => ?_, ?_⟩, by cases last <;> simp, ?_⟩
      · exact (ih pos).map fun _ _ heq => (List.cons.inj heq).2
      · refine (List.nodup_finRange alphabetLength).imp fun {pos pos'} hne => ?_
        intro word hword hword'
        obtain ⟨rest, -, rfl⟩ := List.mem_map.mp hword
        obtain ⟨rest', -, heq⟩ := List.mem_map.mp hword'
        have hpos := getCharacter_injective pos'.isLt.le pos.isLt.le (List.cons.inj heq).1
        exact hne (Fin.ext hpos.symm)
      · intro word hword word' hword' heq
        obtain ⟨pos, -, hword⟩ := List.mem_flatMap.mp hword
        obtain ⟨rest, -, rfl⟩ := List.mem_map.mp hword
        subst heq
        cases last <;> simp at hword'

theorem words_congr {t t' : TrieNode} (hmarked : ∀ word, t.Marked word ↔ t'.Marked word) :
    t.words = t'.words := by
  induction t generalizing t' with
  | null =>
      refine (List.eq_nil_iff_forall_not_mem.mpr fun word hmem => ?_).symm
      exact not_marked_null word ((hmarked word).mpr (mem_words.mp hmem))
  | node character last children ih =>
      cases t' with
      | null =>
          refine List.eq_nil_iff_forall_not_mem.mpr fun word hmem => ?_
          exact not_marked_null word ((hmarked word).mp (mem_words.mp hmem))
      | node character' last' children' =>
          have hlast : last = last' := by
            have h := hmarked []
            rw [marked_nil, marked_nil] at h
            exact Bool.eq_iff_iff.mpr h
          have hchildren : ∀ pos, (children pos).words = (children' pos).words := by
            refine fun pos => ih pos fun word => ?_
            rw [← marked_append (locate_child _ _ _ pos) word, ← marked_append (locate_child _ _ _ pos) word]
            exact hmarked _
          simp only [words, hlast, hchildren]

/-! ## The traversal of `Search` -/

/-- Every node under a node has the character of its place. -/
def Spelled : TrieNode → Prop
  | null => True
  | node _ _ children => ∀ pos : Fin alphabetLength,
      ((children pos).isNode → (children pos).character = getCharacter pos) ∧
        (children pos).Spelled

theorem wordOf_cursor (pre : Bytes) (t : TrieNode) (second second' : ℕ)
    (stack : List (TrieNode × ℕ)) :
    wordOf pre ((t, second) :: stack) = wordOf pre ((t, second') :: stack) := by
  simp only [wordOf, List.reverse_cons]
  cases hstack : stack.reverse with
  | nil => rfl
  | cons entry stack => simp

theorem wordOf_push (pre : Bytes) (t : TrieNode) (second : ℕ) (entry : TrieNode × ℕ)
    (stack : List (TrieNode × ℕ)) :
    wordOf pre ((t, second) :: entry :: stack) = wordOf pre (entry :: stack) ++ [t.character] := by
  have hlength : 1 ≤ (entry :: stack).reverse.length := by simp
  rw [wordOf, wordOf, List.reverse_cons, List.drop_append_of_le_length hlength, List.map_append,
    List.append_assoc]
  rfl

theorem searchLoop_cursor (pre : Bytes) (fuel : ℕ) {t : TrieNode} {second second' : ℕ}
    (hnext : t.nextChild second = t.nextChild second') (stack : List (TrieNode × ℕ))
    (found : List Bytes) :
    searchLoop pre fuel ((t, second) :: stack) found =
      searchLoop pre fuel ((t, second') :: stack) found := by
  cases fuel with
  | zero => rfl
  | succ fuel =>
      rw [searchLoop, searchLoop, hnext, wordOf_cursor pre t second second']

theorem isNode_eq_false {t : TrieNode} : t.isNode = false ↔ t = null := by
  cases t <;> simp [isNode]

theorem drop_finRange {n second : ℕ} {pos : Fin n} {rest : List (Fin n)}
    (hdrop : (List.finRange n).drop second = pos :: rest) :
    pos.val = second ∧ (List.finRange n).drop (second + 1) = rest := by
  have hlt : second < (List.finRange n).length := by
    by_contra hge
    rw [List.drop_eq_nil_of_le (le_of_not_gt hge)] at hdrop
    cases hdrop
  rw [List.drop_eq_getElem_cons hlt] at hdrop
  obtain ⟨rfl, hrest⟩ := List.cons.inj hdrop
  exact ⟨by simp, hrest⟩

/-- A node on the stack is visited with everything under it. -/
theorem searchLoop_visit {t : TrieNode} (hnode : t.isNode) (hspelled : t.Spelled) (pre : Bytes)
    (fuel : ℕ) (stack : List (TrieNode × ℕ)) (found : List Bytes) :
    searchLoop pre (t.rounds + fuel) ((t, 0) :: stack) found =
      searchLoop pre fuel stack
        (found ++ t.words.map (wordOf pre ((t, 0) :: stack) ++ ·)) := by
  induction t generalizing fuel stack found with
  | null => cases hnode
  | node character last children ih =>
      -- the children from the cursor on are `rest`
      have hrest : ∀ (rest : List (Fin alphabetLength)) (second : ℕ) (found : List Bytes),
          (List.finRange alphabetLength).drop second = rest →
          searchLoop pre
              (1 + (rest.map fun pos =>
                (children pos).rounds + if (children pos).isNode then 1 else 0).sum + fuel)
              ((node character last children, second) :: stack) found =
            searchLoop pre fuel stack
              (found ++ ((rest.flatMap fun pos =>
                (children pos).words.map (getCharacter pos :: ·)) ++
                  if last then [[]] else []).map
                (wordOf pre ((node character last children, 0) :: stack) ++ ·)) := by
        intro rest
        induction rest with
        | nil =>
            intro second found hdrop
            have hnext : (node character last children).nextChild second = none := by
              rw [nextChild, hdrop, List.find?_nil]
            rw [List.map_nil, List.sum_nil, Nat.add_zero, Nat.add_comm, searchLoop, hnext,
              wordOf_cursor pre _ second 0]
            cases last <;> simp [lastCharOfWord]
        | cons pos rest ihrest =>
            intro second found hdrop
            obtain ⟨hpos, hdrop'⟩ := drop_finRange hdrop
            by_cases hchild : (children pos).isNode
            · have hnext : (node character last children).nextChild second = some pos := by
                rw [nextChild, hdrop]
                exact List.find?_cons_of_pos hchild
              have hfuel : 1 + ((pos :: rest).map fun pos =>
                    (children pos).rounds + if (children pos).isNode then 1 else 0).sum + fuel =
                  (children pos).rounds + (1 + (rest.map fun pos =>
                    (children pos).rounds + if (children pos).isNode then 1 else 0).sum + fuel) +
                      1 := by
                rw [List.map_cons, List.sum_cons, if_pos hchild]
                omega
              obtain ⟨hcharacter, hbelow⟩ := hspelled pos
              rw [hfuel, searchLoop, hnext]
              refine (ih pos hchild hbelow _ _ found).trans ?_
              rw [hpos, ihrest (second + 1) _ hdrop', wordOf_push, hcharacter hchild,
                wordOf_cursor pre _ (second + 1) 0]
              simp [Function.comp_def]
            · have hnull := isNode_eq_false.mp (Bool.eq_false_iff.mpr hchild)
              have hnext : (node character last children).nextChild second =
                  (node character last children).nextChild (second + 1) := by
                rw [nextChild, nextChild, hdrop, hdrop']
                exact List.find?_cons_of_neg hchild
              rw [searchLoop_cursor pre _ hnext, List.map_cons, List.sum_cons, List.flatMap_cons,
                hnull]
              simpa [words, rounds, isNode] using ihrest (second + 1) found hdrop'
      have h := hrest (List.finRange alphabetLength) 0 found List.drop_zero
      rw [rounds, words]
      exact h

theorem Spelled.locate {t current : TrieNode} {word : Bytes} (hspelled : t.Spelled)
    (hlocate : t.locate word = some current) : current.Spelled := by
  induction word generalizing t with
  | nil =>
      rw [locate_nil] at hlocate
      exact Option.some.inj hlocate ▸ hspelled
  | cons ch word ih =>
      cases t with
      | null =>
          rw [locate_null] at hlocate
          exact Option.some.inj hlocate ▸ trivial
      | node character last children =>
          rw [locate_cons] at hlocate
          rcases character_cases ch with hindex | rfl | ⟨pos, rfl⟩
          · rw [locate_not_legal hindex, Option.bind_some] at hlocate
            exact ih (t := null) trivial hlocate
          · rw [locate_zero] at hlocate
            cases hlocate
          · rw [locate_child, Option.bind_some] at hlocate
            exact ih (hspelled pos).2 hlocate

/-- **What `Search` returns:** the words under the node of its prefix. -/
theorem search_eq {t current : TrieNode} {pre : Bytes} (hspelled : t.Spelled)
    (hlocate : t.locate pre = some current) :
    t.search pre = some (current.words.map (pre ++ ·)) := by
  have hcurrent := hspelled.locate hlocate
  rw [search, hlocate]
  cases current with
  | null => rfl
  | node character last children =>
      have hvisit := searchLoop_visit rfl hcurrent pre 0 [] []
      rw [Nat.add_zero] at hvisit
      dsimp only
      rw [hvisit, searchLoop, List.nil_append]
      simp [wordOf]

end Eureka.Words.TrieNode

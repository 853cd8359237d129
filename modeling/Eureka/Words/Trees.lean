import Eureka.Bytes

/-!
# The word trees and their alphabet

Both word trees number the characters of their words by their place in
`kAlphabet`.  The lookup is `strchr`, which also finds the terminator of the
alphabet, so the character 0 has the number behind the last one.
-/

namespace Eureka.Words

def kAlphabet : Bytes := ascii "abcdefghijklmnopqrstuvwxyz-"

/-- `Alphabet::length`, without the terminator. -/
def alphabetLength : ℕ := kAlphabet.length

/-- `Alphabet::GetCharacterIndex`, where `npos` is `none`. -/
def getCharacterIndex (ch : Byte) : Option ℕ := (kAlphabet ++ [0]).idxOf? ch

/-- `Alphabet::GetCharacter`. -/
def getCharacter (index : ℕ) : Byte := (kAlphabet ++ [0]).getD index 0

/-- A word of characters that have a number, up to the first one that has none. -/
def legalPart (word : Bytes) : Bytes := word.takeWhile fun ch => (getCharacterIndex ch).isSome

def Legal (word : Bytes) : Prop := ∀ ch ∈ word, (getCharacterIndex ch).isSome

structure InvalidArgument where
  what : String
  deriving DecidableEq, Repr

/-! ## Numbers and characters -/

theorem nodup_kAlphabet : (kAlphabet ++ [0]).Nodup := by decide

theorem length_kAlphabet : (kAlphabet ++ [0]).length = alphabetLength + 1 := by decide

theorem getCharacterIndex_eq_some {ch : Byte} {index : ℕ} :
    getCharacterIndex ch = some index ↔ index ≤ alphabetLength ∧ getCharacter index = ch := by
  have hlength := length_kAlphabet
  rw [getCharacterIndex, List.idxOf?_eq_some_iff, getCharacter]
  constructor
  · rintro ⟨hlt, hget, -⟩
    exact ⟨Nat.le_of_lt_add_one (hlt.trans_eq hlength), by rw [List.getD_eq_getElem _ _ hlt, hget]⟩
  · rintro ⟨hle, hget⟩
    have hlt : index < (kAlphabet ++ [0]).length :=
      (Nat.lt_add_one_of_le hle).trans_eq hlength.symm
    rw [List.getD_eq_getElem _ _ hlt] at hget
    refine ⟨hlt, hget, fun j hj hj' => ?_⟩
    exact hj.ne ((List.Nodup.getElem_inj_iff nodup_kAlphabet).mp (hj'.trans hget.symm))

theorem getCharacterIndex_getCharacter {index : ℕ} (hle : index ≤ alphabetLength) :
    getCharacterIndex (getCharacter index) = some index :=
  getCharacterIndex_eq_some.mpr ⟨hle, rfl⟩

theorem getCharacter_injective {i j : ℕ} (hi : i ≤ alphabetLength) (hj : j ≤ alphabetLength)
    (heq : getCharacter i = getCharacter j) : i = j := by
  have h := getCharacterIndex_getCharacter hi
  rw [heq, getCharacterIndex_getCharacter hj] at h
  exact (Option.some.inj h).symm

theorem eq_zero_iff {ch : Byte} {index : ℕ} (hindex : getCharacterIndex ch = some index) :
    ch = 0 ↔ index = alphabetLength := by
  obtain ⟨hle, rfl⟩ := getCharacterIndex_eq_some.mp hindex
  have hlast : getCharacter alphabetLength = 0 := by decide
  rw [← hlast]
  exact ⟨getCharacter_injective hle le_rfl, fun h => h ▸ rfl⟩

theorem lt_of_ne_zero {ch : Byte} {index : ℕ} (hindex : getCharacterIndex ch = some index)
    (hch : ch ≠ 0) : index < alphabetLength :=
  lt_of_le_of_ne (getCharacterIndex_eq_some.mp hindex).1 (mt (eq_zero_iff hindex).mpr hch)

theorem getCharacter_ne_zero (pos : Fin alphabetLength) : getCharacter pos ≠ 0 := fun h =>
  pos.isLt.ne ((eq_zero_iff (getCharacterIndex_getCharacter pos.isLt.le)).mp h)

theorem getCharacterIndex_ne {ch ch' : Byte} {index index' : ℕ}
    (hindex : getCharacterIndex ch = some index) (hindex' : getCharacterIndex ch' = some index')
    (hne : ch ≠ ch') : index ≠ index' := by
  rintro rfl
  exact hne ((getCharacterIndex_eq_some.mp hindex).2.symm.trans
    (getCharacterIndex_eq_some.mp hindex').2)

theorem character_cases (ch : Byte) :
    getCharacterIndex ch = none ∨ ch = 0 ∨ ∃ pos : Fin alphabetLength, ch = getCharacter pos := by
  cases hindex : getCharacterIndex ch with
  | none => exact .inl rfl
  | some index =>
      by_cases hch : ch = 0
      · exact .inr (.inl hch)
      · exact .inr (.inr ⟨⟨index, lt_of_ne_zero hindex hch⟩,
          (getCharacterIndex_eq_some.mp hindex).2.symm⟩)

theorem getCharacterIndex_zero : getCharacterIndex 0 = some alphabetLength := by decide

/-! ## Legal words -/

theorem legal_nil : Legal [] := fun _ hmem => absurd hmem List.not_mem_nil

theorem legal_cons {ch : Byte} {word : Bytes} :
    Legal (ch :: word) ↔ (getCharacterIndex ch).isSome ∧ Legal word :=
  List.forall_mem_cons

theorem legalPart_of_none {ch : Byte} (hindex : getCharacterIndex ch = none) (word : Bytes) :
    legalPart (ch :: word) = [] :=
  List.takeWhile_cons_of_neg (by simp [hindex])

theorem legalPart_of_some {ch : Byte} {index : ℕ} (hindex : getCharacterIndex ch = some index)
    (word : Bytes) : legalPart (ch :: word) = ch :: legalPart word :=
  List.takeWhile_cons_of_pos (by simp [hindex])

end Eureka.Words

/-!
## The ternary search tree of a dictionary

In `TernaryTree` the nodes for the characters that may follow a word form a
binary search tree of their own, under the middle link of the word's last
node.  `Insert` goes down in that tree to the node of a character, or makes it
where the walk ends; `Search` visits a node, what is under its middle link, and
then the nodes to its left and right, with one stack of characters for all.

A pointer to a node is the node itself, or `null`.
-/

namespace Eureka.Words

inductive TernaryNode
  | null
  | node (charIndex : ℕ) (endWord : Bool) (left middle right : TernaryNode)

namespace TernaryNode

def isNode : TernaryNode → Bool
  | null => false
  | node .. => true

def endWord : TernaryNode → Bool
  | null => false
  | node _ endWord _ _ _ => endWord

def middle : TernaryNode → TernaryNode
  | null => null
  | node _ _ _ middle _ => middle

/-- `new Node(char_index)`. -/
def fresh (index : ℕ) : TernaryNode := node index false null null null

/-- The sentinel of an empty `TernaryTree`, whose index is `npos`. -/
def root : TernaryNode := fresh (2 ^ 64 - 1)

/-! ## `Insert` -/

/-- The way to the node of a character in the search tree under a middle link.  `TouchNodeChild`
makes the node where the way ends; `visit` is what happens at the node. -/
def touchNode (index : ℕ) (visit : TernaryNode → TernaryNode × Except InvalidArgument Unit) :
    TernaryNode → TernaryNode × Except InvalidArgument Unit
  | null => visit (fresh index)
  | node charIndex endWord left middle right =>
      if index = charIndex then visit (node charIndex endWord left middle right)
      else if index < charIndex then
        let (left, result) := touchNode index visit left
        (node charIndex endWord left middle right, result)
      else
        let (right, result) := touchNode index visit right
        (node charIndex endWord left middle right, result)

/-- `TernaryTree::Insert` from a node on: the node afterwards, and whether it returned normally.
The node is never `null`. -/
def insert : Bytes → TernaryNode → TernaryNode × Except InvalidArgument Unit
  | _, null => (null, .ok ())
  | [], node charIndex _ left middle right => (node charIndex true left middle right, .ok ())
  | ch :: word, node charIndex endWord left middle right =>
      match getCharacterIndex ch with
      | none =>
          (node charIndex endWord left middle right,
            .error ⟨"word contains invalid character"⟩)
      | some index =>
          let (middle, result) := touchNode index (insert word) middle
          (node charIndex endWord left middle right, result)

/-! ## `Contains` and `Search` -/

/-- The node of a character in the search tree under a middle link. -/
def findNode (index : ℕ) : TernaryNode → TernaryNode
  | null => null
  | node charIndex endWord left middle right =>
      if index = charIndex then node charIndex endWord left middle right
      else if index < charIndex then findNode index left
      else findNode index right

/-- The node that a word leads to, from a node on.  Where no node is found, the walk ends
with `null`. -/
def locate : Bytes → TernaryNode → TernaryNode
  | [], current => current
  | ch :: word, current =>
      match getCharacterIndex ch with
      | none => null
      | some index => locate word (findNode index current.middle)

/-- `TernaryTree::Contains`. -/
def contains (tree : TernaryNode) (word : Bytes) : Bool := (tree.locate word).endWord

/-- `SearchWord`: the words and the characters on the stack afterwards.  It is called for
nodes only. -/
def searchWord (pre : Bytes) : TernaryNode → List Bytes → Bytes → List Bytes × Bytes
  | null, words, seq => (words, seq)
  | node charIndex endWord left middle right, words, seq =>
      let seq := seq ++ [getCharacter charIndex]
      let words := if endWord then words ++ [pre ++ seq] else words
      let (words, seq) := searchWord pre middle words seq
      let seq := seq.dropLast
      let (words, seq) := searchWord pre left words seq
      searchWord pre right words seq

/-- `TernaryTree::Search`. -/
def search (tree : TernaryNode) (pre : Bytes) : List Bytes :=
  match tree.locate pre with
  | null => []
  | node _ endWord _ middle _ =>
      let words := if endWord then [pre] else []
      (searchWord pre middle words []).1

/-! ## Calls -/

/-- Calls of `Insert` one after the other, and the words whose call returned normally. -/
def insertAll : TernaryNode → List Bytes → TernaryNode × List Bytes
  | tree, [] => (tree, [])
  | tree, word :: calls =>
      match tree.insert word with
      | (tree, .ok ()) =>
          let (tree, inserted) := insertAll tree calls
          (tree, word :: inserted)
      | (tree, .error _) => insertAll tree calls

end TernaryNode

end Eureka.Words

/-!
## The trie of a dictionary

`Trie` keeps a node for every character of a word under the node of the
character before it.  `Insert` makes the nodes one by one and stops at a
character that is not in the alphabet, with the nodes made so far left behind;
`Search` visits the nodes under its prefix with a stack of nodes and cursors.

A pointer to a node is the node itself, or `null`.  Reading or writing behind
the end of a node's `children` has no result.
-/

namespace Eureka.Words

inductive TrieNode
  | null
  | node (character : Byte) (lastCharOfWord : Bool)
      (children : Fin alphabetLength → TrieNode)

namespace TrieNode

def isNode : TrieNode → Bool
  | null => false
  | node .. => true

def character : TrieNode → Byte
  | null => 0
  | node character _ _ => character

def lastCharOfWord : TrieNode → Bool
  | null => false
  | node _ lastCharOfWord _ => lastCharOfWord

def children : TrieNode → Fin alphabetLength → TrieNode
  | null => fun _ => null
  | node _ _ children => children

/-- `new TrieNode()` with its character. -/
def fresh (ch : Byte) : TrieNode := node ch false fun _ => null

/-- The header of an empty `Trie`. -/
def header : TrieNode := fresh 0

/-- A child that is made when it is not there. -/
def touch (ch : Byte) : TrieNode → TrieNode
  | null => fresh ch
  | node character lastCharOfWord children => node character lastCharOfWord children

/-! ## `Insert` -/

/-- `Trie::Insert` from a node on: the node afterwards, and whether it returned normally. -/
def insert : TrieNode → Bytes → Option (TrieNode × Except InvalidArgument Unit)
  | null, _ => none
  | node character _ children, [] => some (node character true children, .ok ())
  | node character lastCharOfWord children, ch :: word =>
      match getCharacterIndex ch with
      | none =>
          some (node character lastCharOfWord children,
            .error ⟨"word contains illegal character!"⟩)
      | some pos =>
          if hpos : pos < alphabetLength then
            match insert (touch ch (children ⟨pos, hpos⟩)) word with
            | none => none
            | some (child, result) =>
                some (node character lastCharOfWord
                  (Function.update children ⟨pos, hpos⟩ child), result)
          else none

/-! ## `Contains` and `Search` -/

/-- The node that a word leads to, from a node on.  Where a child is missing, the walk ends
with `null`. -/
def locate : TrieNode → Bytes → Option TrieNode
  | current, [] => some current
  | null, _ :: _ => some null
  | node _ _ children, ch :: word =>
      match getCharacterIndex ch with
      | none => some null
      | some pos =>
          if hpos : pos < alphabetLength then locate (children ⟨pos, hpos⟩) word
          else none

/-- `Trie::Contains`. -/
def contains (trie : TrieNode) (word : Bytes) : Option Bool :=
  (trie.locate word).map lastCharOfWord

/-- The inner loop of `Search`: the first child from the cursor on. -/
def nextChild (current : TrieNode) (second : ℕ) : Option (Fin alphabetLength) :=
  ((List.finRange alphabetLength).drop second).find? fun pos => (current.children pos).isNode

/-- The word of the node on top of the stack. -/
def wordOf (pre : Bytes) (processingNodes : List (TrieNode × ℕ)) : Bytes :=
  pre ++ (processingNodes.reverse.drop 1).map fun cludeNode => cludeNode.1.character

/-- The outer loop of `Search`, with the top of the stack in front. -/
def searchLoop (pre : Bytes) : ℕ → List (TrieNode × ℕ) → List Bytes → Option (List Bytes)
  | _, [], words => some words
  | 0, _ :: _, _ => none
  | fuel + 1, (current, second) :: processingNodes, words =>
      match current.nextChild second with
      | some pos =>
          searchLoop pre fuel
            ((current.children pos, 0) :: (current, pos.val + 1) :: processingNodes) words
      | none =>
          let words :=
            if current.lastCharOfWord then
              words ++ [wordOf pre ((current, second) :: processingNodes)]
            else words
          searchLoop pre fuel processingNodes words

/-- The rounds of the outer loop that a node takes: one for every node under it that is
pushed, and one for every node that is popped. -/
def rounds : TrieNode → ℕ
  | null => 0
  | node _ _ children =>
      1 + ((List.finRange alphabetLength).map fun pos =>
        (children pos).rounds + if (children pos).isNode then 1 else 0).sum

/-- `Trie::Search`. -/
def search (trie : TrieNode) (pre : Bytes) : Option (List Bytes) :=
  match trie.locate pre with
  | none => none
  | some null => some []
  | some current => searchLoop pre current.rounds [(current, 0)] []

/-! ## Calls -/

/-- Calls of `Insert` one after the other, and the words whose call returned normally. -/
def insertAll : TrieNode → List Bytes → Option (TrieNode × List Bytes)
  | trie, [] => some (trie, [])
  | trie, word :: calls =>
      match trie.insert word with
      | none => none
      | some (trie, .ok ()) =>
          (insertAll trie calls).map fun (trie, inserted) => (trie, word :: inserted)
      | some (trie, .error _) => insertAll trie calls

end TrieNode

end Eureka.Words

import Eureka.Library.Decimal
import Eureka.Library.TextSearch

/-!
# A binary tree as a string

`serialize` and `deserialize` both go through the tree level by level.  The queue of the first one
holds null pointers too, the queue of the second one holds the nodes whose children are to be read.

* `Tokens`: the tokens of a queue of trees;
* `serialize_eq`: what is written are the tokens of the tree;
* `deserializeLoop_spec`: the tokens ahead are those of the children of the nodes in the queue,
  so each node in the queue becomes the tree that it is to be;
* `deserialize_serialize`: the round trip.
-/

namespace Eureka.Leetcode.BinaryTreeCodec

open Decimal Getline

/-! ## The code -/

/-- A node in memory, where an address is an index. -/
structure TreeNode where
  val : Int32
  left : Option ℕ
  right : Option ℕ
deriving DecidableEq, Repr

/-- `to_string`. -/
def toText (v : Int32) : List Char :=
  let digits := Nat.toDigits 10 v.toInt.natAbs
  if v.toInt < 0 then '-' :: digits else digits

def serializeLoop (heap : List TreeNode) : ℕ → List (Option ℕ) → List Char → Option (List Char)
  | 0, _, _ => none
  | _ + 1, [], data => some data
  | fuel + 1, none :: pending, data =>
      -- mark as nil
      serializeLoop heap fuel pending (data ++ ['$'] ++ [' '])
  | fuel + 1, some p :: pending, data => do
      let node ← heap[p]?
      serializeLoop heap fuel (pending ++ [node.left, node.right])
        (data ++ toText node.val ++ [' '])

/-- `serialize`.  It is `none` if the fuel does not suffice. -/
def serialize (fuel : ℕ) (heap : List TreeNode) (root : Option ℕ) : Option (List Char) :=
  serializeLoop heap fuel [root] []

/-- `stoi`; `none` is an exception. -/
def stoi (s : List Char) : Option Int32 := (toInteger 32 s).map Int32.ofInt

/-- `(*it == "$") ? nullptr : new TreeNode(stoi(*it))`, which is `none` behind the last token. -/
def readChild (values : List (List Char)) (it : ℕ) (heap : List TreeNode) :
    Option (Option ℕ × List TreeNode) := do
  let token ← values[it]?
  if token = ['$'] then some (none, heap)
  else do
    let val ← stoi token
    some (some heap.length, heap ++ [⟨val, none, none⟩])

/-- The loop of `deserialize`, with the heap that it leaves. -/
def deserializeLoop (values : List (List Char)) :
    ℕ → List TreeNode → List ℕ → ℕ → Option (List TreeNode)
  | 0, _, _, _ => none
  | _ + 1, heap, [], _ => some heap
  | fuel + 1, heap, node :: pending, it => do
      let (left, heap) ← readChild values it heap
      let n ← heap[node]?
      let heap := heap.set node { n with left := left }
      let (right, heap) ← readChild values (it + 1) heap
      let n ← heap[node]?
      let heap := heap.set node { n with right := right }
      deserializeLoop values fuel heap (pending ++ left.toList ++ right.toList) (it + 2)

/-- `deserialize`, with the root and the heap. -/
def deserialize (fuel : ℕ) (data : List Char) : Option (Option ℕ × List TreeNode) := do
  let values ← fields ' ' fuel data
  let first ← values[0]?
  if first = ['$'] then some (none, [])
  else do
    let val ← stoi first
    let heap ← deserializeLoop values fuel [⟨val, none, none⟩] [0] 1
    some (some 0, heap)

/-! ## Trees -/

inductive Tree where
  | nil
  | node (left : Tree) (val : Int32) (right : Tree)

/-- The tree that a pointer stands for. -/
def Holds (heap : List TreeNode) : Option ℕ → Tree → Prop
  | p, .nil => p = none
  | p, .node l v r =>
      ∃ a n, p = some a ∧ heap[a]? = some n ∧ n.val = v ∧ Holds heap n.left l ∧
        Holds heap n.right r

namespace Tree

def children : Tree → List Tree
  | nil => []
  | node l _ r => [l, r]

/-- The nodes of a tree. -/
def count : Tree → ℕ
  | nil => 0
  | node l _ r => l.count + r.count + 1

end Tree

/-- The tokens of a queue of trees. -/
inductive Tokens : List Tree → List (List Char) → Prop
  | done : Tokens [] []
  | nil {queue tokens} : Tokens queue tokens → Tokens (.nil :: queue) (['$'] :: tokens)
  | node {l v r queue tokens} :
      Tokens (queue ++ [l, r]) tokens → Tokens (.node l v r :: queue) (toText v :: tokens)

/-- All that is left of the queue, null pointers included. -/
def work (queue : List Tree) : ℕ := (queue.map fun t => 2 * t.count + 1).sum

theorem exists_tokens (queue : List Tree) : ∃ tokens, Tokens queue tokens := by
  induction hwork : work queue using Nat.strong_induction_on generalizing queue with
  | _ n ih =>
      cases queue with
      | nil => exact ⟨[], .done⟩
      | cons t queue =>
          cases t with
          | nil =>
              have hless : work queue < n := by
                rw [← hwork]
                simp [work, Tree.count]
              obtain ⟨tokens, htokens⟩ := ih _ hless queue rfl
              exact ⟨_, .nil htokens⟩
          | node l v r =>
              have hless : work (queue ++ [l, r]) < n := by
                rw [← hwork]
                simp [work, Tree.count]
                omega
              obtain ⟨tokens, htokens⟩ := ih _ hless _ rfl
              exact ⟨_, .node htokens⟩

/-! ## Texts of numbers -/

/-- **Numbers are read back.** -/
theorem stoi_toText (v : Int32) : stoi (toText v) = some v := by
  have hdigits := isDigits_toDigits v.toInt.natAbs
  have hne : Nat.toDigits 10 v.toInt.natAbs ≠ [] := Nat.toDigits_ne_nil
  have hrange : -2 ^ (32 - 1) ≤ v.toInt ∧ v.toInt < 2 ^ (32 - 1) := ⟨v.le_toInt, v.toInt_lt⟩
  have hinteger : toInteger 32 (toText v) = represent 32 v.toInt := by
    by_cases hneg : v.toInt < 0
    · rw [toText, if_pos hneg, toInteger_minus hdigits hne, value_toDigits]
      congr 1
      omega
    · rw [toText, if_neg hneg, toInteger_digits hdigits hne, value_toDigits]
      congr 1
      omega
  rw [stoi, hinteger, represent, if_pos hrange, Option.map_some, Int32.ofInt_toInt]

theorem toText_mem {v : Int32} {c : Char} (hc : c ∈ toText v) : c.isDigit = true ∨ c = '-' := by
  have hdigits := isDigits_toDigits v.toInt.natAbs
  unfold toText at hc
  dsimp only at hc
  split at hc
  · rcases List.mem_cons.mp hc with rfl | hc
    · exact .inr rfl
    · exact .inl (hdigits c hc)
  · exact .inl (hdigits c hc)

theorem toText_ne_nil_mark (v : Int32) : toText v ≠ ['$'] := by
  intro heq
  rcases toText_mem (v := v) (c := '$') (heq ▸ List.mem_cons_self) with hc | hc
  · cases hc
  · cases hc

/-! ## Writing -/

variable {heap heap' : List TreeNode} {root : Option ℕ} {t l r : Tree} {queue : List Tree}
  {tokens : List (List Char)}

theorem serializeLoop_eq (h : Tokens queue tokens) {pending : List (Option ℕ)}
    (hpending : List.Forall₂ (Holds heap) pending queue) {fuel : ℕ} (hfuel : tokens.length < fuel)
    (data : List Char) :
    serializeLoop heap fuel pending data = some (data ++ tokens.flatMap (· ++ [' '])) := by
  induction h generalizing pending fuel data with
  | done =>
      obtain ⟨fuel, rfl⟩ := Nat.exists_eq_add_of_le' (Nat.one_le_of_lt hfuel)
      cases hpending
      rw [serializeLoop, List.flatMap_nil, List.append_nil]
  | nil _ ih =>
      obtain ⟨fuel, rfl⟩ := Nat.exists_eq_add_of_le' (Nat.one_le_of_lt hfuel)
      cases hpending with
      | cons hp hrest =>
          obtain rfl := hp
          rw [serializeLoop, ih hrest (Nat.lt_of_succ_lt_succ hfuel), List.flatMap_cons,
            List.append_assoc, List.append_assoc, List.append_assoc]
  | node _ ih =>
      obtain ⟨fuel, rfl⟩ := Nat.exists_eq_add_of_le' (Nat.one_le_of_lt hfuel)
      cases hpending with
      | cons hp hrest =>
          obtain ⟨a, n, rfl, hn, rfl, hleft, hright⟩ := hp
          have hnext := List.rel_append hrest (.cons hleft (.cons hright .nil))
          rw [serializeLoop, hn, List.flatMap_cons]
          dsimp only [Option.bind_eq_bind, Option.bind_some]
          rw [ih hnext (Nat.lt_of_succ_lt_succ hfuel), List.append_assoc, List.append_assoc,
            List.append_assoc]

theorem serialize_eq (h : Tokens [t] tokens) (hroot : Holds heap root t) {fuel : ℕ}
    (hfuel : tokens.length < fuel) :
    serialize fuel heap root = some (tokens.flatMap (· ++ [' '])) :=
  serializeLoop_eq h (.cons hroot .nil) hfuel []

theorem Tokens.no_space (h : Tokens queue tokens) : ∀ token ∈ tokens, ' ' ∉ token := by
  induction h with
  | done => exact List.forall_mem_nil _
  | nil _ ih => exact List.forall_mem_cons.mpr ⟨by decide, ih⟩
  | node _ ih =>
      refine List.forall_mem_cons.mpr ⟨fun hmem => ?_, ih⟩
      rcases toText_mem hmem with hc | hc
      · cases hc
      · cases hc

/-! ## Reading -/

variable {values : List (List Char)} {it low : ℕ}

/-- A pointer to a node that has just been allocated, without its children. -/
def Allocated (low : ℕ) (heap : List TreeNode) : Option ℕ → Tree → Prop
  | p, .nil => p = none
  | p, .node _ v _ => ∃ a, p = some a ∧ low ≤ a ∧ heap[a]? = some ⟨v, none, none⟩

theorem getElem?_append_of_some {a : ℕ} {n : TreeNode} (hn : heap[a]? = some n)
    (news : List TreeNode) : (heap ++ news)[a]? = some n := by
  obtain ⟨ha, rfl⟩ := List.getElem?_eq_some_iff.mp hn
  rw [List.getElem?_append_left ha, List.getElem?_eq_getElem ha]

/-- A child is read: its token is consumed, and its node is allocated at the end. -/
theorem readChild_spec (h : Tokens (t :: queue) (values.drop it)) (heap : List TreeNode) :
    ∃ p news, readChild values it heap = some (p, heap ++ news) ∧
      Allocated heap.length (heap ++ news) p t ∧ (∀ a, p = some a → a < (heap ++ news).length) ∧
      Tokens (queue ++ t.children) (values.drop (it + 1)) := by
  obtain ⟨token, rest, hdrop⟩ : ∃ token rest, values.drop it = token :: rest := by
    cases hvalues : values.drop it with
    | nil =>
        rw [hvalues] at h
        cases h
    | cons token rest => exact ⟨token, rest, rfl⟩
  have hget : values[it]? = some token := by
    have hhead : (values.drop it)[0]? = values[it]? := List.getElem?_drop
    rw [hdrop] at hhead
    exact hhead.symm
  have hnext : values.drop (it + 1) = rest := by
    rw [← List.drop_drop, hdrop]
    rfl
  rw [hdrop] at h
  rw [readChild, hget, hnext]
  dsimp only [Option.bind_eq_bind, Option.bind_some]
  cases h with
  | nil htokens =>
      refine ⟨none, [], ?_, rfl, ?_, ?_⟩
      · rw [if_pos rfl, List.append_nil]
      · intro a ha
        cases ha
      · rwa [Tree.children, List.append_nil]
  | @node l v r _ _ htokens =>
      refine ⟨some heap.length, [⟨v, none, none⟩], ?_, ⟨_, rfl, le_rfl, ?_⟩, ?_, htokens⟩
      · rw [if_neg (toText_ne_nil_mark v), stoi_toText]
        rfl
      · rw [List.getElem?_append_right le_rfl, Nat.sub_self]
        rfl
      · rintro a ⟨⟩
        rw [List.length_append]
        exact Nat.lt_succ_self _

/-- What the loop leaves: the tree of each node in the queue, and every other node as it was. -/
structure Completed (heap heap' : List TreeNode) (pending : List (ℕ × Tree)) : Prop where
  holds : ∀ x ∈ pending, Holds heap' (some x.1) x.2
  frame : ∀ a < heap.length, a ∉ pending.map Prod.fst → heap'[a]? = heap[a]?

/-- The nodes in the queue, each with the tree that it is to become. -/
structure Pending (heap : List TreeNode) (pending : List (ℕ × Tree)) : Prop where
  fresh : ∀ x ∈ pending, ∃ l v r, x.2 = .node l v r ∧ heap[x.1]? = some ⟨v, none, none⟩
  nodup : (pending.map Prod.fst).Nodup

/-- A child as an entry of the queue. -/
def entry (p : Option ℕ) (t : Tree) : List (ℕ × Tree) := p.toList.map fun a => (a, t)

theorem entry_fst (p : Option ℕ) (t : Tree) : (entry p t).map Prod.fst = p.toList := by
  rw [entry, List.map_map]
  exact List.map_id _

theorem Allocated.children {p : Option ℕ} (h : Allocated low heap p t) :
    (entry p t).flatMap (fun x => x.2.children) = t.children := by
  cases t with
  | nil =>
      obtain rfl := h
      rfl
  | node l v r =>
      obtain ⟨a, rfl, -⟩ := h
      rfl

theorem Allocated.count {p : Option ℕ} (h : Allocated low heap p t) :
    ((entry p t).map fun x => x.2.count).sum = t.count := by
  cases t with
  | nil =>
      obtain rfl := h
      rfl
  | node l v r =>
      obtain ⟨a, rfl, -⟩ := h
      rfl

theorem Allocated.fresh {p : Option ℕ} (h : Allocated low heap p t) : ∀ x ∈ entry p t,
    low ≤ x.1 ∧ ∃ l v r, x.2 = .node l v r ∧ heap[x.1]? = some ⟨v, none, none⟩ := by
  intro x hx
  cases t with
  | nil =>
      obtain rfl := h
      cases hx
  | node l v r =>
      obtain ⟨a, rfl, hlow, hget⟩ := h
      obtain rfl := List.mem_singleton.mp hx
      exact ⟨hlow, l, v, r, rfl, hget⟩

theorem Allocated.holds {p : Option ℕ} (h : Allocated low heap p t)
    (hholds : ∀ x ∈ entry p t, Holds heap' (some x.1) x.2) : Holds heap' p t := by
  cases t with
  | nil => exact h
  | node l v r =>
      obtain ⟨a, rfl, -⟩ := h
      exact hholds (a, .node l v r) (List.mem_singleton.mpr rfl)

theorem Allocated.congr {p : Option ℕ} (h : Allocated low heap p t)
    (hframe : ∀ a, low ≤ a → a < heap.length → heap'[a]? = heap[a]?) : Allocated low heap' p t := by
  cases t with
  | nil => exact h
  | node l v r =>
      obtain ⟨a, rfl, hlow, hget⟩ := h
      have ha := (List.getElem?_eq_some_iff.mp hget).1
      exact ⟨a, rfl, hlow, (hframe a hlow ha).trans hget⟩

/-- What one turn of the loop does to the heap. -/
structure Linked (heap heap' : List TreeNode) (node : ℕ) (v : Int32) (left : Option ℕ) (l : Tree)
    (right : Option ℕ) (r : Tree) : Prop where
  linked : heap'[node]? = some ⟨v, left, right⟩
  left_allocated : Allocated heap.length heap' left l
  right_allocated : Allocated heap.length heap' right r
  distinct : ∀ a, left = some a → right ≠ some a
  frame : ∀ a < heap.length, a ≠ node → heap'[a]? = heap[a]?
  length_le : heap.length ≤ heap'.length

theorem deserializeLoop_step {node : ℕ} {v : Int32} (hnode : heap[node]? = some ⟨v, none, none⟩)
    (h : Tokens (l :: r :: queue) (values.drop it)) (fuel : ℕ) (pending : List ℕ) :
    ∃ heap' left right,
      deserializeLoop values (fuel + 1) heap (node :: pending) it =
        deserializeLoop values fuel heap' (pending ++ left.toList ++ right.toList) (it + 2) ∧
      Linked heap heap' node v left l right r ∧
      Tokens (queue ++ l.children ++ r.children) (values.drop (it + 2)) := by
  have hlt : node < heap.length := (List.getElem?_eq_some_iff.mp hnode).1
  obtain ⟨left, news1, hread1, hleft, hbound, htokens1⟩ := readChild_spec h heap
  have hget1 : (heap ++ news1)[node]? = some ⟨v, none, none⟩ := getElem?_append_of_some hnode news1
  obtain ⟨right, news2, hread2, hright, -, htokens2⟩ :=
    readChild_spec htokens1 ((heap ++ news1).set node ⟨v, left, none⟩)
  have hget2 : ((heap ++ news1).set node ⟨v, left, none⟩ ++ news2)[node]? =
      some ⟨v, left, none⟩ := by
    apply getElem?_append_of_some
    rw [List.getElem?_set_self (by rw [List.length_append]; omega)]
  have hlength1 : heap.length ≤ (heap ++ news1).length := by simp
  have hlength2 : (heap ++ news1).length ≤
      ((heap ++ news1).set node ⟨v, left, none⟩ ++ news2).length := by simp
  have hset : ((heap ++ news1).set node ⟨v, left, none⟩).length = (heap ++ news1).length :=
    List.length_set
  refine ⟨((heap ++ news1).set node ⟨v, left, none⟩ ++ news2).set node ⟨v, left, right⟩, left,
    right, ?_, ⟨?_, ?_, ?_, ?_, ?_, ?_⟩, htokens2⟩
  · rw [deserializeLoop, hread1]
    dsimp only [Option.bind_eq_bind, Option.bind_some]
    rw [hget1]
    dsimp only [Option.bind_some]
    rw [hread2]
    dsimp only [Option.bind_some]
    rw [hget2]
    rfl
  · exact List.getElem?_set_self (by omega)
  · apply hleft.congr
    intro a hlow ha
    rw [List.getElem?_set_ne (by omega), List.getElem?_append_left (by omega),
      List.getElem?_set_ne (by omega)]
  · have hlow : Allocated heap.length
        ((heap ++ news1).set node ⟨v, left, none⟩ ++ news2) right r := by
      cases r with
      | nil => exact hright
      | node _ w _ =>
          obtain ⟨a, ha, hle, hget⟩ := hright
          exact ⟨a, ha, by omega, hget⟩
    apply hlow.congr
    intro a hle ha
    rw [List.getElem?_set_ne (by omega)]
  · intro a ha hright'
    have hless := hbound a ha
    cases r with
    | nil =>
        obtain rfl := hright
        cases hright'
    | node _ w _ =>
        obtain ⟨b, hb, hle, -⟩ := hright
        obtain rfl := Option.some.inj (hb.symm.trans hright')
        omega
  · intro a ha hne
    rw [List.getElem?_set_ne hne.symm, List.getElem?_append_left (by omega),
      List.getElem?_set_ne hne.symm, List.getElem?_append_left ha]
  · rw [List.length_set]
    omega

theorem Linked.pending {node : ℕ} {v : Int32} {left right : Option ℕ} {rest : List (ℕ × Tree)}
    (h : Linked heap heap' node v left l right r)
    (hpending : Pending heap ((node, .node l v r) :: rest)) :
    Pending heap' (rest ++ entry left l ++ entry right r) ∧
      ∀ a ∈ (rest ++ entry left l ++ entry right r).map Prod.fst,
        a ∈ rest.map Prod.fst ∨ heap.length ≤ a := by
  obtain ⟨hfresh, hnodup⟩ := hpending
  obtain ⟨hnode, hnodup⟩ := List.nodup_cons.mp hnodup
  have hrest : ∀ x ∈ rest, x.1 < heap.length := by
    intro x hx
    obtain ⟨_, _, _, -, hget⟩ := hfresh x (List.mem_cons_of_mem _ hx)
    exact (List.getElem?_eq_some_iff.mp hget).1
  have hleft := h.left_allocated.fresh
  have hright := h.right_allocated.fresh
  refine ⟨⟨?_, ?_⟩, ?_⟩
  · intro x hx
    rcases List.mem_append.mp hx with hx | hx
    · rcases List.mem_append.mp hx with hx | hx
      · have hne : x.1 ≠ node := by
          intro heq
          have hmem := List.mem_map_of_mem (f := Prod.fst) hx
          rw [heq] at hmem
          exact hnode hmem
        rw [h.frame x.1 (hrest x hx) hne]
        exact hfresh x (List.mem_cons_of_mem _ hx)
      · exact (hleft x hx).2
    · exact (hright x hx).2
  · have hsingle (p : Option ℕ) : p.toList.Nodup := by
      cases p with
      | none => exact List.nodup_nil
      | some a => exact List.nodup_singleton a
    have hsmall : ∀ a ∈ rest.map Prod.fst, a < heap.length := by
      intro a ha
      obtain ⟨x, hx, rfl⟩ := List.mem_map.mp ha
      exact hrest x hx
    have hlarge {p : Option ℕ} {t : Tree}
        (hp : ∀ x ∈ entry p t, heap.length ≤ x.1 ∧ ∃ l v r, x.2 = Tree.node l v r ∧
          heap'[x.1]? = some ⟨v, none, none⟩) : ∀ a ∈ p.toList, heap.length ≤ a :=
      fun a ha => (hp (a, t) (List.mem_map.mpr ⟨a, ha, rfl⟩)).1
    rw [List.map_append, List.map_append, entry_fst, entry_fst]
    refine List.Nodup.append (List.Nodup.append hnodup (hsingle left) ?_) (hsingle right) ?_
    · intro a hmem ha
      exact absurd (hlarge hleft a ha) (Nat.not_le.mpr (hsmall a hmem))
    · intro a hmem ha
      rcases List.mem_append.mp hmem with hmem | hmem
      · exact absurd (hlarge hright a ha) (Nat.not_le.mpr (hsmall a hmem))
      · exact h.distinct a (Option.mem_toList.mp hmem) (Option.mem_toList.mp ha)
  · intro a ha
    obtain ⟨x, hx, rfl⟩ := List.mem_map.mp ha
    rcases List.mem_append.mp hx with hx | hx
    · rcases List.mem_append.mp hx with hx | hx
      · exact .inl (List.mem_map_of_mem hx)
      · exact .inr (hleft x hx).1
    · exact .inr (hright x hx).1

/-- **The loop**, by induction on its turns: the tokens ahead are those of the children of the
nodes in the queue. -/
theorem deserializeLoop_spec {fuel : ℕ} {pending : List (ℕ × Tree)}
    (hpending : Pending heap pending)
    (htokens : Tokens (pending.flatMap fun x => x.2.children) (values.drop it))
    (hfuel : (pending.map fun x => x.2.count).sum < fuel) :
    ∃ heap', deserializeLoop values fuel heap (pending.map Prod.fst) it = some heap' ∧
      Completed heap heap' pending := by
  induction fuel generalizing heap pending it with
  | zero => exact absurd hfuel (Nat.not_lt_zero _)
  | succ fuel ih =>
      cases pending with
      | nil => exact ⟨heap, rfl, List.forall_mem_nil _, fun _ _ _ => rfl⟩
      | cons x rest =>
          obtain ⟨node, t⟩ := x
          obtain ⟨l, v, r, rfl, hnode⟩ := hpending.fresh _ List.mem_cons_self
          obtain ⟨heap', left, right, hstep, hlinked, htokens'⟩ :=
            deserializeLoop_step hnode htokens fuel (rest.map Prod.fst)
          obtain ⟨hpending', hnew⟩ := hlinked.pending hpending
          have hcount : ((rest ++ entry left l ++ entry right r).map fun x => x.2.count).sum <
              fuel := by
            rw [List.map_append, List.map_append, List.sum_append, List.sum_append,
              hlinked.left_allocated.count, hlinked.right_allocated.count]
            simp only [List.map_cons, List.sum_cons, Tree.count] at hfuel
            omega
          have htokens'' : Tokens
              ((rest ++ entry left l ++ entry right r).flatMap fun x => x.2.children)
              (values.drop (it + 2)) := by
            rwa [List.flatMap_append, List.flatMap_append, hlinked.left_allocated.children,
              hlinked.right_allocated.children]
          obtain ⟨heap'', hloop, hholds, hframe⟩ := ih hpending' htokens'' hcount
          rw [List.map_append, List.map_append, entry_fst, entry_fst] at hloop
          have hlt : node < heap.length := (List.getElem?_eq_some_iff.mp hnode).1
          have hnotin := (List.nodup_cons.mp hpending.nodup).1
          refine ⟨heap'', hstep.trans hloop, ?_, ?_⟩
          · refine List.forall_mem_cons.mpr ⟨?_, ?_⟩
            · -- the node is not written again
              have hkept : heap''[node]? = heap'[node]? := by
                apply hframe node (hlt.trans_le hlinked.length_le)
                intro hmem
                rcases hnew node hmem with hmem | hle
                · exact hnotin hmem
                · exact absurd hle (Nat.not_le.mpr hlt)
              refine ⟨node, _, rfl, hkept.trans hlinked.linked, rfl, ?_, ?_⟩
              · exact hlinked.left_allocated.holds fun x hx =>
                  hholds x (List.mem_append_left _ (List.mem_append_right _ hx))
              · exact hlinked.right_allocated.holds fun x hx =>
                  hholds x (List.mem_append_right _ hx)
            · exact fun x hx => hholds x (List.mem_append_left _ (List.mem_append_left _ hx))
          · intro a ha hmem
            obtain ⟨hne, hrest⟩ := not_or.mp (mt List.mem_cons.mpr hmem)
            rw [← hlinked.frame a ha hne]
            apply hframe a (ha.trans_le hlinked.length_le)
            intro hmem
            rcases hnew a hmem with hmem | hle
            · exact hrest hmem
            · exact absurd hle (Nat.not_le.mpr ha)

/-- **The round trip.** -/
theorem deserialize_serialize (hroot : Holds heap root t) :
    ∃ fuel data root' heap', serialize fuel heap root = some data ∧
      deserialize fuel data = some (root', heap') ∧ Holds heap' root' t := by
  obtain ⟨tokens, htokens⟩ := exists_tokens [t]
  have hserialize := serialize_eq htokens hroot
    (show tokens.length < tokens.length + t.count + 1 by omega)
  have hsplit := fields_flatMap htokens.no_space
    (show tokens.length < tokens.length + t.count + 1 by omega)
  cases htokens with
  | nil _ =>
      refine ⟨_, _, none, [], hserialize, ?_, rfl⟩
      rw [deserialize, hsplit]
      rfl
  | @node l v r _ tokens hchildren =>
      have hpending : Pending [⟨v, none, none⟩] [(0, .node l v r)] := by
        refine ⟨?_, List.nodup_singleton 0⟩
        intro x hx
        obtain rfl := List.mem_singleton.mp hx
        exact ⟨l, v, r, rfl, rfl⟩
      have hread : ∃ heap', deserializeLoop (toText v :: tokens)
          ((toText v :: tokens).length + (Tree.node l v r).count + 1) [⟨v, none, none⟩] [0] 1 =
            some heap' ∧ Completed [⟨v, none, none⟩] heap' [(0, .node l v r)] :=
        deserializeLoop_spec hpending hchildren (Nat.lt_succ_of_le (Nat.le_add_left _ _))
      obtain ⟨heap', hloop, hholds, -⟩ := hread
      refine ⟨_, _, some 0, heap', hserialize, ?_, hholds _ List.mem_cons_self⟩
      rw [deserialize, hsplit]
      dsimp only [Option.bind_eq_bind, Option.bind_some, List.getElem?_cons_zero]
      rw [if_neg (toText_ne_nil_mark v), stoi_toText]
      dsimp only [Option.bind_some]
      rw [hloop]
      rfl

/-- A node that has a right child only. -/
theorem deserialize_serialize_right :
    ∃ fuel data root' heap',
      serialize fuel [⟨-7, none, some 1⟩, ⟨3, none, none⟩] (some 0) = some data ∧
        deserialize fuel data = some (root', heap') ∧
        Holds heap' root' (.node .nil (-7) (.node .nil 3 .nil)) :=
  deserialize_serialize ⟨0, _, rfl, rfl, rfl, rfl, 1, _, rfl, rfl, rfl, rfl, rfl⟩

end Eureka.Leetcode.BinaryTreeCodec

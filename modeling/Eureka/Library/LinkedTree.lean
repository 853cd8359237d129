import Mathlib

/-!
# Binary trees in a memory

A memory is a list of nodes, an address an index of it.  `Linked heap root t` says that the pointer
`root` leads to the tree `t`, whose labels are the addresses of its nodes with their values.

* `Linked.congr`: a tree does not depend on nodes that are not in it;
* `Linked.set_node`: a node is linked above two trees;
* `isBST_iff`: a search tree is one whose values increase from left to right.
-/

namespace Eureka.LinkedTree

variable {α : Type*}

structure TreeNode (α : Type*) where
  val : α
  left : Option ℕ
  right : Option ℕ
deriving DecidableEq, Repr

inductive Stop where
  | dangling (p : ℕ)
  | outOfFuel
deriving DecidableEq, Repr

def node (heap : List (TreeNode α)) (p : ℕ) : Except Stop (TreeNode α) :=
  heap[p]?.elim (.error (.dangling p)) .ok

def setLeft (heap : List (TreeNode α)) (p : ℕ) (left : Option ℕ) :
    Except Stop (List (TreeNode α)) := do
  let n ← node heap p
  .ok (heap.set p { n with left := left })

def setRight (heap : List (TreeNode α)) (p : ℕ) (right : Option ℕ) :
    Except Stop (List (TreeNode α)) := do
  let n ← node heap p
  .ok (heap.set p { n with right := right })

/-- The nodes from left to right. -/
def cells : BinaryTree (ℕ × α) → List (ℕ × α)
  | .nil => []
  | .node c l r => cells l ++ c :: cells r

def addresses (t : BinaryTree (ℕ × α)) : List ℕ := (cells t).map Prod.fst

def Linked (heap : List (TreeNode α)) : Option ℕ → BinaryTree (ℕ × α) → Prop
  | root, .nil => root = none
  | root, .node c l r => root = some c.1 ∧ ∃ left right, heap[c.1]? = some ⟨c.2, left, right⟩ ∧
      Linked heap left l ∧ Linked heap right r

variable {heap heap' : List (TreeNode α)} {root left right : Option ℕ} {p q : ℕ} {v : α}
  {t l r : BinaryTree (ℕ × α)} {c : ℕ × α}

theorem node_eq {n : TreeNode α} (h : heap[p]? = some n) : node heap p = .ok n := by
  rw [node, h, Option.elim_some]

theorem setLeft_eq {n : TreeNode α} (h : heap[p]? = some n) (left : Option ℕ) :
    setLeft heap p left = .ok (heap.set p { n with left := left }) := by
  rw [setLeft, node_eq h]
  rfl

theorem setRight_eq {n : TreeNode α} (h : heap[p]? = some n) (right : Option ℕ) :
    setRight heap p right = .ok (heap.set p { n with right := right }) := by
  rw [setRight, node_eq h]
  rfl

@[simp] theorem cells_nil : cells (.nil : BinaryTree (ℕ × α)) = [] := rfl

@[simp] theorem cells_node : cells (.node c l r) = cells l ++ c :: cells r := rfl

@[simp] theorem addresses_nil : addresses (.nil : BinaryTree (ℕ × α)) = [] := rfl

@[simp] theorem addresses_node :
    addresses (.node c l r) = addresses l ++ c.1 :: addresses r := by
  rw [addresses, cells_node, List.map_append, List.map_cons]
  rfl

theorem linked_none : Linked heap none t ↔ t = .nil := by
  cases t with
  | nil => exact iff_of_true rfl rfl
  | node c l r =>
      refine iff_of_false ?_ (by rintro ⟨⟩)
      rintro ⟨hroot, -⟩
      cases hroot

theorem Linked.exists_node (h : Linked heap (some p) t) :
    ∃ v left right l r, t = .node (p, v) l r ∧ heap[p]? = some ⟨v, left, right⟩ ∧
      Linked heap left l ∧ Linked heap right r := by
  cases t with
  | nil => cases h
  | node c l r =>
      obtain ⟨hp, left, right, hnode, hl, hr⟩ := h
      obtain rfl := Option.some.inj hp
      exact ⟨c.2, left, right, l, r, rfl, hnode, hl, hr⟩

theorem Linked.node_of_mem (h : Linked heap root t) (hc : c ∈ cells t) :
    ∃ left right, heap[c.1]? = some ⟨c.2, left, right⟩ := by
  induction t generalizing root with
  | nil => cases hc
  | node d l r ihl ihr =>
      obtain ⟨-, left, right, hnode, hl, hr⟩ := h
      rcases List.mem_append.mp hc with hc | hc
      · exact ihl hl hc
      · rcases List.mem_cons.mp hc with rfl | hc
        · exact ⟨left, right, hnode⟩
        · exact ihr hr hc

/-- **Other nodes** do not matter. -/
theorem Linked.congr (h : Linked heap root t) (hsame : ∀ q ∈ addresses t, heap'[q]? = heap[q]?) :
    Linked heap' root t := by
  induction t generalizing root with
  | nil => exact h
  | node c l r ihl ihr =>
      obtain ⟨hp, left, right, hnode, hl, hr⟩ := h
      rw [addresses_node] at hsame
      refine ⟨hp, left, right, ?_, ihl hl fun q hq => ?_, ihr hr fun q hq => ?_⟩
      · rw [hsame c.1 (List.mem_append_right _ List.mem_cons_self), hnode]
      · exact hsame q (List.mem_append_left _ hq)
      · exact hsame q (List.mem_append_right _ (List.mem_cons_of_mem _ hq))

theorem Linked.set (h : Linked heap root t) (hp : p ∉ addresses t) (n : TreeNode α) :
    Linked (heap.set p n) root t :=
  h.congr fun q hq => List.getElem?_set_ne (by rintro rfl; exact hp hq)

/-- **A node above** two trees. -/
theorem Linked.set_node (hl : Linked heap left l) (hr : Linked heap right r) (hp : p < heap.length)
    (hpl : p ∉ addresses l) (hpr : p ∉ addresses r) (v : α) :
    Linked (heap.set p ⟨v, left, right⟩) (some p) (.node (p, v) l r) :=
  ⟨rfl, left, right, List.getElem?_set_self hp, hl.set hpl _, hr.set hpr _⟩

/-! ## Search trees -/

section Order

variable [LinearOrder α]

def IsBST : BinaryTree (ℕ × α) → Prop
  | .nil => True
  | .node c l r =>
      (∀ d ∈ cells l, d.2 < c.2) ∧ (∀ d ∈ cells r, c.2 < d.2) ∧ IsBST l ∧ IsBST r

/-- **From left to right** the values increase. -/
theorem isBST_iff : IsBST t ↔ (cells t).Pairwise fun c d => c.2 < d.2 := by
  induction t with
  | nil => exact iff_of_true trivial .nil
  | node c l r ihl ihr =>
      rw [IsBST, ihl, ihr, cells_node, List.pairwise_append, List.pairwise_cons]
      constructor
      · rintro ⟨hlc, hcr, hl, hr⟩
        refine ⟨hl, ⟨hcr, hr⟩, fun d hd e he => ?_⟩
        rcases List.mem_cons.mp he with rfl | he
        · exact hlc d hd
        · exact (hlc d hd).trans (hcr e he)
      · rintro ⟨hl, ⟨hcr, hr⟩, hcross⟩
        exact ⟨fun d hd => hcross d hd c List.mem_cons_self, hcr, hl, hr⟩

end Order

end Eureka.LinkedTree

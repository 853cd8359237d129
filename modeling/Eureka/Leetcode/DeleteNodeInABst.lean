import Eureka.Library.LinkedTree

/-!
# Deleting a node of a search tree

`deleteNode` puts the successor of a node with two children in its place: it is taken out of the
right subtree and then linked above what is left of that and above the left subtree.

* `minNode_spec`, `deleteMin_spec`: the first node from left to right, and the tree without it;
* `replace_spec`: the successor above the two subtrees;
* `deleteNode_spec`: a search tree of the nodes whose value is not the key.
-/

namespace Eureka.Leetcode.DeleteNodeInABst

open LinkedTree

/-! ## The code -/

/-- Addresses of nodes; the heap is what the pointers lead to. -/
abbrev Heap := List (TreeNode ℤ)

def minNode (heap : Heap) : ℕ → ℕ → Except Stop ℕ
  | 0, _ => .error .outOfFuel
  | fuel + 1, p => do
      let n ← node heap p
      match n.left with
      | none => .ok p
      | some left => minNode heap fuel left

def deleteMin : ℕ → Heap → ℕ → Except Stop (Option ℕ × Heap)
  | 0, _, _ => .error .outOfFuel
  | fuel + 1, heap, p => do
      let n ← node heap p
      match n.left with
      | none => .ok (n.right, heap)
      | some left => do
          let (left, heap) ← deleteMin fuel heap left
          let heap ← setLeft heap p left
          .ok (some p, heap)

/-- `successor->right = DeleteMin(root->right); successor->left = root->left;` -/
def replace (fuel : ℕ) (heap : Heap) (root right : ℕ) : Except Stop (Option ℕ × Heap) := do
  let successor ← minNode heap fuel right
  let (rest, heap) ← deleteMin fuel heap right
  let heap ← setRight heap successor rest
  let n ← node heap root
  let heap ← setLeft heap successor n.left
  .ok (some successor, heap)

def deleteNode : ℕ → Heap → Option ℕ → ℤ → Except Stop (Option ℕ × Heap)
  | 0, _, _, _ => .error .outOfFuel
  | _ + 1, heap, none, _ => .ok (none, heap)
  | fuel + 1, heap, some root, key => do
      let n ← node heap root
      if key < n.val then
        let (left, heap) ← deleteNode fuel heap n.left key
        let heap ← setLeft heap root left
        .ok (some root, heap)
      else if key > n.val then
        let (right, heap) ← deleteNode fuel heap n.right key
        let heap ← setRight heap root right
        .ok (some root, heap)
      else
        match n.left, n.right with
        | none, right => .ok (right, heap)
        | left, none => .ok (left, heap)
        | some _, some right => replace fuel heap root right

/-! ## The first node -/

variable {heap heap' : Heap} {root : Option ℕ} {p fuel : ℕ} {t : BinaryTree (ℕ × ℤ)}

theorem minNode_spec (h : Linked heap (some p) t) (hfuel : (cells t).length < fuel) :
    ∃ c rest, cells t = c :: rest ∧ minNode heap fuel p = .ok c.1 := by
  induction fuel generalizing p t with
  | zero => exact absurd hfuel (Nat.not_lt_zero _)
  | succ fuel ih =>
      obtain ⟨v, left, right, l, r, rfl, hnode, hl, hr⟩ := h.exists_node
      rw [minNode, node_eq hnode]
      cases left with
      | none =>
          obtain rfl := linked_none.mp hl
          exact ⟨(p, v), cells r, rfl, rfl⟩
      | some left =>
          rw [cells_node, List.length_append, List.length_cons] at hfuel
          obtain ⟨c, rest, hcells, hmin⟩ := ih hl (by omega)
          refine ⟨c, rest ++ (p, v) :: cells r, ?_, hmin⟩
          rw [cells_node, hcells, List.cons_append]

/-! ## What is left -/

/-- A tree of these nodes, with all other nodes as they were. -/
structure Leaves (heap : Heap) (rest : List (ℕ × ℤ)) (result : Option ℕ × Heap) : Prop where
  tree : ∃ t, Linked result.2 result.1 t ∧ cells t = rest
  same : ∀ q, q ∉ rest.map Prod.fst → result.2[q]? = heap[q]?

variable {v : ℤ} {left right root' : Option ℕ} {l r : BinaryTree (ℕ × ℤ)} {rest : List (ℕ × ℤ)}

theorem lt_length {n : TreeNode ℤ} (h : heap[p]? = some n) : p < heap.length :=
  (List.getElem?_eq_some_iff.mp h).1

theorem Leaves.setLeft (h : Leaves heap rest (root', heap'))
    (hnode : heap[p]? = some ⟨v, left, right⟩) (hr : Linked heap right r)
    (hnodup : (rest.map Prod.fst ++ p :: addresses r).Nodup) :
    ∃ heap'', setLeft heap' p root' = .ok heap'' ∧
      Leaves heap (rest ++ (p, v) :: cells r) (some p, heap'') := by
  obtain ⟨⟨t, ht, rfl⟩, hsame⟩ := h
  obtain ⟨-, hpr, hdisjoint⟩ := List.nodup_append.mp hnodup
  obtain ⟨hp, -⟩ := List.nodup_cons.mp hpr
  have hpt : p ∉ addresses t := fun hmem => hdisjoint p hmem p List.mem_cons_self rfl
  have hnode' : heap'[p]? = some ⟨v, left, right⟩ := (hsame p hpt).trans hnode
  have hr' : Linked heap' right r := hr.congr fun q hq =>
    hsame q fun hmem => hdisjoint q hmem q (List.mem_cons_of_mem p hq) rfl
  refine ⟨_, setLeft_eq hnode' root', ⟨_, ht.set_node hr' (lt_length hnode') hpt hp v, rfl⟩, ?_⟩
  intro q hq
  rw [List.map_append, List.map_cons, List.mem_append, List.mem_cons, not_or, not_or] at hq
  exact (List.getElem?_set_ne (Ne.symm hq.2.1)).trans (hsame q hq.1)

theorem Leaves.setRight (h : Leaves heap rest (root', heap'))
    (hnode : heap[p]? = some ⟨v, left, right⟩) (hl : Linked heap left l)
    (hnodup : (addresses l ++ p :: rest.map Prod.fst).Nodup) :
    ∃ heap'', setRight heap' p root' = .ok heap'' ∧
      Leaves heap (cells l ++ (p, v) :: rest) (some p, heap'') := by
  obtain ⟨⟨t, ht, rfl⟩, hsame⟩ := h
  obtain ⟨-, hpt, hdisjoint⟩ := List.nodup_append.mp hnodup
  obtain ⟨hpt, -⟩ := List.nodup_cons.mp hpt
  have hp : p ∉ addresses l := fun hmem => hdisjoint p hmem p List.mem_cons_self rfl
  have hnode' : heap'[p]? = some ⟨v, left, right⟩ := (hsame p hpt).trans hnode
  have hl' : Linked heap' left l := hl.congr fun q hq =>
    hsame q fun hmem => hdisjoint q hq q (List.mem_cons_of_mem p hmem) rfl
  refine ⟨_, setRight_eq hnode' root', ⟨_, hl'.set_node ht (lt_length hnode') hp hpt v, rfl⟩, ?_⟩
  intro q hq
  rw [List.map_append, List.map_cons, List.mem_append, List.mem_cons, not_or, not_or] at hq
  exact (List.getElem?_set_ne (Ne.symm hq.2.1)).trans (hsame q hq.2.2)

theorem deleteMin_spec (h : Linked heap (some p) t) (hnodup : (addresses t).Nodup)
    (hfuel : (cells t).length < fuel) :
    ∃ result, deleteMin fuel heap p = .ok result ∧ Leaves heap (cells t).tail result := by
  induction fuel generalizing p t with
  | zero => exact absurd hfuel (Nat.not_lt_zero _)
  | succ fuel ih =>
      obtain ⟨v, left, right, l, r, rfl, hnode, hl, hr⟩ := h.exists_node
      rw [deleteMin, node_eq hnode]
      cases left with
      | none =>
          obtain rfl := linked_none.mp hl
          exact ⟨(right, heap), rfl, ⟨r, hr, rfl⟩, fun _ _ => rfl⟩
      | some left =>
          obtain ⟨w, left', right', l', r', rfl, -⟩ := hl.exists_node
          rw [addresses_node] at hnodup
          rw [cells_node, List.length_append, List.length_cons] at hfuel
          obtain ⟨hnl, -⟩ := List.nodup_append.mp hnodup
          obtain ⟨⟨root', heap'⟩, hrun, hleaves⟩ := ih hl hnl (by omega)
          obtain ⟨heap'', hset, hresult⟩ := hleaves.setLeft hnode hr
            (hnodup.sublist (((List.tail_sublist _).map _).append (List.Sublist.refl _)))
          refine ⟨(some p, heap''), ?_, ?_⟩
          · change (deleteMin fuel heap left).bind _ = _
            rw [hrun]
            change (setLeft heap' p root').bind _ = _
            rw [hset]
            rfl
          · have hne : cells (.node (left, w) l' r') ≠ [] :=
              List.append_ne_nil_of_right_ne_nil _ (List.cons_ne_nil _ _)
            rwa [cells_node, List.tail_append_of_ne_nil hne]

/-- **The successor** comes above the two subtrees. -/
theorem replace_spec {root : ℕ} {lp rp : ℕ}
    (hnode : heap[root]? = some ⟨v, some lp, some rp⟩) (hl : Linked heap (some lp) l)
    (hr : Linked heap (some rp) r) (hnodup : (addresses l ++ root :: addresses r).Nodup)
    (hfuel : (cells r).length < fuel) :
    ∃ result, replace fuel heap root rp = .ok result ∧ Leaves heap (cells l ++ cells r) result := by
  obtain ⟨hnl, hnr, hdisjoint⟩ := List.nodup_append.mp hnodup
  obtain ⟨hroot, hnr⟩ := List.nodup_cons.mp hnr
  obtain ⟨c, rest, hcells, hmin⟩ := minNode_spec hr hfuel
  obtain ⟨⟨root', heap'⟩, hrun, hleaves⟩ := deleteMin_spec hr hnr hfuel
  rw [hcells, List.tail_cons] at hleaves
  have haddr : addresses r = c.1 :: rest.map Prod.fst := by rw [addresses, hcells, List.map_cons]
  obtain ⟨cl, cr, hc⟩ := hr.node_of_mem (hcells ▸ List.mem_cons_self)
  rw [haddr] at hdisjoint hroot hnr
  obtain ⟨hcrest, -⟩ := List.nodup_cons.mp hnr
  obtain ⟨hrootc, hrootrest⟩ := not_or.mp (mt List.mem_cons.mpr hroot)
  obtain ⟨⟨t, ht, rfl⟩, hsame⟩ := hleaves
  have hc' : heap'[c.1]? = some ⟨c.2, cl, cr⟩ := (hsame c.1 hcrest).trans hc
  have hclt := lt_length hc'
  let heap₁ := heap'.set c.1 ⟨c.2, cl, root'⟩
  have hroot' : heap₁[root]? = some ⟨v, some lp, some rp⟩ := by
    rw [List.getElem?_set_ne (Ne.symm hrootc)]
    exact (hsame root hrootrest).trans hnode
  have hc₁ : heap₁[c.1]? = some ⟨c.2, cl, root'⟩ := List.getElem?_set_self hclt
  have hl' : Linked heap' (some lp) l := hl.congr fun q hq => hsame q fun hmem =>
    hdisjoint q hq q (List.mem_cons_of_mem _ (List.mem_cons_of_mem _ hmem)) rfl
  have hcl : c.1 ∉ addresses l := fun hmem =>
    hdisjoint c.1 hmem c.1 (List.mem_cons_of_mem _ List.mem_cons_self) rfl
  have htree : Linked (heap₁.set c.1 ⟨c.2, some lp, root'⟩) (some c.1) (.node c l t) := by
    rw [List.set_set]
    exact hl'.set_node ht hclt hcl hcrest c.2
  refine ⟨(some c.1, heap₁.set c.1 ⟨c.2, some lp, root'⟩), ?_, ⟨_, htree, ?_⟩, fun q hq => ?_⟩
  · rw [replace, hmin]
    change (deleteMin fuel heap rp).bind _ = _
    rw [hrun]
    change (setRight heap' c.1 root').bind _ = _
    rw [setRight_eq hc']
    change (node heap₁ root).bind _ = _
    rw [node_eq hroot']
    change (setLeft heap₁ c.1 (some lp)).bind _ = _
    rw [setLeft_eq hc₁]
    rfl
  · rw [cells_node, hcells]
  · rw [hcells, List.map_append, List.map_cons, List.mem_append, List.mem_cons, not_or,
      not_or] at hq
    change (heap₁.set c.1 _)[q]? = _
    rw [List.set_set, List.getElem?_set_ne (Ne.symm hq.2.1)]
    exact hsame q hq.2.2

/-! ## The deletion -/

theorem filter_eq_self {key : ℤ} {cs : List (ℕ × ℤ)} (h : ∀ c ∈ cs, c.2 ≠ key) :
    cs.filter (·.2 ≠ key) = cs :=
  List.filter_eq_self.mpr fun c hc => decide_eq_true (h c hc)

theorem deleteNode_leaves (h : Linked heap root t) (hnodup : (addresses t).Nodup) (hbst : IsBST t)
    (key : ℤ) (hfuel : (cells t).length < fuel) :
    ∃ result, deleteNode fuel heap root key = .ok result ∧
      Leaves heap ((cells t).filter (·.2 ≠ key)) result := by
  induction fuel generalizing root t with
  | zero => exact absurd hfuel (Nat.not_lt_zero _)
  | succ fuel ih =>
      cases root with
      | none =>
          obtain rfl := linked_none.mp h
          exact ⟨(none, heap), rfl, ⟨.nil, rfl, rfl⟩, fun _ _ => rfl⟩
      | some p =>
          obtain ⟨v, left, right, l, r, rfl, hnode, hl, hr⟩ := h.exists_node
          obtain ⟨hlv, hvr, hbl, hbr⟩ := hbst
          rw [cells_node, List.length_append, List.length_cons] at hfuel
          rw [addresses_node] at hnodup
          obtain ⟨hnl, hnr, -⟩ := List.nodup_append.mp hnodup
          have hnr := (List.nodup_cons.mp hnr).2
          rw [deleteNode, node_eq hnode, cells_node, List.filter_append]
          change ∃ result, (if key < v then _ else if key > v then _ else _) = _ ∧ _
          split_ifs with hlt hgt
          · obtain ⟨⟨root', heap'⟩, hrun, hleaves⟩ := ih hl hnl hbl (by omega)
            obtain ⟨heap'', hset, hresult⟩ := hleaves.setLeft hnode hr
              (hnodup.sublist ((List.filter_sublist.map _).append (List.Sublist.refl _)))
            refine ⟨(some p, heap''), ?_, ?_⟩
            · change (deleteNode fuel heap left key).bind _ = _
              rw [hrun]
              change (setLeft heap' p root').bind _ = _
              rw [hset]
              rfl
            · rwa [filter_eq_self (List.forall_mem_cons.mpr
                ⟨hlt.ne', fun c hc => (hlt.trans (hvr c hc)).ne'⟩)]
          · obtain ⟨⟨root', heap'⟩, hrun, hleaves⟩ := ih hr hnr hbr (by omega)
            obtain ⟨heap'', hset, hresult⟩ := hleaves.setRight hnode hl (hnodup.sublist
              ((List.Sublist.refl _).append ((List.filter_sublist.map _).cons_cons p)))
            refine ⟨(some p, heap''), ?_, ?_⟩
            · change (deleteNode fuel heap right key).bind _ = _
              rw [hrun]
              change (setRight heap' p root').bind _ = _
              rw [hset]
              rfl
            · have hkeep : decide ((p, v).2 ≠ key) = true := decide_eq_true (ne_of_lt hgt)
              rwa [filter_eq_self fun c hc => ((hlv c hc).trans hgt).ne, List.filter_cons,
                if_pos hkeep]
          · obtain rfl : key = v := le_antisymm (not_lt.mp hgt) (not_lt.mp hlt)
            rw [filter_eq_self fun c hc => (hlv c hc).ne, List.filter_cons_of_neg (by simp),
              filter_eq_self fun c hc => (hvr c hc).ne']
            cases left with
            | none =>
                obtain rfl := linked_none.mp hl
                exact ⟨(right, heap), rfl, ⟨r, hr, rfl⟩, fun _ _ => rfl⟩
            | some left =>
                cases right with
                | none =>
                    obtain rfl := linked_none.mp hr
                    exact ⟨(some left, heap), rfl, ⟨l, hl, (List.append_nil _).symm⟩,
                      fun _ _ => rfl⟩
                | some right => exact replace_spec hnode hl hr hnodup (by omega)

/-- **The tree without the key**: a search tree of the remaining nodes, each once. -/
theorem deleteNode_spec (h : Linked heap root t) (hnodup : (addresses t).Nodup) (hbst : IsBST t)
    (key : ℤ) (hfuel : (cells t).length < fuel) :
    ∃ root' heap' t', deleteNode fuel heap root key = .ok (root', heap') ∧ Linked heap' root' t' ∧
      IsBST t' ∧ cells t' = (cells t).filter (·.2 ≠ key) ∧ (addresses t').Nodup := by
  obtain ⟨⟨root', heap'⟩, hrun, ⟨t', ht', hcells⟩, -⟩ := deleteNode_leaves h hnodup hbst key hfuel
  refine ⟨root', heap', t', hrun, ht', ?_, hcells, ?_⟩
  · rw [isBST_iff, hcells]
    exact (isBST_iff.mp hbst).filter _
  · rw [addresses, hcells]
    exact hnodup.sublist (List.filter_sublist.map _)

theorem deleteNode_spec_two_children :
    let heap : Heap := [⟨4, some 1, some 2⟩, ⟨2, none, none⟩, ⟨6, some 3, none⟩, ⟨5, none, none⟩]
    let t : BinaryTree (ℕ × ℤ) := .node (0, 4) (.node (1, 2) .nil .nil)
      (.node (2, 6) (.node (3, 5) .nil .nil) .nil)
    deleteNode 5 heap (some 0) 4 = .ok (some 3,
        [⟨4, some 1, some 2⟩, ⟨2, none, none⟩, ⟨6, none, none⟩, ⟨5, some 1, some 2⟩]) ∧
      ∃ root' heap' t', deleteNode 5 heap (some 0) 4 = .ok (root', heap') ∧
        Linked heap' root' t' ∧ IsBST t' ∧ cells t' = (cells t).filter (·.2 ≠ 4) ∧
        (addresses t').Nodup := by
  refine ⟨by decide, deleteNode_spec ?_ (by decide) ?_ 4 (by decide)⟩
  · simp [Linked]
  · simp [IsBST]

end Eureka.Leetcode.DeleteNodeInABst

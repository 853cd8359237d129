import Eureka.Router.Pattern

/-!
# The shape of a tree

`Shape` is the invariant of the tree's structure.  A node is a leaf, it continues with
literals, with one child for every index character, or it continues with a wildcard.  A
parameter stands in a node of its own, and a catch-all in a node below one with an empty
path.  `Hangs` says what a child below an index character looks like; besides a path that
starts with the character it may have an empty path: in front of a catch-all, and where
the insertion of a route was given up.
-/

namespace Eureka.Router

namespace Node

variable {H : Type}

/-! ## The children of a node -/

/-- The index characters of the children; below a parameter they need not be stored. -/
def letters (n : Node H) : Bytes :=
  if n.type = .param then n.children.map fun _ => slash else n.indices

/-- The children with their index characters. -/
def edges (n : Node H) : List (Byte × Node H) := n.letters.zip n.children

/-- A child node below the index character `c`. -/
structure Hangs (c : Byte) (child : Node H) : Prop where
  type_eq : child.type = .plain ∨ child.type = .catchAll ∧ c = slash
  starts : child.path.head? = some c ∨
    child.path = [] ∧ child.handler = none ∧
      (child.type = .plain → child.hasWildChild = false) ∧ ∀ c' ∈ child.indices, c' = c

/-- The invariant of a node and of all nodes below it. -/
inductive Shape : Node H → Prop
  | leaf {n} (htype : n.type = .plain ∨ n.type = .root) (hpath : Literal n.path)
      (hwild : n.hasWildChild = false) (hindices : n.indices = []) (hchildren : n.children = []) :
      Shape n
  | static {n} (htype : n.type = .plain ∨ n.type = .root) (hpath : Literal n.path)
      (hwild : n.hasWildChild = false) (hlength : n.indices.length = n.children.length)
      (hchildren : n.children ≠ []) (hnodup : n.indices.Nodup) (hindices : Literal n.indices)
      (hhangs : ∀ c child, (c, child) ∈ n.indices.zip n.children → Hangs c child)
      (hshape : ∀ child ∈ n.children, Shape child) : Shape n
  | wild {n child} (htype : n.type = .plain ∨ n.type = .root) (hpath : Literal n.path)
      (hwild : n.hasWildChild = true) (hindices : n.indices = [])
      (hchildren : n.children = [child]) (hparam : child.type = .param) (hshape : Shape child) :
      Shape n
  | param {n name} (htype : n.type = .param) (hpath : n.path = colon :: name)
      (hname : ValidName name) (hwild : n.hasWildChild = false)
      (hlength : n.children.length ≤ 1)
      (hindices : n.indices = [] ∨ n.indices = [slash] ∧ n.children ≠ [])
      (hhangs : ∀ child ∈ n.children, Hangs slash child)
      (hshape : ∀ child ∈ n.children, Shape child) : Shape n
  | catchAll {n child name} (htype : n.type = .catchAll) (hpath : n.path = [])
      (hhandler : n.handler = none) (hwild : n.hasWildChild = true) (hindices : n.indices = [])
      (hchildren : n.children = [child]) (hchild : child.type = .catchAll)
      (hname : child.path = slash :: star :: name) : Shape n

/-- The node with one more call that passed through it. -/
def bump (n : Node H) : Node H := { n with priority := n.priority + 1 }

theorem letters_of_ne_param {n : Node H} (htype : n.type ≠ .param) : n.letters = n.indices :=
  if_neg htype

theorem letters_of_param {n : Node H} (htype : n.type = .param) :
    n.letters = n.children.map fun _ => slash :=
  if_pos htype

theorem edges_of_ne_param {n : Node H} (htype : n.type ≠ .param) :
    n.edges = n.indices.zip n.children := by
  rw [edges, letters_of_ne_param htype]

theorem mem_edges_of_zip {n child : Node H} {c : Byte} {before after : List (Byte × Node H)}
    (htype : n.type ≠ .param) (hzip : n.indices.zip n.children = before ++ (c, child) :: after) :
    (c, child) ∈ n.edges := by
  rw [edges_of_ne_param htype, hzip]
  exact List.mem_append_right _ List.mem_cons_self

theorem edges_of_param {n : Node H} (htype : n.type = .param) :
    n.edges = n.children.map fun child => (slash, child) := by
  rw [edges, letters_of_param htype]
  induction n.children with
  | nil => rfl
  | cons child children ih => rw [List.map_cons, List.zip_cons_cons, ih, List.map_cons]

theorem Shape.with_priority {n : Node H} (hshape : n.Shape) (priority : ℤ) :
    Shape { n with priority := priority } := by
  cases hshape with
  | leaf htype hpath hwild hindices hchildren => exact .leaf htype hpath hwild hindices hchildren
  | static htype hpath hwild hlength hchildren hnodup hindices hhangs hshape =>
      exact .static htype hpath hwild hlength hchildren hnodup hindices hhangs hshape
  | wild htype hpath hwild hindices hchildren hparam hshape =>
      exact .wild htype hpath hwild hindices hchildren hparam hshape
  | param htype hpath hname hwild hlength hindices hhangs hshape =>
      exact .param htype hpath hname hwild hlength hindices hhangs hshape
  | catchAll htype hpath hhandler hwild hindices hchildren hchild hname =>
      exact .catchAll htype hpath hhandler hwild hindices hchildren hchild hname

theorem Shape.bump {n : Node H} (hshape : n.Shape) : n.bump.Shape :=
  hshape.with_priority _

theorem Hangs.bump {c : Byte} {child : Node H} (hhangs : child.Hangs c) : child.bump.Hangs c :=
  ⟨hhangs.type_eq, hhangs.starts⟩

/-! ## `increment_child_priority` -/

theorem slideLeft_le (children : List (Node H)) (prio : ℤ) (pos : ℕ) :
    slideLeft children prio pos ≤ pos := by
  induction pos with
  | zero => exact le_rfl
  | succ pos ih =>
      rw [slideLeft]
      split
      · exact le_rfl
      · split_ifs
        · exact ih.trans (Nat.le_succ pos)
        · exact le_rfl

theorem exists_append_of_le {α : Type} {items : List α} {newPos pos : ℕ} {item : α}
    (hle : newPos ≤ pos) (hitem : items[pos]? = some item) :
    ∃ before between after, items = before ++ (between ++ item :: after) ∧
      before.length = newPos ∧ before.length + between.length = pos := by
  obtain ⟨hpos, rfl⟩ := List.getElem?_eq_some_iff.mp hitem
  have hlength : (items.take newPos).length = newPos := List.length_take_of_le (by omega)
  refine ⟨items.take newPos, (items.take pos).drop newPos, items.drop (pos + 1), ?_, hlength, ?_⟩
  · rw [List.cons_getElem_drop_succ, ← List.append_assoc]
    conv_lhs => rw [← List.take_append_drop pos items]
    conv_lhs => rw [← List.take_append_drop newPos (items.take pos)]
    rw [List.take_take, Nat.min_eq_left hle]
  · rw [hlength, List.length_drop, List.length_take]
    omega

theorem moveLeft_append {α : Type} (before between after : List α) (item : α) :
    moveLeft (before ++ (between ++ item :: after)) before.length
      (before.length + between.length) = before ++ item :: (between ++ after) := by
  have hdrop : (before ++ (between ++ item :: after)).drop (before.length + between.length) =
      item :: after := by
    rw [← List.drop_drop, List.drop_left, List.drop_left]
  have htake : (before ++ (between ++ item :: after)).take (before.length + between.length) =
      before ++ between := by
    rw [← List.append_assoc, ← List.length_append, List.take_left]
  rw [moveLeft, List.take_left, hdrop, htake, List.drop_left, ← List.drop_drop, hdrop]
  simp

/-- The child with its index character is moved left to the place that `slideLeft` finds. -/
theorem incrementChildPriority_moved {n : Node H} (hlength : n.indices.length = n.children.length)
    {pos : ℕ} {c : Byte} {child : Node H} (hc : n.indices[pos]? = some c)
    (hchild : n.children[pos]? = some child) :
    ∃ before between after before' between' after',
      n.children = before ++ (between ++ child :: after) ∧
      n.indices = before' ++ (between' ++ c :: after') ∧
      before.length = slideLeft (n.children.set pos child.bump) child.bump.priority pos ∧
      before.length + between.length = pos ∧ before'.length = before.length ∧
      between'.length = between.length ∧ after'.length = after.length ∧
      n.incrementChildPriority pos = .ok
        ({ n with indices := before' ++ c :: (between' ++ after'),
                  children := before ++ child.bump :: (between ++ after) }, before.length) := by
  set newPos := slideLeft (n.children.set pos child.bump) child.bump.priority pos with hnewPos
  have hle : newPos ≤ pos := slideLeft_le _ _ _
  obtain ⟨before, between, after, hchildren, hbefore, hpos⟩ := exists_append_of_le hle hchild
  obtain ⟨before', between', after', hindices, hbefore', hpos'⟩ := exists_append_of_le hle hc
  have hset : n.children.set pos child.bump = before ++ (between ++ child.bump :: after) := by
    rw [hchildren, List.set_append_right _ _ (by omega), List.set_append_right _ _ (by omega),
      show pos - before.length - between.length = 0 by omega, List.set_cons_zero]
  have hlength' : after'.length = after.length := by
    have := congrArg List.length hchildren
    have := congrArg List.length hindices
    simp only [List.length_append, List.length_cons] at *
    omega
  have hrun : n.incrementChildPriority pos =
      if newPos = pos then .ok ({ n with children := n.children.set pos child.bump }, newPos)
      else .ok ({ n with children := moveLeft (n.children.set pos child.bump) newPos pos,
                         indices := moveLeft n.indices newPos pos }, newPos) := by
    rw [incrementChildPriority, if_neg (not_not.mpr hlength), hchild]
    rfl
  have hmoved : n.incrementChildPriority pos = .ok
      ({ n with indices := before' ++ c :: (between' ++ after'),
                children := before ++ child.bump :: (between ++ after) }, newPos) := by
    have hrotate := moveLeft_append before between after child.bump
    have hrotate' := moveLeft_append before' between' after' c
    rw [hpos, hbefore, ← hset] at hrotate
    rw [hpos', hbefore', ← hindices] at hrotate'
    rw [hrun]
    split_ifs with hstay
    · obtain rfl : between = [] := List.length_eq_zero_iff.mp (by omega)
      obtain rfl : between' = [] := List.length_eq_zero_iff.mp (by omega)
      rw [hset, hindices]
      rfl
    · rw [hrotate, hrotate']
  exact ⟨before, between, after, before', between', after', hchildren, hindices, hbefore, hpos,
    hbefore'.trans hbefore.symm, by omega, hlength', hbefore ▸ hmoved⟩

/-- The children keep their index characters, whatever the order they are brought into. -/
theorem incrementChildPriority_spec {n : Node H} (hlength : n.indices.length = n.children.length)
    {pos : ℕ} {c : Byte} {child : Node H} (hc : n.indices[pos]? = some c)
    (hchild : n.children[pos]? = some child) :
    ∃ indices children newPos,
      n.incrementChildPriority pos =
        .ok ({ n with indices := indices, children := children }, newPos) ∧
      children[newPos]? = some child.bump ∧ indices.length = children.length ∧
      ∀ child', (indices.zip (children.set newPos child')).Perm
        ((n.indices.zip n.children).set pos (c, child')) := by
  obtain ⟨before, between, after, before', between', after', hchildren, hindices, -, hpos, hbefore',
    hbetween', hafter', hmoved⟩ := incrementChildPriority_moved hlength hc hchild
  have hzip : ∀ child', (n.indices.zip n.children).set pos (c, child') =
      before'.zip before ++ (between'.zip between ++ (c, child') :: after'.zip after) := by
    intro child'
    rw [hindices, hchildren, List.zip_append (by omega), List.zip_append (by omega),
      List.zip_cons_cons, List.set_append_right _ _ (by rw [List.length_zip]; omega),
      List.set_append_right _ _ (by simp only [List.length_zip]; omega)]
    simp only [List.length_zip]
    rw [show pos - min before'.length before.length - min between'.length between.length = 0 by
      omega, List.set_cons_zero]
  refine ⟨_, _, _, hmoved, ?_, ?_, ?_⟩
  · rw [List.getElem?_append_right le_rfl, Nat.sub_self, List.getElem?_cons_zero]
  · simp only [List.length_append, List.length_cons]
    omega
  · intro child'
    rw [hzip, List.set_append_right _ _ le_rfl, Nat.sub_self, List.set_cons_zero,
      List.zip_append (by omega), List.zip_cons_cons, List.zip_append (by omega)]
    exact List.Perm.append_left _ List.perm_middle.symm

end Node

end Eureka.Router

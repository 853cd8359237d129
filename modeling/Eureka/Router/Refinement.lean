import Eureka.Library.PatternChain
import Eureka.Router.Invariant

/-!
# The trie of a tree

`core` is the trie behind the path of a node, and `flatten` the trie of the node
with its path.  Splits, priorities and the order of the children do not change
them; neither does an empty path in front of a catch-all.
-/

namespace Eureka.Router

open PatternTrie

namespace Node

variable {H : Type}

/-- The child below an index character. -/
def child? (n : Node H) (c : Byte) : Option (Node H) :=
  (n.edges.find? fun edge => edge.1 = c).map Prod.snd

theorem mem_of_child? {n child : Node H} {c : Byte} (hchild : n.child? c = some child) :
    (c, child) ∈ n.edges := by
  obtain ⟨⟨c', child'⟩, hfind, rfl⟩ := Option.map_eq_some_iff.mp hchild
  have hc : c' = c := by simpa using List.find?_some hfind
  exact hc ▸ List.mem_of_find?_eq_some hfind

theorem mem_children_of_child? {n child : Node H} {c : Byte} (hchild : n.child? c = some child) :
    child ∈ n.children :=
  (List.of_mem_zip (mem_of_child? hchild)).2

/-- The trie behind the path of the node. -/
def core (n : Node H) : Trie Byte H :=
  if n.hasWildChild then
    match _hchildren : n.children with
    | [] => .absent
    | child :: _ =>
        if child.type = .catchAll then
          .static none (Trie.single slash (.rest (child.path.drop 2) child.handler))
        else
          .param n.handler (child.path.drop 1) child.core
  else if n.children = [] ∧ n.type ≠ .param then
    .leaf n.handler
  else
    .static n.handler fun c =>
      match _hchild : n.child? c with
      | none => .absent
      | some child => (Trie.chain child.path child.core).next c
termination_by sizeOf n
decreasing_by
  · exact sizeOf_lt_of_mem (by rw [_hchildren]; exact List.mem_cons_self)
  · exact sizeOf_lt_of_mem (mem_children_of_child? _hchild)

/-- The trie of the node. -/
def flatten (n : Node H) : Trie Byte H := Trie.chain n.path n.core

/-- What follows an index character. -/
def nexts (n : Node H) (c : Byte) : Trie Byte H :=
  match n.child? c with
  | none => .absent
  | some child => child.flatten.next c

/-! ## The forms of a node -/

theorem core_of_leaf {n : Node H} (hwild : n.hasWildChild = false) (hchildren : n.children = [])
    (htype : n.type ≠ .param) : n.core = .leaf n.handler := by
  rw [core.eq_def, hwild, if_neg Bool.false_ne_true, if_pos ⟨hchildren, htype⟩]

theorem core_of_static {n : Node H} (hwild : n.hasWildChild = false)
    (hchildren : n.children ≠ [] ∨ n.type = .param) : n.core = .static n.handler n.nexts := by
  rw [core.eq_def, hwild, if_neg Bool.false_ne_true, if_neg]
  · refine congrArg (Trie.static n.handler) (funext fun c => ?_)
    rw [nexts]
    cases n.child? c with
    | none => rfl
    | some child => rfl
  · rintro ⟨hnil, htype⟩
    exact hchildren.elim (absurd hnil) htype

theorem core_of_wild {n child : Node H} (hwild : n.hasWildChild = true)
    (hchildren : n.children = [child]) (htype : child.type ≠ .catchAll) :
    n.core = .param n.handler (child.path.drop 1) child.core := by
  rw [core.eq_def, hwild, if_pos rfl]
  split
  · next hnil => rw [hnil] at hchildren; exact nomatch hchildren
  · next first others hcons =>
    obtain ⟨rfl, -⟩ := List.cons.inj (hcons.symm.trans hchildren)
    exact if_neg htype

theorem core_of_catchAll {n child : Node H} (hwild : n.hasWildChild = true)
    (hchildren : n.children = [child]) (htype : child.type = .catchAll) :
    n.core = .static none (Trie.single slash (.rest (child.path.drop 2) child.handler)) := by
  rw [core.eq_def, hwild, if_pos rfl]
  split
  · next hnil => rw [hnil] at hchildren; exact nomatch hchildren
  · next first others hcons =>
    obtain ⟨rfl, -⟩ := List.cons.inj (hcons.symm.trans hchildren)
    exact if_pos htype

/-- Neither the path nor the priority nor the kind of a literal matters behind the path. -/
theorem core_congr {n n' : Node H} (hindices : n.indices = n'.indices)
    (hwild : n.hasWildChild = n'.hasWildChild) (htype : n.type = .param ↔ n'.type = .param)
    (hchildren : n.children = n'.children) (hhandler : n.handler = n'.handler) :
    n.core = n'.core := by
  have hedges : n.edges = n'.edges := by
    simp only [edges, letters, htype, hindices, hchildren]
  have hnexts : n.nexts = n'.nexts := by
    funext c
    simp only [nexts, child?, hedges]
  by_cases hcase : n.hasWildChild = true
  · rw [core.eq_def, core.eq_def n', ← hwild, hcase, if_pos rfl, if_pos rfl]
    cases n
    cases n'
    dsimp only at hchildren hhandler
    subst hchildren hhandler
    rfl
  · rw [Bool.not_eq_true] at hcase
    by_cases hleaf : n.children = [] ∧ n.type ≠ .param
    · rw [core_of_leaf hcase hleaf.1 hleaf.2, core_of_leaf (hwild ▸ hcase) (hchildren ▸ hleaf.1)
        (htype.not.mp hleaf.2), hhandler]
    · have hstatic : n.children ≠ [] ∨ n.type = .param := by
        rwa [← not_not (a := n.type = .param), ← not_and_or]
      rw [core_of_static hcase hstatic, core_of_static (hwild ▸ hcase), hhandler, hnexts]
      rwa [← hchildren, ← htype]

theorem core_bump (n : Node H) : n.bump.core = n.core :=
  core_congr rfl rfl Iff.rfl rfl rfl

theorem flatten_bump (n : Node H) : n.bump.flatten = n.flatten := by
  rw [flatten, core_bump]
  rfl

/-! ## What follows an index character -/

theorem child?_eq_some {n child : Node H} {c : Byte} (hnodup : (n.edges.map Prod.fst).Nodup) :
    n.child? c = some child ↔ (c, child) ∈ n.edges := by
  refine ⟨mem_of_child?, fun hmem => ?_⟩
  rcases hfind : n.edges.find? fun edge => edge.1 = c with _ | ⟨c', child'⟩
  · have hnone := List.find?_eq_none.mp hfind (c, child) hmem
    simp at hnone
  · have hc : c' = c := by simpa using List.find?_some hfind
    have hmem' := hc ▸ List.mem_of_find?_eq_some hfind
    rw [child?, hfind, Option.map_some, Option.some.injEq]
    exact congrArg Prod.snd (List.inj_on_of_nodup_map hnodup hmem' hmem rfl)

theorem nexts_of_mem {n child : Node H} {c : Byte} (hnodup : (n.edges.map Prod.fst).Nodup)
    (hmem : (c, child) ∈ n.edges) : n.nexts c = child.flatten.next c := by
  rw [nexts, (child?_eq_some hnodup).mpr hmem]

theorem nexts_of_not_mem {n : Node H} {c : Byte} (hmiss : c ∉ n.edges.map Prod.fst) :
    n.nexts c = .absent := by
  rw [nexts]
  cases hchild : n.child? c with
  | none => rfl
  | some child => exact absurd (List.mem_map.mpr ⟨_, mem_of_child? hchild, rfl⟩) hmiss

/-! ## Nodes and edges -/

theorem Shape.nodup_edges {n : Node H} (hshape : n.Shape) : (n.edges.map Prod.fst).Nodup := by
  cases hshape with
  | leaf _ _ _ _ hchildren =>
      rw [edges, hchildren, List.zip_nil_right]
      exact List.nodup_nil
  | static htype _ _ hlength _ hnodup =>
      have hne : n.type ≠ .param := by rcases htype with h | h <;> rw [h] <;> decide
      rwa [edges_of_ne_param hne, map_fst_zip hlength]
  | wild htype _ _ hindices =>
      have hne : n.type ≠ .param := by rcases htype with h | h <;> rw [h] <;> decide
      rw [edges_of_ne_param hne, hindices]
      exact List.nodup_nil
  | param htype _ _ _ hlength =>
      rw [edges_of_param htype]
      obtain hnil | ⟨child, hchild⟩ : n.children = [] ∨ ∃ child, n.children = [child] := by
        rw [← List.length_eq_zero_iff, ← List.length_eq_one_iff]
        omega
      · rw [hnil]
        exact List.nodup_nil
      · rw [hchild]
        exact List.nodup_singleton _
  | catchAll htype _ _ _ hindices =>
      rw [edges_of_ne_param (by rw [htype]; decide), hindices]
      exact List.nodup_nil

theorem child?_update {n n' child : Node H} {c : Byte} (hnodup : (n.edges.map Prod.fst).Nodup)
    (hnodup' : (n'.edges.map Prod.fst).Nodup) (hmem : (c, child) ∈ n'.edges)
    (hother : ∀ c' child', c' ≠ c → ((c', child') ∈ n'.edges ↔ (c', child') ∈ n.edges)) :
    n'.child? = Function.update n.child? c (some child) := by
  funext c'
  by_cases hsame : c' = c
  · rw [hsame, Function.update_self, (child?_eq_some hnodup').mpr hmem]
  · rw [Function.update_of_ne hsame]
    refine Option.ext fun child' => ?_
    rw [child?_eq_some hnodup', child?_eq_some hnodup, hother _ _ hsame]

theorem nexts_update {n n' child : Node H} {c : Byte} (hnodup : (n.edges.map Prod.fst).Nodup)
    (hnodup' : (n'.edges.map Prod.fst).Nodup) (hmem : (c, child) ∈ n'.edges)
    (hother : ∀ c' child', c' ≠ c → ((c', child') ∈ n'.edges ↔ (c', child') ∈ n.edges)) :
    n'.nexts = Function.update n.nexts c (child.flatten.next c) := by
  have hchild := child?_update hnodup hnodup' hmem hother
  funext c'
  rw [nexts, hchild]
  by_cases hsame : c' = c
  · rw [hsame, Function.update_self, Function.update_self]
  · rw [Function.update_of_ne hsame, Function.update_of_ne hsame, nexts]

theorem nexts_of_edges_nil {n : Node H} (hedges : n.edges = []) : n.nexts = fun _ => .absent := by
  funext c
  refine nexts_of_not_mem ?_
  rw [hedges]
  exact List.not_mem_nil

theorem nexts_of_edges_singleton {n child : Node H} {c : Byte} (hedges : n.edges = [(c, child)]) :
    n.nexts = Trie.single c (child.flatten.next c) := by
  have hnodup : (n.edges.map Prod.fst).Nodup := by
    rw [hedges]
    exact List.nodup_singleton _
  funext c'
  by_cases hsame : c' = c
  · subst hsame
    rw [Trie.single_same, nexts_of_mem hnodup (hedges ▸ List.mem_cons_self)]
  · rw [Trie.single_ne _ hsame, nexts_of_not_mem]
    rw [hedges, List.map_singleton, List.mem_singleton]
    exact hsame

theorem Hangs.type_ne_param {n : Node H} {c : Byte} (hhangs : n.Hangs c) : n.type ≠ .param := by
  rcases hhangs.type_eq with h | ⟨h, -⟩
  all_goals rw [h]; exact nofun

theorem Shape.wild_of_param {n : Node H} (hshape : n.Shape) (htype : n.type = .param) :
    n.hasWildChild = false := by
  cases hshape with
  | leaf h | static h | wild h => rw [htype] at h; rcases h with h | h <;> exact nomatch h
  | param _ _ _ hwild => exact hwild
  | catchAll h => rw [htype] at h; exact nomatch h

theorem Shape.path_of_catchAll {n : Node H} (hshape : n.Shape) (htype : n.type = .catchAll) :
    n.path = [] := by
  cases hshape with
  | leaf h | static h | wild h => rw [htype] at h; rcases h with h | h <;> exact nomatch h
  | param h => rw [htype] at h; exact nomatch h
  | catchAll _ hpath => exact hpath

theorem Hangs.plain_flatten {child : Node H} {c : Byte} (hshape : child.Shape)
    (hhangs : child.Hangs c) : child.flatten.plain = true := by
  rcases hhangs.starts with hstarts | ⟨hpath, -, hwild, -⟩
  · obtain ⟨tail, hpath⟩ := List.head?_eq_some_iff.mp hstarts
    rw [flatten, hpath]
    rfl
  · rw [flatten, hpath]
    show child.core.plain = true
    rcases hhangs.type_eq with htype | ⟨htype, -⟩
    · have hne : child.type ≠ .param := by rw [htype]; decide
      by_cases hchildren : child.children = []
      · rw [core_of_leaf (hwild htype) hchildren hne]
        rfl
      · rw [core_of_static (hwild htype) (.inl hchildren)]
        rfl
    · cases hshape with
      | leaf h | static h | wild h => rw [htype] at h; rcases h with h | h <;> cases h
      | param h => rw [htype] at h; cases h
      | catchAll _ _ _ hwild' _ hchildren hchild =>
          rw [core_of_catchAll hwild' hchildren hchild]
          rfl

theorem Shape.path_of_param {n : Node H} (hshape : n.Shape) (htype : n.type = .param) :
    ∃ name, ValidName name ∧ n.path = colon :: name := by
  cases hshape with
  | leaf h | static h | wild h => rw [htype] at h; rcases h with h | h <;> exact nomatch h
  | param _ hpath hname => exact ⟨_, hname, hpath⟩
  | catchAll h => rw [htype] at h; exact nomatch h

theorem Shape.literal_of_ne_param {n : Node H} (hshape : n.Shape) (htype : n.type ≠ .param) :
    Literal n.path := by
  cases hshape with
  | leaf _ hpath | static _ hpath | wild _ hpath => exact hpath
  | param h => exact absurd h htype
  | catchAll _ hpath =>
      rw [hpath]
      exact fun _ h => absurd h List.not_mem_nil

/-- A split does not change the trie of a node. -/
theorem Splits.flatten_eq {n m : Node H} {path rem : Bytes} (hsplits : Splits n path m rem)
    (henters : n.Enters path) : path = m.path ++ rem ∧ m.flatten = n.flatten := by
  by_cases htype : n.type = .param
  · obtain ⟨rfl, hpath, -⟩ := hsplits.eq_of_follows (henters.1 htype)
    exact ⟨hpath, rfl⟩
  cases hsplits with
  | whole => exact ⟨rfl, rfl⟩
  | @part shared tail _ a hpath =>
      rw [splitAt_eq hpath]
      refine ⟨rfl, ?_⟩
      set child : Node H :=
        { n with path := a :: tail, type := .plain, priority := n.priority - 1 } with hchild
      set m : Node H :=
        { n with path := shared, indices := [a], hasWildChild := false, handler := none,
                 children := [child] } with hm
      have hcore : child.core = n.core :=
        core_congr rfl rfl (iff_of_false nofun htype) rfl rfl
      have hedges : m.edges = [(a, child)] := edges_of_ne_param htype
      have hnext : child.flatten.next a = Trie.chain tail n.core := by
        rw [flatten, hcore]
        exact Trie.next_chain_cons a tail n.core
      calc m.flatten
          = Trie.chain shared (.static none m.nexts) := by
            rw [flatten, core_of_static rfl (.inl (List.cons_ne_nil _ _))]
        _ = Trie.chain shared (Trie.chain (a :: tail) n.core) := by
            rw [nexts_of_edges_singleton hedges, hnext]
            rfl
        _ = n.flatten := by rw [← Trie.chain_append, ← hpath, flatten]

/-! ## `insert_path` -/

theorem core_paramNode_nil (name : Bytes) (handler : Option H) :
    (paramNode name handler []).core = .static handler fun _ => .absent := by
  rw [core_of_static rfl (.inr rfl), nexts_of_edges_nil rfl]
  rfl

theorem core_paramNode_singleton (name : Bytes) (handler : Option H) (child : Node H) :
    (paramNode name handler [child]).core =
      .static handler (Trie.single slash (child.flatten.next slash)) := by
  rw [core_of_static rfl (.inr rfl), nexts_of_edges_singleton (edges_of_param rfl)]
  rfl

theorem core_withParam (n : Node H) (plain name : Bytes) (handler : Option H)
    (children : List (Node H)) :
    (n.withParam plain (paramNode name handler children)).core =
      .param n.handler name (paramNode name handler children).core := by
  have htype : (paramNode name handler children).type ≠ .catchAll :=
    show NodeType.param ≠ .catchAll from nofun
  have hcore := core_of_wild (n := n.withParam plain (paramNode name handler children)) rfl rfl htype
  exact hcore

theorem core_catchAllNode (name : Bytes) (handler : Option H) :
    (catchAllNode name handler).core = .static none (Trie.single slash (.rest name handler)) := by
  have hcore := core_of_catchAll (n := catchAllNode name handler) rfl rfl rfl
  exact hcore

theorem path_withParam {n : Node H} (hpath : n.path = []) (plain : Bytes) (child : Node H) :
    (n.withParam plain child).path = plain := by
  cases plain with
  | nil => exact hpath
  | cons c plain => rfl

/-- A node in which no route was put yet. -/
structure Unused (n : Node H) : Prop where
  path_eq : n.path = []
  indices_eq : n.indices = []
  children_eq : n.children = []
  handler_eq : n.handler = none
  wild : n.hasWildChild = false
  type_ne : n.type ≠ .param

theorem unused_fresh : Unused { (empty : Node H) with priority := 1 } :=
  ⟨rfl, rfl, rfl, rfl, rfl, nofun⟩

/-- The path does not start with a wildcard. -/
def StartsLiteral (path : Bytes) : Prop := ∀ c ∈ path.head?, startsWildcard c = false

theorem startsLiteral_of_head? {path : Bytes} {c : Byte} (hpath : path.head? = some c)
    (hc : startsWildcard c = false) : StartsLiteral path :=
  fun _ hc' => Option.some.inj (hpath.symm.trans hc') ▸ hc

theorem startsLiteral_of_scan {path plain name rest : Bytes}
    (hscan : scan path = .param plain name rest) (hrest : rest ≠ []) : StartsLiteral rest := by
  obtain ⟨-, -, -, hslash⟩ := eq_of_scan_param hscan
  exact startsLiteral_of_head? (hslash.resolve_left hrest) startsWildcard_slash

/-! ## `insert_route` behind the split -/

theorem core_of_index {n : Node H} (hwild : n.hasWildChild = false) :
    n.core.value? = n.handler ∧ n.core.plain = true ∧ n.core.next = n.nexts := by
  by_cases hleaf : n.children = [] ∧ n.type ≠ .param
  · rw [core_of_leaf hwild hleaf.1 hleaf.2]
    refine ⟨rfl, rfl, (nexts_of_edges_nil ?_).symm⟩
    rw [edges, hleaf.1, List.zip_nil_right]
  · have hstatic : n.children ≠ [] ∨ n.type = .param := by
      rwa [← not_not (a := n.type = .param), ← not_and_or]
    rw [core_of_static hwild hstatic]
    exact ⟨rfl, rfl, rfl⟩

theorem Shape.literal_of_edge {n child : Node H} {c : Byte} (hshape : n.Shape)
    (hwild : n.hasWildChild = false) (hmem : (c, child) ∈ n.edges) : startsWildcard c = false := by
  by_cases htype : n.type = .param
  · rw [edges_of_param htype] at hmem
    obtain ⟨_, -, heq⟩ := List.mem_map.mp hmem
    obtain ⟨rfl, -⟩ := Prod.mk.inj heq
    exact startsWildcard_slash
  · rw [edges_of_ne_param htype] at hmem
    exact (hshape.placed hwild htype).literal c (List.mem_map.mpr ⟨(c, child), hmem, rfl⟩)

theorem tokens_of_head {c : Byte} {path : Bytes} {behindSlash : Bool} {tokens : List (Token Byte)}
    (hc : startsWildcard c = false) (hpath : path.head? = some c)
    (hparse : parseFrom behindSlash path = some tokens) : ∃ tokens', tokens = .lit c :: tokens' := by
  obtain ⟨rest, rfl⟩ := List.head?_eq_some_iff.mp hpath
  rw [parseFrom_lit hc, Option.map_eq_some_iff] at hparse
  obtain ⟨tokens', -, rfl⟩ := hparse
  exact ⟨tokens', rfl⟩

theorem edges_of_push {n child : Node H} {c : Byte} {indices : Bytes} {children : List (Node H)}
    (hparam : n.type = .param → c = slash ∧ n.children = [])
    (hlength : indices.length = children.length)
    (hperm : (indices.zip children).Perm (n.indices.zip n.children ++ [(c, child)])) :
    (edges { n with indices := indices, children := children }).Perm (n.edges ++ [(c, child)]) := by
  by_cases htype : n.type = .param
  · obtain ⟨rfl, hchildren⟩ := hparam htype
    have hedges : edges { n with indices := indices, children := children } =
        children.map fun child => (slash, child) := edges_of_param htype
    rw [hchildren, List.zip_nil_right, List.nil_append] at hperm
    obtain ⟨-, rfl⟩ := eq_singleton_of_perm hlength hperm
    rw [hedges, edges_of_param htype, hchildren]
    exact List.Perm.refl _
  · have hedges : edges { n with indices := indices, children := children } =
        indices.zip children := edges_of_ne_param htype
    rwa [hedges, edges_of_ne_param htype]

theorem not_mem_edges_of_push {n : Node H} {c : Byte} (hshape : n.Shape)
    (hwild : n.hasWildChild = false) (hmiss : c ∉ n.indices)
    (hparam : n.type = .param → c = slash ∧ n.children = []) : c ∉ n.edges.map Prod.fst := by
  by_cases htype : n.type = .param
  · rw [edges_of_param htype, (hparam htype).2]
    exact List.not_mem_nil
  · rwa [edges_of_ne_param htype, map_fst_zip (hshape.length_indices hwild (absurd · htype))]

theorem Shape.value?_core {n : Node H} (hshape : n.Shape) : n.core.value? = n.handler := by
  cases hshape with
  | leaf _ _ hwild | static _ _ hwild | param _ _ _ hwild => exact (core_of_index hwild).1
  | @wild _ child _ _ hwild _ hchildren hparam =>
      have hne : child.type ≠ .catchAll := by rw [hparam]; exact nofun
      rw [core_of_wild hwild hchildren hne]
      rfl
  | catchAll _ _ hhandler hwild _ hchildren hchild =>
      rw [core_of_catchAll hwild hchildren hchild, hhandler]
      rfl

theorem Shape.core_forms {n : Node H} (hshape : n.Shape) :
    (∃ value, n.core = .leaf value) ∨ (∃ value next, n.core = .static value next) ∨
      ∃ value name sub, n.core = .param value name sub := by
  cases hshape with
  | leaf htype _ hwild _ hchildren =>
      have hne : n.type ≠ .param := by rcases htype with h | h <;> rw [h] <;> exact nofun
      exact .inl ⟨_, core_of_leaf hwild hchildren hne⟩
  | static _ _ hwild _ hchildren => exact .inr (.inl ⟨_, _, core_of_static hwild (.inl hchildren)⟩)
  | @wild _ child _ _ hwild _ hchildren hparam =>
      have hne : child.type ≠ .catchAll := by rw [hparam]; exact nofun
      exact .inr (.inr ⟨_, _, _, core_of_wild hwild hchildren hne⟩)
  | param htype _ _ hwild => exact .inr (.inl ⟨_, _, core_of_static hwild (.inr htype)⟩)
  | catchAll _ _ _ hwild _ hchildren hchild =>
      exact .inr (.inl ⟨_, _, core_of_catchAll hwild hchildren hchild⟩)

theorem Shape.core_ne_absent {n : Node H} (hshape : n.Shape) : n.core ≠ .absent := by
  rcases hshape.core_forms with ⟨_, h⟩ | ⟨_, _, h⟩ | ⟨_, _, _, h⟩ <;> rw [h] <;> exact nofun

theorem Shape.core_ne_rest {n : Node H} (hshape : n.Shape) (name : Bytes) (value : Option H) :
    n.core ≠ .rest name value := by
  rcases hshape.core_forms with ⟨_, h⟩ | ⟨_, _, h⟩ | ⟨_, _, _, h⟩ <;> rw [h] <;> exact nofun

end Node

end Eureka.Router

import Eureka.Router.Lookup

/-!
# Compact trees

A tree into which only accepted routes were put is *compact*: a node that could be joined
with its only child does not occur, and every index character leads to a pattern.  A
compact tree is determined by its trie, up to the order of the children and an empty path
in front of a catch-all, and neither of these matters to `locate` (`Compact.locate_eq`).
As the trie does not depend on the order in which the patterns are inserted, the order of
`add_route` calls does not matter (`addRoutes_perm`).
-/

namespace Eureka.Router

open PatternTrie

namespace Node

variable {H : Type}

/-- Every index character leads to a pattern. -/
def Used (n : Node H) : Prop := ∀ c child, (c, child) ∈ n.edges → child.flatten.next c ≠ .absent

/-- No node can be joined with its only child. -/
inductive Compact : Node H → Prop
  | mk {n} (hbranches : n.type ≠ .param → n.core.Branches) (hused : n.Used)
      (hbelow : ∀ child ∈ n.children, Compact child) : Compact n

theorem Compact.branches {n : Node H} (hcompact : n.Compact) (htype : n.type ≠ .param) :
    n.core.Branches := by
  cases hcompact with
  | mk hbranches => exact hbranches htype

theorem Compact.used {n : Node H} (hcompact : n.Compact) : n.Used := by
  cases hcompact with
  | mk _ hused => exact hused

theorem Compact.of_mem {n child : Node H} (hcompact : n.Compact) (hmem : child ∈ n.children) :
    child.Compact := by
  cases hcompact with
  | mk _ _ hbelow => exact hbelow child hmem

theorem Compact.bump {n : Node H} (hcompact : n.Compact) : n.bump.Compact := by
  refine .mk (fun htype => ?_) hcompact.used fun child hmem => hcompact.of_mem hmem
  rw [core_bump]
  exact hcompact.branches htype

theorem used_of_edges_nil {n : Node H} (hedges : n.edges = []) : n.Used := by
  intro c child hmem
  rw [hedges] at hmem
  exact absurd hmem List.not_mem_nil

/-! ## `insert_path` -/

theorem compact_paramNode {name : Bytes} {handler : Option H} {children : List (Node H)}
    (hchildren : children = [] ∨ ∃ child, children = [child] ∧ child.Compact ∧
      child.flatten.next slash ≠ .absent) : (paramNode name handler children).Compact := by
  have hedges : (paramNode name handler children).edges = children.map fun child => (slash, child) :=
    edges_of_param rfl
  refine .mk (absurd rfl) ?_ ?_
  · intro c child hmem
    rw [hedges] at hmem
    rcases hchildren with rfl | ⟨child', rfl, -, hne⟩
    · exact absurd hmem List.not_mem_nil
    · obtain ⟨rfl, rfl⟩ := Prod.mk.inj (List.mem_singleton.mp hmem)
      exact hne
  · intro child hmem
    change child ∈ children at hmem
    rcases hchildren with rfl | ⟨child', rfl, hcompact, -⟩
    · exact absurd hmem List.not_mem_nil
    · rw [List.mem_singleton.mp hmem]
      exact hcompact

theorem compact_catchAllNode (name : Bytes) (v : H) : (catchAllNode name (some v)).Compact := by
  refine .mk (fun _ => ?_) (used_of_edges_nil rfl) fun child hmem => ?_
  · rw [core_catchAllNode]
    exact .inr (.inr ⟨slash, name, some v, Trie.single_same _ _⟩)
  · have hleaf : child.core = .leaf (some v) := by
      rw [List.mem_singleton.mp hmem]
      exact core_of_leaf rfl rfl (show NodeType.catchAll ≠ .param from nofun)
    obtain rfl := List.mem_singleton.mp hmem
    refine .mk (fun _ => ?_) (used_of_edges_nil rfl) fun child hmem => absurd hmem List.not_mem_nil
    rw [hleaf]
    exact Option.some_ne_none v

theorem next_catchAllNode (name : Bytes) (handler : Option H) :
    (catchAllNode name handler).flatten.next slash = .rest name handler := by
  rw [flatten, core_catchAllNode]
  exact Trie.single_same _ _

theorem Fills.next_ne_absent {v : H} {n n' : Node H} {c : Byte} {rest : Bytes}
    (hfills : Fills (some v) n (c :: rest) n' .accepted) (hn : n.Unused)
    (hc : startsWildcard c = false) : n'.flatten.next c ≠ .absent := by
  have hstarts : StartsLiteral (c :: rest) := startsLiteral_of_head? rfl hc
  obtain ⟨tokens, hparse, hinsert⟩ := (hfills.inserts hn hstarts false _).mp rfl
  obtain ⟨tokens', rfl⟩ := tokens_of_head hc rfl hparse
  exact Trie.insert_ne_absent (Trie.next_of_insert_lit hinsert)

/-- A node that `insert_path` has filled cannot be joined with its child. -/
theorem Fills.branches {v : H} {n n' : Node H} {path : Bytes} {verdict : Verdict}
    (hfills : Fills (some v) n path n' verdict) (haccepted : verdict = .accepted)
    (hn : n.Unused) : n'.core.Branches := by
  cases hfills with
  | plain =>
      have hleaf : core { n with path := path, handler := some v } = .leaf (some v) :=
        core_of_leaf hn.wild hn.children_eq hn.type_ne
      rw [hleaf]
      exact Option.some_ne_none v
  | invalid | occupied | catchAllRejected | catchAllAborted => exact nomatch haccepted
  | paramEnd | param =>
      rw [core_withParam]
      trivial
  | @catchAll n path plain name =>
      set m : Node H :=
        { n with path := plain, indices := [slash], children := [catchAllNode name (some v)] } with hm
      have hwild : m.hasWildChild = false := hn.wild
      have hedges : m.edges = [(slash, catchAllNode name (some v))] := edges_of_ne_param hn.type_ne
      rw [core_of_static hwild (.inl (List.cons_ne_nil _ _)), nexts_of_edges_singleton hedges,
        next_catchAllNode]
      exact .inr (.inr ⟨slash, name, some v, Trie.single_same _ _⟩)

/-- What stands below a node that `insert_path` has filled. -/
theorem Fills.compact_below {v : H} {n n' : Node H} {path : Bytes} {verdict : Verdict}
    (hfills : Fills (some v) n path n' verdict) (haccepted : verdict = .accepted)
    (htype : n.type ≠ .param) (hchildren : n.children = []) (hindices : n.indices = []) :
    n'.Used ∧ ∀ child ∈ n'.children, child.Compact := by
  have hedges : ∀ {n : Node H} {plain : Bytes} {child : Node H}, n.type ≠ .param →
      n.indices = [] → (n.withParam plain child).edges = [] := by
    intro n plain child htype hindices
    have hzip : (n.withParam plain child).edges = n.indices.zip [child] := edges_of_ne_param htype
    rw [hzip, hindices, List.zip_nil_left]
  induction hfills with
  | @plain n path =>
      have hzip : edges { n with path := path, handler := some v } = n.indices.zip n.children :=
        edges_of_ne_param htype
      replace hzip := hzip.trans (by rw [hindices, List.zip_nil_left])
      refine ⟨used_of_edges_nil hzip, fun child hmem => ?_⟩
      change child ∈ n.children at hmem
      rw [hchildren] at hmem
      exact absurd hmem List.not_mem_nil
  | invalid | occupied | catchAllRejected | catchAllAborted => exact nomatch haccepted
  | paramEnd =>
      refine ⟨used_of_edges_nil (hedges htype hindices), fun child hmem => ?_⟩
      rw [List.mem_singleton.mp hmem]
      exact compact_paramNode (.inl rfl)
  | @param n path plain name rest child verdict hscan _ hrest hfills ih =>
      subst haccepted
      refine ⟨used_of_edges_nil (hedges htype hindices), fun child hmem => ?_⟩
      rw [List.mem_singleton.mp hmem]
      obtain ⟨-, -, -, hslash⟩ := eq_of_scan_param hscan
      obtain ⟨rest, rfl⟩ := List.head?_eq_some_iff.mp (hslash.resolve_left hrest)
      obtain ⟨hused, hbelow⟩ := ih rfl nofun rfl rfl
      have hcompact := Compact.mk (fun _ => hfills.branches rfl unused_fresh) hused hbelow
      exact compact_paramNode
        (.inr ⟨_, rfl, hcompact, hfills.next_ne_absent unused_fresh startsWildcard_slash⟩)
  | @catchAll n path plain name =>
      set m : Node H :=
        { n with path := plain, indices := [slash], children := [catchAllNode name (some v)] } with hm
      have hzip : m.edges = [(slash, catchAllNode name (some v))] := edges_of_ne_param htype
      constructor
      · intro c child hmem
        rw [hzip] at hmem
        obtain ⟨rfl, rfl⟩ := Prod.mk.inj (List.mem_singleton.mp hmem)
        rw [next_catchAllNode]
        exact nofun
      · intro child hmem
        rw [List.mem_singleton.mp hmem]
        exact compact_catchAllNode name v

/-! ## `insert_route` -/

/-- A node of a compact tree behind the split: if it can be joined with its only child,
then the rest of the path does not go on in that child. -/
structure Opened (m : Node H) (rem : Bytes) : Prop where
  branches : m.type ≠ .param → m.core.Branches ∨
    ∃ a t, t ≠ .absent ∧ rem.head? ≠ some a ∧ m.core = .static none (Trie.single a t)
  used : m.Used
  compact : ∀ child ∈ m.children, child.Compact

theorem Compact.opened {n : Node H} (hcompact : n.Compact) (rem : Bytes) : n.Opened rem :=
  ⟨fun htype => .inl (hcompact.branches htype), hcompact.used, fun _ => hcompact.of_mem⟩

theorem Splits.opened {n m : Node H} {path rem : Bytes} (hsplits : Splits n path m rem)
    (hcompact : n.Compact) (hshape : n.Shape) (henters : n.Enters path) : m.Opened rem := by
  by_cases htype : n.type = .param
  · obtain ⟨rfl, -, -⟩ := hsplits.eq_of_follows (henters.1 htype)
    exact hcompact.opened rem
  cases hsplits with
  | whole => exact hcompact.opened rem
  | @part shared tail _ a hpath hrem =>
      rw [splitAt_eq hpath]
      set child : Node H :=
        { n with path := a :: tail, type := .plain, priority := n.priority - 1 } with hchild
      set m : Node H :=
        { n with path := shared, indices := [a], hasWildChild := false, handler := none,
                 children := [child] } with hm
      have hcore : child.core = n.core := core_congr rfl rfl (iff_of_false nofun htype) rfl rfl
      have hedges : m.edges = [(a, child)] := edges_of_ne_param htype
      have hedges' : child.edges = n.edges := by
        rw [edges_of_ne_param htype]
        exact edges_of_ne_param (show NodeType.plain ≠ .param from nofun)
      have hnext : child.flatten.next a ≠ .absent := by
        rw [flatten, hcore]
        show (Trie.chain (a :: tail) n.core).next a ≠ .absent
        rw [Trie.next_chain_cons]
        exact Trie.chain_ne_absent hshape.core_ne_absent
      refine ⟨fun _ => .inr ⟨a, child.flatten.next a, hnext, hrem, ?_⟩, ?_, ?_⟩
      · rw [core_of_static rfl (.inl (List.cons_ne_nil _ _)), nexts_of_edges_singleton hedges]
      · intro c child' hmem
        rw [hedges] at hmem
        obtain ⟨rfl, rfl⟩ := Prod.mk.inj (List.mem_singleton.mp hmem)
        exact hnext
      · intro child' hmem
        rw [List.mem_singleton.mp hmem]
        refine .mk (fun _ => hcore ▸ hcompact.branches htype) ?_ fun _ => hcompact.of_mem
        intro c child'' hmem
        rw [hedges'] at hmem
        exact hcompact.used c child'' hmem

theorem Shape.edges_of_wild {n : Node H} (hshape : n.Shape) (hwild : n.hasWildChild = true) :
    n.edges = [] := by
  cases hshape with
  | leaf _ _ hwild' | static _ _ hwild' | param _ _ _ hwild' =>
      rw [hwild'] at hwild
      exact absurd hwild Bool.false_ne_true
  | wild htype _ _ hindices =>
      have hne : n.type ≠ .param := by rcases htype with h | h <;> rw [h] <;> exact nofun
      rw [edges_of_ne_param hne, hindices]
      rfl
  | catchAll htype _ _ _ hindices =>
      rw [edges_of_ne_param (by rw [htype]; exact nofun), hindices]
      rfl

/-- Where a route was accepted the node cannot be joined with its child. -/
theorem Continues.branches {v : H} {m n' : Node H} {rem : Bytes}
    (hcontinues : Continues (some v) m rem n' .accepted) (hshape : m.Shape)
    (hreaches : m.Reaches rem) (hopened : m.Opened rem) (htype : n'.type ≠ .param) :
    n'.core.Branches := by
  obtain ⟨behindSlash, tokens, hparse, hinsert⟩ := hcontinues.insert hshape hreaches
  rw [hcontinues.type_eq] at htype
  rcases hopened.branches htype with hbranches | ⟨a, t, ht, hrem, hcore⟩
  · exact hbranches.insert hinsert
  · rw [hcore] at hinsert
    refine Trie.branches_of_insert_single ht (fun hhead => hrem ?_) hinsert
    rcases parseFrom_cases hparse with ⟨-, rfl⟩ | ⟨c, rest, tokens', -, rfl, -, rfl⟩ |
      ⟨name, rest, tokens', -, -, -, -, rfl⟩ | ⟨name, -, -, -, rfl⟩
    · exact nomatch hhead
    · obtain rfl := Token.lit.inj (Option.some.inj hhead)
      rfl
    · exact nomatch hhead
    · exact nomatch hhead

theorem next_ne_absent_of_insert {v : H} {n n' child : Node H} {c : Byte}
    {tokens : List (Token Byte)} (hshape' : n'.Shape) (hwild' : n'.hasWildChild = false)
    (hmem : (c, child) ∈ n'.edges) (hinsert : n.core.insert (.lit c :: tokens) v = some n'.core) :
    child.flatten.next c ≠ .absent := by
  have hnext := Trie.insert_ne_absent (Trie.next_of_insert_lit hinsert)
  rwa [(core_of_index hwild').2.2, nexts_of_mem hshape'.nodup_edges hmem] at hnext

/-- **A tree stays compact** when a route is accepted. -/
theorem Continues.compact {v : H} {m n' : Node H} {rem : Bytes} {verdict : Verdict}
    (hcontinues : Continues (some v) m rem n' verdict) (haccepted : verdict = .accepted)
    (hshape : m.Shape) (hreaches : m.Reaches rem) (hopened : m.Opened rem) : n'.Compact := by
  have hcopy := hcontinues
  induction hcontinues with
  | registered | wildConflict => exact nomatch haccepted
  | @fill n hhandler =>
      exact .mk (hcopy.branches hshape hreaches hopened) hopened.used hopened.compact
  | @wildDescend n front others path m rem child verdict hpath hwild hchildren hfollows hsplits
      hcontinues ih =>
      subst haccepted
      have hshape' := hcopy.shape hshape hreaches
      have hedges : edges { n with children := child :: others } = [] := hshape'.edges_of_wild hwild
      obtain ⟨rfl, -, hfront⟩ := hshape.of_follows hwild hchildren hfollows
      have hfrontShape := hfront.bump
      have henters := hfollows.bump.enters
      have hcompact : front.Compact := hopened.compact front (hchildren ▸ List.mem_cons_self)
      refine .mk (hcopy.branches hshape hreaches hopened) (used_of_edges_nil hedges) ?_
      intro child' hmem
      rw [List.mem_singleton.mp hmem]
      exact ih rfl (hsplits.shape hfrontShape henters) (hsplits.reaches hfrontShape henters)
        (hsplits.opened hcompact.bump hfrontShape henters) hcontinues
  | @paramDescend n front path m rem child verdict hwild htype hpath hchildren hsplits hcontinues
      ih =>
      subst haccepted
      have hshape' := hcopy.shape hshape hreaches
      obtain ⟨hhangs, hfront⟩ := hshape.below_param htype hchildren
      have henters := hhangs.bump.enters hpath
      have hcompact : front.Compact := hopened.compact front (hchildren ▸ List.mem_cons_self)
      have hedges : edges { n with children := [child] } = [(slash, child)] := edges_of_param htype
      obtain ⟨behindSlash, tokens, hparse, hinsert⟩ := hcopy.insert hshape hreaches
      obtain ⟨tokens', rfl⟩ := tokens_of_head startsWildcard_slash hpath hparse
      refine .mk (hcopy.branches hshape hreaches hopened) ?_ ?_
      · intro c child' hmem
        obtain ⟨rfl, rfl⟩ := Prod.mk.inj (List.mem_singleton.mp (hedges ▸ hmem))
        exact next_ne_absent_of_insert hshape' hwild hmem hinsert
      · intro child' hmem
        rw [List.mem_singleton.mp hmem]
        exact ih rfl (hsplits.shape hfront.bump henters) (hsplits.reaches hfront.bump henters)
          (hsplits.opened hcompact.bump hfront.bump henters) hcontinues
  | @indexDescend n c rest front before after m rem child indices children verdict hwild htype
      hedges hsplits hcontinues hlength hperm ih =>
      subst haccepted
      have hshape' := hcopy.shape hshape hreaches
      have hzip : edges { n with indices := indices, children := children } = indices.zip children :=
        edges_of_ne_param htype
      have hzip' : n.edges = before ++ (c, front) :: after := (edges_of_ne_param htype).trans hedges
      have hmem := mem_edges_of_zip htype hedges
      obtain ⟨hmem', hhangs, hfront⟩ := hshape.child_of_edge hmem
      have henters : front.bump.Enters (c :: rest) := hhangs.bump.enters rfl
      have hcompact := hopened.compact front hmem'
      have hc := hshape.literal_of_edge hwild hmem
      obtain ⟨behindSlash, tokens, hparse, hinsert⟩ := hcopy.insert hshape hreaches
      obtain ⟨tokens', rfl⟩ := tokens_of_head hc rfl hparse
      -- the other children are as before
      have hcases : ∀ edge ∈ indices.zip children, edge = (c, child) ∨ edge ∈ n.edges := by
        intro edge hedge
        have hedge' := hperm.subset hedge
        rw [hzip']
        simp only [List.mem_append, List.mem_cons] at hedge' ⊢
        tauto
      refine .mk (hcopy.branches hshape hreaches hopened) ?_ ?_
      · intro c' child' hin
        rcases hcases _ (hzip ▸ hin) with heq | hin'
        · obtain ⟨rfl, rfl⟩ := Prod.mk.inj heq
          exact next_ne_absent_of_insert hshape' hwild hin hinsert
        · exact hopened.used c' child' hin'
      · intro child' hin
        obtain ⟨c', hin'⟩ := exists_mem_zip hlength hin
        rcases hcases _ hin' with heq | hin'
        · obtain ⟨rfl, rfl⟩ := Prod.mk.inj heq
          exact ih rfl (hsplits.shape hfront.bump henters) (hsplits.reaches hfront.bump henters)
            (hsplits.opened hcompact.bump hfront.bump henters) hcontinues
        · exact hopened.compact child' (List.of_mem_zip hin').2
  | @push n c rest child indices children verdict hwild hmiss hparam hc hfills hlength hperm =>
      subst haccepted
      have hedges := edges_of_push hparam hlength hperm
      obtain ⟨hused, hbelow⟩ := hfills.compact_below rfl nofun rfl rfl
      have hcompact : child.Compact :=
        .mk (fun _ => hfills.branches rfl unused_fresh) hused hbelow
      refine .mk (hcopy.branches hshape hreaches hopened) ?_ ?_
      · intro c' child' hin
        rcases List.mem_append.mp (hedges.subset hin) with hin' | hin'
        · exact hopened.used c' child' hin'
        · obtain ⟨rfl, rfl⟩ := Prod.mk.inj (List.mem_singleton.mp hin')
          exact hfills.next_ne_absent unused_fresh hc
      · intro child' hin
        obtain ⟨c', hin'⟩ := exists_mem_zip hlength hin
        rcases List.mem_append.mp (hperm.subset hin') with hin' | hin'
        · exact hopened.compact child' (List.of_mem_zip hin').2
        · obtain ⟨-, rfl⟩ := Prod.mk.inj (List.mem_singleton.mp hin')
          exact hcompact
  | @special n c rest n' verdict hwild htype hmiss hc hfills =>
      subst haccepted
      have hchildren : n.children = [] := by
        by_contra hne
        exact nomatch (hfills.eq_of_occupied hne hc).2
      have hindices := hshape.length_indices hwild (absurd · htype)
      rw [hchildren, List.length_nil, List.length_eq_zero_iff] at hindices
      obtain ⟨hused, hbelow⟩ := hfills.compact_below rfl htype hchildren hindices
      exact .mk (hcopy.branches hshape hreaches hopened) hused hbelow

/-! ## Compact trees and their tries -/

/-- The position of a catch-all is found from its `'/'`. -/
theorem locate_of_next_rest {n : Node H} (hshape : n.Shape) (htype : n.type ≠ .param) {c : Byte}
    {name : Bytes} {value : Option H} (hnext : n.core.next c = .rest name value) :
    c = slash ∧ ∀ rest params, n.locate (n.path ++ c :: rest) params =
      (.found value, params ++ [⟨name, c :: rest⟩]) := by
  induction hsize : sizeOf n using Nat.strong_induction_on generalizing n with
  | _ size ih =>
    cases hwild : n.hasWildChild with
    | false =>
        rw [(core_of_index hwild).2.2, nexts] at hnext
        cases hchild : n.child? c with
        | none =>
            rw [hchild] at hnext
            cases hnext
        | some child =>
            rw [hchild] at hnext
            change child.flatten.next c = .rest name value at hnext
            obtain ⟨hmem, hhangs, hshape'⟩ := hshape.child_of_edge (mem_of_child? hchild)
            -- the child has an empty path, since its trie leads on to the catch-all at once
            have hpath : child.path = [] := by
              rcases hhangs.starts with hstarts | ⟨hpath, -⟩
              · obtain ⟨tail, htail⟩ := List.head?_eq_some_iff.mp hstarts
                have hchain : Trie.chain tail child.core = .rest name value := by
                  rw [← hnext, flatten, htail, Trie.next_chain_cons]
                exfalso
                cases tail with
                | nil => exact hshape'.core_ne_rest name value hchain
                | cons b tail => cases hchain
              · exact hpath
            have hnext' : child.core.next c = .rest name value := by
              rw [← hnext, flatten, hpath]
              rfl
            obtain ⟨hslash, hfound⟩ := ih (sizeOf child) (hsize ▸ sizeOf_lt_of_mem hmem) hshape'
              hhangs.type_ne_param hnext' rfl
            refine ⟨hslash, fun rest params => ?_⟩
            rw [locate_index hwild htype (hshape.length_indices hwild (absurd · htype)), hchild]
            have hfound' := hfound rest params
            rwa [hpath] at hfound'
    | true =>
        obtain ⟨child, hchildren, ⟨hparam, -⟩ | ⟨hchild, -⟩⟩ := hshape.cases_of_wild hwild
        · have hne : child.type ≠ .catchAll := by rw [hparam]; decide
          rw [core_of_wild hwild hchildren hne] at hnext
          cases hnext
        · rw [core_of_catchAll hwild hchildren hchild, Trie.next_static] at hnext
          have hslash : c = slash := by
            by_contra hne
            rw [Trie.single_ne _ hne] at hnext
            cases hnext
          subst hslash
          rw [Trie.single_same] at hnext
          obtain ⟨rfl, rfl⟩ := Trie.rest.inj hnext
          refine ⟨rfl, fun rest params => ?_⟩
          exact locate_catchAll (List.cons_ne_nil _ _) hwild hchildren hchild params

theorem Hangs.flatten_eq {child : Node H} {c : Byte} (hhangs : child.Hangs c)
    (hshape : child.Shape) (hnext : child.flatten.next c ≠ .absent) :
    child.flatten = .static none (Trie.single c (child.flatten.next c)) := by
  rcases hhangs.starts with hstarts | ⟨hpath, hhandler, hwild, hindices⟩
  · obtain ⟨tail, htail⟩ := List.head?_eq_some_iff.mp hstarts
    rw [flatten, htail, Trie.next_chain_cons]
    rfl
  · have hflatten : child.flatten = child.core := by
      rw [flatten, hpath]
      rfl
    rw [hflatten] at hnext ⊢
    rcases hhangs.type_eq with htype | ⟨htype, rfl⟩
    · have hne : child.type ≠ .param := by rw [htype]; decide
      by_cases hchildren : child.children = []
      · rw [core_of_leaf (hwild htype) hchildren hne] at hnext
        exact absurd rfl hnext
      · rw [core_of_static (hwild htype) (.inl hchildren), hhandler, Trie.next_static]
        refine congrArg (Trie.static none) (funext fun c' => ?_)
        by_cases hsame : c' = c
        · rw [hsame, Trie.single_same]
        · rw [Trie.single_ne _ hsame, nexts_of_not_mem]
          rw [edges_of_ne_param hne]
          intro hmem
          obtain ⟨⟨_, _⟩, hmem', rfl⟩ := List.mem_map.mp hmem
          exact hsame (hindices _ (List.of_mem_zip hmem').1)
    · cases hshape with
      | leaf h | static h | wild h => rw [htype] at h; rcases h with h | h <;> cases h
      | param h => rw [htype] at h; cases h
      | catchAll _ _ _ hwild' _ hchildren hchild =>
          rw [core_of_catchAll hwild' hchildren hchild, Trie.next_static, Trie.single_same]

theorem Used.child?_eq {n n' : Node H} (hused : n.Used) (hused' : n'.Used) (hshape : n.Shape)
    (hshape' : n'.Shape) (hnexts : n.nexts = n'.nexts) (c : Byte) :
    n.child? c = none ∧ n'.child? c = none ∨
      ∃ child child', n.child? c = some child ∧ n'.child? c = some child' ∧
        child.flatten = child'.flatten := by
  have hc := congrFun hnexts c
  rw [nexts, nexts] at hc
  cases hchild : n.child? c with
  | none =>
      rw [hchild] at hc
      cases hchild' : n'.child? c with
      | none => exact .inl ⟨rfl, rfl⟩
      | some child' =>
          rw [hchild'] at hc
          exact absurd hc.symm (hused' c child' (mem_of_child? hchild'))
  | some child =>
      rw [hchild] at hc
      have hne := hused c child (mem_of_child? hchild)
      cases hchild' : n'.child? c with
      | none =>
          rw [hchild'] at hc
          exact absurd hc hne
      | some child' =>
          rw [hchild'] at hc
          change child.flatten.next c = child'.flatten.next c at hc
          obtain ⟨-, hhangs, hfront⟩ := hshape.child_of_edge (mem_of_child? hchild)
          obtain ⟨-, hhangs', hfront'⟩ := hshape'.child_of_edge (mem_of_child? hchild')
          refine .inr ⟨child, child', rfl, rfl, ?_⟩
          rw [hhangs.flatten_eq hfront hne, hhangs'.flatten_eq hfront' (hc ▸ hne), hc]

theorem Shape.child?_of_param {n : Node H} (hshape : n.Shape) (htype : n.type = .param) :
    n.children = [] ∧ n.child? slash = none ∨
      ∃ child, n.children = [child] ∧ n.child? slash = some child := by
  rw [child?, edges_of_param htype]
  rcases hshape.children_of_param htype with hnil | ⟨child, hchildren, -, -⟩
  · rw [hnil]
    exact .inl ⟨rfl, rfl⟩
  · rw [hchildren]
    exact .inr ⟨child, rfl, rfl⟩

theorem Shape.core_cases {n : Node H} (hshape : n.Shape) {c : Byte}
    (hcatchAll : n.type = .catchAll → c = slash) :
    n.hasWildChild = false ∨
      (∃ child, n.hasWildChild = true ∧ n.children = [child] ∧ child.type = .param ∧
        child.Shape ∧ n.core = .param n.handler (child.path.drop 1) child.core) ∨
      ∃ name value, n.core.next c = .rest name value := by
  cases hwild : n.hasWildChild with
  | false => exact .inl rfl
  | true =>
      obtain ⟨child, hchildren, ⟨hparam, hshape'⟩ | ⟨hchild, htype⟩⟩ := hshape.cases_of_wild hwild
      · have hne : child.type ≠ .catchAll := by rw [hparam]; decide
        exact .inr (.inl ⟨child, rfl, hchildren, hparam, hshape', core_of_wild hwild hchildren hne⟩)
      · refine .inr (.inr ⟨child.path.drop 2, child.handler, ?_⟩)
        rw [hcatchAll htype, core_of_catchAll hwild hchildren hchild, Trie.next_static,
          Trie.single_same]

theorem Used.locateBelow_eq {child child' : Node H} (hused : child.Used) (hused' : child'.Used)
    (hshape : child.Shape) (hshape' : child'.Shape) (hparam : child.type = .param)
    (hparam' : child'.type = .param) (hcore : child.core = child'.core) (tail : Bytes)
    (hbelow : ∀ front front', child.children = [front] → child'.children = [front'] →
      front.flatten = front'.flatten → front.Alike front' (slash :: tail)) (params : List Param) :
    child.locateBelow (slash :: tail) params = child'.locateBelow (slash :: tail) params := by
  have hnexts : child.nexts = child'.nexts := by
    rw [← (core_of_index (hshape.wild_of_param hparam)).2.2, hcore,
      (core_of_index (hshape'.wild_of_param hparam')).2.2]
  have hboth := hused.child?_eq hused' hshape hshape' hnexts slash
  rw [locateBelow, locateBelow]
  rcases hshape.child?_of_param hparam with ⟨hnil, hnone⟩ | ⟨front, hgrand, hsome⟩
  · rcases hshape'.child?_of_param hparam' with ⟨hnil', -⟩ | ⟨front', -, hsome'⟩
    · rw [hnil, hnil']
    · rw [hnone, hsome'] at hboth
      exact absurd hboth (by simp)
  · rcases hshape'.child?_of_param hparam' with ⟨-, hnone'⟩ | ⟨front', hgrand', hsome'⟩
    · rw [hsome, hnone'] at hboth
      exact absurd hboth (by simp)
    · rw [hsome, hsome'] at hboth
      obtain ⟨_, _, hfront, hfront', hflatten⟩ := hboth.resolve_left (by simp)
      obtain rfl := Option.some.inj hfront
      obtain rfl := Option.some.inj hfront'
      rw [hgrand, hgrand']
      exact hbelow front front' hgrand hgrand' hflatten params

/-- **Compact trees with the same trie** answer every request alike. -/
theorem Compact.alike {n n' : Node H} (hcompact : n.Compact) (hcompact' : n'.Compact)
    (hshape : n.Shape) (hshape' : n'.Shape) (htype : n.type ≠ .param) (htype' : n'.type ≠ .param)
    {path : Bytes} (hcatchAll : n.type = .catchAll → path.head? = some slash)
    (hcatchAll' : n'.type = .catchAll → path.head? = some slash) (heq : n.flatten = n'.flatten) :
    n.Alike n' path := by
  induction hsize : sizeOf n using Nat.strong_induction_on generalizing n n' path with
  | _ size ih =>
    obtain ⟨hpath, hcore⟩ :=
      Trie.chain_injective (hcompact.branches htype) (hcompact'.branches htype') heq
    have hhandler : n.handler = n'.handler := by
      rw [← hshape.value?_core, hcore, hshape'.value?_core]
    refine alike_of_behind hpath hhandler fun c rest hwhole => ?_
    subst hwhole
    have hslash : ∀ {m : Node H}, m.Shape → m.path = n.path →
        (m.type = .catchAll → (n.path ++ c :: rest).head? = some slash) →
        m.type = .catchAll → c = slash := by
      intro m hm hmpath hhead hmtype
      have hhead := hhead hmtype
      rw [← hmpath, hm.path_of_catchAll hmtype] at hhead
      exact Option.some.inj hhead
    -- in front of a catch-all there may be empty nodes, which do not matter
    by_cases hrest : ∃ name value, n.core.next c = .rest name value
    · obtain ⟨name, value, hnext⟩ := hrest
      intro params
      have hfound' := (locate_of_next_rest hshape' htype' (hcore ▸ hnext)).2 rest params
      rw [(locate_of_next_rest hshape htype hnext).2, hpath, hfound']
    have hcases := (hshape.core_cases (hslash hshape rfl hcatchAll)).imp_right
      fun h => h.resolve_right hrest
    have hcases' := (hshape'.core_cases (hslash hshape' hpath.symm hcatchAll')).imp_right
      fun h => h.resolve_right (hcore ▸ hrest)
    rcases hcases with hwild | ⟨child, hwild, hchildren, hparam, hchild, hparamCore⟩
    · rcases hcases' with hwild' | ⟨child', -, -, -, -, hparamCore'⟩
      · have hnexts : n.nexts = n'.nexts := by
          rw [← (core_of_index hwild).2.2, hcore, (core_of_index hwild').2.2]
        refine alike_of_index hshape hshape' htype htype' hwild hwild' hpath ?_
        rcases hcompact.used.child?_eq hcompact'.used hshape hshape' hnexts c with
          ⟨hnone, hnone'⟩ | ⟨front, front', hfront, hfront', hflatten⟩
        · exact .inl (hnone.trans hnone'.symm)
        · obtain ⟨hmem, hhangs, hs⟩ := hshape.child_of_edge (mem_of_child? hfront)
          obtain ⟨hmem', hhangs', hs'⟩ := hshape'.child_of_edge (mem_of_child? hfront')
          refine .inr ⟨front, front', hfront, hfront', ?_⟩
          exact ih (sizeOf front) (hsize ▸ sizeOf_lt_of_mem hmem) (hcompact.of_mem hmem)
            (hcompact'.of_mem hmem') hs hs' hhangs.type_ne_param hhangs'.type_ne_param
            (hhangs.enters rfl).2 (hhangs'.enters rfl).2 hflatten rfl
      · have hplain := (core_of_index hwild).2.1
        rw [hcore, hparamCore'] at hplain
        exact nomatch hplain
    · rcases hcases' with hwild' | ⟨child', hwild', hchildren', hparam', hchild', hparamCore'⟩
      · have hplain := (core_of_index hwild').2.1
        rw [← hcore, hparamCore] at hplain
        exact nomatch hplain
      · rw [hparamCore, hparamCore'] at hcore
        obtain ⟨-, hname, hsub⟩ := Trie.param.inj hcore
        have hmem : child ∈ n.children := hchildren ▸ List.mem_cons_self
        have hmem' : child' ∈ n'.children := hchildren' ▸ List.mem_cons_self
        have hchildHandler : child.handler = child'.handler := by
          rw [← hchild.value?_core, hsub, hchild'.value?_core]
        refine alike_of_param (List.cons_ne_nil _ _) hwild hwild' hchildren hchildren' hparam
          hparam' hpath hname hchildHandler fun tail => ?_
        refine (hcompact.of_mem hmem).used.locateBelow_eq (hcompact'.of_mem hmem').used hchild
          hchild' hparam hparam' hsub tail fun front front' hgrand hgrand' hflatten => ?_
        obtain ⟨_, hone, hhangs, hs⟩ :=
          (hchild.children_of_param hparam).resolve_left (by rw [hgrand]; exact nofun)
        obtain ⟨_, hone', hhangs', hs'⟩ :=
          (hchild'.children_of_param hparam').resolve_left (by rw [hgrand']; exact nofun)
        obtain ⟨rfl, -⟩ := List.cons.inj (hgrand.symm.trans hone)
        obtain ⟨rfl, -⟩ := List.cons.inj (hgrand'.symm.trans hone')
        have hin : front ∈ child.children := hgrand ▸ List.mem_cons_self
        have hin' : front' ∈ child'.children := hgrand' ▸ List.mem_cons_self
        exact ih (sizeOf front) (hsize ▸ (sizeOf_lt_of_mem hin).trans (sizeOf_lt_of_mem hmem))
          ((hcompact.of_mem hmem).of_mem hin) ((hcompact'.of_mem hmem').of_mem hin') hs hs'
          hhangs.type_ne_param hhangs'.type_ne_param (hhangs.enters rfl).2 (hhangs'.enters rfl).2
          hflatten rfl

/-! ## The order of `add_route` calls -/

theorem Compact.asRoot {n : Node H} (hcompact : n.Compact) (htype : n.type ≠ .param) :
    n.asRoot.Compact := by
  have hedges : n.asRoot.edges = n.edges := by
    rw [edges_of_ne_param htype]
    exact edges_of_ne_param (show NodeType.root ≠ .param from nofun)
  refine .mk (fun _ => ?_) (fun c child hmem => ?_) fun _ => hcompact.of_mem
  · rw [core_asRoot htype]
    exact hcompact.branches htype
  · rw [hedges] at hmem
    exact hcompact.used c child hmem

theorem Adds.compact {v : H} {n n' : Node H} {path : Bytes} {verdict : Verdict}
    (hadds : Adds (some v) n path n' verdict) (haccepted : verdict = .accepted) (hroot : n.Root)
    (hcompact : ¬ n.Blank → n.Compact) : n'.Compact := by
  cases hadds with
  | @first n' hblank hfills =>
      have hunused : n.bump.Unused := hroot.bump.unused_of_blank hblank
      obtain ⟨hused, hbelow⟩ := hfills.compact_below rfl hunused.type_ne hunused.children_eq
        hunused.indices_eq
      have hfilled : Compact n' := .mk (fun _ => hfills.branches rfl hunused) hused hbelow
      exact hfilled.asRoot (by rw [hfills.type_eq]; exact hunused.type_ne)
  | firstFails _ hverdict => exact absurd haccepted hverdict
  | later hblank hsplits hcontinues =>
      have henters := hroot.bump.enters path
      exact hcontinues.compact haccepted (hsplits.shape hroot.shape.bump henters)
        (hsplits.reaches hroot.shape.bump henters)
        (hsplits.opened (hcompact hblank).bump hroot.shape.bump henters)

/-- A run of successful calls on a compact tree leaves a compact tree. -/
theorem Root.addRoutes_compact {n n' : Node H} {calls : List (Bytes × H)} (hroot : n.Root)
    (hslash : ∀ call ∈ calls, call.1.head? = some slash) (hcompact : ¬ n.Blank → n.Compact)
    (hrun : n.addRoutes (calls.map registration) = some n') : calls = [] ∨ n'.Compact := by
  induction calls generalizing n with
  | nil => exact .inl rfl
  | cons call calls ih =>
      right
      rw [List.forall_mem_cons] at hslash
      obtain ⟨hok, hrun⟩ := addRoutes_cons_eq_some.mp hrun
      have hadds := addRoute_adds hroot.toTop call.1 (some call.2)
      have hstep := hadds.compact (Outcome.verdict_eq_accepted.mpr hok) hroot hcompact
      rcases ih (hadds.root hroot hslash.1) hslash.2 (fun _ => hstep) hrun with rfl | hcompact'
      · obtain rfl := Option.some.inj hrun
        exact hstep
      · exact hcompact'

/-- **The order of the routes does not matter.** -/
theorem addRoutes_perm {calls calls' : List (Bytes × H)} {n : Node H}
    (hslash : ∀ call ∈ calls, call.1.head? = some slash) (hperm : calls.Perm calls')
    (hrun : (empty : Node H).addRoutes (calls.map registration) = some n) :
    ∃ n', (empty : Node H).addRoutes (calls'.map registration) = some n' ∧
      ∀ path params, n.locate path params = n'.locate path params := by
  have hslash' : ∀ call ∈ calls', call.1.head? = some slash :=
    fun call hcall => hslash call (hperm.symm.subset hcall)
  have hblank : ¬ (empty : Node H).Blank → (empty : Node H).Compact := fun h => absurd ⟨rfl, rfl⟩ h
  have hbuilt := built_of_addRoutes hslash hrun
  have hinserts := Trie.insertAll_perm (hperm.map pattern) hbuilt.insertAll
  obtain ⟨n', hrun'⟩ := root_empty.addRoutes_of_insertAll hslash'
    (fun call hcall => hbuilt.parses call (hperm.symm.subset hcall)) hinserts
  refine ⟨n', hrun', fun path => ?_⟩
  have hbuilt' := built_of_addRoutes hslash' hrun'
  have hflatten : n.flatten = n'.flatten := Option.some.inj (hinserts.symm.trans hbuilt'.insertAll)
  rcases root_empty.addRoutes_compact hslash hblank hrun with rfl | hcompact
  · obtain rfl := List.nil_perm.mp hperm
    obtain rfl := Option.some.inj (hrun.symm.trans hrun')
    exact fun _ => rfl
  · rcases root_empty.addRoutes_compact hslash' hblank hrun' with rfl | hcompact'
    · obtain rfl := List.perm_nil.mp hperm
      obtain rfl := Option.some.inj (hrun.symm.trans hrun')
      exact fun _ => rfl
    · exact hcompact.alike hcompact' hbuilt.root.shape hbuilt'.root.shape hbuilt.root.type_ne_param
        hbuilt'.root.type_ne_param (absurd · hbuilt.root.type_ne_catchAll)
        (absurd · hbuilt'.root.type_ne_catchAll) hflatten

/-- The routes `/a` and `/b`, in both orders. -/
theorem addRoutes_perm_slash_a_slash_b :
    ∃ n n', (empty : Node ℕ).addRoutes ([(ascii "/a", 1), (ascii "/b", 2)].map registration) =
        some n ∧
      (empty : Node ℕ).addRoutes ([(ascii "/b", 2), (ascii "/a", 1)].map registration) =
        some n' ∧
      ∀ path params, n.locate path params = n'.locate path params := by
  have hslash : ∀ call ∈ [(ascii "/a", 1), (ascii "/b", 2)], call.1.head? = some slash := by decide
  obtain ⟨n, hrun⟩ := Option.isSome_iff_exists.mp (show ((empty : Node ℕ).addRoutes
    ([(ascii "/a", 1), (ascii "/b", 2)].map registration)).isSome = true by decide +kernel)
  obtain ⟨n', hrun', halike⟩ := addRoutes_perm hslash (List.Perm.swap _ _ []) hrun
  exact ⟨n, n', hrun, hrun', halike⟩

end Node

end Eureka.Router

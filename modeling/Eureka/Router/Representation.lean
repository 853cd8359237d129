import Eureka.Router.Aborts
import Eureka.Router.Priorities

/-!
# The representation of a tree

What every node of a tree is like that successful calls of `add_route` have built
(`addRoutes_represented`).  Most of it is in `Shape`, `Counted` and `Ordered`, which the calls
keep; `Tidy` is what they leave, in addition, of the nodes that may be empty: the first node of
a catch-all, and the node in front of it.
-/

namespace Eureka.Router

namespace Node

variable {H : Type}

/-! ## Empty nodes -/

/-- An empty path belongs to a catch-all, and a catch-all with a path is the last node. -/
inductive Tidy : Node H → Prop
  | mk {n} (hempty : n.path = [] → n.type = .catchAll ∨
        ∃ head, n.children = [head] ∧ head.type = .catchAll)
      (hlast : n.type = .catchAll → n.path ≠ [] →
        n.children = [] ∧ n.hasWildChild = false ∧ n.indices = [])
      (hinside : ∀ child ∈ n.children, Tidy child) : Tidy n

theorem Tidy.of_mem {n child : Node H} (htidy : n.Tidy) (hmem : child ∈ n.children) :
    child.Tidy := by
  obtain ⟨-, -, hinside⟩ := htidy
  exact hinside child hmem

theorem Tidy.only_head {n : Node H} (htidy : n.Tidy) (htype : n.type ≠ .catchAll)
    (hpath : n.path = []) : ∃ head, n.children = [head] ∧ head.type = .catchAll := by
  obtain ⟨hempty, -, -⟩ := htidy
  exact (hempty hpath).resolve_left htype

theorem Tidy.bump {n : Node H} (htidy : n.Tidy) : n.bump.Tidy := by
  obtain ⟨hempty, hlast, hinside⟩ := htidy
  exact .mk hempty hlast hinside

theorem tidy_of_path {n : Node H} (hpath : n.path ≠ []) (htype : n.type ≠ .catchAll)
    (hinside : ∀ child ∈ n.children, child.Tidy) : n.Tidy :=
  .mk (fun h => absurd h hpath) (fun h => absurd h htype) hinside

theorem tidy_catchAllNode (name : Bytes) (handler : Option H) :
    (catchAllNode name handler).Tidy := by
  refine .mk (fun _ => .inl rfl) (fun _ h => absurd rfl h) fun child hmem => ?_
  rw [List.mem_singleton.mp hmem]
  exact .mk nofun (fun _ _ => ⟨rfl, rfl, rfl⟩) fun _ h => absurd h List.not_mem_nil

theorem Fills.tidy {handler : Option H} {n n' : Node H} {path : Bytes} {verdict : Verdict}
    (hfills : Fills handler n path n' verdict) (haccepted : verdict = .accepted)
    (htype : n.type = .plain ∨ n.type = .root) (hne : path ≠ [])
    (hstarts : n.path = [] → StartsLiteral path) (hchildren : n.children = []) : n'.Tidy := by
  have hplain : ∀ {n : Node H}, n.type = .plain ∨ n.type = .root → n.type ≠ .catchAll := by
    rintro n (h | h) <;> rw [h] <;> exact nofun
  have hwith : ∀ {n : Node H} {plain tail : Bytes} {child : Node H}, n.type = .plain ∨ n.type = .root →
      (n.path = [] → StartsLiteral (plain ++ colon :: tail)) → child.Tidy →
      (n.withParam plain child).Tidy := by
    intro n plain tail child htype hstarts hchild
    refine tidy_of_path ?_ (hplain htype) (List.forall_mem_singleton.mpr hchild)
    unfold withParam
    dsimp only
    split_ifs with hempty
    · intro hnil
      obtain rfl := List.isEmpty_iff.mp hempty
      exact nomatch hstarts hnil colon rfl
    · exact fun hnil => hempty (List.isEmpty_iff.mpr hnil)
  induction hfills with
  | invalid | occupied | catchAllRejected | catchAllAborted => exact nomatch haccepted
  | plain =>
      refine tidy_of_path hne (hplain htype) fun child hmem => ?_
      rw [hchildren] at hmem
      exact absurd hmem List.not_mem_nil
  | paramEnd hscan =>
      obtain ⟨rfl, -⟩ := eq_of_scan_param hscan
      refine hwith htype hstarts (tidy_of_path (List.cons_ne_nil _ _) nofun ?_)
      exact fun _ h => absurd h List.not_mem_nil
  | param hscan _ hrest _ ih =>
      obtain ⟨rfl, -, -, hslash⟩ := eq_of_scan_param hscan
      refine hwith htype hstarts (tidy_of_path (List.cons_ne_nil _ _) nofun ?_)
      refine List.forall_mem_singleton.mpr (ih haccepted (.inl rfl) hrest (fun _ => ?_) rfl)
      exact startsLiteral_of_head? (hslash.resolve_left hrest) startsWildcard_slash
  | catchAll =>
      refine .mk (fun _ => .inr ⟨_, rfl, rfl⟩) (fun h => absurd h (hplain htype)) ?_
      exact List.forall_mem_singleton.mpr (tidy_catchAllNode _ _)

/-- How a node is entered whose path is empty: with the only character that it goes on with. -/
def Heads (m : Node H) (rem : Bytes) : Prop :=
  m.path = [] → ∃ c, rem.head? = some c ∧ startsWildcard c = false ∧ ∀ c' ∈ m.indices, c' = c

theorem Splits.heads {n m : Node H} {c : Byte} {rest rem : Bytes} (hc : startsWildcard c = false)
    (hstarts : n.path.head? = some c ∨ n.path = [] ∧ ∀ c' ∈ n.indices, c' = c)
    (hsplits : Splits n (c :: rest) m rem) : (m.path = [] → m = n) ∧ m.Heads rem := by
  rcases hstarts with hpath | ⟨hpath, hindices⟩
  · have hne : m.path ≠ [] := by
      intro hnil
      have hhead := hsplits.head?_path hpath
      rw [hnil] at hhead
      exact nomatch hhead
    exact ⟨fun h => absurd h hne, fun h => absurd h hne⟩
  · obtain ⟨rfl, rfl⟩ := hsplits.eq_of_path_nil hpath
    exact ⟨fun _ => rfl, fun _ => ⟨c, rfl, hc, hindices⟩⟩

theorem Hangs.heads {front m : Node H} {c : Byte} {rest rem : Bytes} (hc : startsWildcard c = false)
    (hhangs : front.Hangs c) (hsplits : Splits front.bump (c :: rest) m rem) :
    (m.path = [] → m = front.bump) ∧ m.Heads rem :=
  hsplits.heads hc (hhangs.starts.imp_right fun h => ⟨h.1, h.2.2.2⟩)

theorem Splits.tidy {n m : Node H} {path rem : Bytes} (hsplits : Splits n path m rem)
    (hshape : n.Shape) (hwhole : m.path = [] → m = n) (htidy : n.Tidy) : m.Tidy := by
  cases hsplits with
  | whole => exact htidy
  | @part shared tail _ a hpath =>
      have hne : n.type ≠ .catchAll := by
        intro htype
        rw [hshape.path_of_catchAll htype] at hpath
        exact List.append_ne_nil_of_right_ne_nil _ (List.cons_ne_nil _ _) hpath.symm
      rw [splitAt_eq hpath] at hwhole ⊢
      refine tidy_of_path (fun hnil => ?_) hne (List.forall_mem_singleton.mpr ?_)
      · have hpath' : shared = n.path := congrArg Node.path (hwhole hnil)
        rw [hpath, List.self_eq_append_right] at hpath'
        exact absurd hpath' (List.cons_ne_nil _ _)
      · exact tidy_of_path (List.cons_ne_nil _ _) nofun fun _ => htidy.of_mem

/-- No route is put in below the first node of a catch-all. -/
theorem Continues.type_ne_catchAll {handler : Option H} {m n' : Node H} {rem : Bytes}
    {verdict : Verdict} (hcontinues : Continues handler m rem n' verdict)
    (haccepted : verdict = .accepted) (hshape : m.Shape) (hreaches : m.Reaches rem) :
    m.type ≠ .catchAll := by
  intro htype
  have hwild : m.hasWildChild = true ∧ ∃ child, m.children = [child] ∧ child.type = .catchAll := by
    cases hshape with
    | leaf h | static h | wild h => rw [htype] at h; rcases h with h | h <;> exact nomatch h
    | param h => rw [htype] at h; exact nomatch h
    | catchAll _ _ _ hwild _ hchildren hchild => exact ⟨hwild, _, hchildren, hchild⟩
  obtain ⟨hwild, child, hchildren, hchild⟩ := hwild
  cases hcontinues with
  | registered | wildConflict => exact nomatch haccepted
  | fill => exact nomatch hreaches.2 htype
  | wildDescend _ _ hchildren' hfollows =>
      obtain ⟨rfl, -⟩ := List.cons.inj (hchildren'.symm.trans hchildren)
      exact hfollows.2.1 hchild
  | paramDescend hplain | indexDescend hplain | push hplain | special hplain =>
      rw [hwild] at hplain
      exact nomatch hplain

theorem Splits.tidy_inside {front m : Node H} {c : Byte} {rest rem : Bytes}
    (hsplits : Splits front.bump (c :: rest) m rem) (hc : startsWildcard c = false)
    (hhangs : front.Hangs c) (hshape : front.Shape) (htidy : front.Tidy) :
    m.Shape ∧ m.Reaches rem ∧ m.Heads rem ∧ m.Tidy := by
  have henters : front.bump.Enters (c :: rest) := hhangs.bump.enters rfl
  obtain ⟨hwhole, hheads⟩ := hhangs.heads hc hsplits
  exact ⟨hsplits.shape hshape.bump henters, hsplits.reaches hshape.bump henters, hheads,
    hsplits.tidy hshape.bump hwhole htidy.bump⟩

/-- **A route that is put in leaves no other empty nodes.** -/
theorem Continues.tidy {handler : Option H} {m n' : Node H} {rem : Bytes} {verdict : Verdict}
    (hcontinues : Continues handler m rem n' verdict) (haccepted : verdict = .accepted)
    (hshape : m.Shape) (hreaches : m.Reaches rem) (hheads : m.Heads rem) (htidy : m.Tidy) :
    n'.Tidy := by
  have htype := hcontinues.type_ne_catchAll haccepted hshape hreaches
  have hone := htidy.only_head htype
  induction hcontinues with
  | registered | wildConflict => exact nomatch haccepted
  | fill =>
      obtain ⟨hempty, hlast, hinside⟩ := htidy
      exact .mk hempty hlast hinside
  | @wildDescend n front others path m rem child verdict _ hwild hchildren hfollows hsplits
      hcontinues ih =>
      obtain ⟨rfl, hparam, hshape'⟩ := hshape.of_follows hwild hchildren hfollows
      have henters := hfollows.bump.enters
      obtain ⟨rfl, -, -⟩ := hsplits.eq_of_follows hfollows.bump
      have hne : front.path ≠ [] := by
        obtain ⟨name, -, hname⟩ := hshape'.path_of_param hparam
        rw [hname]
        exact List.cons_ne_nil _ _
      have hreaches' := hsplits.reaches hshape'.bump henters
      have htidy' := (htidy.of_mem (hchildren ▸ List.mem_cons_self)).bump
      refine tidy_of_path (fun hnil => ?_) htype (List.forall_mem_singleton.mpr ?_)
      · obtain ⟨head, hhead, hcatchAll⟩ := hone hnil
        obtain ⟨rfl, -⟩ := List.cons.inj (hchildren.symm.trans hhead)
        exact hfollows.2.1 hcatchAll
      · exact ih haccepted hshape'.bump hreaches' (fun h => absurd h hne) htidy'
          hfollows.2.1 fun h => absurd h hne
  | @paramDescend n front path m rem child verdict _ hparam hpath hchildren hsplits hcontinues ih =>
      obtain ⟨front', hchildren', hhangs, hshape'⟩ :=
        (hshape.children_of_param hparam).resolve_left (hchildren ▸ List.cons_ne_nil _ _)
      obtain ⟨rfl, -⟩ := List.cons.inj (hchildren.symm.trans hchildren')
      obtain ⟨rest, rfl⟩ := List.head?_eq_some_iff.mp hpath
      obtain ⟨hshape', hreaches', hheads', htidy'⟩ := hsplits.tidy_inside startsWildcard_slash
        hhangs hshape' (htidy.of_mem (hchildren ▸ List.mem_cons_self))
      have htype' := hcontinues.type_ne_catchAll haccepted hshape' hreaches'
      obtain ⟨name, -, hname⟩ := hshape.path_of_param hparam
      refine tidy_of_path (hname ▸ List.cons_ne_nil _ _) htype (List.forall_mem_singleton.mpr ?_)
      exact ih haccepted hshape' hreaches' hheads' htidy' htype' (htidy'.only_head htype')
  | @indexDescend n c rest front before after m rem child indices children verdict hwild hplain hedges
      hsplits hcontinues hlength hperm ih =>
      have hmem : (c, front) ∈ n.edges := by
        rw [edges_of_ne_param hplain, hedges]
        exact List.mem_append_right _ List.mem_cons_self
      obtain ⟨hfront, hhangs, hshape'⟩ := hshape.child_of_edge hmem
      obtain ⟨hshape', hreaches', hheads', htidy'⟩ := hsplits.tidy_inside
        (hshape.literal_of_edge hwild hmem) hhangs hshape' (htidy.of_mem hfront)
      have htype' := hcontinues.type_ne_catchAll haccepted hshape' hreaches'
      have hchild :=
        ih haccepted hshape' hreaches' hheads' htidy' htype' (htidy'.only_head htype')
      refine tidy_of_path (fun hnil => ?_) htype fun child' hmem' => ?_
      · -- the only child of an empty node is the first node of a catch-all
        obtain ⟨head, hhead, hcatchAll⟩ := hone hnil
        rw [hhead, List.mem_singleton] at hfront
        subst hfront
        exact htype' (hsplits.type_eq.trans hcatchAll)
      · have hnew := children_perm hlength hperm
        have hold := children_perm (hshape.length_indices hwild fun h => absurd h hplain)
          (.of_eq hedges)
        rw [List.map_append, List.map_cons] at hnew hold
        rcases List.mem_append.mp (hnew.subset hmem') with hmem' | hmem'
        · exact htidy.of_mem (hold.symm.subset (List.mem_append_left _ hmem'))
        · rcases List.mem_cons.mp hmem' with rfl | hmem'
          · exact hchild
          · exact htidy.of_mem (hold.symm.subset
              (List.mem_append_right _ (List.mem_cons_of_mem _ hmem')))
  | @push n c rest child indices children verdict hwild hmiss hparam hc hfills hlength hperm =>
      have hlength' := hshape.length_indices hwild fun h => (hparam h).2
      refine tidy_of_path (fun hnil => ?_) htype fun child' hmem' => ?_
      · -- an empty node has a child for the character that it was entered with
        obtain ⟨head, hhead, -⟩ := hone hnil
        obtain ⟨c', hc', -, hindices⟩ := hheads hnil
        obtain rfl := Option.some.inj hc'
        rw [hhead, List.length_singleton] at hlength'
        obtain ⟨c', hc'⟩ := List.length_eq_one_iff.mp hlength'
        have hsame := hindices c' (hc' ▸ List.mem_singleton_self c')
        exact hmiss (hc' ▸ hsame ▸ List.mem_singleton_self c')
      · have hnew := children_perm hlength hperm
        have hold := children_perm hlength' (List.Perm.refl _)
        rw [List.map_append, List.map_singleton] at hnew
        rcases List.mem_append.mp (hnew.subset hmem') with hmem' | hmem'
        · exact htidy.of_mem (hold.symm.subset hmem')
        · rw [List.mem_singleton.mp hmem']
          refine hfills.tidy haccepted (.inl rfl) (List.cons_ne_nil _ _) (fun _ c' hc' => ?_) rfl
          rwa [← Option.some.inj hc']
  | @special n c rest n' verdict hwild hplain _ hc hfills =>
      by_cases hchildren : n.children = []
      · refine hfills.tidy haccepted (hshape.type_of_static hwild hplain).1 (List.cons_ne_nil _ _)
          (fun hnil => ?_) hchildren
        obtain ⟨head, hhead, -⟩ := hone hnil
        exact absurd (hchildren.symm.trans hhead).symm (List.cons_ne_nil _ _)
      · rw [(hfills.eq_of_occupied hchildren hc).2] at haccepted
        exact nomatch haccepted

theorem Adds.tidy {handler : Option H} {n n' : Node H} {path : Bytes} {verdict : Verdict}
    (hadds : Adds handler n path n' verdict) (haccepted : verdict = .accepted) (hroot : n.Root)
    (hpath : path.head? = some slash) (htidy : ¬ n.Blank → n.Tidy) : n'.Tidy := by
  obtain ⟨rest, rfl⟩ := List.head?_eq_some_iff.mp hpath
  cases hadds with
  | @first n' hblank hfills =>
      have hunused : n.bump.Unused := hroot.bump.unused_of_blank hblank
      have hfilled := hfills.tidy rfl hroot.type_eq (List.cons_ne_nil _ _)
        (fun _ => startsLiteral_of_head? rfl startsWildcard_slash) hunused.children_eq
      have htype : n'.type ≠ .catchAll := by
        rw [hfills.type_eq]
        exact hroot.type_ne_catchAll
      exact .mk (fun hnil => .inr (hfilled.only_head htype hnil)) nofun fun _ => hfilled.of_mem
  | firstFails _ hverdict => exact absurd haccepted hverdict
  | later hblank hsplits hcontinues =>
      have henters := hroot.bump.enters (slash :: rest)
      obtain ⟨hwhole, hheads⟩ := hsplits.heads startsWildcard_slash
        (hroot.bump.starts.imp_right fun h => ⟨h.1, h.2.2.2⟩)
      exact hcontinues.tidy haccepted (hsplits.shape hroot.shape.bump henters)
        (hsplits.reaches hroot.shape.bump henters) hheads
        (hsplits.tidy hroot.shape.bump hwhole (htidy hblank).bump)

/-! ## Every node -/

inductive Contains : Node H → Node H → Prop
  | self (n) : Contains n n
  | inside {n child m} (hmem : child ∈ n.children) (hcontains : Contains child m) : Contains n m

/-- The first node of a catch-all, or the node in front of it if that is empty, too. -/
structure CatchAllHead (n : Node H) : Prop where
  path_eq : n.path = []
  heads : n.type = .catchAll ∨
    ∃ head, n.children = [head] ∧ head.type = .catchAll ∧ head.path = []

/-- What the representation promises of a node. -/
structure Represented (n : Node H) : Prop where
  priority_eq : n.priority = n.handlerCount
  ordered : n.children.Pairwise fun left right => right.priority ≤ left.priority
  wild : n.hasWildChild = true → ∃ child, n.children = [child]
  param : n.type = .param → n.children.length ≤ 1
  nodup : n.indices.Nodup
  length_eq : n.indices ≠ [] → n.indices.length = n.children.length
  starts : ∀ (i : ℕ) (c : Byte) (child : Node H), n.indices[i]? = some c → n.children[i]? = some child →
    child.CatchAllHead ∨ child.path.head? = some c

theorem Shape.of_mem {n child : Node H} (hshape : n.Shape) (hmem : child ∈ n.children) :
    child.Shape ∨ n.type = .catchAll ∧ child.type = .catchAll ∧ child.path ≠ [] := by
  cases hshape with
  | leaf _ _ _ _ hchildren =>
      rw [hchildren] at hmem
      exact absurd hmem List.not_mem_nil
  | static _ _ _ _ _ _ _ _ hshape => exact .inl (hshape child hmem)
  | wild _ _ _ _ hchildren _ hshape =>
      rw [hchildren, List.mem_singleton] at hmem
      exact .inl (hmem ▸ hshape)
  | param _ _ _ _ _ _ _ hshape => exact .inl (hshape child hmem)
  | catchAll htype _ _ _ _ hchildren hchild hname =>
      rw [hchildren, List.mem_singleton] at hmem
      subst hmem
      exact .inr ⟨htype, hchild, hname ▸ List.cons_ne_nil _ _⟩

/-- A child below an index character starts with it or belongs to a catch-all. -/
theorem Hangs.catchAllHead {child : Node H} {c : Byte} (hhangs : child.Hangs c)
    (hshape : child.Shape) (htidy : child.Tidy) :
    child.CatchAllHead ∨ child.path.head? = some c := by
  rcases hhangs.starts with hpath | ⟨hpath, -⟩
  · exact .inr hpath
  · refine .inl ⟨hpath, ?_⟩
    by_cases htype : child.type = .catchAll
    · exact .inl htype
    · obtain ⟨head, hchildren, hhead⟩ := htidy.only_head htype hpath
      have hshape' : head.Shape := (hshape.of_mem (hchildren ▸ List.mem_cons_self)).resolve_right
        fun h => htype h.1
      exact .inr ⟨head, hchildren, hhead, hshape'.path_of_catchAll hhead⟩

theorem Shape.represented {n : Node H} (hshape : n.Shape) (htidy : n.Tidy) (hcounted : n.Counted)
    (hordered : n.Ordered) : n.Represented := by
  have hstarts : ∀ c child, (c, child) ∈ n.edges →
      child.CatchAllHead ∨ child.path.head? = some c := by
    intro c child hmem
    obtain ⟨hchild, hhangs, hshape'⟩ := hshape.child_of_edge hmem
    exact hhangs.catchAllHead hshape' (htidy.of_mem hchild)
  obtain ⟨hsorted, -, -⟩ := hordered
  refine ⟨hcounted.priority_eq, hsorted, fun hwild => ?_, ?_, ?_, ?_, ?_⟩
  · obtain ⟨child, hchildren, -⟩ := hshape.cases_of_wild hwild
    exact ⟨child, hchildren⟩
  · intro htype
    rcases hshape.children_of_param htype with hnil | ⟨front, hchildren, -⟩
    · rw [hnil]
      exact Nat.zero_le _
    · rw [hchildren]
      exact le_rfl
  · cases hshape with
    | leaf _ _ _ hindices | wild _ _ _ hindices | catchAll _ _ _ _ hindices =>
        rw [hindices]
        exact .nil
    | static _ _ _ _ _ hnodup => exact hnodup
    | param _ _ _ _ _ hindices =>
        rcases hindices with hindices | ⟨hindices, -⟩ <;> rw [hindices]
        · exact .nil
        · exact List.nodup_singleton _
  · intro hne
    cases hshape with
    | leaf _ _ _ hindices | wild _ _ _ hindices | catchAll _ _ _ _ hindices =>
        exact absurd hindices hne
    | static _ _ _ hlength => exact hlength
    | param _ _ _ _ hlength hindices =>
        obtain ⟨hindices, hchildren⟩ := hindices.resolve_left hne
        have hpos := List.length_pos_of_ne_nil hchildren
        rw [hindices, List.length_singleton]
        omega
  · intro i c child hc hchild
    refine hstarts c child ?_
    by_cases htype : n.type = .param
    · have hslash : c = slash := by
        have hmem := List.mem_of_getElem? hc
        cases hshape with
        | leaf h | static h | wild h => rw [htype] at h; rcases h with h | h <;> exact nomatch h
        | catchAll h => rw [htype] at h; exact nomatch h
        | param _ _ _ _ _ hindices =>
            rcases hindices with hindices | ⟨hindices, -⟩
            · rw [hindices] at hmem
              exact absurd hmem List.not_mem_nil
            · rw [hindices] at hmem
              exact List.mem_singleton.mp hmem
      rw [edges_of_param htype, hslash]
      exact List.mem_map_of_mem (List.mem_of_getElem? hchild)
    · rw [edges_of_ne_param htype]
      exact List.mem_of_getElem? (List.getElem?_zip_eq_some.mpr ⟨hc, hchild⟩)

theorem represented_of_leaf {n : Node H} (hchildren : n.children = [])
    (hwild : n.hasWildChild = false) (hindices : n.indices = []) (hcounted : n.Counted) :
    n.Represented where
  priority_eq := hcounted.priority_eq
  ordered := hchildren ▸ .nil
  wild h := by
    rw [hwild] at h
    exact nomatch h
  param _ := hchildren ▸ Nat.zero_le _
  nodup := hindices ▸ .nil
  length_eq h := absurd hindices h
  starts i c child hc := by
    rw [hindices] at hc
    exact nomatch hc

theorem Contains.represented {n m : Node H} (hcontains : n.Contains m)
    (hshape : n.Shape ∨ n.type = .catchAll ∧ n.path ≠ []) (htidy : n.Tidy) (hcounted : n.Counted)
    (hordered : n.Ordered) : m.Represented := by
  induction hcontains with
  | self n =>
      rcases hshape with hshape | ⟨htype, hpath⟩
      · exact hshape.represented htidy hcounted hordered
      · obtain ⟨-, hlast, -⟩ := htidy
        obtain ⟨hchildren, hwild, hindices⟩ := hlast htype hpath
        exact represented_of_leaf hchildren hwild hindices hcounted
  | @inside n child m hmem _ ih =>
      refine ih ?_ (htidy.of_mem hmem) (hcounted.of_mem hmem) (hordered.of_mem hmem)
      rcases hshape with hshape | ⟨htype, hpath⟩
      · exact (hshape.of_mem hmem).imp_right fun h => h.2
      · obtain ⟨-, hlast, -⟩ := htidy
        rw [(hlast htype hpath).1] at hmem
        exact absurd hmem List.not_mem_nil

theorem addRoutes_sound {calls : List (Bytes × H)} {n n' : Node H} (hroot : n.Root)
    (hcounted : n.Counted) (hordered : n.Ordered) (htidy : ¬ n.Blank → n.Tidy)
    (hslash : ∀ call ∈ calls, call.1.head? = some slash)
    (hrun : n.addRoutes (calls.map registration) = some n') :
    n'.Root ∧ n'.Counted ∧ n'.Ordered ∧ (¬ n'.Blank → n'.Tidy) := by
  induction calls generalizing n with
  | nil =>
      obtain rfl := Option.some.inj hrun
      exact ⟨hroot, hcounted, hordered, htidy⟩
  | cons call calls ih =>
      rw [List.forall_mem_cons] at hslash
      obtain ⟨hok, hrun⟩ := addRoutes_cons_eq_some.mp hrun
      have hadds := addRoute_adds hroot.toTop call.1 (some call.2)
      have haccepted := Outcome.verdict_eq_accepted.mpr hok
      have hnonneg : 0 ≤ n.priority := by
        rw [hcounted.priority_eq]
        exact Int.natCast_nonneg _
      exact ih (hadds.root hroot hslash.1) (hadds.counted haccepted hroot hcounted)
        (addRoute_ordered hordered hnonneg hok).1
        (fun _ => hadds.tidy haccepted hroot hslash.1 htidy) hslash.2 hrun

/-- **Every node of a tree that successful calls have built is as the representation promises.** -/
theorem addRoutes_represented {calls : List (Bytes × H)} {n : Node H}
    (hslash : ∀ call ∈ calls, call.1.head? = some slash)
    (hrun : (empty : Node H).addRoutes (calls.map registration) = some n) {m : Node H}
    (hcontains : n.Contains m) : m.Represented := by
  have hempty : (empty : Node H).Counted ∧ (empty : Node H).Ordered := by
    refine ⟨.mk ?_ fun _ h => absurd h List.not_mem_nil, ordered_of_children_nil rfl⟩
    rw [handlerCount]
    rfl
  obtain ⟨hroot, hcounted, hordered, htidy⟩ :=
    addRoutes_sound root_empty hempty.1 hempty.2 (fun h => absurd ⟨rfl, rfl⟩ h) hslash hrun
  by_cases hblank : n.Blank
  · -- nothing was put in, so the tree is a single node
    have hunused := hroot.unused_of_blank hblank
    cases hcontains with
    | self => exact represented_of_leaf hunused.children_eq hunused.wild hunused.indices_eq hcounted
    | inside hmem =>
        rw [hunused.children_eq] at hmem
        exact absurd hmem List.not_mem_nil
  · exact hcontains.represented (.inl hroot.shape) (htidy hblank) hcounted hordered

/-- Two routes that share a prefix, of which one ends in a catch-all. -/
theorem addRoutes_represented_slash_a :
    ∃ n, (empty : Node ℕ).addRoutes ([(ascii "/a", 3), (ascii "/a/*x", 7)].map registration) =
      some n ∧ n.Represented := by
  obtain ⟨n, hrun⟩ := Option.isSome_iff_exists.mp (show ((empty : Node ℕ).addRoutes
    ([(ascii "/a", 3), (ascii "/a/*x", 7)].map registration)).isSome = true by decide +kernel)
  exact ⟨n, hrun, addRoutes_represented (by decide) hrun (.self n)⟩

end Node

end Eureka.Router

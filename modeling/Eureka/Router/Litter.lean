import Eureka.Router.Lookup
import Eureka.Router.Peers

/-!
# What a rejected call leaves behind

A call that is rejected may have changed the tree before it throws.  Bumped priorities and
the split of a node without a handler do not show; neither does an empty child below an
index character beside other children.  What shows is listed by `Litters`: a split that
takes the handler away from a node, the first child of a node where a route may end, and a
parameter in front of the part of the path that is rejected.  `Continues.keeps` says that
nothing else shows.
-/

namespace Eureka.Router

open PatternTrie

namespace Node

variable {H : Type}

/-! ## What is left behind -/

/-- A call with the path changes what can be observed of the node before it is rejected.
In every case `m` is the node at the end of the common prefix. -/
inductive Litters : Node H → Bytes → Prop
  -- the split moves the handler into a node of its own
  | cut {n path m rem} (hsplits : Splits n path m rem) (hcut : m.path ≠ n.path)
      (hhandler : n.handler.isSome) : Litters n path
  -- the first child of a node
  | leaf {n path m c rest} (hsplits : Splits n path m (c :: rest)) (hwild : m.hasWildChild = false)
      (htype : m.type ≠ .param) (hchildren : m.children = []) (hc : startsWildcard c = false) :
      Litters n path
  -- a parameter, in a new child or in the node itself
  | param {n path m c rest plain name more} (hsplits : Splits n path m (c :: rest))
      (hwild : m.hasWildChild = false) (hmiss : m.child? c = none)
      (hc : startsWildcard c = true → m.children = [])
      (hscan : scan (c :: rest) = .param plain name more) (hmore : more ≠ []) : Litters n path
  | index {n path m child c rest} (hsplits : Splits n path m (c :: rest))
      (hwild : m.hasWildChild = false) (hchild : m.child? c = some child)
      (hbelow : Litters child.bump (c :: rest)) : Litters n path
  | wild {n path m child rem} (hsplits : Splits n path m rem) (hwild : m.hasWildChild = true)
      (hchildren : m.children = [child]) (hfollows : child.Follows rem)
      (hbelow : Litters child.bump rem) : Litters n path

/-- The same for a whole tree. -/
def Spoils (n : Node H) (path : Bytes) : Prop :=
  n.Blank ∧ (∃ plain name more, scan path = .param plain name more ∧ more ≠ []) ∨
    ¬ n.Blank ∧ n.bump.Litters path

/-- No lookup and no later sequence of `add_route` calls tells the trees apart. -/
def Indistinguishable (n n' : Node H) : Prop :=
  (∀ path params, n.locate path params = n'.locate path params) ∧
    ∀ calls, n.verdicts calls = n'.verdicts calls

/-! ## Splits do not show -/

/-- The priority of a node does not matter to a lookup. -/
theorem alike_bump (n : Node H) (path : Bytes) : n.Alike n.bump path := by
  intro params
  rw [locate.eq_def, locate.eq_def n.bump]
  rfl

theorem locate_append {n : Node H} {shared tail : Bytes} (hpath : n.path = shared ++ tail)
    (type : NodeType) (priority : ℤ) (rest : Bytes) (params : List Param) :
    n.locate (shared ++ rest) params =
      locate { n with path := tail, type := type, priority := priority } rest params := by
  have hlength : (shared ++ rest).length = (shared ++ tail).length ↔ rest.length = tail.length := by
    simp
  have hpre : ((shared ++ tail).length < (shared ++ rest).length ∧
      shared ++ tail <+: shared ++ rest) ↔ tail.length < rest.length ∧ tail <+: rest := by
    simp
  have hdrop : (shared ++ rest).drop (shared ++ tail).length = rest.drop tail.length := by
    rw [List.length_append, ← List.drop_drop, List.drop_left]
  rw [locate.eq_def, locate.eq_def { n with path := tail, type := type, priority := priority }]
  simp only [hpath, hlength, hpre, hdrop]
  rfl

/-- A node without a handler answers only requests that go on behind its path. -/
theorem locate_eq_nullptr {n : Node H} {path : Bytes} (hhandler : n.handler = none)
    (hpre : n.path <+: path → path = n.path) (params : List Param) :
    n.locate path params = (.nullptr, params) := by
  by_cases hlength : path.length = n.path.length
  · rw [locate_of_length hlength, handlerPtr_eq, hhandler]
    rfl
  · refine locate_of_mismatch hlength (fun h => hlength ?_) params
    rw [hpre h]

theorem child?_eq_none {n : Node H} {c : Byte} (hmiss : c ∉ n.edges.map Prod.fst) :
    n.child? c = none := by
  cases hchild : n.child? c with
  | none => rfl
  | some child => exact absurd (List.mem_map.mpr ⟨_, mem_of_child? hchild, rfl⟩) hmiss

/-- A split that takes no handler away does not show. -/
theorem Splits.alike {n m : Node H} {path rem : Bytes} (hsplits : Splits n path m rem)
    (hshape : n.Shape) (henters : n.Enters path) (hclear : ¬ n.Litters path) (path' : Bytes) :
    n.Alike m path' := by
  by_cases htype : n.type = .param
  · rw [(hsplits.eq_of_follows (henters.1 htype)).1]
    exact .refl n path'
  have hshape' := hsplits.shape hshape henters
  cases hsplits with
  | whole => exact .refl n path'
  | @part shared tail rem a hpath hrem =>
      have hhandler : n.handler = none := by
        rw [← Option.not_isSome_iff_eq_none]
        refine fun h => hclear (.cut (.part hpath hrem) ?_ h)
        rw [splitAt_eq hpath, hpath]
        simp
      rw [splitAt_eq hpath] at hshape' ⊢
      set child : Node H :=
        { n with path := a :: tail, type := .plain, priority := n.priority - 1 } with hchild
      set m : Node H :=
        { n with path := shared, indices := [a], hasWildChild := false, handler := none,
                 children := [child] } with hm
      have hedges : m.edges = [(a, child)] := edges_of_ne_param htype
      intro params
      by_cases hpre : shared <+: path'
      · obtain ⟨_ | ⟨b, rest⟩, rfl⟩ := hpre
        · -- the request ends where the node was split
          have hnot : ¬ n.path <+: shared ++ [] := by
            rw [hpath, List.prefix_append_right_inj]
            exact nofun
          have hself : m.path <+: shared ++ [] → shared ++ [] = m.path := fun _ =>
            List.append_nil shared
          rw [locate_eq_nullptr hhandler (absurd · hnot), locate_eq_nullptr rfl hself]
        · have htype' : m.type ≠ .param := htype
          conv_rhs => rw [show shared = m.path from rfl, locate_index (n := m) rfl htype' rfl]
          by_cases hsame : b = a
          · subst hsame
            have hfound : m.child? b = some child :=
              (child?_eq_some hshape'.nodup_edges).mpr (hedges ▸ List.mem_cons_self)
            rw [hfound, locate_append hpath .plain (n.priority - 1)]
          · have hnot : ¬ n.path <+: shared ++ b :: rest := by
              rw [hpath, List.prefix_append_right_inj, List.cons_prefix_cons]
              exact fun h => hsame h.1.symm
            have hmiss : m.child? b = none :=
              child?_eq_none (by rw [hedges]; exact fun h => hsame (List.mem_singleton.mp h))
            rw [hmiss, locate_eq_nullptr hhandler (absurd · hnot)]
      · have hnot : ¬ n.path <+: path' := by
          rw [hpath]
          exact fun h => hpre ((List.prefix_append _ _).trans h)
        have hnot' : ¬ m.path <+: path' := hpre
        rw [locate_eq_nullptr hhandler (absurd · hnot), locate_eq_nullptr rfl (absurd · hnot')]

/-! ## Insertions that do not show -/

/-- The node after the call has the same trie, and lookups that go through it find the same. -/
structure Keeps (m n' : Node H) : Prop where
  core_eq : n'.core = m.core
  alike : m.type ≠ .param → ∀ path, m.Alike n' path
  below : m.type = .param → ∀ rest params,
    m.locateBelow (slash :: rest) params = n'.locateBelow (slash :: rest) params

theorem Keeps.refl (m : Node H) : m.Keeps m :=
  ⟨rfl, fun _ => .refl m, fun _ _ _ => rfl⟩

/-- Where a rejected path has no parameter, `insert_path` has not changed the node. -/
theorem Fills.eq_of_rejected {handler : Option H} {n n' : Node H} {path : Bytes}
    {verdict : Verdict} (hfills : Fills handler n path n' verdict) (hrejected : verdict = .rejected)
    (hclear : ∀ plain name more, scan path = .param plain name more → more = []) : n' = n := by
  cases hfills with
  | plain | paramEnd | catchAll | catchAllAborted => exact nomatch hrejected
  | invalid | occupied | catchAllRejected => rfl
  | param hscan _ hrest => exact absurd (hclear _ _ _ hscan) hrest

theorem locateBelow_eq {n : Node H} (htype : n.type = .param) (path : Bytes)
    (params : List Param) :
    n.locateBelow path params =
      match n.child? slash with
      | none => (.nullptr, params)
      | some child => child.locate path params := by
  rw [locateBelow, child?, edges_of_param htype]
  cases n.children with
  | nil => rfl
  | cons child children => simp

theorem keeps_of_edge {n n' child : Node H} {c : Byte} (hshape : n.Shape) (hshape' : n'.Shape)
    (hwild : n.hasWildChild = false) (hwild' : n'.hasWildChild = false)
    (hpath : n.path = n'.path) (hhandler : n.handler = n'.handler) (htype : n.type = n'.type)
    (hopen : n.children ≠ [] ∨ n.type = .param) (hmem : (c, child) ∈ n'.edges)
    (hother : ∀ c' child', c' ≠ c → ((c', child') ∈ n'.edges ↔ (c', child') ∈ n.edges))
    (hnext : child.flatten.next c = n.nexts c)
    (hfound : ∀ rest params, child.locate (c :: rest) params =
      match n.child? c with
      | none => (.nullptr, params)
      | some front => front.locate (c :: rest) params) : n.Keeps n' := by
  have hchild := child?_update hshape.nodup_edges hshape'.nodup_edges hmem hother
  have hsame : n'.child? c = some child := by rw [hchild, Function.update_self]
  have hne : n'.children ≠ [] := List.ne_nil_of_mem (List.of_mem_zip hmem).2
  refine ⟨?_, fun hplain path => ?_, fun hparam rest params => ?_⟩
  · rw [core_of_static hwild hopen, core_of_static hwild' (.inl hne), hhandler,
      nexts_update hshape.nodup_edges hshape'.nodup_edges hmem hother, hnext,
      Function.update_eq_self]
  · refine alike_of_behind hpath hhandler ?_
    rintro c' rest rfl params
    have hplain' : n'.type ≠ .param := htype ▸ hplain
    rw [locate_index hwild hplain (hshape.length_indices hwild (absurd · hplain))]
    conv_rhs =>
      rw [hpath, locate_index hwild' hplain' (hshape'.length_indices hwild' (absurd · hplain'))]
    by_cases heq : c' = c
    · rw [heq, hsame]
      exact (hfound rest params).symm
    · rw [hchild, Function.update_of_ne heq]
  · obtain rfl : c = slash := by
      rw [edges_of_param (htype ▸ hparam)] at hmem
      obtain ⟨_, -, heq⟩ := List.mem_map.mp hmem
      exact (Prod.mk.inj heq).1.symm
    rw [locateBelow_eq hparam, locateBelow_eq (htype ▸ hparam), hsame]
    exact (hfound rest params).symm

theorem keeps_of_wild {n front child : Node H} (hshape : n.Shape)
    (hwild : n.hasWildChild = true) (hchildren : n.children = [front]) (hfront : front.Shape)
    (hchild : child.Shape) (hparam : front.type = .param) (hparam' : child.type = .param)
    (hpath : child.path = front.path) (hcore : child.core = front.core)
    (hbelow : ∀ rest params,
      front.locateBelow (slash :: rest) params = child.locateBelow (slash :: rest) params) :
    n.Keeps { n with children := [child] } := by
  have hne : front.type ≠ .catchAll := by rw [hparam]; exact nofun
  have hne' : child.type ≠ .catchAll := by rw [hparam']; exact nofun
  have hplain : n.type ≠ .param := by
    intro htype
    rw [hshape.wild_of_param htype] at hwild
    exact nomatch hwild
  have hhandler : front.handler = child.handler := by
    rw [← hfront.value?_core, ← hchild.value?_core, hcore]
  refine ⟨?_, fun _ path => ?_, fun htype => absurd htype hplain⟩
  · have hcore' := core_of_wild (n := { n with children := [child] }) hwild rfl hne'
    rw [hcore', core_of_wild hwild hchildren hne, hpath, hcore]
  · refine alike_of_behind rfl rfl ?_
    rintro c rest rfl
    exact alike_of_param (List.cons_ne_nil _ _) hwild hwild hchildren rfl hparam hparam' rfl
      (by rw [hpath]) hhandler hbelow

theorem keeps_of_catchAll {n front : Node H} (htype : n.type = .catchAll)
    (hwild : n.hasWildChild = true) (hchildren : n.children = [front])
    (hcatchAll : front.type = .catchAll) : n.Keeps { n with children := [front.bump] } := by
  have hcatchAll' : front.bump.type = .catchAll := hcatchAll
  refine ⟨?_, fun _ path => ?_, fun hparam => by rw [hparam] at htype; exact nomatch htype⟩
  · have hcore := core_of_catchAll (n := { n with children := [front.bump] }) hwild rfl hcatchAll'
    rw [hcore, core_of_catchAll hwild hchildren hcatchAll]
    rfl
  · refine alike_of_behind rfl rfl ?_
    rintro c rest rfl params
    have hfound := locate_catchAll (n := { n with children := [front.bump] })
      (List.cons_ne_nil c rest) hwild rfl hcatchAll' params
    rw [locate_catchAll (List.cons_ne_nil _ _) hwild hchildren hcatchAll]
    exact hfound.symm

theorem child?_of_mem {n child : Node H} {c : Byte} (hshape : n.Shape)
    (hmem : (c, child) ∈ n.edges) : n.child? c = some child :=
  (child?_eq_some hshape.nodup_edges).mpr hmem

/-- Below an index character, what a child keeps its node keeps. -/
theorem Splits.keeps_edge {n n' front m child : Node H} {c : Byte} {rest rem : Bytes}
    (hsplits : Splits front.bump (c :: rest) m rem) (hshape : n.Shape) (hshape' : n'.Shape)
    (hwild : n.hasWildChild = false) (hwild' : n'.hasWildChild = false)
    (hpath : n.path = n'.path) (hhandler : n.handler = n'.handler) (htype : n.type = n'.type)
    (hedge : (c, front) ∈ n.edges) (hmem : (c, child) ∈ n'.edges)
    (hother : ∀ c' child', c' ≠ c → ((c', child') ∈ n'.edges ↔ (c', child') ∈ n.edges))
    (hclear : ¬ front.bump.Litters (c :: rest)) (hpath' : child.path = m.path)
    (hkeeps : m.Keeps child) : n.Keeps n' := by
  obtain ⟨hmemChild, hhangs, hfront⟩ := hshape.child_of_edge hedge
  have hfound := child?_of_mem hshape hedge
  have henters : front.bump.Enters (c :: rest) := hhangs.bump.enters rfl
  have hplain : m.type ≠ .param := by
    rw [hsplits.type_eq]
    exact hhangs.type_ne_param
  have hflatten : child.flatten = front.flatten := by
    rw [flatten, hpath', hkeeps.core_eq, ← flatten_bump front, ← (hsplits.flatten_eq henters).2,
      flatten]
  have halike (path : Bytes) : front.Alike child path :=
    ((alike_bump front path).trans (hsplits.alike hfront.bump henters hclear path)).trans
      (hkeeps.alike hplain path)
  refine keeps_of_edge hshape hshape' hwild hwild' hpath hhandler htype
    (.inl (List.ne_nil_of_mem hmemChild)) hmem hother ?_ ?_
  · rw [hflatten, nexts, hfound]
  · intro rest' params
    rw [hfound]
    exact (halike _ params).symm

/-- **A rejected route that leaves nothing behind** does not show. -/
theorem Continues.keeps {handler : Option H} {n m n' : Node H} {path rem : Bytes}
    {verdict : Verdict} (hcontinues : Continues handler m rem n' verdict)
    (hrejected : verdict = .rejected) (hsplits : Splits n path m rem) (hshape : n.Shape)
    (henters : n.Enters path) (hclear : ¬ n.Litters path) : m.Keeps n' := by
  have hshape' := hsplits.shape hshape henters
  have hreaches := hsplits.reaches hshape henters
  have hnode := hcontinues.shape hshape' hreaches
  induction hcontinues generalizing n path with
  | registered => exact .refl _
  | fill => cases hrejected
  | @wildConflict m front others rem hne hwild hchildren hfollows =>
      obtain ⟨front', hchildren', hfront⟩ := hshape'.cases_of_wild hwild
      obtain ⟨rfl, rfl⟩ := List.cons.inj (hchildren.symm.trans hchildren')
      rcases hfront with ⟨hparam, hfront⟩ | ⟨hcatchAll, htype⟩
      · exact keeps_of_wild hshape' hwild hchildren' hfront hfront.bump hparam hparam rfl
          (core_bump front) fun _ _ => rfl
      · exact keeps_of_catchAll htype hwild hchildren' hcatchAll
  | @wildDescend m front others rem m' rem' child verdict hne hwild hchildren hfollows hsplits'
      hcontinues ih =>
      obtain ⟨rfl, hparam, hfront⟩ := hshape'.of_follows hwild hchildren hfollows
      have henters' := hfollows.bump.enters
      obtain ⟨rfl, -, -⟩ := hsplits'.eq_of_follows hfollows.bump
      have hclear' : ¬ front.bump.Litters rem :=
        fun h => hclear (.wild hsplits hwild hchildren hfollows h)
      have hchild := hcontinues.shape hfront.bump (hsplits'.reaches hfront.bump henters')
      have hkeeps := ih hrejected hsplits' hfront.bump henters' hclear'
        hfront.bump (hsplits'.reaches hfront.bump henters') hchild
      exact keeps_of_wild hshape' hwild hchildren hfront hchild hparam
        (hcontinues.type_eq.trans hparam) hcontinues.path_eq
        (hkeeps.core_eq.trans (core_bump front)) (hkeeps.below hparam)
  | @paramDescend m front rem m' rem' child verdict hwild htype hpath hchildren hsplits'
      hcontinues ih =>
      obtain ⟨hhangs, hfront⟩ := hshape'.below_param htype hchildren
      obtain ⟨rest, rfl⟩ := List.head?_eq_some_iff.mp hpath
      have hedges : m.edges = [(slash, front)] := by
        rw [edges_of_param htype, hchildren]
        rfl
      have hedges' : edges { m with children := [child] } = [(slash, child)] := edges_of_param htype
      have hfound := child?_of_mem hshape' (hedges ▸ List.mem_cons_self)
      have henters' := hhangs.bump.enters hpath
      have hclear' : ¬ front.bump.Litters (slash :: rest) :=
        fun h => hclear (.index hsplits hwild hfound h)
      have hchild := hcontinues.shape (hsplits'.shape hfront.bump henters')
        (hsplits'.reaches hfront.bump henters')
      have hkeeps := ih hrejected hsplits' hfront.bump henters' hclear'
        (hsplits'.shape hfront.bump henters') (hsplits'.reaches hfront.bump henters') hchild
      refine hsplits'.keeps_edge hshape' hnode hwild hwild rfl rfl rfl
        (hedges ▸ List.mem_cons_self) (hedges' ▸ List.mem_cons_self) ?_ hclear'
        hcontinues.path_eq hkeeps
      intro c' child' hne
      rw [hedges, hedges']
      simp [hne]
  | @indexDescend m c rest front before after m' rem' child indices children verdict hwild htype
      hzip hsplits' hcontinues hlength hperm ih =>
      have hedges : m.edges = before ++ (c, front) :: after := (edges_of_ne_param htype).trans hzip
      have hedges' : edges { m with indices := indices, children := children } =
          indices.zip children := edges_of_ne_param htype
      have hmem := mem_edges_of_zip htype hzip
      have hmem' : (c, child) ∈ edges { m with indices := indices, children := children } := by
        rw [hedges', hperm.mem_iff]
        exact List.mem_append_right _ List.mem_cons_self
      obtain ⟨-, hhangs, hfront⟩ := hshape'.child_of_edge hmem
      have hfound := child?_of_mem hshape' hmem
      have henters' : front.bump.Enters (c :: rest) := hhangs.bump.enters rfl
      have hclear' : ¬ front.bump.Litters (c :: rest) :=
        fun h => hclear (.index hsplits hwild hfound h)
      have hchild := hcontinues.shape (hsplits'.shape hfront.bump henters')
        (hsplits'.reaches hfront.bump henters')
      have hkeeps := ih hrejected hsplits' hfront.bump henters' hclear'
        (hsplits'.shape hfront.bump henters') (hsplits'.reaches hfront.bump henters') hchild
      refine hsplits'.keeps_edge hshape' hnode hwild hwild rfl rfl rfl hmem hmem' ?_ hclear'
        hcontinues.path_eq hkeeps
      intro c' child' hne
      rw [hedges', hperm.mem_iff, hedges]
      simp [hne]
  | @push m c rest child indices children verdict hwild hindices hparam hc hfills hlength hperm =>
      have hmiss := not_mem_edges_of_push hshape' hwild hindices hparam
      have hnone := child?_eq_none hmiss
      have hedges := edges_of_push hparam hlength hperm
      -- there is no parameter in the path, so the new child stays empty
      have hempty : child = { (empty : Node H) with priority := 1 } := by
        refine hfills.eq_of_rejected hrejected fun plain name more hscan => ?_
        by_contra hmore
        refine hclear (.param hsplits hwild hnone (fun h => ?_) hscan hmore)
        rw [hc] at h
        cases h
      have hopen : m.children ≠ [] ∨ m.type = .param := by
        by_contra hnot
        rw [not_or, not_not] at hnot
        exact hclear (.leaf hsplits hwild hnot.2 hnot.1 hc)
      refine keeps_of_edge hshape' hnode hwild hwild rfl rfl rfl hopen
        (hedges.symm.subset (List.mem_append_right _ List.mem_cons_self)) ?_ ?_ ?_
      · intro c' child' hne
        rw [hedges.mem_iff]
        simp [hne]
      · rw [hempty, unused_fresh.flatten_eq, nexts, hnone]
        rfl
      · intro rest params
        rw [hempty, hnone, ← List.nil_append (c :: rest)]
        exact locate_index rfl unused_fresh.type_ne rfl params
  | @special m c rest n' verdict hwild htype hindices hc hfills =>
      have hnone : m.child? c = none :=
        child?_eq_none (not_mem_edges_of_push hshape' hwild hindices fun h => absurd h htype)
      by_cases hchildren : m.children = []
      · rw [hfills.eq_of_rejected hrejected fun plain name more hscan => ?_]
        · exact .refl m
        · by_contra hmore
          exact hclear (.param hsplits hwild hnone (fun _ => hchildren) hscan hmore)
      · rw [(hfills.eq_of_occupied hchildren hc).1]
        exact .refl m

end Node

end Eureka.Router

import Eureka.Router.Litter

/-!
# Rejected calls

A rejected call leaves the tree as it was exactly if it leaves nothing of `Litters` behind
(`indistinguishable_iff`).  What it leaves behind shows: where the handler was taken away
from a node a request of the length of its path is not answered any more, and where a
first child or a parameter was left a route that was accepted before is rejected
(`Litters.shows`).
-/

namespace Eureka.Router

open PatternTrie

namespace Node

variable {H : Type}

/-! ## Nodes that hold something -/

/-- Every node has a path or children. -/
inductive Firm : Node H → Prop
  | mk {n} (hfirm : n.path = [] → n.children ≠ []) (hbelow : ∀ child ∈ n.children, Firm child) :
      Firm n

theorem Firm.children_ne_nil {n : Node H} (hfirm : n.Firm) (hpath : n.path = []) :
    n.children ≠ [] := by
  cases hfirm with
  | mk hfirm => exact hfirm hpath

theorem Firm.of_mem {n child : Node H} (hfirm : n.Firm) (hmem : child ∈ n.children) :
    child.Firm := by
  cases hfirm with
  | mk _ hbelow => exact hbelow child hmem

theorem Firm.bump {n : Node H} (hfirm : n.Firm) : n.bump.Firm :=
  .mk hfirm.children_ne_nil fun _ => hfirm.of_mem

theorem firm_of_children_nil {n : Node H} (hpath : n.path ≠ []) (hchildren : n.children = []) :
    n.Firm := by
  refine .mk (fun h => absurd h hpath) fun child hmem => ?_
  rw [hchildren] at hmem
  exact absurd hmem List.not_mem_nil

theorem firm_of_singleton {n child : Node H} (hchildren : n.children = [child])
    (hfirm : child.Firm) : n.Firm := by
  refine .mk (fun _ => by rw [hchildren]; exact List.cons_ne_nil _ _) fun child' hmem => ?_
  rw [hchildren, List.mem_singleton] at hmem
  rwa [hmem]

theorem Fills.firm {handler : Option H} {n n' : Node H} {path : Bytes} {verdict : Verdict}
    (hfills : Fills handler n path n' verdict) (haccepted : verdict = .accepted)
    (hpath : path ≠ []) (hchildren : n.children = []) : n'.Firm := by
  have hparam : ∀ {name : Bytes} {handler : Option H}, (paramNode name handler []).Firm :=
    firm_of_children_nil (List.cons_ne_nil _ _) rfl
  induction hfills with
  | plain => exact firm_of_children_nil hpath hchildren
  | invalid | occupied | catchAllRejected | catchAllAborted => exact nomatch haccepted
  | paramEnd => exact firm_of_singleton rfl hparam
  | param _ _ hrest _ ih =>
      exact firm_of_singleton rfl (firm_of_singleton rfl (ih haccepted hrest rfl))
  | catchAll =>
      refine firm_of_singleton rfl (firm_of_singleton rfl ?_)
      exact firm_of_children_nil (List.cons_ne_nil _ _) rfl

theorem Splits.firm {n m : Node H} {path rem : Bytes} (hsplits : Splits n path m rem)
    (hfirm : n.Firm) : m.Firm := by
  cases hsplits with
  | whole => exact hfirm
  | part hpath =>
      rw [splitAt_eq hpath]
      exact firm_of_singleton rfl (.mk nofun fun _ => hfirm.of_mem)

theorem firm_of_perm {n : Node H} {indices : Bytes} {children : List (Node H)}
    {edges : List (Byte × Node H)} {edge : Byte × Node H}
    (hlength : indices.length = children.length) (hperm : (indices.zip children).Perm edges)
    (hmem : edge ∈ edges) (hfirm : ∀ edge ∈ edges, edge.2.Firm) :
    Firm { n with indices := indices, children := children } := by
  refine .mk (fun _ => ?_) fun child hchild => ?_
  · exact List.ne_nil_of_mem (List.of_mem_zip (hperm.symm.subset hmem)).2
  · obtain ⟨c, hzip⟩ := exists_mem_zip hlength hchild
    exact hfirm _ (hperm.subset hzip)

/-- An accepted route leaves no node empty. -/
theorem Continues.firm {handler : Option H} {m n' : Node H} {rem : Bytes} {verdict : Verdict}
    (hcontinues : Continues handler m rem n' verdict) (haccepted : verdict = .accepted)
    (hfirm : m.Firm) : n'.Firm := by
  have hzip : ∀ {n : Node H}, n.Firm → ∀ edge ∈ n.indices.zip n.children, edge.2.Firm :=
    fun hfirm edge hmem => hfirm.of_mem (List.of_mem_zip hmem).2
  induction hcontinues with
  | registered | wildConflict => exact nomatch haccepted
  | fill => exact .mk hfirm.children_ne_nil fun _ => hfirm.of_mem
  | @wildDescend n front others path m rem child verdict _ _ hchildren _ hsplits _ ih =>
      have hbelow : ∀ child ∈ front :: others, child.Firm := fun _ hmem =>
        hfirm.of_mem (hchildren ▸ hmem)
      rw [List.forall_mem_cons] at hbelow
      have hchild := ih haccepted (hsplits.firm hbelow.1.bump)
      exact .mk (fun _ => List.cons_ne_nil _ _) (List.forall_mem_cons.mpr ⟨hchild, hbelow.2⟩)
  | paramDescend _ _ _ hchildren hsplits _ ih =>
      have hfront := hfirm.of_mem (hchildren ▸ List.mem_cons_self)
      exact firm_of_singleton rfl (ih haccepted (hsplits.firm hfront.bump))
  | @indexDescend n c rest front before after m rem child indices children verdict _ _ hedges
      hsplits _ hlength hperm ih =>
      have hfirm' := hzip hfirm
      rw [hedges] at hfirm'
      have hfront := hfirm' (c, front) (List.mem_append_right _ List.mem_cons_self)
      have hchild := ih haccepted (hsplits.firm hfront.bump)
      refine firm_of_perm hlength hperm (List.mem_append_right _ List.mem_cons_self) ?_
      intro edge hmem
      rcases List.mem_append.mp hmem with hmem | hmem
      · exact hfirm' edge (List.mem_append_left _ hmem)
      · rcases List.mem_cons.mp hmem with rfl | hmem
        · exact hchild
        · exact hfirm' edge (List.mem_append_right _ (List.mem_cons_of_mem _ hmem))
  | push _ _ _ _ hfills hlength hperm =>
      refine firm_of_perm hlength hperm (List.mem_append_right _ List.mem_cons_self) ?_
      intro edge hmem
      rcases List.mem_append.mp hmem with hmem | hmem
      · exact hzip hfirm edge hmem
      · rw [List.mem_singleton.mp hmem]
        exact hfills.firm haccepted (List.cons_ne_nil _ _) rfl
  | @special n _ _ _ _ _ _ _ hc hfills =>
      by_cases hchildren : n.children = []
      · exact hfills.firm haccepted (List.cons_ne_nil _ _) hchildren
      · rw [(hfills.eq_of_occupied hchildren hc).2] at haccepted
        exact nomatch haccepted

theorem Adds.firm {handler : Option H} {n n' : Node H} {path : Bytes} {verdict : Verdict}
    (hadds : Adds handler n path n' verdict) (haccepted : verdict = .accepted) (hroot : n.Root)
    (hpath : path ≠ []) (hfirm : ¬ n.Blank → n.Firm) : n'.Firm := by
  cases hadds with
  | first hblank hfills =>
      have hfilled := hfills.firm rfl hpath (hroot.unused_of_blank hblank).children_eq
      exact .mk hfilled.children_ne_nil fun _ => hfilled.of_mem
  | firstFails _ hverdict => exact absurd haccepted hverdict
  | later hblank hsplits hcontinues =>
      exact hcontinues.firm haccepted (hsplits.firm (hfirm hblank).bump)

/-- The trees that successful calls build; their handlers may be empty. -/
theorem firm_of_addRoutes {n n' : Node H} {calls : List (Bytes × Option H)} (hroot : n.Root)
    (hfirm : ¬ n.Blank → n.Firm) (hslash : ∀ call ∈ calls, call.1.head? = some slash)
    (hrun : n.addRoutes calls = some n') : n'.Root ∧ (¬ n'.Blank → n'.Firm) := by
  induction calls generalizing n with
  | nil =>
      obtain rfl := Option.some.inj hrun
      exact ⟨hroot, hfirm⟩
  | cons call calls ih =>
      rw [List.forall_mem_cons] at hslash
      obtain ⟨hok, hrun⟩ := addRoutes_cons_eq_some.mp hrun
      have hadds := addRoute_adds hroot.toTop call.1 call.2
      have hpath : call.1 ≠ [] := by
        intro hnil
        have hhead := hslash.1
        rw [hnil] at hhead
        exact nomatch hhead
      refine ih (hadds.root hroot hslash.1) (fun _ => ?_) hslash.2 hrun
      exact hadds.firm (Outcome.verdict_eq_accepted.mpr hok) hroot hpath hfirm

/-! ## Steps of an insertion, read backwards -/

theorem longestCommonPrefix_append (shared s t : Bytes) :
    longestCommonPrefix (shared ++ s) (shared ++ t) = shared.length + longestCommonPrefix s t := by
  induction shared with
  | nil => exact (Nat.zero_add _).symm
  | cons c shared ih =>
      rw [List.cons_append, List.cons_append, longestCommonPrefix, if_pos rfl, ih, List.length_cons]
      omega

theorem Splits.eq_longestCommonPrefix {n m : Node H} {path rem : Bytes}
    (hsplits : Splits n path m rem) :
    m = (if longestCommonPrefix path n.path < n.path.length then
      n.splitAt (longestCommonPrefix path n.path) else n) ∧
      rem = path.drop (longestCommonPrefix path n.path) := by
  cases hsplits with
  | @whole rem =>
      have hlength : longestCommonPrefix (n.path ++ rem) n.path = n.path.length := by
        have happend := longestCommonPrefix_append n.path rem []
        rw [List.append_nil] at happend
        rw [happend]
        cases rem <;> rfl
      rw [hlength, if_neg (lt_irrefl _), List.drop_left]
      exact ⟨rfl, rfl⟩
  | @part shared tail rem a hpath hrem =>
      have hlength : longestCommonPrefix (shared ++ rem) n.path = shared.length := by
        rw [hpath, longestCommonPrefix_append]
        cases rem with
        | nil => rfl
        | cons b rem =>
            rw [longestCommonPrefix, if_neg fun h => hrem (congrArg some h), Nat.add_zero]
      rw [hlength, if_pos (by rw [hpath]; simp), List.drop_left]
      exact ⟨rfl, rfl⟩

theorem Splits.unique {n m m' : Node H} {path rem rem' : Bytes} (hsplits : Splits n path m rem)
    (hsplits' : Splits n path m' rem') : m' = m ∧ rem' = rem := by
  obtain ⟨hm, hrem⟩ := hsplits.eq_longestCommonPrefix
  obtain ⟨hm', hrem'⟩ := hsplits'.eq_longestCommonPrefix
  exact ⟨hm'.trans hm.symm, hrem'.trans hrem.symm⟩

/-- How a node without a wildcard goes on: in the child below the character, with a new child, or
with a wildcard of its own. -/
theorem Continues.cases_of_static {handler : Option H} {m n' : Node H} {c : Byte} {rest : Bytes}
    {verdict : Verdict} (hcontinues : Continues handler m (c :: rest) n' verdict)
    (hshape : m.Shape) (hwild : m.hasWildChild = false) :
    (n'.hasWildChild = false ∧ ∃ front m' rem' child, m.child? c = some front ∧
      (c, child) ∈ n'.edges ∧ Splits front.bump (c :: rest) m' rem' ∧
        Continues handler m' rem' child verdict) ∨
    (m.child? c = none ∧ startsWildcard c = false ∧ n'.hasWildChild = false ∧
      ∃ child, (c, child) ∈ n'.edges ∧
        Fills handler { (empty : Node H) with priority := 1 } (c :: rest) child verdict) ∨
    (m.child? c = none ∧ startsWildcard c = true ∧ m.type ≠ .param ∧
      Fills handler m (c :: rest) n' verdict) := by
  generalize hpath : c :: rest = path at hcontinues
  cases hcontinues with
  | registered | fill => exact nomatch hpath
  | wildConflict _ hwild' | wildDescend _ hwild' =>
      rw [hwild'] at hwild
      exact nomatch hwild
  | @paramDescend _ front _ _ _ child _ _ htype hhead hchildren hsplits hcontinues =>
      rw [← hpath] at hhead
      obtain rfl := Option.some.inj hhead
      have hedges : edges { m with children := [child] } = [(slash, child)] := edges_of_param htype
      have hmem : (slash, front) ∈ m.edges := by
        rw [edges_of_param htype, hchildren]
        exact List.mem_cons_self
      exact .inl ⟨hwild, _, _, _, _, child?_of_mem hshape hmem, hedges ▸ List.mem_cons_self, hsplits,
        hcontinues⟩
  | @indexDescend _ _ _ front _ _ _ _ child indices children _ _ htype hzip hsplits hcontinues _
      hperm =>
      obtain ⟨rfl, rfl⟩ := List.cons.inj hpath
      have hedges : edges { m with indices := indices, children := children } =
          indices.zip children := edges_of_ne_param htype
      have hmem := mem_edges_of_zip htype hzip
      refine .inl ⟨hwild, _, _, _, _, child?_of_mem hshape hmem, ?_, hsplits, hcontinues⟩
      rw [hedges, hperm.mem_iff]
      exact List.mem_append_right _ List.mem_cons_self
  | push _ hmiss hparam hc hfills hlength hperm =>
      obtain ⟨rfl, rfl⟩ := List.cons.inj hpath
      refine .inr (.inl ⟨child?_eq_none (not_mem_edges_of_push hshape hwild hmiss hparam), hc, hwild, _,
        ?_, hfills⟩)
      exact (edges_of_push hparam hlength hperm).symm.subset
        (List.mem_append_right _ List.mem_cons_self)
  | special _ htype hmiss hc hfills =>
      obtain ⟨rfl, rfl⟩ := List.cons.inj hpath
      have hnone := not_mem_edges_of_push hshape hwild hmiss fun h => absurd h htype
      exact .inr (.inr ⟨child?_eq_none hnone, hc, htype, hfills⟩)

theorem Continues.of_follows {handler : Option H} {m n' front : Node H} {rem : Bytes}
    {verdict : Verdict} (hcontinues : Continues handler m rem n' verdict)
    (hwild : m.hasWildChild = true) (hchildren : m.children = [front])
    (hfollows : front.Follows rem) (hne : rem ≠ []) :
    ∃ m' rem' child, n' = { m with children := [child] } ∧ Splits front.bump rem m' rem' ∧
      Continues handler m' rem' child verdict := by
  cases hcontinues with
  | registered | fill => exact absurd rfl hne
  | wildConflict _ _ hchildren' hnot =>
      obtain ⟨rfl, -⟩ := List.cons.inj (hchildren.symm.trans hchildren')
      exact absurd hfollows hnot
  | wildDescend _ _ hchildren' _ hsplits hcontinues =>
      obtain ⟨rfl, rfl⟩ := List.cons.inj (hchildren.symm.trans hchildren')
      exact ⟨_, _, _, rfl, hsplits, hcontinues⟩
  | paramDescend hwild' | indexDescend hwild' | push hwild' | special hwild' =>
      rw [hwild'] at hwild
      exact nomatch hwild

theorem Fills.of_param {handler : Option H} {n n' : Node H} {path plain name more : Bytes}
    {verdict : Verdict} (hfills : Fills handler n path n' verdict)
    (hscan : scan path = .param plain name more) (hmore : more ≠ []) (hchildren : n.children = []) :
    ∃ child, n' = n.withParam plain (paramNode name none [child]) := by
  cases hfills with
  | plain hscan' | invalid hscan' | catchAllRejected hscan' | catchAllAborted hscan'
  | catchAll hscan' =>
      rw [hscan] at hscan'
      exact nomatch hscan'
  | occupied _ hne => exact absurd hchildren hne
  | paramEnd hscan' =>
      obtain ⟨-, -, hnil⟩ := Scan.param.inj (hscan.symm.trans hscan')
      exact absurd hnil hmore
  | param hscan' =>
      obtain ⟨rfl, rfl, -⟩ := Scan.param.inj (hscan.symm.trans hscan')
      exact ⟨_, rfl⟩

theorem Fills.children_eq_nil {handler : Option H} {n n' : Node H} {path : Bytes}
    {verdict : Verdict} (hfills : Fills handler n path n' verdict) (haccepted : verdict = .accepted)
    (hscan : scan path ≠ .plain) : n.children = [] := by
  cases hfills with
  | plain hscan' => exact absurd hscan' hscan
  | invalid | occupied | catchAllRejected | catchAllAborted => exact nomatch haccepted
  | paramEnd _ hchildren | param _ hchildren | catchAll _ hchildren => exact hchildren

theorem Fills.accepted_of_scan {handler : Option H} {n n' : Node H} {path : Bytes}
    {verdict : Verdict} (hfills : Fills handler n path n' verdict) (hchildren : n.children = [])
    (hscan : scan path = .plain ∨ ∃ plain name, scan path = .param plain name []) :
    verdict = .accepted := by
  cases hfills with
  | plain | paramEnd | catchAll => rfl
  | occupied _ hne => exact absurd hchildren hne
  | param hscan' _ hmore =>
      rcases hscan with hscan | ⟨plain, name, hscan⟩
      · exact nomatch hscan.symm.trans hscan'
      · exact absurd (Scan.param.inj (hscan.symm.trans hscan')).2.2.symm hmore
  | invalid hscan' | catchAllRejected hscan' | catchAllAborted hscan' =>
      rcases hscan with hscan | ⟨plain, name, hscan⟩ <;> exact nomatch hscan.symm.trans hscan'

/-! ## Routes that tell the trees apart -/

theorem scan_of_literal {path : Bytes} (hpath : Literal path) : scan path = .plain := by
  unfold scan
  rw [List.dropWhile_eq_nil_iff.mpr]
  intro c hc
  rw [hpath c hc]
  rfl

theorem literal_append_slash {text : Bytes} (htext : Literal text) : Literal (text ++ [slash]) := by
  intro c hc
  rcases List.mem_append.mp hc with hc | hc
  · exact htext c hc
  · rw [List.mem_singleton.mp hc]
    exact startsWildcard_slash

theorem fillTrie_of_literal {path : Bytes} (hpath : Literal path) (handler : Option H)
    (behindSlash : Bool) : (fillTrie handler behindSlash path).2 = .accepted := by
  rw [fillTrie_of_plain (scan_of_literal hpath)]

theorem attempt_param_slash (value : Option H) (name : Bytes) (sub : Trie Byte H)
    (handler : Option H) (behindSlash : Bool) (rest : Bytes) :
    (attempt handler (.param value name sub) behindSlash (slash :: rest)).2 = .rejected := by
  have hnot : ¬ (slash = colon ∧ name <+: rest ∧
      (rest.drop name.length = [] ∨ (rest.drop name.length).head? = some slash)) :=
    fun h => slash_ne_colon h.1
  rw [attempt, if_neg hnot]

theorem attempt_leaf_slash (value handler : Option H) (behindSlash : Bool) :
    (attempt handler (.leaf value) behindSlash [slash]).2 = .accepted := by
  have hc : ¬ startsWildcard slash = true := by rw [startsWildcard_slash]; exact Bool.false_ne_true
  rw [attempt, if_neg hc]
  exact fillTrie_of_literal (fun _ h => absurd h List.not_mem_nil) _ _

theorem attempt_edge {n child : Node H} {c : Byte} (hshape : n.Shape)
    (hwild : n.hasWildChild = false) (hmem : (c, child) ∈ n.edges) (handler : Option H)
    (behindSlash behindSlash' : Bool) (rest : Bytes) :
    (attempt handler n.core behindSlash (c :: rest)).2 =
      (attempt handler child.flatten behindSlash' (c :: rest)).2 := by
  have hc := hshape.literal_of_edge hwild hmem
  obtain ⟨-, hhangs, hshape'⟩ := hshape.child_of_edge hmem
  obtain ⟨-, hplain, hnext⟩ := core_of_index hwild
  rw [attempt_cons_of_plain hplain hshape.core_ne_absent hc, hnext, nexts_of_mem hshape.nodup_edges
    hmem, attempt_cons_of_plain (hhangs.plain_flatten hshape')
    (Trie.chain_ne_absent hshape'.core_ne_absent) hc]

/-- A lookup or a later call shows that the trees differ.  Below an index character it is one
that starts with that character. -/
inductive Shows (n n' : Node H) (path : Bytes) : Prop
  | lookup {path' : Bytes} (htype : n.type ≠ .param)
      (hstarts : ∀ c, n.Hangs c → path.head? = some c → path'.head? = some c)
      (hne : ∀ params, n.locate path' params ≠ n'.locate path' params)
  | call {path' : Bytes} (htype : n.type ≠ .param)
      (hstarts : ∀ c, n.Hangs c → path.head? = some c → path'.head? = some c)
      (hne : ∀ behindSlash, (attempt none n.flatten behindSlash path').2 ≠
        (attempt none n'.flatten behindSlash path').2)
  | lookupBelow {rest : Bytes} (htype : n.type = .param)
      (hne : ∀ params, n.locateBelow (slash :: rest) params ≠ n'.locateBelow (slash :: rest) params)
  | callBelow {rest : Bytes} (htype : n.type = .param)
      (hne : ∀ behindSlash, (attempt none n.core behindSlash (slash :: rest)).2 ≠
        (attempt none n'.core behindSlash (slash :: rest)).2)

theorem Splits.starts_append {n m : Node H} {path rem rem' : Bytes} {c : Byte}
    (hsplits : Splits n path m rem) (hhangs : n.Hangs c) (hhead : path.head? = some c)
    (hstarts : m.path = [] → rem'.head? = some c) : (m.path ++ rem').head? = some c := by
  obtain ⟨rest, rfl⟩ := List.head?_eq_some_iff.mp hhead
  rcases hhangs.starts with hpath | ⟨hpath, -⟩
  · rw [List.head?_append_of_ne_nil, hsplits.head?_path hpath]
    rintro hnil
    have hfirst := hsplits.head?_path hpath
    rw [hnil] at hfirst
    exact nomatch hfirst
  · obtain ⟨rfl, -⟩ := hsplits.eq_of_path_nil hpath
    rw [hpath, List.nil_append]
    exact hstarts hpath

/-- A route that goes through the node is not accepted any more, or only now. -/
theorem Splits.shows_call {n m n' : Node H} {path rem rem' : Bytes} (hsplits : Splits n path m rem)
    (hshape : n.Shape) (henters : n.Enters path) (hpath : n'.path = m.path)
    (hstarts : ∀ c, n.Hangs c → path.head? = some c → m.path = [] → rem'.head? = some c)
    (hslash : n.type = .param → rem'.head? = some slash)
    (hne : ∀ behindSlash, (attempt none m.core behindSlash rem').2 ≠
      (attempt none n'.core behindSlash rem').2) : n.Shows n' path := by
  by_cases htype : n.type = .param
  · obtain ⟨rfl, -⟩ := hsplits.eq_of_follows (henters.1 htype)
    obtain ⟨rest, rfl⟩ := List.head?_eq_some_iff.mp (hslash htype)
    exact .callBelow htype hne
  · have hstarts' : ∀ c, n.Hangs c → path.head? = some c → (m.path ++ rem').head? = some c :=
      fun c hhangs hhead => hsplits.starts_append hhangs hhead (hstarts c hhangs hhead)
    refine .call htype hstarts' fun behindSlash => ?_
    have hliteral := (hsplits.shape hshape henters).literal_of_ne_param (hsplits.type_eq ▸ htype)
    rw [← (hsplits.flatten_eq henters).2, flatten, flatten, hpath, attempt_chain hliteral,
      attempt_chain hliteral]
    exact hne _

theorem exists_byte_ne (a : Byte) (c : Option Byte) : ∃ b, b ≠ a ∧ c ≠ some b := by
  by_contra hnone
  push Not at hnone
  have h₀ := hnone 0
  have h₁ := hnone 1
  have h₂ := hnone 2
  grind

theorem Continues.edges_of_rejected {handler : Option H} {m n' : Node H} {rem : Bytes}
    {verdict : Verdict} (hcontinues : Continues handler m rem n' verdict)
    (hrejected : verdict = .rejected) (hwild : m.hasWildChild = false) (htype : m.type ≠ .param)
    (hchildren : m.children ≠ [])
    (hmiss : ∀ c child, rem.head? = some c → (c, child) ∉ m.edges) :
    n'.hasWildChild = false ∧
      ∀ c child, (c, child) ∈ n'.edges → (c, child) ∈ m.edges ∨ rem.head? = some c := by
  cases hcontinues with
  | registered => exact ⟨hwild, fun _ _ => .inl⟩
  | fill => exact nomatch hrejected
  | wildConflict _ hwild' | wildDescend _ hwild' =>
      rw [hwild'] at hwild
      exact nomatch hwild
  | paramDescend _ htype' => exact absurd htype' htype
  | @indexDescend _ c _ front _ _ _ _ _ _ _ _ _ _ hzip =>
      exact absurd (mem_edges_of_zip htype hzip) (hmiss c front rfl)
  | push _ _ hparam _ _ hlength hperm =>
      refine ⟨hwild, fun c child hmem => ?_⟩
      rcases List.mem_append.mp ((edges_of_push hparam hlength hperm).subset hmem) with hin | hin
      · exact .inl hin
      · exact .inr (congrArg some (Prod.mk.inj (List.mem_singleton.mp hin)).1.symm)
  | special _ _ _ hc hfills =>
      rw [(hfills.eq_of_occupied hchildren hc).1]
      exact ⟨hwild, fun _ _ => .inl⟩

/-- A node that lost its handler in a split. -/
theorem Splits.shows_cut {handler : Option H} {n m n' : Node H} {path rem : Bytes}
    {verdict : Verdict}
    (hsplits : Splits n path m rem) (hcontinues : Continues handler m rem n' verdict)
    (hrejected : verdict = .rejected) (hshape : n.Shape) (henters : n.Enters path) (hcut : m.path ≠ n.path)
    (hhandler : n.handler.isSome) : n.Shows n' path := by
  have htype : n.type ≠ .param := by
    intro htype
    rw [(hsplits.eq_of_follows (henters.1 htype)).1] at hcut
    exact hcut rfl
  have hnode := hcontinues.shape (hsplits.shape hshape henters) (hsplits.reaches hshape henters)
  cases hsplits with
  | whole => exact absurd rfl hcut
  | @part shared tail rem a hpath hrem =>
      rw [splitAt_eq hpath] at hcontinues
      set child : Node H :=
        { n with path := a :: tail, type := .plain, priority := n.priority - 1 } with hchild
      set m : Node H :=
        { n with path := shared, indices := [a], hasWildChild := false, handler := none,
                 children := [child] } with hm
      have hedges : m.edges = [(a, child)] := edges_of_ne_param htype
      have hself : ∀ b child', (b, child') ∈ m.edges → b = a := by
        intro b child' hmem
        rw [hedges] at hmem
        exact (Prod.mk.inj (List.mem_singleton.mp hmem)).1
      obtain ⟨hwild', hafter⟩ := hcontinues.edges_of_rejected hrejected rfl htype (List.cons_ne_nil _ _)
        fun c child' hhead hmem => hrem (hself c child' hmem ▸ hhead)
      have hpath' : n'.path = shared := hcontinues.path_eq
      have htype' : n'.type ≠ .param := hcontinues.type_eq ▸ htype
      obtain ⟨b, hba, hbrem⟩ := exists_byte_ne a rem.head?
      have hnone : n'.child? b = none := by
        cases hchild : n'.child? b with
        | none => rfl
        | some child' =>
            rcases hafter b child' (mem_of_child? hchild) with hmem | hhead
            · exact absurd (hself b child' hmem) hba
            · exact absurd hhead hbrem
      -- the request has the length of the path that the node had
      have hstarts : ∀ c, n.Hangs c → (shared ++ rem).head? = some c →
          (shared ++ b :: tail).head? = some c := by
        intro c hhangs hhead
        cases shared with
        | cons d shared => exact hhead
        | nil =>
            rcases hhangs.starts with hfirst | ⟨hnil, -⟩
            · rw [hpath] at hfirst
              exact absurd (hhead.trans hfirst.symm) hrem
            · rw [hpath] at hnil
              exact nomatch hnil
      refine .lookup htype hstarts fun params => ?_
      have hlength : (shared ++ b :: tail).length = n.path.length := by
        rw [hpath, List.length_append, List.length_append, List.length_cons, List.length_cons]
      obtain ⟨v, hv⟩ := Option.isSome_iff_exists.mp hhandler
      rw [locate_of_length hlength, handlerPtr_eq, hv, ← hpath',
        locate_index hwild' htype' (hnode.length_indices hwild' (absurd · htype')), hnone]
      exact nofun

/-- The first child of a node where a parameter might have come. -/
theorem Splits.shows_leaf {handler : Option H} {n m n' : Node H} {path rest : Bytes} {c : Byte}
    {verdict : Verdict} (hsplits : Splits n path m (c :: rest))
    (hcontinues : Continues handler m (c :: rest) n' verdict) (hshape : n.Shape)
    (henters : n.Enters path) (hfirm : n.Firm) (hwild : m.hasWildChild = false)
    (htype : m.type ≠ .param) (hchildren : m.children = []) (hc : startsWildcard c = false) :
    n.Shows n' path := by
  have hshape' := hsplits.shape hshape henters
  have hedges : m.edges = [] := by rw [edges, hchildren, List.zip_nil_right]
  have hnone : m.child? c = none := child?_eq_none (by rw [hedges]; exact List.not_mem_nil)
  obtain ⟨hwild', child, hmem⟩ : n'.hasWildChild = false ∧ ∃ child, (c, child) ∈ n'.edges := by
    rcases hcontinues.cases_of_static hshape' hwild with ⟨hwild', _, _, _, child, -, hmem, -⟩ |
      ⟨-, -, hwild', child, hmem, -⟩ | ⟨-, hc', -⟩
    · exact ⟨hwild', child, hmem⟩
    · exact ⟨hwild', child, hmem⟩
    · exact absurd (hc.symm.trans hc') Bool.false_ne_true
  have hne : n'.children ≠ [] := List.ne_nil_of_mem (List.of_mem_zip hmem).2
  have hscan : scan [colon, 0] = .param [] [0] [] := by decide
  have hdiffers : ∀ behindSlash, (attempt none m.core behindSlash [colon, 0]).2 ≠
      (attempt none n'.core behindSlash [colon, 0]).2 := by
    intro behindSlash
    rw [core_of_leaf hwild hchildren htype, core_of_static hwild' (.inl hne)]
    have hafter : (attempt none (.static n'.handler n'.nexts) behindSlash [colon, 0]).2 =
        .rejected := by
      rw [attempt, if_pos startsWildcard_colon]
    have hbefore : (attempt none (.leaf m.handler) behindSlash [colon, 0]).2 = .accepted := by
      rw [attempt, if_pos startsWildcard_colon, fillLeaf, hscan]
      rfl
    rw [hbefore, hafter]
    decide
  refine hsplits.shows_call hshape henters hcontinues.path_eq ?_ ?_ hdiffers
  · exact fun _ _ _ hnil => absurd hchildren ((hsplits.firm hfirm).children_ne_nil hnil)
  · exact fun h => absurd h (hsplits.type_eq ▸ htype)

/-- A parameter that stays although the rest of its route was rejected. -/
theorem Splits.shows_param {handler : Option H} {n m n' : Node H}
    {path rest plain name more : Bytes} {c : Byte} {verdict : Verdict}
    (hsplits : Splits n path m (c :: rest))
    (hcontinues : Continues handler m (c :: rest) n' verdict) (hshape : n.Shape)
    (henters : n.Enters path) (hfirm : n.Firm) (hwild : m.hasWildChild = false)
    (hmiss : m.child? c = none) (hchildren : startsWildcard c = true → m.children = [])
    (hscan : scan (c :: rest) = .param plain name more) (hmore : more ≠ []) : n.Shows n' path := by
  have hshape' := hsplits.shape hshape henters
  have hreaches := hsplits.reaches hshape henters
  have hnode := hcontinues.shape hshape' hreaches
  obtain ⟨heq, hplain, -, -⟩ := eq_of_scan_param hscan
  have haccepted : Verdict.accepted ≠ .rejected := nofun
  rcases hcontinues.cases_of_static hshape' hwild with ⟨-, _, _, _, _, hfound, -⟩ |
    ⟨-, hc, hwild', child, hmem, hfills⟩ | ⟨-, hc, htype, hfills⟩
  · exact nomatch hmiss.symm.trans hfound
  · -- the parameter stands in a new child
    obtain ⟨child', rfl⟩ := hfills.of_param hscan hmore rfl
    obtain ⟨tail, rfl⟩ : ∃ tail, plain = c :: tail := by
      cases plain with
      | nil =>
          rw [(List.cons.inj heq).1, startsWildcard_colon] at hc
          exact nomatch hc
      | cons d tail => exact ⟨tail, by rw [(List.cons.inj heq).1]⟩
    have htail : Literal tail := fun d hd => hplain d (List.mem_cons_of_mem _ hd)
    have hdiffers : ∀ behindSlash, (attempt none m.core behindSlash (c :: (tail ++ [slash]))).2 ≠
        (attempt none n'.core behindSlash (c :: (tail ++ [slash]))).2 := by
      intro behindSlash
      obtain ⟨-, hopen, hnext⟩ := core_of_index hwild
      have hbefore : (attempt none m.core behindSlash (c :: (tail ++ [slash]))).2 = .accepted := by
        rw [attempt_cons_of_plain hopen hshape'.core_ne_absent hc, hnext, nexts, hmiss]
        exact fillTrie_of_literal (literal_append_slash htail) _ _
      have hafter : (attempt none n'.core behindSlash (c :: (tail ++ [slash]))).2 = .rejected := by
        rw [attempt_edge hnode hwild' hmem none behindSlash false, flatten, core_withParam,
          path_withParam rfl, ← List.cons_append, attempt_chain hplain, attempt_param_slash]
      rw [hbefore, hafter]
      exact haccepted
    refine hsplits.shows_call hshape henters hcontinues.path_eq ?_ ?_ hdiffers
    · intro d hhangs hhead hnil
      rw [← hhead, (hsplits.flatten_eq henters).1, hnil]
      rfl
    · intro htype
      exact (hreaches.1 (hsplits.type_eq ▸ htype)).resolve_left (List.cons_ne_nil _ _)
  · -- the parameter stands in the node itself
    obtain ⟨child, hn'⟩ := hfills.of_param hscan hmore (hchildren hc)
    have hdiffers : ∀ behindSlash, (attempt none m.core behindSlash [slash]).2 ≠
        (attempt none n'.core behindSlash [slash]).2 := by
      intro behindSlash
      rw [hn', core_withParam, attempt_param_slash, core_of_leaf hwild (hchildren hc) htype,
        attempt_leaf_slash]
      exact haccepted
    refine hsplits.shows_call hshape henters hcontinues.path_eq ?_ (fun _ => rfl) hdiffers
    exact fun _ _ _ hnil => absurd (hchildren hc) ((hsplits.firm hfirm).children_ne_nil hnil)

theorem Shows.of_child {n m n' front child : Node H} {path rest : Bytes} {c : Byte}
    (hshows : front.bump.Shows child (c :: rest)) (hsplits : Splits n path m (c :: rest))
    (hwhole : m = n) (hshape : n.Shape) (henters : n.Enters path) (hnode : n'.Shape)
    (hpath : n'.path = m.path) (htype : n'.type = m.type) (hwild : m.hasWildChild = false)
    (hwild' : n'.hasWildChild = false) (hmem : (c, front) ∈ m.edges)
    (hmem' : (c, child) ∈ n'.edges) : n.Shows n' path := by
  obtain ⟨-, hhangs, hfront⟩ := (hwhole ▸ hshape).child_of_edge hmem
  have hfound := child?_of_mem (hwhole ▸ hshape) hmem
  have hfound' := child?_of_mem hnode hmem'
  have hslash : n.type = .param → c = slash := fun h =>
    Option.some.inj (((hsplits.reaches hshape henters).1 (hsplits.type_eq ▸ h)).resolve_left
      (List.cons_ne_nil _ _))
  cases hshows with
  | @lookup path' _ hstarts hne =>
      obtain ⟨rest', rfl⟩ := List.head?_eq_some_iff.mp (hstarts c hhangs.bump rfl)
      have hne' : ∀ params, front.locate (c :: rest') params ≠ child.locate (c :: rest') params := by
        intro params
        rw [alike_bump front (c :: rest') params]
        exact hne params
      by_cases hparam : n.type = .param
      · obtain rfl := hslash hparam
        have hbelow : ∀ params, n.locateBelow (slash :: rest') params ≠
            n'.locateBelow (slash :: rest') params := by
          intro params
          rw [← hwhole, locateBelow_eq (hwhole ▸ hparam), hfound,
            locateBelow_eq (htype.trans (hwhole ▸ hparam)), hfound']
          exact hne' params
        exact .lookupBelow hparam hbelow
      · have hstarts' : ∀ d, n.Hangs d → path.head? = some d →
            (m.path ++ c :: rest').head? = some d := by
          intro d hhangs' hhead
          refine hsplits.starts_append hhangs' hhead fun hnil => ?_
          rw [← hhead, (hsplits.flatten_eq henters).1, hnil]
          rfl
        refine .lookup hparam hstarts' fun params => ?_
        have hparam' : n'.type ≠ .param := htype ▸ hwhole ▸ hparam
        conv_rhs =>
          rw [← hpath, locate_index hwild' hparam'
            (hnode.length_indices hwild' (absurd · hparam')), hfound']
        subst hwhole
        rw [locate_index hwild hparam (hshape.length_indices hwild (absurd · hparam)), hfound]
        exact hne' params
  | @call path' _ hstarts hne =>
      obtain ⟨rest', rfl⟩ := List.head?_eq_some_iff.mp (hstarts c hhangs.bump rfl)
      have hdiffers : ∀ behindSlash, (attempt none m.core behindSlash (c :: rest')).2 ≠
          (attempt none n'.core behindSlash (c :: rest')).2 := by
        intro behindSlash
        rw [attempt_edge (hwhole ▸ hshape) hwild hmem none behindSlash false,
          attempt_edge hnode hwild' hmem' none behindSlash false, ← flatten_bump]
        exact hne false
      refine hsplits.shows_call hshape henters hpath ?_ (fun h => by rw [hslash h]; rfl) hdiffers
      intro d _ hhead hnil
      rw [← hhead, (hsplits.flatten_eq henters).1, hnil]
      rfl
  | lookupBelow hparam | callBelow hparam => exact absurd hparam hhangs.type_ne_param

theorem Shows.of_follows {n front child : Node H} {rem : Bytes}
    (hshows : front.bump.Shows child rem) (hshape : n.Shape) (henters : n.Enters (n.path ++ rem))
    (hwild : n.hasWildChild = true) (hchildren : n.children = [front]) (hfront : front.Shape)
    (hparam : front.type = .param) (hparam' : child.type = .param)
    (hpath : child.path = front.path) : n.Shows { n with children := [child] } (n.path ++ rem) := by
  have htype : n.type ≠ .param := by
    intro htype
    rw [hshape.wild_of_param htype] at hwild
    cases hwild
  have hne : front.type ≠ .catchAll := by simp [hparam]
  have hne' : child.type ≠ .catchAll := by simp [hparam']
  -- below an index character a parameter does not stand in a node without a path
  have hfirst : ∀ c, n.Hangs c → n.path.head? = some c := by
    intro c hhangs
    refine hhangs.starts.resolve_right ?_
    rintro ⟨-, -, hplain, -⟩
    rcases hhangs.type_eq with h | ⟨h, -⟩
    · rw [hplain h] at hwild
      cases hwild
    · obtain ⟨front', hchildren', hfront'⟩ := hshape.cases_of_wild hwild
      cases hshape with
      | leaf h' | static h' | wild h' => rw [h] at h'; rcases h' with h' | h' <;> cases h'
      | param h' => rw [h] at h'; cases h'
      | catchAll _ _ _ _ _ hchildren'' hcatchAll =>
          obtain ⟨rfl, -⟩ := List.cons.inj (hchildren.symm.trans hchildren'')
          exact hne hcatchAll
  cases hshows with
  | lookup h | call h => exact absurd hparam h
  | @lookupBelow rest _ hdiffers =>
      have hstarts : ∀ c, n.Hangs c → (n.path ++ rem).head? = some c →
          (n.path ++ slash :: rest).head? = some c := by
        intro c hhangs _
        obtain ⟨tail, htail⟩ := List.head?_eq_some_iff.mp (hfirst c hhangs)
        rw [htail]
        rfl
      refine .lookup htype hstarts fun params => ?_
      have hslash : ¬ slash ∉ slash :: rest := not_not.mpr List.mem_cons_self
      have hdrop := (Trie.takeWhile_ne_append (List.not_mem_nil (a := slash)) rest).2
      rw [List.nil_append] at hdrop
      have hlocate := locate_param (n := { n with children := [child] })
        (List.cons_ne_nil slash rest) hwild rfl hparam' params
      rw [if_neg hslash, hdrop, hpath] at hlocate
      rw [locate_param (List.cons_ne_nil _ _) hwild hchildren hparam, if_neg hslash, hdrop]
      exact fun heq => hdiffers _ (heq.trans hlocate)
  | @callBelow rest _ hdiffers =>
      obtain ⟨name, -, hname⟩ := hfront.path_of_param hparam
      have hcore := core_of_wild (n := { n with children := [child] }) hwild rfl hne'
      have hgo : ∀ value sub behindSlash,
          (attempt none (Trie.param value name sub : Trie Byte H) behindSlash
            (colon :: (name ++ slash :: rest))).2 = (attempt none sub false (slash :: rest)).2 := by
        intro value sub behindSlash
        have hgoes : colon = colon ∧ name <+: name ++ slash :: rest ∧
            ((name ++ slash :: rest).drop name.length = [] ∨
              ((name ++ slash :: rest).drop name.length).head? = some slash) := by
          refine ⟨rfl, List.prefix_append _ _, .inr ?_⟩
          rw [List.drop_left]
          rfl
        rw [attempt, if_pos hgoes, List.drop_left]
      have hdiffers' : ∀ behindSlash,
          (attempt none n.core behindSlash (colon :: (name ++ slash :: rest))).2 ≠
            (attempt none (core { n with children := [child] }) behindSlash
              (colon :: (name ++ slash :: rest))).2 := by
        intro behindSlash
        rw [hcore, core_of_wild hwild hchildren hne, hpath, hname, List.drop_one, List.tail_cons,
          hgo, hgo, ← core_bump front]
        exact hdiffers false
      refine Splits.whole.shows_call hshape henters rfl ?_ (fun h => absurd h htype) hdiffers'
      intro c hhangs _ hnil
      have hhead := hfirst c hhangs
      rw [hnil] at hhead
      cases hhead

/-- **What a rejected call leaves behind shows.** -/
theorem Litters.shows {handler : Option H} {n : Node H} {path : Bytes}
    (hlitters : n.Litters path) {m n' : Node H} {rem : Bytes} {verdict : Verdict}
    (hsplits : Splits n path m rem) (hcontinues : Continues handler m rem n' verdict)
    (hrejected : verdict = .rejected) (hshape : n.Shape) (henters : n.Enters path)
    (hfirm : n.Firm) : n.Shows n' path := by
  have hshape' := hsplits.shape hshape henters
  have hreaches := hsplits.reaches hshape henters
  have hnode := hcontinues.shape hshape' hreaches
  induction hlitters generalizing m rem n' with
  | cut hsplits' hcut hhandler =>
      obtain ⟨rfl, rfl⟩ := hsplits'.unique hsplits
      exact hsplits.shows_cut hcontinues hrejected hshape henters hcut hhandler
  | leaf hsplits' hwild htype hchildren hc =>
      obtain ⟨rfl, rfl⟩ := hsplits'.unique hsplits
      exact hsplits.shows_leaf hcontinues hshape henters hfirm hwild htype hchildren hc
  | param hsplits' hwild hmiss hc hscan hmore =>
      obtain ⟨rfl, rfl⟩ := hsplits'.unique hsplits
      exact hsplits.shows_param hcontinues hshape henters hfirm hwild hmiss hc hscan hmore
  | @index n path m front c rest hsplits' hwild hchild _ ih =>
      obtain ⟨rfl, rfl⟩ := hsplits'.unique hsplits
      obtain ⟨hwild', front', m', rem', child, hsame, hmem', hinto, hcontinues'⟩ |
        ⟨hmiss, -⟩ | ⟨hmiss, -⟩ := hcontinues.cases_of_static hshape' hwild
      case inr.inl | inr.inr => exact nomatch hmiss.symm.trans hchild
      obtain rfl := Option.some.inj (hchild.symm.trans hsame)
      have hmem := mem_of_child? hchild
      obtain ⟨hin, hhangs, hfront⟩ := hshape'.child_of_edge hmem
      have henters' : front.bump.Enters (c :: rest) := hhangs.bump.enters rfl
      have hwhole : m = n := by
        by_cases htype : n.type = .param
        · exact (hsplits.eq_of_follows (henters.1 htype)).1
        · exact hsplits.eq_of_edge htype (.inr ⟨c, rfl, hmem⟩)
      have hshows := ih hinto hcontinues' hfront.bump henters' ((hsplits.firm hfirm).of_mem hin).bump
        (hinto.shape hfront.bump henters') (hinto.reaches hfront.bump henters')
        (hcontinues'.shape (hinto.shape hfront.bump henters')
          (hinto.reaches hfront.bump henters'))
      exact hshows.of_child hsplits hwhole hshape henters hnode hcontinues.path_eq
        hcontinues.type_eq hwild hwild' hmem hmem'
  | @wild n path m front rem hsplits' hwild hchildren hfollows _ ih =>
      obtain ⟨rfl, rfl⟩ := hsplits'.unique hsplits
      obtain ⟨-, hparam, hfront⟩ := hshape'.of_follows hwild hchildren hfollows
      have hne : rem ≠ [] := by
        rintro rfl
        obtain ⟨name, -, hname⟩ := hfront.path_of_param hparam
        have hnil := List.prefix_nil.mp hfollows.1
        rw [hname] at hnil
        exact nomatch hnil
      obtain ⟨m', rem', child, rfl, hinto, hcontinues'⟩ :=
        hcontinues.of_follows hwild hchildren hfollows hne
      have henters' := hfollows.bump.enters
      obtain ⟨rfl, -, -⟩ := hinto.eq_of_follows hfollows.bump
      have hshows := ih hinto hcontinues' hfront.bump henters'
        ((hsplits.firm hfirm).of_mem (hchildren ▸ List.mem_cons_self)).bump
        hfront.bump (hinto.reaches hfront.bump henters')
        (hcontinues'.shape hfront.bump (hinto.reaches hfront.bump henters'))
      obtain rfl : m = n := by
        cases hsplits with
        | whole => rfl
        | part hpath =>
            rw [splitAt_eq hpath] at hwild
            exact nomatch hwild
      obtain rfl := (hsplits.flatten_eq henters).1
      exact hshows.of_follows hshape henters hwild hchildren hfront hparam
        (hcontinues'.type_eq.trans hparam) hcontinues'.path_eq

/-! ## `add_route` -/

theorem verdicts_singleton (n : Node H) (path : Bytes) (handler : Option H) :
    n.verdicts [(path, handler)] = [(n.addRoute path handler).2.verdict] := by
  rw [verdicts]
  rcases (n.addRoute path handler).2 with _ | error | fault
  all_goals rfl

theorem not_indistinguishable_of_call {n n' : Node H} (path : Bytes) (handler : Option H)
    (hne : (n.addRoute path handler).2.verdict ≠ (n'.addRoute path handler).2.verdict) :
    ¬ n.Indistinguishable n' := by
  intro hsame
  have hverdicts := hsame.2 [(path, handler)]
  rw [verdicts_singleton, verdicts_singleton, List.cons.injEq] at hverdicts
  exact hne hverdicts.1

theorem Root.indistinguishable_of_blank {n n' : Node H} {path : Bytes} {handler : Option H}
    (hroot : n.Root) (hblank : n.Blank) (hfills : Fills handler n.bump path n' .rejected) :
    n.Indistinguishable n' ↔
      ¬ ∃ plain name more, scan path = .param plain name more ∧ more ≠ [] := by
  have hunused : n.bump.Unused := hroot.bump.unused_of_blank hblank
  constructor
  · rintro hsame ⟨plain, name, more, hscan, hmore⟩
    obtain ⟨child, rfl⟩ := hfills.of_param hscan hmore hunused.children_eq
    obtain ⟨-, hplain, -, -⟩ := eq_of_scan_param hscan
    have htop : Top (n.bump.withParam plain (paramNode name none [child])) := by
      obtain ⟨hshape, htype⟩ := hfills.shape hroot.bump.shape hroot.bump.type_eq
      exact ⟨hshape, htype ▸ hroot.bump.type_eq⟩
    -- without routes a literal path and a single parameter are accepted
    have hbefore : ∀ {path' : Bytes}, scan path' = .plain ∨
        (∃ plain name, scan path' = .param plain name []) →
        (n.addRoute path' none).2.verdict = .accepted := by
      intro path' hscan'
      have hadds := addRoute_adds hroot.toTop path' none
      generalize (n.addRoute path' none).1 = n₁ at hadds
      generalize (n.addRoute path' none).2.verdict = verdict at hadds
      cases hadds with
      | first => rfl
      | firstFails _ _ hfills' => exact hfills'.accepted_of_scan hunused.children_eq hscan'
      | later hnot => exact absurd hblank hnot
    have hpath := path_withParam hunused.path_eq plain (paramNode name none [child])
    by_cases hnil : plain = []
    · -- the node is without a path and takes no second parameter
      have hscan' : scan [colon, 0] = .param [] [0] [] := by decide
      refine not_indistinguishable_of_call [colon, 0] none ?_ hsame
      rw [hbefore (.inr ⟨_, _, hscan'⟩)]
      have hadds := addRoute_adds htop [colon, 0] none
      generalize (addRoute _ [colon, 0] none).1 = n₁ at hadds
      generalize (addRoute _ [colon, 0] none).2.verdict = verdict at hadds
      cases hadds with
      | first _ hfills' =>
          have hscan'' : scan [colon, 0] ≠ .plain := by
            rw [hscan']
            decide
          cases hfills'.children_eq_nil rfl hscan''
      | firstFails _ hverdict => exact hverdict.symm
      | later hnot => exact absurd ⟨hpath.trans hnil, hunused.indices_eq⟩ hnot
    · have hblank' : ¬ (n.bump.withParam plain (paramNode name none [child])).Blank :=
        fun h => hnil (hpath.symm.trans h.1)
      have hliteral := scan_of_literal (literal_append_slash hplain)
      refine not_indistinguishable_of_call (plain ++ [slash]) none ?_ hsame
      rw [hbefore (.inl hliteral)]
      have hattempt := (addRoute_adds htop (plain ++ [slash]) none).eq_attempt htop hblank'
      rw [flatten, hpath, core_withParam, attempt_chain hplain, Prod.mk.injEq] at hattempt
      rw [← hattempt.2, attempt_param_slash]
      decide
  · intro hclear
    obtain rfl : n' = n.bump := by
      refine hfills.eq_of_rejected rfl fun plain name more hscan => ?_
      by_contra hmore
      exact hclear ⟨plain, name, more, hscan, hmore⟩
    refine ⟨fun path => alike_bump n path, fun calls => ?_⟩
    exact (Peers.blank hroot.toTop hblank _).verdicts_eq calls

theorem Shows.not_indistinguishable {n n' : Node H} {path : Bytes} (hshows : n.Shows n' path)
    (htop : n.Top) (htop' : n'.Top) (hblank : ¬ n.Blank) (hblank' : ¬ n'.Blank) :
    ¬ n.Indistinguishable n' := by
  cases hshows with
  | @lookup path' _ _ hne => exact fun hsame => hne [] (hsame.1 path' [])
  | @call path' _ _ hne =>
      refine not_indistinguishable_of_call path' none ?_
      have hbefore := (addRoute_adds htop path' none).eq_attempt htop hblank
      have hafter := (addRoute_adds htop' path' none).eq_attempt htop' hblank'
      have hdiffers := hne false
      rw [hbefore, hafter] at hdiffers
      exact hdiffers
  | lookupBelow htype | callBelow htype => exact absurd htype htop.type_ne_param

theorem Top.indistinguishable_of_splits {handler : Option H} {n m n' : Node H}
    {path rem : Bytes} (htop : n.Top) (hblank : ¬ n.Blank) (hfirm : n.Firm)
    (hsplits : Splits n.bump path m rem) (hcontinues : Continues handler m rem n' .rejected) :
    n.Indistinguishable n' ↔ ¬ n.bump.Litters path := by
  have henters := htop.bump.enters path
  have hadds : Adds handler n path n' .rejected := .later hblank hsplits hcontinues
  obtain ⟨htop', hblank'⟩ := hadds.not_blank htop hblank
  constructor
  · intro hsame hlitters
    have hshows := hlitters.shows hsplits hcontinues rfl htop.bump.shape henters hfirm.bump
    have hbump : n.bump.Indistinguishable n' := by
      refine ⟨fun path params => ?_, fun calls => ?_⟩
      · exact (alike_bump n path params).symm.trans (hsame.1 path params)
      · have hpeers : Peers n n.bump :=
          .built htop htop.bump hblank (fun h => hblank h) (flatten_bump n).symm
        exact (hpeers.verdicts_eq calls).symm.trans (hsame.2 calls)
    exact hshows.not_indistinguishable htop.bump htop' (fun h => hblank h) hblank' hbump
  · intro hclear
    have hkeeps := hcontinues.keeps rfl hsplits htop.bump.shape henters hclear
    have htype : m.type ≠ .param := hsplits.type_eq ▸ htop.bump.type_ne_param
    have hflatten : n.flatten = n'.flatten := calc
      n.flatten = n.bump.flatten := (flatten_bump n).symm
      _ = m.flatten := (hsplits.flatten_eq henters).2.symm
      _ = n'.flatten := by rw [flatten, flatten, hcontinues.path_eq, hkeeps.core_eq]
    refine ⟨fun path => ?_, fun calls => ?_⟩
    · exact ((alike_bump n path).trans (hsplits.alike htop.bump.shape henters hclear path)).trans
        (hkeeps.alike htype path)
    · exact (Peers.built htop htop' hblank hblank' hflatten).verdicts_eq calls

/-- **A rejected call leaves the tree as it was** exactly if it leaves nothing behind. -/
theorem indistinguishable_iff {n : Node H} {calls : List (Bytes × Option H)}
    (hslash : ∀ call ∈ calls, call.1.head? = some slash)
    (hrun : (empty : Node H).addRoutes calls = some n) {path : Bytes} {handler : Option H}
    {error : RouteError} (hrejected : (n.addRoute path handler).2 = .invalidArgument error) :
    n.Indistinguishable (n.addRoute path handler).1 ↔ ¬ n.Spoils path := by
  obtain ⟨hroot, hfirm⟩ := firm_of_addRoutes root_empty (fun h => absurd ⟨rfl, rfl⟩ h) hslash hrun
  have hadds := addRoute_adds hroot.toTop path handler
  rw [hrejected] at hadds
  by_cases hblank : n.Blank
  · have hspoils : n.Spoils path ↔
        ∃ plain name more, scan path = .param plain name more ∧ more ≠ [] := by
      rw [Spoils, and_iff_right hblank, or_iff_left fun h => h.1 hblank]
    rw [hspoils]
    generalize hverdict : Outcome.verdict (.invalidArgument error) = verdict at hadds
    generalize (n.addRoute path handler).1 = n' at hadds ⊢
    cases hadds with
    | first => exact nomatch hverdict
    | firstFails _ _ hfills =>
        subst hverdict
        exact hroot.indistinguishable_of_blank hblank hfills
    | later hnot => exact absurd hblank hnot
  · have hspoils : n.Spoils path ↔ n.bump.Litters path := by
      rw [Spoils, and_iff_right hblank, or_iff_right fun h => hblank h.1]
    rw [hspoils]
    generalize hverdict : Outcome.verdict (.invalidArgument error) = verdict at hadds
    generalize (n.addRoute path handler).1 = n' at hadds ⊢
    cases hadds with
    | first h | firstFails h => exact absurd h hblank
    | later _ hsplits hcontinues =>
        subst hverdict
        exact hroot.toTop.indistinguishable_of_splits hblank (hfirm hblank) hsplits hcontinues

/-- The route `/y/:a/:b:c` is rejected after the route `/x`. -/
theorem rejected_slash_y :
    ∃ n, (empty : Node ℕ).addRoutes [(ascii "/x", some 7)] = some n ∧
      (n.addRoute (ascii "/y/:a/:b:c") (some 8)).2 =
        .invalidArgument (.invalidWildcard (ascii "/y/:a/:b:c")) ∧
      (n.addRoute (ascii "/y/z") (some 9)).2 = .ok ∧
      ((n.addRoute (ascii "/y/:a/:b:c") (some 8)).1.addRoute (ascii "/y/z") (some 9)).2 ≠ .ok := by
  obtain ⟨n, hrun⟩ := Option.isSome_iff_exists.mp (show ((empty : Node ℕ).addRoutes
    [(ascii "/x", some 7)]).isSome = true by decide)
  have houtcomes : ((empty : Node ℕ).addRoutes [(ascii "/x", some 7)]).all fun n =>
      (n.addRoute (ascii "/y/:a/:b:c") (some 8)).2 =
        .invalidArgument (.invalidWildcard (ascii "/y/:a/:b:c")) ∧
      (n.addRoute (ascii "/y/z") (some 9)).2 = .ok ∧
      ((n.addRoute (ascii "/y/:a/:b:c") (some 8)).1.addRoute (ascii "/y/z") (some 9)).2 ≠ .ok := by
    decide +kernel
  rw [hrun] at houtcomes
  exact ⟨n, hrun, of_decide_eq_true houtcomes⟩

/-- After it was rejected the route `/y/z` is rejected too. -/
theorem rejected_route_shows :
    ∃ n error, (empty : Node ℕ).addRoutes [(ascii "/x", some 7)] = some n ∧
      (n.addRoute (ascii "/y/:a/:b:c") (some 8)).2 = .invalidArgument error ∧
      ¬ n.Indistinguishable (n.addRoute (ascii "/y/:a/:b:c") (some 8)).1 := by
  obtain ⟨n, hrun, hrejected, hbefore, hafter⟩ := rejected_slash_y
  refine ⟨n, _, hrun, hrejected, not_indistinguishable_of_call (ascii "/y/z") (some 9) ?_⟩
  rw [hbefore]
  exact fun heq => hafter (Outcome.verdict_eq_accepted.mp heq.symm)

/-- The equivalence for the route `/y/:a/:b:c` after the route `/x`. -/
theorem indistinguishable_iff_slash_y :
    ∃ n, (empty : Node ℕ).addRoutes [(ascii "/x", some 7)] = some n ∧
      (n.Indistinguishable (n.addRoute (ascii "/y/:a/:b:c") (some 8)).1 ↔
        ¬ n.Spoils (ascii "/y/:a/:b:c")) := by
  obtain ⟨n, hrun, hrejected, -⟩ := rejected_slash_y
  exact ⟨n, hrun, indistinguishable_iff (by decide) hrun hrejected⟩

end Node

end Eureka.Router

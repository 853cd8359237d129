import Eureka.Router.Steps

/-!
# Insertions keep the shape of the tree

`Continues.shape` and `Fills.shape`: whatever route is added, and however the call ends,
the node that is left has the shape of a tree again, with the same type, and in its place
below an index character.
-/

namespace Eureka.Router

namespace Node

variable {H : Type}

/-! ## Children by their index characters -/

/-- Children that may stand below a node, each with its index character. -/
structure Placed (edges : List (Byte × Node H)) : Prop where
  nodup : (edges.map Prod.fst).Nodup
  literal : Literal (edges.map Prod.fst)
  hangs : ∀ c child, (c, child) ∈ edges → child.Hangs c
  shape : ∀ c child, (c, child) ∈ edges → child.Shape

theorem Placed.perm {edges edges' : List (Byte × Node H)} (hplaced : Placed edges)
    (hperm : edges'.Perm edges) : Placed edges' where
  nodup := (hperm.map Prod.fst).nodup_iff.mpr hplaced.nodup
  literal c hc := hplaced.literal c ((hperm.map Prod.fst).subset hc)
  hangs c child hmem := hplaced.hangs c child (hperm.subset hmem)
  shape c child hmem := hplaced.shape c child (hperm.subset hmem)

theorem Placed.replace {before after : List (Byte × Node H)} {c : Byte} {front child : Node H}
    (hplaced : Placed (before ++ (c, front) :: after)) (hhangs : child.Hangs c)
    (hshape : child.Shape) : Placed (before ++ (c, child) :: after) := by
  have hfst : (before ++ (c, child) :: after).map Prod.fst =
      (before ++ (c, front) :: after).map Prod.fst := by
    rw [List.map_append, List.map_append, List.map_cons, List.map_cons]
  have hmem : ∀ c' child', (c', child') ∈ before ++ (c, child) :: after →
      c' = c ∧ child' = child ∨ (c', child') ∈ before ++ (c, front) :: after := by
    intro c' child' hmem
    rcases List.mem_append.mp hmem with hmem | hmem
    · exact .inr (List.mem_append_left _ hmem)
    · rcases List.mem_cons.mp hmem with heq | hmem
      · exact .inl (Prod.mk.inj heq)
      · exact .inr (List.mem_append_right _ (List.mem_cons_of_mem _ hmem))
  refine ⟨hfst ▸ hplaced.nodup, hfst ▸ hplaced.literal, ?_, ?_⟩
  · intro c' child' hin
    rcases hmem c' child' hin with ⟨rfl, rfl⟩ | hin
    · exact hhangs
    · exact hplaced.hangs c' child' hin
  · intro c' child' hin
    rcases hmem c' child' hin with ⟨rfl, rfl⟩ | hin
    · exact hshape
    · exact hplaced.shape c' child' hin

theorem Placed.push {edges : List (Byte × Node H)} {c : Byte} {child : Node H}
    (hplaced : Placed edges) (hmiss : c ∉ edges.map Prod.fst) (hc : startsWildcard c = false)
    (hhangs : child.Hangs c) (hshape : child.Shape) : Placed (edges ++ [(c, child)]) := by
  refine Placed.perm ?_ (List.perm_append_singleton (c, child) edges)
  have hcons : ∀ c' child', (c', child') ∈ (c, child) :: edges →
      c' = c ∧ child' = child ∨ (c', child') ∈ edges :=
    fun c' child' hmem => (List.mem_cons.mp hmem).imp_left Prod.mk.inj
  refine ⟨List.nodup_cons.mpr ⟨hmiss, hplaced.nodup⟩, ?_, ?_, ?_⟩
  · intro c' hc'
    rcases List.mem_cons.mp hc' with rfl | hc'
    · exact hc
    · exact hplaced.literal c' hc'
  · intro c' child' hin
    rcases hcons c' child' hin with ⟨rfl, rfl⟩ | hin
    · exact hhangs
    · exact hplaced.hangs c' child' hin
  · intro c' child' hin
    rcases hcons c' child' hin with ⟨rfl, rfl⟩ | hin
    · exact hshape
    · exact hplaced.shape c' child' hin

theorem map_fst_zip {indices : Bytes} {children : List (Node H)}
    (hlength : indices.length = children.length) :
    (indices.zip children).map Prod.fst = indices :=
  List.map_fst_zip hlength.le

theorem mem_fst_of_perm {indices : Bytes} {children : List (Node H)} {edges : List (Byte × Node H)}
    (hlength : indices.length = children.length) (hperm : (indices.zip children).Perm edges)
    {c : Byte} (hc : c ∈ indices) : c ∈ edges.map Prod.fst := by
  rw [← map_fst_zip hlength] at hc
  exact (hperm.map Prod.fst).subset hc

theorem exists_mem_zip {indices : Bytes} {children : List (Node H)}
    (hlength : indices.length = children.length) {child : Node H} (hmem : child ∈ children) :
    ∃ c, (c, child) ∈ indices.zip children := by
  obtain ⟨i, hi, rfl⟩ := List.getElem_of_mem hmem
  have hzip : i < (indices.zip children).length := by
    rw [List.length_zip]
    omega
  refine ⟨indices[i], ?_⟩
  rw [← List.getElem_zip (h := hzip)]
  exact List.getElem_mem hzip

theorem Shape.placed {n : Node H} (hshape : n.Shape) (hwild : n.hasWildChild = false)
    (htype : n.type ≠ .param) : Placed (n.indices.zip n.children) := by
  cases hshape with
  | leaf _ _ _ hindices =>
      rw [hindices]
      exact ⟨List.nodup_nil, fun _ h => absurd h List.not_mem_nil,
        fun _ _ h => absurd h List.not_mem_nil, fun _ _ h => absurd h List.not_mem_nil⟩
  | static _ _ _ hlength _ hnodup hindices hhangs hshape =>
      refine ⟨?_, ?_, hhangs, fun c child hmem => hshape child (List.of_mem_zip hmem).2⟩
      · rwa [map_fst_zip hlength]
      · rwa [map_fst_zip hlength]
  | param hparam => exact absurd hparam htype
  | wild _ _ hwild' | catchAll _ _ _ hwild' =>
      rw [hwild'] at hwild
      exact absurd hwild.symm Bool.false_ne_true

theorem Placed.shape_static {n : Node H} {indices : Bytes} {children : List (Node H)}
    (hplaced : Placed (indices.zip children)) (htype : n.type = .plain ∨ n.type = .root)
    (hpath : Literal n.path) (hwild : n.hasWildChild = false)
    (hlength : indices.length = children.length) (hchildren : children ≠ []) :
    Shape { n with indices := indices, children := children } := by
  have hfst := map_fst_zip hlength
  refine .static htype hpath hwild hlength hchildren ?_ ?_ hplaced.hangs ?_
  · exact hfst ▸ hplaced.nodup
  · exact hfst ▸ hplaced.literal
  · intro child hmem
    obtain ⟨c, hmem⟩ := exists_mem_zip hlength hmem
    exact hplaced.shape c child hmem

/-! ## `insert_path` -/

theorem shape_fresh : Shape { (empty : Node H) with priority := 1 } :=
  .leaf (.inl rfl) (fun _ h => absurd h List.not_mem_nil) rfl rfl rfl

theorem Shape.leaf_of_children {n : Node H} (hshape : n.Shape)
    (htype : n.type = .plain ∨ n.type = .root) (hchildren : n.children = []) :
    Literal n.path ∧ n.hasWildChild = false ∧ n.indices = [] := by
  cases hshape with
  | leaf _ hpath hwild hindices => exact ⟨hpath, hwild, hindices⟩
  | static _ _ _ _ hne => exact absurd hchildren hne
  | wild _ _ _ _ hchildren' => rw [hchildren'] at hchildren; exact nomatch hchildren
  | param h => rw [h] at htype; rcases htype with h | h <;> exact nomatch h
  | catchAll h => rw [h] at htype; rcases htype with h | h <;> exact nomatch h

theorem Shape.literal_path {n : Node H} (hshape : n.Shape)
    (htype : n.type = .plain ∨ n.type = .root) : Literal n.path := by
  cases hshape with
  | leaf _ hpath | static _ hpath | wild _ hpath => exact hpath
  | param h => rw [h] at htype; rcases htype with h | h <;> exact nomatch h
  | catchAll h => rw [h] at htype; rcases htype with h | h <;> exact nomatch h

theorem Shape.with_path {n : Node H} (hshape : n.Shape)
    (htype : n.type = .plain ∨ n.type = .root) {path : Bytes} (hpath : Literal path)
    (handler : Option H) : Shape { n with path := path, handler := handler } := by
  cases hshape with
  | leaf _ _ hwild hindices hchildren => exact .leaf htype hpath hwild hindices hchildren
  | static _ _ hwild hlength hchildren hnodup hindices hhangs hshape =>
      exact .static htype hpath hwild hlength hchildren hnodup hindices hhangs hshape
  | wild _ _ hwild hindices hchildren hparam hshape =>
      exact .wild htype hpath hwild hindices hchildren hparam hshape
  | param h => rw [h] at htype; rcases htype with h | h <;> exact nomatch h
  | catchAll h => rw [h] at htype; rcases htype with h | h <;> exact nomatch h

theorem Fills.starts {handler : Option H} {n child : Node H} {c : Byte} {rest : Bytes}
    {verdict : Verdict} (hc : startsWildcard c = false) (hpath : n.path = [])
    (hindices : n.indices = []) (hfills : Fills handler n (c :: rest) child verdict) :
    child.path.head? = some c ∨
      child.path = [] ∧ child.handler = n.handler ∧ child.hasWildChild = n.hasWildChild ∧
        ∀ c' ∈ child.indices, c' = c := by
  have hstarts : ∀ {plain tail : Bytes} {d : Byte}, c :: rest = plain ++ d :: tail →
      startsWildcard d = true → plain.head? = some c := by
    intro plain tail d heq hd
    cases plain with
    | nil =>
        obtain ⟨rfl, -⟩ := List.cons.inj heq
        rw [hd] at hc
        exact nomatch hc
    | cons b plain =>
        obtain ⟨rfl, -⟩ := List.cons.inj heq
        rfl
  have hparam : ∀ {plain name tail : Bytes} (child : Node H),
      scan (c :: rest) = .param plain name tail → (n.withParam plain child).path.head? = some c := by
    intro plain name tail child hscan
    have hhead := hstarts (eq_of_scan_param hscan).1 startsWildcard_colon
    obtain ⟨plain, rfl⟩ := List.head?_eq_some_iff.mp hhead
    rfl
  have hsame : n.path = [] ∧ n.handler = n.handler ∧ n.hasWildChild = n.hasWildChild ∧
      ∀ c' ∈ n.indices, c' = c :=
    ⟨hpath, rfl, rfl, fun _ h => absurd (hindices ▸ h) List.not_mem_nil⟩
  generalize hwhole : c :: rest = path at *
  cases hfills with
  | plain =>
      subst hwhole
      exact .inl rfl
  | invalid | occupied | catchAllRejected | catchAllAborted => exact .inr hsame
  | paramEnd hscan | param hscan => exact .inl (hparam _ hscan)
  | @catchAll _ _ plain name hscan =>
      have hhead := hstarts (eq_of_scan_catchAll hscan).1 startsWildcard_star
      cases plain with
      | nil =>
          have hslash : slash = c := Option.some.inj hhead
          refine .inr ⟨rfl, rfl, rfl, fun c' hc' => ?_⟩
          rw [← hslash]
          exact List.mem_singleton.mp hc'
      | cons b plain => exact .inl hhead

theorem Fills.hangs {handler : Option H} {c : Byte} {rest : Bytes} {child : Node H}
    {verdict : Verdict} (hc : startsWildcard c = false)
    (hfills : Fills handler { (empty : Node H) with priority := 1 } (c :: rest) child verdict) :
    child.Hangs c := by
  have htype : child.type = .plain := by
    cases hfills <;> rfl
  refine ⟨.inl htype, (hfills.starts hc rfl rfl).imp_right ?_⟩
  rintro ⟨hpath, hhandler, hwild, hindices⟩
  exact ⟨hpath, hhandler, fun _ => hwild, hindices⟩

theorem Fills.shape {handler : Option H} {n n' : Node H} {path : Bytes} {verdict : Verdict}
    (hfills : Fills handler n path n' verdict) (hshape : n.Shape)
    (htype : n.type = .plain ∨ n.type = .root) : n'.Shape ∧ n'.type = n.type := by
  have hplainPath : ∀ {n : Node H} {plain : Bytes}, n.Shape → (n.type = .plain ∨ n.type = .root) →
      Literal plain → Literal (if plain.isEmpty then n.path else plain) := by
    intro n plain hshape htype hplain
    split_ifs
    · exact hshape.literal_path htype
    · exact hplain
  induction hfills with
  | plain hscan => exact ⟨hshape.with_path htype (literal_of_scan_plain hscan) handler, rfl⟩
  | invalid | occupied | catchAllRejected | catchAllAborted => exact ⟨hshape, rfl⟩
  | paramEnd hscan hchildren =>
      obtain ⟨-, hplain, hname, -⟩ := eq_of_scan_param hscan
      refine ⟨.wild htype (hplainPath hshape htype hplain) rfl
        (hshape.leaf_of_children htype hchildren).2.2 rfl rfl ?_, rfl⟩
      exact .param rfl rfl hname rfl (Nat.zero_le _) (.inl rfl)
        (fun _ h => absurd h List.not_mem_nil) (fun _ h => absurd h List.not_mem_nil)
  | @param n path plain name rest child verdict hscan hchildren hrest hfills ih =>
      obtain ⟨-, hplain, hname, hslash⟩ := eq_of_scan_param hscan
      obtain ⟨rest, rfl⟩ := List.head?_eq_some_iff.mp (hslash.resolve_left hrest)
      refine ⟨.wild htype (hplainPath hshape htype hplain) rfl
        (hshape.leaf_of_children htype hchildren).2.2 rfl rfl ?_, rfl⟩
      refine .param rfl rfl hname rfl le_rfl (.inl rfl) ?_ ?_
      · intro child' hmem
        obtain rfl := List.mem_singleton.mp hmem
        exact hfills.hangs startsWildcard_slash
      · intro child' hmem
        obtain rfl := List.mem_singleton.mp hmem
        exact (ih shape_fresh (.inl rfl)).1
  | @catchAll n path plain name hscan hchildren hlast =>
      obtain ⟨-, hplain, -, -⟩ := eq_of_scan_catchAll hscan
      refine ⟨.static htype (fun c hc => hplain c (List.mem_append_left _ hc))
        (hshape.leaf_of_children htype hchildren).2.1 rfl (List.cons_ne_nil _ _)
        (List.nodup_singleton _) ?_ ?_ ?_, rfl⟩
      · intro c hc
        rw [List.mem_singleton.mp hc]
        exact startsWildcard_slash
      · intro c child hmem
        obtain ⟨rfl, rfl⟩ := Prod.mk.inj (List.mem_singleton.mp hmem)
        exact ⟨.inr ⟨rfl, rfl⟩, .inr ⟨rfl, rfl, nofun, fun _ h => absurd h List.not_mem_nil⟩⟩
      · intro child hmem
        obtain rfl := List.mem_singleton.mp hmem
        exact .catchAll rfl rfl rfl rfl rfl rfl rfl rfl

/-! ## `insert_route` -/

theorem Splits.type_eq {n m : Node H} {path rem : Bytes} (hsplits : Splits n path m rem) :
    m.type = n.type := by
  cases hsplits <;> rfl

theorem plain_eq_nil {c d : Byte} {rest plain tail : Bytes} (hc : startsWildcard c = true)
    (hplain : Literal plain) (heq : c :: rest = plain ++ d :: tail) : plain = [] := by
  cases plain with
  | nil => rfl
  | cons b plain =>
      obtain ⟨rfl, -⟩ := List.cons.inj heq
      rw [hplain _ List.mem_cons_self] at hc
      exact nomatch hc

theorem Fills.path_eq {handler : Option H} {n n' : Node H} {c : Byte} {rest : Bytes}
    {verdict : Verdict} (hc : startsWildcard c = true)
    (hfills : Fills handler n (c :: rest) n' verdict) : n'.path = n.path := by
  have hparam : ∀ {plain name tail : Bytes} (child : Node H),
      scan (c :: rest) = .param plain name tail → (withParam n plain child).path = n.path := by
    intro plain name tail child hscan
    obtain ⟨heq, hplain, -, -⟩ := eq_of_scan_param hscan
    rw [plain_eq_nil hc hplain heq]
    rfl
  cases hfills with
  | plain hscan =>
      have hliteral := literal_of_scan_plain hscan c List.mem_cons_self
      rw [hc] at hliteral
      exact nomatch hliteral
  | invalid | occupied | catchAllRejected | catchAllAborted => rfl
  | paramEnd hscan => exact hparam _ hscan
  | param hscan => exact hparam _ hscan
  | catchAll hscan =>
      obtain ⟨heq, hplain, -, -⟩ := eq_of_scan_catchAll hscan
      exact absurd (plain_eq_nil hc hplain heq) (List.append_ne_nil_of_right_ne_nil _
        (List.cons_ne_nil _ _))

theorem Fills.type_eq {handler : Option H} {n n' : Node H} {path : Bytes} {verdict : Verdict}
    (hfills : Fills handler n path n' verdict) : n'.type = n.type := by
  cases hfills <;> rfl

theorem Continues.type_eq {handler : Option H} {m n' : Node H} {rem : Bytes} {verdict : Verdict}
    (hcontinues : Continues handler m rem n' verdict) : n'.type = m.type := by
  cases hcontinues with
  | special _ _ _ _ hfills => exact hfills.type_eq
  | _ => rfl

theorem Continues.path_eq {handler : Option H} {m n' : Node H} {rem : Bytes} {verdict : Verdict}
    (hcontinues : Continues handler m rem n' verdict) : n'.path = m.path := by
  cases hcontinues with
  | special _ _ _ hc hfills => exact hfills.path_eq hc
  | _ => rfl

/-- The path of a node that is entered with its first character keeps that character. -/
theorem Splits.head?_path {n m : Node H} {c : Byte} {rest rem : Bytes}
    (hsplits : Splits n (c :: rest) m rem) (hpath : n.path.head? = some c) :
    m.path.head? = some c := by
  generalize hwhole : c :: rest = whole at hsplits
  cases hsplits with
  | whole => exact hpath
  | @part shared tail _ a hpath' hrem =>
      cases shared with
      | nil =>
          rw [hpath'] at hpath
          rw [List.nil_append] at hwhole
          rw [← hwhole, List.head?_cons] at hrem
          exact absurd hpath.symm hrem
      | cons b shared =>
          obtain ⟨rfl, -⟩ := List.cons.inj hwhole
          change (n.path.take (c :: shared).length).head? = some c
          rw [hpath', List.take_left]
          rfl

theorem Splits.eq_of_path_nil {n m : Node H} {path rem : Bytes} (hsplits : Splits n path m rem)
    (hpath : n.path = []) : m = n ∧ rem = path := by
  cases hsplits with
  | whole => exact ⟨rfl, by rw [hpath, List.nil_append]⟩
  | part hpath' =>
      rw [hpath] at hpath'
      exact absurd hpath'.symm (List.append_ne_nil_of_right_ne_nil _ (List.cons_ne_nil _ _))

theorem Continues.starts {handler : Option H} {n m child : Node H} {c : Byte}
    {rest rem : Bytes} {verdict : Verdict} (hc : startsWildcard c = false)
    (hstarts : n.path.head? = some c ∨ n.path = [] ∧ ∀ c' ∈ n.indices, c' = c)
    (hsplits : Splits n (c :: rest) m rem) (hcontinues : Continues handler m rem child verdict) :
    child.path.head? = some c ∨
      child.path = [] ∧ child.handler = n.handler ∧ child.hasWildChild = n.hasWildChild ∧
        ∀ c' ∈ child.indices, c' = c := by
  rcases hstarts with hpath | ⟨hpath, hindices⟩
  · left
    rw [hcontinues.path_eq]
    exact hsplits.head?_path hpath
  · right
    obtain ⟨rfl, rfl⟩ := hsplits.eq_of_path_nil hpath
    generalize hwhole : c :: rest = whole at *
    cases hcontinues with
    | registered | fill => exact nomatch hwhole
    | wildConflict | wildDescend | paramDescend => exact ⟨hpath, rfl, rfl, hindices⟩
    | @indexDescend n c' _ front' before after _ _ child' indices children _ _ _ hedges _ _
          hlength hperm =>
        refine ⟨hpath, rfl, rfl, fun c'' hc'' => hindices c'' ?_⟩
        have hmem := mem_fst_of_perm hlength hperm hc''
        rw [List.map_append, List.map_cons, ← List.map_cons (f := Prod.fst) (a := (c', front')),
          ← List.map_append, ← hedges] at hmem
        obtain ⟨⟨_, _⟩, hmem', rfl⟩ := List.mem_map.mp hmem
        exact (List.of_mem_zip hmem').1
    | push _ _ _ _ _ hlength hperm =>
        obtain ⟨rfl, -⟩ := List.cons.inj hwhole
        refine ⟨hpath, rfl, rfl, fun c'' hc'' => ?_⟩
        have hmem := mem_fst_of_perm hlength hperm hc''
        rw [List.map_append] at hmem
        rcases List.mem_append.mp hmem with hmem | hmem
        · obtain ⟨⟨_, _⟩, hmem', rfl⟩ := List.mem_map.mp hmem
          exact hindices _ (List.of_mem_zip hmem').1
        · exact List.mem_singleton.mp hmem
    | special _ _ _ hspecial =>
        obtain ⟨rfl, -⟩ := List.cons.inj hwhole
        rw [hc] at hspecial
        exact nomatch hspecial

theorem Continues.hangs {handler : Option H} {front m child : Node H} {c : Byte}
    {rest rem : Bytes} {verdict : Verdict} (hc : startsWildcard c = false)
    (hhangs : front.Hangs c) (hsplits : Splits front.bump (c :: rest) m rem)
    (hcontinues : Continues handler m rem child verdict) : child.Hangs c := by
  have htype : child.type = front.type := hcontinues.type_eq.trans hsplits.type_eq
  refine ⟨htype ▸ hhangs.type_eq, ?_⟩
  have hstarts : front.bump.path.head? = some c ∨
      front.bump.path = [] ∧ ∀ c' ∈ front.bump.indices, c' = c :=
    hhangs.starts.imp_right fun h => ⟨h.1, h.2.2.2⟩
  -- a path that is not empty keeps its first character
  rcases hhangs.starts with hpath | ⟨hpath, hhandler, hwild, -⟩
  · left
    rw [hcontinues.path_eq]
    exact hsplits.head?_path hpath
  · refine (hcontinues.starts hc hstarts hsplits).imp_right ?_
    rintro ⟨hpath', hhandler', hwild', hindices'⟩
    refine ⟨hpath', hhandler'.trans hhandler, fun h => ?_, hindices'⟩
    rw [hwild']
    exact hwild (htype ▸ h)

theorem Shape.type_of_static {n : Node H} (hshape : n.Shape) (hwild : n.hasWildChild = false)
    (htype : n.type ≠ .param) : (n.type = .plain ∨ n.type = .root) ∧ Literal n.path := by
  cases hshape with
  | leaf htype hpath | static htype hpath | wild htype hpath => exact ⟨htype, hpath⟩
  | param hparam => exact absurd hparam htype
  | catchAll _ _ _ hwild' =>
      rw [hwild'] at hwild
      exact absurd hwild.symm Bool.false_ne_true

theorem ne_nil_of_perm_append {indices : Bytes} {children : List (Node H)}
    {before after : List (Byte × Node H)} {edge : Byte × Node H}
    (hperm : (indices.zip children).Perm (before ++ edge :: after)) : children ≠ [] := by
  rintro rfl
  rw [List.zip_nil_right] at hperm
  exact absurd (List.nil_perm.mp hperm).symm
    (List.append_ne_nil_of_right_ne_nil _ (List.cons_ne_nil _ _)).symm

theorem eq_singleton_of_perm {indices : Bytes} {children : List (Node H)} {c : Byte}
    {child : Node H} (hlength : indices.length = children.length)
    (hperm : (indices.zip children).Perm [(c, child)]) : indices = [c] ∧ children = [child] := by
  have hzip := List.perm_singleton.mp hperm
  match indices, children, hlength with
  | [], [], _ => exact nomatch hzip
  | c' :: indices, child' :: children, hlength =>
      obtain ⟨hhead, htail⟩ := List.cons.inj hzip
      obtain ⟨rfl, rfl⟩ := Prod.mk.inj hhead
      match indices, children, hlength with
      | [], [], _ => exact ⟨rfl, rfl⟩
      | _ :: _, _ :: _, _ => exact nomatch htail

/-- **Adding a route keeps the shape of the tree**, also when the route is rejected. -/
theorem Continues.shape {handler : Option H} {m n' : Node H} {rem : Bytes} {verdict : Verdict}
    (hcontinues : Continues handler m rem n' verdict) (hshape : m.Shape)
    (hreaches : m.Reaches rem) : n'.Shape := by
  induction hcontinues with
  | registered => exact hshape
  | @fill n hhandler =>
      by_cases htype : n.type = .plain ∨ n.type = .root
      · exact hshape.with_path htype (hshape.literal_path htype) handler
      · cases hshape with
        | leaf h | static h | wild h => exact absurd h htype
        | param htype hpath hname hwild hlength hindices hhangs hshape =>
            exact .param htype hpath hname hwild hlength hindices hhangs hshape
        | catchAll htype => exact nomatch hreaches.2 htype
  | @wildConflict n front others path hpath hwild hchildren =>
      cases hshape with
      | leaf _ _ hwild' | static _ _ hwild' | param _ _ _ hwild' =>
          rw [hwild'] at hwild
          exact absurd hwild Bool.false_ne_true
      | wild htype hpath _ hindices hchildren' hparam hshape =>
          obtain ⟨rfl, rfl⟩ := List.cons.inj (hchildren.symm.trans hchildren')
          exact .wild htype hpath hwild hindices rfl hparam hshape.bump
      | catchAll htype hpath hhandler _ hindices hchildren' hchild hname =>
          obtain ⟨rfl, rfl⟩ := List.cons.inj (hchildren.symm.trans hchildren')
          exact .catchAll htype hpath hhandler hwild hindices rfl hchild hname
  | @wildDescend n front others path m rem child verdict hpath hwild hchildren hfollows hsplits
      hcontinues ih =>
      cases hshape with
      | leaf _ _ hwild' | static _ _ hwild' | param _ _ _ hwild' =>
          rw [hwild'] at hwild
          exact absurd hwild Bool.false_ne_true
      | wild htype hpath _ hindices hchildren' hparam hshape =>
          obtain ⟨rfl, rfl⟩ := List.cons.inj (hchildren.symm.trans hchildren')
          have henters := hfollows.bump.enters
          have hchild := ih (hsplits.shape hshape.bump henters)
            (hsplits.reaches hshape.bump henters)
          refine .wild htype hpath hwild hindices rfl ?_ hchild
          rw [hcontinues.type_eq, hsplits.type_eq]
          exact hparam
      | catchAll _ _ _ _ _ hchildren' hchild =>
          obtain ⟨rfl, rfl⟩ := List.cons.inj (hchildren.symm.trans hchildren')
          exact absurd hchild hfollows.2.1
  | @paramDescend n front path m rem child verdict hwild htype hpath hchildren hsplits hcontinues
      ih =>
      cases hshape with
      | leaf h | static h | wild h => rw [htype] at h; rcases h with h | h <;> exact nomatch h
      | catchAll h => rw [htype] at h; exact nomatch h
      | param _ hpath' hname _ hlength hindices hhangs hshape =>
          rw [hchildren] at hhangs hshape
          have hfront := hhangs front List.mem_cons_self
          have henters := (hfront.bump).enters hpath
          have hchild := ih (hsplits.shape (hshape front List.mem_cons_self).bump henters)
            (hsplits.reaches (hshape front List.mem_cons_self).bump henters)
          obtain ⟨rest, rfl⟩ := List.head?_eq_some_iff.mp hpath
          refine .param htype hpath' hname hwild le_rfl
            (hindices.imp_right fun h => ⟨h.1, List.cons_ne_nil _ _⟩) ?_ ?_
          · intro child' hmem
            rw [List.mem_singleton.mp hmem]
            exact hcontinues.hangs startsWildcard_slash hfront hsplits
          · intro child' hmem
            rw [List.mem_singleton.mp hmem]
            exact hchild
  | @indexDescend n c rest front before after m rem child indices children verdict hwild htype
      hedges hsplits hcontinues hlength hperm ih =>
      obtain ⟨htype', hpath⟩ := hshape.type_of_static hwild htype
      have hplaced := hshape.placed hwild htype
      rw [hedges] at hplaced
      have hmem : (c, front) ∈ before ++ (c, front) :: after :=
        List.mem_append_right _ List.mem_cons_self
      have hfront := hplaced.hangs c front hmem
      have hshape' := (hplaced.shape c front hmem).bump
      have henters : front.bump.Enters (c :: rest) := hfront.bump.enters rfl
      have hchild := ih (hsplits.shape hshape' henters) (hsplits.reaches hshape' henters)
      have hc : startsWildcard c = false :=
        hplaced.literal c (List.mem_map.mpr ⟨(c, front), hmem, rfl⟩)
      have hplaced' := hplaced.replace (hcontinues.hangs hc hfront hsplits) hchild
      exact (hplaced'.perm hperm).shape_static htype' hpath hwild hlength
        (ne_nil_of_perm_append hperm)
  | @push n c rest child indices children verdict hwild hmiss hparam hc hfills hlength hperm =>
      have hhangs := hfills.hangs hc
      have hchild := (hfills.shape shape_fresh (.inl rfl)).1
      by_cases htype : n.type = .param
      · obtain ⟨rfl, hchildren⟩ := hparam htype
        have hnil := hshape.length_indices hwild fun _ => hchildren
        rw [hchildren, List.length_nil, List.length_eq_zero_iff] at hnil
        rw [hnil, List.zip_nil_left, List.nil_append] at hperm
        obtain ⟨rfl, rfl⟩ := eq_singleton_of_perm hlength hperm
        cases hshape with
        | leaf h | static h | wild h => rw [htype] at h; rcases h with h | h <;> exact nomatch h
        | catchAll h => rw [htype] at h; exact nomatch h
        | param _ hpath hname =>
            refine .param htype hpath hname hwild le_rfl (.inr ⟨rfl, List.cons_ne_nil _ _⟩) ?_ ?_
            · intro child' hmem
              rw [List.mem_singleton.mp hmem]
              exact hhangs
            · intro child' hmem
              rw [List.mem_singleton.mp hmem]
              exact hchild
      · obtain ⟨htype', hpath⟩ := hshape.type_of_static hwild htype
        have hplaced := hshape.placed hwild htype
        have hlength' := hshape.length_indices hwild fun h => absurd h htype
        have hplaced' := hplaced.push (by rwa [map_fst_zip hlength']) hc hhangs hchild
        exact (hplaced'.perm hperm).shape_static htype' hpath hwild hlength
          (ne_nil_of_perm_append hperm)
  | @special n c rest n' verdict hwild htype hmiss hc hfills =>
      exact (hfills.shape hshape (hshape.type_of_static hwild htype).1).1

end Node

end Eureka.Router

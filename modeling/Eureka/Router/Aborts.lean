import Eureka.Router.Rejected

/-!
# When `add_route` aborts

`insert_path` steps back from a `'*'` to the `'/'` in front of it, and asserts that there is
something in front.  There is nothing if it is entered with a path that starts with the `'*'`,
and that happens exactly where the route goes through the whole path of a node without
children that does not end in `'/'` (`Adds.aborted_iff`).

Every other route with a `'*'` that has no `'/'` in front of it is rejected
(`Adds.starsBehindSlash`).
-/

namespace Eureka.Router

namespace Node

variable {H : Type}

/-! ## Routes that go on behind a leaf -/

/-- The text below the node ends at a node without children, whose path does not end in `'/'`. -/
inductive LeadsToLeaf : Node H → Bytes → Prop
  | leaf {n c} (htype : n.type = .plain ∨ n.type = .root) (hchildren : n.children = [])
      (hlast : n.path.getLast? = some c) (hc : c ≠ slash) : LeadsToLeaf n []
  | step {n child text} (hmem : child ∈ n.children) (htype : child.type ≠ .catchAll)
      (hleads : LeadsToLeaf child text) : LeadsToLeaf n (child.path ++ text)

/-- The route goes on behind a leaf with a catch-all. -/
def Dangles (n : Node H) (path : Bytes) : Prop :=
  ∃ text name, path = n.path ++ (text ++ star :: name) ∧ ValidName name ∧ n.LeadsToLeaf text

theorem LeadsToLeaf.bump {n : Node H} {text : Bytes} (hleads : n.LeadsToLeaf text) :
    n.bump.LeadsToLeaf text := by
  cases hleads with
  | leaf htype hchildren hlast hc => exact .leaf htype hchildren hlast hc
  | step hmem htype hleads => exact .step hmem htype hleads

theorem LeadsToLeaf.of_bump {n : Node H} {text : Bytes} (hleads : n.bump.LeadsToLeaf text) :
    n.LeadsToLeaf text := by
  cases hleads with
  | leaf htype hchildren hlast hc => exact .leaf htype hchildren hlast hc
  | step hmem htype hleads => exact .step hmem htype hleads

theorem LeadsToLeaf.type_ne_catchAll {n : Node H} {text : Bytes} (hleads : n.LeadsToLeaf text)
    (hshape : n.Shape) : n.type ≠ .catchAll := by
  intro htype
  cases hshape with
  | leaf h | static h | wild h => rw [htype] at h; rcases h with h | h <;> exact nomatch h
  | param h => rw [htype] at h; exact nomatch h
  | catchAll _ _ _ _ _ hchildren hchild =>
      cases hleads with
      | leaf h => rw [htype] at h; rcases h with h | h <;> exact nomatch h
      | step hmem hne =>
          rw [hchildren, List.mem_singleton] at hmem
          exact hne (hmem ▸ hchild)

theorem LeadsToLeaf.of_wild {n child : Node H} {others : List (Node H)} {text : Bytes}
    (hleads : n.LeadsToLeaf text) (hshape : n.Shape) (hwild : n.hasWildChild = true)
    (hchildren : n.children = child :: others) :
    child.type = .param ∧ child.Shape ∧
      ∃ text', text = child.path ++ text' ∧ child.LeadsToLeaf text' := by
  obtain ⟨child', hchildren', hchild⟩ := hshape.cases_of_wild hwild
  obtain ⟨rfl, rfl⟩ := List.cons.inj (hchildren.symm.trans hchildren')
  cases hleads with
  | leaf _ hnil => exact absurd (hnil.symm.trans hchildren).symm (List.cons_ne_nil _ _)
  | step hmem htype hleads =>
      rw [hchildren, List.mem_singleton] at hmem
      subst hmem
      obtain ⟨hparam, hshape'⟩ := hchild.resolve_right fun h => htype h.1
      exact ⟨hparam, hshape', _, rfl, hleads⟩

theorem LeadsToLeaf.head?_eq {n : Node H} {text : Bytes} (hleads : n.LeadsToLeaf text)
    (hshape : n.Shape) {c : Byte} (hhangs : n.Hangs c) : (n.path ++ text).head? = some c := by
  induction hleads with
  | leaf htype hchildren hlast =>
      rcases hhangs.starts with hstarts | ⟨hpath, -⟩
      · rw [List.append_nil, hstarts]
      · rw [hpath] at hlast
        exact nomatch hlast
  | @step n child text hmem htype hleads ih =>
      rcases hhangs.starts with hstarts | ⟨hpath, -, hwild, hindices⟩
      · rw [List.head?_append, hstarts]
        rfl
      · have hplain : n.type = .plain := hhangs.type_eq.resolve_right fun h =>
          (LeadsToLeaf.step hmem htype hleads).type_ne_catchAll hshape h.1
        -- the node is empty, so the character is that of the child
        have hlength := hshape.length_indices (hwild hplain) (by rw [hplain]; exact nofun)
        obtain ⟨c', hzip⟩ := exists_mem_zip hlength hmem
        have hedge : (c', child) ∈ n.edges := by
          rw [edges_of_ne_param (by rw [hplain]; exact nofun)]
          exact hzip
        obtain ⟨-, hhangs', hshape'⟩ := hshape.child_of_edge hedge
        obtain rfl := hindices c' (List.of_mem_zip hzip).1
        rw [hpath, List.nil_append]
        exact ih hshape' hhangs'

theorem LeadsToLeaf.follows {n : Node H} {text : Bytes} (hleads : n.LeadsToLeaf text)
    (hshape : n.Shape) (htype : n.type = .param) (rest : Bytes) :
    n.Follows (n.path ++ (text ++ rest)) := by
  refine ⟨List.prefix_append _ _, by rw [htype]; exact nofun, .inr ?_⟩
  cases hleads with
  | leaf h => rw [htype] at h; rcases h with h | h <;> exact nomatch h
  | step hmem _ hleads =>
      rcases hshape.children_of_param htype with hnil | ⟨front, hchildren, hhangs, hshape'⟩
      · rw [hnil] at hmem
        exact absurd hmem List.not_mem_nil
      · rw [hchildren, List.mem_singleton] at hmem
        subst hmem
        obtain ⟨tail, htail⟩ := List.head?_eq_some_iff.mp (hleads.head?_eq hshape' hhangs)
        rw [htail, List.cons_append, List.getElem?_append_right le_rfl, Nat.sub_self]
        rfl

theorem Splits.append_eq {n m : Node H} {path rem : Bytes} (hsplits : Splits n path m rem) :
    path = m.path ++ rem := by
  cases hsplits with
  | whole => rfl
  | part hpath =>
      rw [splitAt_eq hpath]

/-- A path with the whole path of the node in front does not split it. -/
theorem Splits.eq_of_append {n m : Node H} {rem rem' : Bytes}
    (hsplits : Splits n (n.path ++ rem') m rem) : m = n ∧ rem = rem' :=
  Splits.whole.unique hsplits

/-- A way to a leaf does not go through a node that was split for it. -/
theorem Splits.eq_of_leads {n m : Node H} {path rem text rest : Bytes}
    (hsplits : Splits n path m rem) (hleads : m.LeadsToLeaf text) (hrem : rem = text ++ rest) :
    m = n := by
  cases hsplits with
  | whole => rfl
  | @part shared tail _ a hpath hhead =>
      rw [splitAt_eq hpath] at hleads
      cases hleads with
      | leaf _ hchildren => exact nomatch hchildren
      | step hmem =>
          rw [List.mem_singleton.mp hmem] at hrem
          exact absurd (by rw [hrem]; rfl) hhead

theorem Splits.startsLiteral {n m : Node H} {path rem : Bytes} (hsplits : Splits n path m rem)
    (hpath : StartsLiteral path) (hnil : m.path = []) : StartsLiteral rem := by
  rw [hsplits.append_eq, hnil] at hpath
  exact hpath

theorem Splits.leads_above {n front m : Node H} {path rem text rest : Bytes}
    (hsplits : Splits front.bump path m rem) (hshape : front.Shape) (hmem : front ∈ n.children)
    (hrem : rem = text ++ rest) (hleads : m.LeadsToLeaf text) :
    path = (front.path ++ text) ++ rest ∧ n.LeadsToLeaf (front.path ++ text) := by
  obtain rfl := hsplits.eq_of_leads hleads hrem
  refine ⟨?_, .step hmem (hleads.of_bump.type_ne_catchAll hshape) hleads.of_bump⟩
  rw [List.append_assoc, ← hrem]
  exact hsplits.append_eq

/-! ## The assertion fails -/

theorem Fills.cases_of_aborted {handler : Option H} {n n' : Node H} {path : Bytes} {verdict : Verdict}
    (hfills : Fills handler n path n' verdict) (haborted : verdict = .aborted) :
    ∃ name, path = star :: name ∧ ValidName name ∧ n.children = [] ∧
      n.path.getLast? ≠ some slash := by
  induction hfills with
  | plain | paramEnd | catchAll => exact nomatch haborted
  | invalid | occupied | catchAllRejected => exact nomatch haborted
  | param hscan _ hrest _ ih =>
      -- what follows a parameter starts with a slash
      obtain ⟨name, rfl, -⟩ := ih haborted
      obtain ⟨-, -, -, hslash⟩ := eq_of_scan_param hscan
      exact absurd (Option.some.inj (hslash.resolve_left hrest)).symm slash_ne_star
  | catchAllAborted hscan hchildren hlast =>
      obtain ⟨rfl, -, hname, -⟩ := eq_of_scan_catchAll hscan
      exact ⟨_, by rw [List.nil_append, List.append_nil], hname, hchildren, hlast⟩

theorem Fills.aborted_of_star {handler : Option H} {n n' : Node H} {name : Bytes} {verdict : Verdict}
    (hname : ValidName name) (hchildren : n.children = []) (hlast : n.path.getLast? ≠ some slash)
    (hfills : Fills handler n (star :: name) n' verdict) : verdict = .aborted := by
  have hcatchAll : scan (star :: name) = .catchAll [] name [] := by
    have hscan := scan_catchAll hname (.inl rfl)
    rwa [List.append_nil] at hscan
  generalize hwhole : star :: name = path at hfills hcatchAll
  cases hfills with
  | plain hscan | invalid hscan | paramEnd hscan | param hscan =>
      rw [hcatchAll] at hscan
      exact nomatch hscan
  | occupied _ hne => exact absurd hchildren hne
  | catchAllRejected hscan _ hwhy =>
      rw [hcatchAll] at hscan
      obtain ⟨rfl, rfl, rfl⟩ := Scan.catchAll.inj hscan
      rcases hwhy with hrest | hslash | ⟨hplain, -⟩
      · exact absurd rfl hrest
      · exact absurd hslash hlast
      · exact absurd rfl hplain
  | catchAllAborted => rfl
  | catchAll hscan =>
      rw [hcatchAll] at hscan
      exact absurd (Scan.catchAll.inj hscan).1.symm
        (List.append_ne_nil_of_right_ne_nil _ (List.cons_ne_nil _ _))

theorem Continues.leads_of_aborted {handler : Option H} {m n' : Node H} {rem : Bytes}
    {verdict : Verdict} (hcontinues : Continues handler m rem n' verdict)
    (haborted : verdict = .aborted) (hshape : m.Shape) (hreaches : m.Reaches rem)
    (hempty : m.path = [] → StartsLiteral rem) :
    ∃ text name, rem = text ++ star :: name ∧ ValidName name ∧ m.LeadsToLeaf text := by
  induction hcontinues with
  | registered | fill | wildConflict => exact nomatch haborted
  | @wildDescend n front others path m rem child verdict _ hwild hchildren hfollows hsplits _ ih =>
      obtain ⟨-, hparam, hshape'⟩ := hshape.of_follows hwild hchildren hfollows
      have henters := hfollows.bump.enters
      have hne : m.path = [] → StartsLiteral rem := by
        intro hnil
        obtain ⟨name, -, hname⟩ := hshape'.path_of_param hparam
        rw [(hsplits.eq_of_follows hfollows.bump).1] at hnil
        exact absurd (hnil.symm.trans hname).symm (List.cons_ne_nil _ _)
      obtain ⟨text, name, hrem, hname, hleads⟩ := ih haborted
        (hsplits.shape hshape'.bump henters) (hsplits.reaches hshape'.bump henters) hne
      obtain ⟨hpath, hleads⟩ :=
        hsplits.leads_above hshape' (hchildren ▸ List.mem_cons_self) hrem hleads
      exact ⟨_, name, hpath, hname, hleads⟩
  | @paramDescend n front path m rem child verdict _ htype hpath hchildren hsplits _ ih =>
      obtain ⟨hhangs, hshape'⟩ := hshape.below_param htype hchildren
      have henters := hhangs.bump.enters hpath
      have hliteral := startsLiteral_of_head? hpath startsWildcard_slash
      obtain ⟨text, name, hrem, hname, hleads⟩ := ih haborted
        (hsplits.shape hshape'.bump henters) (hsplits.reaches hshape'.bump henters)
        (hsplits.startsLiteral hliteral)
      obtain ⟨hpath, hleads⟩ :=
        hsplits.leads_above hshape' (hchildren ▸ List.mem_cons_self) hrem hleads
      exact ⟨_, name, hpath, hname, hleads⟩
  | @indexDescend n c rest front before after m rem child indices children verdict hwild htype
      hedges hsplits _ _ _ ih =>
      have hmem := mem_edges_of_zip htype hedges
      obtain ⟨hchild, hhangs, hshape'⟩ := hshape.child_of_edge hmem
      have henters : front.bump.Enters (c :: rest) := hhangs.bump.enters rfl
      have hliteral : StartsLiteral (c :: rest) :=
        startsLiteral_of_head? rfl (hshape.literal_of_edge hwild hmem)
      obtain ⟨text, name, hrem, hname, hleads⟩ := ih haborted
        (hsplits.shape hshape'.bump henters) (hsplits.reaches hshape'.bump henters)
        (hsplits.startsLiteral hliteral)
      obtain ⟨hpath, hleads⟩ := hsplits.leads_above hshape' hchild hrem hleads
      exact ⟨_, name, hpath, hname, hleads⟩
  | push _ _ _ hc hfills =>
      obtain ⟨name, hpath, -⟩ := hfills.cases_of_aborted haborted
      obtain ⟨rfl, -⟩ := List.cons.inj hpath
      exact nomatch hc
  | @special n c rest n' verdict hwild htype _ hc hfills =>
      obtain ⟨name, hpath, hname, hchildren, hlast⟩ := hfills.cases_of_aborted haborted
      obtain ⟨rfl, rfl⟩ := List.cons.inj hpath
      have hne : n.path ≠ [] := by
        intro hnil
        exact nomatch hempty hnil star rfl
      have hlast' := List.getLast?_eq_some_getLast hne
      refine ⟨[], rest, rfl, hname, ?_⟩
      refine .leaf (hshape.type_of_static hwild htype).1 hchildren hlast' fun hslash => ?_
      exact hlast (hlast'.trans (congrArg some hslash))

/-- The index character of a child that leads to a leaf is the next one of the route. -/
theorem LeadsToLeaf.edge {n child : Node H} {text rest more : Bytes} {c : Byte}
    (hleads : child.LeadsToLeaf text) (hshape : n.Shape) (hwild : n.hasWildChild = false)
    (htype : n.type ≠ .param) (hmem : child ∈ n.children)
    (hrest : c :: rest = child.path ++ text ++ more) : (c, child) ∈ n.indices.zip n.children := by
  have hlength := hshape.length_indices hwild fun h => absurd h htype
  obtain ⟨c', hzip⟩ := exists_mem_zip hlength hmem
  have hedge : (c', child) ∈ n.edges := by
    rw [edges_of_ne_param htype]
    exact hzip
  obtain ⟨-, hhangs, hshape'⟩ := hshape.child_of_edge hedge
  obtain ⟨tail, htail⟩ := List.head?_eq_some_iff.mp (hleads.head?_eq hshape' hhangs)
  rw [htail] at hrest
  obtain ⟨rfl, -⟩ := List.cons.inj hrest
  exact hzip

theorem eq_of_nodup_map_fst {edges : List (Byte × Node H)} (hnodup : (edges.map Prod.fst).Nodup)
    {c : Byte} {child child' : Node H} (hmem : (c, child) ∈ edges) (hmem' : (c, child') ∈ edges) :
    child = child' :=
  congrArg Prod.snd (List.inj_on_of_nodup_map hnodup hmem hmem' rfl)

theorem Continues.aborted_of_leads {handler : Option H} {m n' : Node H} {rem : Bytes}
    {verdict : Verdict} (hcontinues : Continues handler m rem n' verdict) (hshape : m.Shape)
    {text name : Bytes} (hrem : rem = text ++ star :: name) (hname : ValidName name)
    (hleads : m.LeadsToLeaf text) : verdict = .aborted := by
  induction hcontinues generalizing text with
  | registered | fill =>
      exact absurd hrem.symm (List.append_ne_nil_of_right_ne_nil _ (List.cons_ne_nil _ _))
  | @wildConflict n front others path _ hwild hchildren hfollows =>
      obtain ⟨hparam, hshape', text, rfl, hbelow⟩ := hleads.of_wild hshape hwild hchildren
      rw [hrem, List.append_assoc] at hfollows
      exact absurd (hbelow.follows hshape' hparam _) hfollows
  | @wildDescend n front others path m rem child verdict _ hwild hchildren hfollows hsplits _ ih =>
      obtain ⟨-, hshape', text, rfl, hbelow⟩ := hleads.of_wild hshape hwild hchildren
      rw [hrem, List.append_assoc] at hsplits
      obtain ⟨rfl, rfl⟩ := Splits.eq_of_append hsplits
      exact ih hshape'.bump rfl hbelow.bump
  | @paramDescend n front path m rem child verdict _ htype _ hchildren hsplits _ ih =>
      obtain ⟨-, hshape'⟩ := hshape.below_param htype hchildren
      cases hleads with
      | leaf h => rw [htype] at h; rcases h with h | h <;> exact nomatch h
      | step hmem _ hleads =>
          rw [hchildren, List.mem_singleton] at hmem
          subst hmem
          rw [hrem, List.append_assoc] at hsplits
          obtain ⟨rfl, rfl⟩ := Splits.eq_of_append hsplits
          exact ih hshape'.bump rfl hleads.bump
  | @indexDescend n c rest front before after m rem child indices children verdict hwild htype
      hedges hsplits _ _ _ ih =>
      have hmem : (c, front) ∈ n.indices.zip n.children := by
        rw [hedges]
        exact List.mem_append_right _ List.mem_cons_self
      cases hleads with
      | leaf _ hnil =>
          rw [hnil, List.zip_nil_right] at hmem
          exact absurd hmem List.not_mem_nil
      | step hmem' _ hleads =>
          -- the index characters are distinct, so the way goes through the child itself
          have hzip := hleads.edge hshape hwild htype hmem' hrem
          obtain rfl := eq_of_nodup_map_fst (hshape.placed hwild htype).nodup hmem hzip
          have hedge : (c, front) ∈ n.edges := by
            rw [edges_of_ne_param htype]
            exact hmem
          rw [hrem, List.append_assoc] at hsplits
          obtain ⟨rfl, rfl⟩ := Splits.eq_of_append hsplits
          exact ih (hshape.child_of_edge hedge).2.2.bump rfl hleads.bump
  | @push n c rest child indices children verdict hwild hmiss hparam hc hfills =>
      cases hleads with
      | leaf =>
          obtain ⟨rfl, -⟩ := List.cons.inj hrem
          exact nomatch hc
      | step hmem _ hleads =>
          by_cases htype : n.type = .param
          · rw [(hparam htype).2] at hmem
            exact absurd hmem List.not_mem_nil
          · have hzip := hleads.edge hshape hwild htype hmem hrem
            exact absurd (List.of_mem_zip hzip).1 hmiss
  | @special n c rest n' verdict hwild htype hmiss hc hfills =>
      cases hleads with
      | leaf _ hchildren hlast hslash =>
          obtain ⟨rfl, rfl⟩ := List.cons.inj hrem
          refine hfills.aborted_of_star hname hchildren ?_
          rw [hlast]
          exact fun heq => hslash (Option.some.inj heq)
      | step hmem _ hleads =>
          have hzip := hleads.edge hshape hwild htype hmem hrem
          exact absurd (List.of_mem_zip hzip).1 hmiss

theorem LeadsToLeaf.ne_unused {n : Node H} {text : Bytes} (hleads : n.LeadsToLeaf text) :
    ¬ n.Unused := by
  intro hunused
  cases hleads with
  | leaf _ _ hlast =>
      rw [hunused.path_eq] at hlast
      exact nomatch hlast
  | step hmem =>
      rw [hunused.children_eq] at hmem
      exact absurd hmem List.not_mem_nil

/-- **When `add_route` aborts.** -/
theorem Adds.aborted_iff {handler : Option H} {n n' : Node H} {path : Bytes} {verdict : Verdict}
    (hadds : Adds handler n path n' verdict) (hroot : n.Root) (hpath : path.head? = some slash) :
    verdict = .aborted ↔ n.Dangles path := by
  have hblank : n.Blank → ¬ n.Dangles path := fun hblank ⟨_, _, _, _, hleads⟩ =>
    hleads.ne_unused (hroot.unused_of_blank hblank)
  cases hadds with
  | first h => exact iff_of_false nofun (hblank h)
  | firstFails h _ hfills =>
      refine iff_of_false (fun haborted => ?_) (hblank h)
      obtain ⟨name, rfl, -⟩ := hfills.cases_of_aborted haborted
      exact absurd (Option.some.inj hpath).symm slash_ne_star
  | @later m rem _ _ _ hsplits hcontinues =>
      constructor
      · intro haborted
        have hliteral := startsLiteral_of_head? hpath startsWildcard_slash
        obtain ⟨text, name, hrem, hname, hleads⟩ := hcontinues.leads_of_aborted haborted
          (hsplits.shape hroot.shape.bump (hroot.bump.enters _))
          (hsplits.reaches hroot.shape.bump (hroot.bump.enters _)) (hsplits.startsLiteral hliteral)
        obtain rfl := hsplits.eq_of_leads hleads hrem
        exact ⟨text, name, hrem ▸ hsplits.append_eq, hname, hleads.of_bump⟩
      · rintro ⟨text, name, rfl, hname, hleads⟩
        obtain ⟨rfl, rfl⟩ := Splits.eq_of_append hsplits
        exact hcontinues.aborted_of_leads hroot.shape.bump rfl hname hleads.bump

/-! ## Accepted routes -/

/-- The text does not start with a `'*'`, and every `'*'` in it stands behind a `'/'`. -/
def StarsBehindSlash (text : Bytes) : Prop :=
  text.head? ≠ some star ∧ text.IsChain fun c d => d = star → c = slash

theorem StarsBehindSlash.append {text rest : Bytes} (htext : star ∉ text)
    (hrest : StarsBehindSlash rest) : StarsBehindSlash (text ++ rest) := by
  have hchain : text.IsChain fun c d => d = star → c = slash := by
    induction text with
    | nil => exact .nil
    | cons c text ih =>
        refine List.isChain_cons.mpr ⟨fun d hd hstar => ?_, ih (List.not_mem_of_not_mem_cons htext)⟩
        rw [hstar] at hd
        exact absurd (List.mem_cons_of_mem _ (List.mem_of_mem_head? hd)) htext
  refine ⟨?_, List.isChain_append.mpr ⟨hchain, hrest.2, ?_⟩⟩
  · cases text with
    | nil => exact hrest.1
    | cons c text =>
        intro hhead
        exact htext (Option.some.inj hhead ▸ List.mem_cons_self)
  · rintro c - d hd rfl
    exact absurd hd hrest.1

theorem starsBehindSlash_of_notMem {text : Bytes} (htext : star ∉ text) : StarsBehindSlash text := by
  have hnil : StarsBehindSlash [] := ⟨nofun, .nil⟩
  have happend := hnil.append htext
  rwa [List.append_nil] at happend

theorem star_notMem_of_literal {text : Bytes} (htext : Literal text) : star ∉ text :=
  fun hmem => nomatch htext star hmem

theorem star_notMem_of_validName {name : Bytes} (hname : ValidName name) : star ∉ name :=
  fun hmem => nomatch hname.2 star hmem

theorem StarsBehindSlash.param {plain name rest : Bytes} (hplain : Literal plain)
    (hname : ValidName name) (hrest : StarsBehindSlash rest) :
    StarsBehindSlash (plain ++ colon :: (name ++ rest)) := by
  refine StarsBehindSlash.append (star_notMem_of_literal hplain) ?_
  have hcolon : star ∉ [colon] := by decide
  exact StarsBehindSlash.append hcolon (StarsBehindSlash.append (star_notMem_of_validName hname) hrest)

theorem Fills.starsBehindSlash {handler : Option H} {n n' : Node H} {path : Bytes} {verdict : Verdict}
    (hfills : Fills handler n path n' verdict) (haccepted : verdict = .accepted) :
    StarsBehindSlash path := by
  have hnil : StarsBehindSlash [] := ⟨nofun, .nil⟩
  induction hfills with
  | invalid | occupied | catchAllRejected | catchAllAborted => exact nomatch haccepted
  | plain hscan => exact starsBehindSlash_of_notMem (star_notMem_of_literal (literal_of_scan_plain hscan))
  | paramEnd hscan =>
      obtain ⟨rfl, hplain, hname, -⟩ := eq_of_scan_param hscan
      exact hnil.param hplain hname
  | param hscan _ _ _ ih =>
      obtain ⟨rfl, hplain, hname, -⟩ := eq_of_scan_param hscan
      exact (ih haccepted).param hplain hname
  | @catchAll n path plain name hscan =>
      obtain ⟨rfl, hplain, hname, -⟩ := eq_of_scan_catchAll hscan
      rw [List.append_nil, List.append_assoc]
      refine StarsBehindSlash.append (fun hmem => ?_) ⟨?_, ?_⟩
      · exact star_notMem_of_literal hplain (List.mem_append_left _ hmem)
      · exact fun hhead => slash_ne_star (Option.some.inj hhead)
      · refine List.isChain_cons.mpr ⟨fun _ _ _ => rfl, List.isChain_cons.mpr ⟨?_, ?_⟩⟩
        · intro d hd hstar
          exact absurd (hstar ▸ List.mem_of_mem_head? hd) (star_notMem_of_validName hname)
        · exact (starsBehindSlash_of_notMem (star_notMem_of_validName hname)).2

theorem Continues.starsBehindSlash {handler : Option H} {m n' : Node H} {rem : Bytes}
    {verdict : Verdict} (hcontinues : Continues handler m rem n' verdict)
    (haccepted : verdict = .accepted) (hshape : m.Shape) (hreaches : m.Reaches rem) :
    StarsBehindSlash rem := by
  have hbelow : ∀ {front m : Node H} {path rem : Bytes}, Splits front.bump path m rem →
      front.type ≠ .param → m.Shape → StarsBehindSlash rem → StarsBehindSlash path := by
    intro front m path rem hsplits htype hshape hrem
    rw [hsplits.append_eq]
    refine StarsBehindSlash.append (star_notMem_of_literal ?_) hrem
    exact hshape.literal_of_ne_param fun h => htype (hsplits.type_eq.symm.trans h)
  induction hcontinues with
  | registered | wildConflict => exact nomatch haccepted
  | fill => exact ⟨nofun, .nil⟩
  | @wildDescend n front others path m rem child verdict _ hwild hchildren hfollows hsplits _ ih =>
      obtain ⟨-, hparam, hshape'⟩ := hshape.of_follows hwild hchildren hfollows
      have henters := hfollows.bump.enters
      have hrem := ih haccepted (hsplits.shape hshape'.bump henters)
        (hsplits.reaches hshape'.bump henters)
      obtain ⟨name, hname, hpath⟩ := hshape'.path_of_param hparam
      obtain ⟨-, hsplit, -⟩ := hsplits.eq_of_follows hfollows.bump
      have hpath' : front.bump.path = colon :: name := hpath
      rw [hsplit, hpath']
      have hnil : Literal [] := fun _ hmem => absurd hmem List.not_mem_nil
      exact hrem.param hnil hname
  | @paramDescend n front path m rem child verdict _ htype hpath hchildren hsplits _ ih =>
      obtain ⟨hhangs, hshape'⟩ := hshape.below_param htype hchildren
      have henters := hhangs.bump.enters hpath
      have hrem := ih haccepted (hsplits.shape hshape'.bump henters)
        (hsplits.reaches hshape'.bump henters)
      exact hbelow hsplits hhangs.type_ne_param (hsplits.shape hshape'.bump henters) hrem
  | @indexDescend n c rest front before after m rem child indices children verdict hwild htype
      hedges hsplits _ _ _ ih =>
      have hmem := mem_edges_of_zip htype hedges
      obtain ⟨-, hhangs, hshape'⟩ := hshape.child_of_edge hmem
      have henters : front.bump.Enters (c :: rest) := hhangs.bump.enters rfl
      have hrem := ih haccepted (hsplits.shape hshape'.bump henters)
        (hsplits.reaches hshape'.bump henters)
      exact hbelow hsplits hhangs.type_ne_param (hsplits.shape hshape'.bump henters) hrem
  | push _ _ _ _ hfills => exact hfills.starsBehindSlash haccepted
  | special _ _ _ _ hfills => exact hfills.starsBehindSlash haccepted

theorem Adds.starsBehindSlash {handler : Option H} {n n' : Node H} {path : Bytes} {verdict : Verdict}
    (hadds : Adds handler n path n' verdict) (haccepted : verdict = .accepted) (hroot : n.Root) :
    StarsBehindSlash path := by
  cases hadds with
  | first _ hfills => exact hfills.starsBehindSlash rfl
  | firstFails _ hverdict => exact absurd haccepted hverdict
  | later _ hsplits hcontinues =>
      have hshape := hsplits.shape hroot.shape.bump (hroot.bump.enters _)
      have hrem := hcontinues.starsBehindSlash haccepted hshape
        (hsplits.reaches hroot.shape.bump (hroot.bump.enters _))
      rw [hsplits.append_eq]
      refine StarsBehindSlash.append (star_notMem_of_literal ?_) hrem
      exact hshape.literal_of_ne_param fun h => hroot.type_ne_param (hsplits.type_eq.symm.trans h)

/-! ## Runs of calls -/

/-- The trees that calls of `add_route` build which return or throw. -/
inductive Grown : Node H → Prop
  | empty : Grown empty
  | call {n path handler} (hgrown : Grown n) (hpath : path.head? = some slash)
      (hends : ∀ fault, (n.addRoute path handler).2 ≠ .fault fault) :
      Grown (n.addRoute path handler).1

theorem Grown.root {n : Node H} (hgrown : n.Grown) : n.Root := by
  induction hgrown with
  | empty => exact root_empty
  | call _ hpath _ ih => exact (addRoute_adds ih.toTop _ _).root ih hpath

/-- **`add_route` returns or throws**, and rejects every `'*'` that stands behind another
character than `'/'`, unless the route goes on behind a leaf. -/
theorem addRoute_ends_iff {n : Node H} (hgrown : n.Grown) {path : Bytes}
    (hpath : path.head? = some slash) (handler : Option H) :
    (((n.addRoute path handler).2 = .ok ∨
        ∃ error, (n.addRoute path handler).2 = .invalidArgument error) ∧
      ∀ before c after, path = before ++ c :: star :: after → c ≠ slash →
        ∃ error, (n.addRoute path handler).2 = .invalidArgument error) ↔ ¬ n.Dangles path := by
  have hadds := addRoute_adds hgrown.root.toTop path handler
  rw [← hadds.aborted_iff hgrown.root hpath]
  cases hend : (n.addRoute path handler).2 with
  | fault fault =>
      refine iff_of_false ?_ (not_not.mpr rfl)
      rintro ⟨hok | ⟨error, herror⟩, -⟩
      · cases hok
      · cases herror
  | invalidArgument error =>
      exact iff_of_true ⟨.inr ⟨error, rfl⟩, fun _ _ _ _ _ => ⟨error, rfl⟩⟩ nofun
  | ok =>
      refine iff_of_true ⟨.inl rfl, ?_⟩ nofun
      rintro before c after rfl hc
      rw [hend] at hadds
      have hchain := (hadds.starsBehindSlash rfl hgrown.root).2
      exact absurd ((List.isChain_append_cons_cons.mp hchain).2.1 rfl) hc

/-- The route `/foo*bar` in the empty tree. -/
theorem addRoute_ends_iff_foo_bar :
    ((((empty : Node ℕ).addRoute (ascii "/foo*bar") (some 7)).2 = .ok ∨
        ∃ error, ((empty : Node ℕ).addRoute (ascii "/foo*bar") (some 7)).2 =
          .invalidArgument error) ∧
      ∀ before c after, ascii "/foo*bar" = before ++ c :: star :: after → c ≠ slash →
        ∃ error, ((empty : Node ℕ).addRoute (ascii "/foo*bar") (some 7)).2 =
          .invalidArgument error) ↔ ¬ (empty : Node ℕ).Dangles (ascii "/foo*bar") :=
  addRoute_ends_iff .empty (by decide) _

/-- The same route behind the route `/foo`. -/
theorem addRoute_aborts :
    ∃ n : Node ℕ, n.Grown ∧ (n.addRoute (ascii "/foo*bar") (some 7)).2 = .fault .assertion := by
  have hok : ((empty : Node ℕ).addRoute (ascii "/foo") (some 3)).2 = .ok := by decide
  have hgrown : Grown ((empty : Node ℕ).addRoute (ascii "/foo") (some 3)).1 := by
    refine .call .empty (by decide) fun fault hfault => ?_
    rw [hok] at hfault
    cases hfault
  exact ⟨_, hgrown, by decide +kernel⟩

end Node

end Eureka.Router

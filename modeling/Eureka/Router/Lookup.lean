import Eureka.Router.Routes

/-!
# Looking up a request path

`locate` compares the lengths of the remaining path and of the path of a node before it
compares their bytes: a node whose path is as long as the rest of the request is taken for
its end.  `Misreads` says that the walk down the tree meets such a node with other bytes
and with a handler.  Apart from that `locate` is the lookup in the trie of the tree
(`locate_eq_lookup`); there it finds a handler although no pattern matches
(`Misreads.locate_eq_found`).
-/

namespace Eureka.Router

open PatternTrie

/-- The result of `locate` for what a lookup finds. -/
def LocateResult.ofValue {H : Type} : Option (Option H) → LocateResult H
  | none => .nullptr
  | some handler => .found handler

namespace Node

variable {H : Type}

/-! ## One step of `locate` -/

theorem handlerPtr_eq (n : Node H) : n.handlerPtr = .ofValue (n.handler.map some) := by
  unfold handlerPtr
  cases n.handler with
  | none => rfl
  | some v => rfl

theorem locate_of_length {n : Node H} {path : Bytes} (hlength : path.length = n.path.length)
    (params : List Param) : n.locate path params = (n.handlerPtr, params) := by
  rw [locate.eq_def, if_pos hlength]

theorem locate_of_mismatch {n : Node H} {path : Bytes} (hlength : path.length ≠ n.path.length)
    (hpre : ¬ n.path <+: path) (params : List Param) :
    n.locate path params = (.nullptr, params) := by
  rw [locate.eq_def, if_neg hlength, if_neg fun h => hpre h.2]

/-- The children below index characters, as `locate` finds them. -/
theorem child?_eq {n : Node H} {c : Byte} (htype : n.type ≠ .param)
    (hlength : n.indices.length = n.children.length) :
    ((n.indices.idxOf? c).bind fun pos => n.children[pos]?) = n.child? c := by
  rw [child?, edges_of_ne_param htype]
  generalize n.indices = indices at hlength
  generalize n.children = children at hlength
  induction indices generalizing children with
  | nil => rfl
  | cons c' indices ih =>
      cases children with
      | nil => cases hlength
      | cons child children =>
          rw [List.zip_cons_cons, List.idxOf?_cons]
          by_cases hsame : c' = c
          · simp [hsame]
          · rw [List.find?_cons_of_neg (by simpa using hsame), ← ih children (by simpa using hlength)]
            simp only [beq_iff_eq, hsame, if_false]
            cases indices.idxOf? c <;> rfl

theorem locate_index {n : Node H} {c : Byte} {rest : Bytes} (hwild : n.hasWildChild = false)
    (htype : n.type ≠ .param) (hlength : n.indices.length = n.children.length)
    (params : List Param) :
    n.locate (n.path ++ c :: rest) params =
      match n.child? c with
      | none => (.nullptr, params)
      | some child => child.locate (c :: rest) params := by
  have hne : (n.path ++ c :: rest).length ≠ n.path.length := by simp
  have hpre : n.path.length < (n.path ++ c :: rest).length ∧ n.path <+: n.path ++ c :: rest :=
    ⟨by simp, List.prefix_append _ _⟩
  rw [locate.eq_def, if_neg hne, if_pos hpre, List.drop_left, hwild, ← child?_eq htype hlength]
  dsimp only
  rw [Bool.not_false, if_pos rfl, List.head?_cons, Option.bind_some]
  cases n.indices.idxOf? c with
  | none => rfl
  | some pos =>
      rw [Option.bind_some]
      dsimp only
      split
      · next hchild => rw [hchild]
      · next child hchild => rw [hchild]

theorem locate_param {n child : Node H} {rest : Bytes} (hrest : rest ≠ [])
    (hwild : n.hasWildChild = true) (hchildren : n.children = [child]) (hparam : child.type = .param)
    (params : List Param) :
    n.locate (n.path ++ rest) params =
      if slash ∉ rest then
        (child.handlerPtr, params ++ [⟨child.path.drop 1, rest.takeWhile (· ≠ slash)⟩])
      else
        match child.children with
        | [] => (.nullptr, params ++ [⟨child.path.drop 1, rest.takeWhile (· ≠ slash)⟩])
        | grandChild :: _ => grandChild.locate (rest.dropWhile (· ≠ slash))
            (params ++ [⟨child.path.drop 1, rest.takeWhile (· ≠ slash)⟩]) := by
  have hne : (n.path ++ rest).length ≠ n.path.length := by simpa using hrest
  have hpre : n.path.length < (n.path ++ rest).length ∧ n.path <+: n.path ++ rest :=
    ⟨by simpa [List.length_pos_iff] using hrest, List.prefix_append _ _⟩
  rw [locate.eq_def, if_neg hne, if_pos hpre, List.drop_left, hwild]
  dsimp only
  rw [if_neg (by decide)]
  split
  · next hnil => rw [hchildren] at hnil; cases hnil
  · next first others hcons =>
    obtain ⟨rfl, -⟩ := List.cons.inj (hchildren.symm.trans hcons)
    rw [hparam]
    dsimp only
    split_ifs with hslash
    · split
      · next hnil => rw [hnil]
      · next grandChild others hcons => rw [hcons]
    · rfl

theorem locate_catchAll {n child : Node H} {rest : Bytes} (hrest : rest ≠ [])
    (hwild : n.hasWildChild = true) (hchildren : n.children = [child])
    (hcatchAll : child.type = .catchAll) (params : List Param) :
    n.locate (n.path ++ rest) params =
      (.found child.handler, params ++ [⟨child.path.drop 2, rest⟩]) := by
  have hne : (n.path ++ rest).length ≠ n.path.length := by simpa using hrest
  have hpre : n.path.length < (n.path ++ rest).length ∧ n.path <+: n.path ++ rest :=
    ⟨by simpa [List.length_pos_iff] using hrest, List.prefix_append _ _⟩
  rw [locate.eq_def, if_neg hne, if_pos hpre, List.drop_left, hwild]
  dsimp only
  rw [if_neg (by decide)]
  split
  · next hnil => rw [hchildren] at hnil; cases hnil
  · next first others hcons =>
    obtain ⟨rfl, -⟩ := List.cons.inj (hchildren.symm.trans hcons)
    rw [hcatchAll]

/-! ## Trees that answer a request alike -/

/-- Both trees answer the request alike. -/
def Alike (n n' : Node H) (path : Bytes) : Prop :=
  ∀ params, n.locate path params = n'.locate path params

/-- What is found below a parameter from its `'/'`. -/
def locateBelow (n : Node H) (path : Bytes) (params : List Param) : LocateResult H × List Param :=
  match n.children with
  | [] => (.nullptr, params)
  | child :: _ => child.locate path params

theorem Alike.refl (n : Node H) (path : Bytes) : n.Alike n path := fun _ => rfl

theorem Alike.trans {n n' n'' : Node H} {path : Bytes} (halike : n.Alike n' path)
    (halike' : n'.Alike n'' path) : n.Alike n'' path :=
  fun params => (halike params).trans (halike' params)

/-- Only what lies behind the path of a node has to be looked at. -/
theorem alike_of_behind {n n' : Node H} {path : Bytes} (hpath : n.path = n'.path)
    (hhandler : n.handler = n'.handler)
    (hbehind : ∀ c rest, path = n.path ++ c :: rest → n.Alike n' path) : n.Alike n' path := by
  by_cases hlength : path.length = n.path.length
  · intro params
    rw [locate_of_length hlength, locate_of_length (hpath ▸ hlength), handlerPtr_eq,
      handlerPtr_eq, hhandler]
  by_cases hpre : n.path <+: path
  · obtain ⟨rest, rfl⟩ := hpre
    obtain ⟨c, rest, rfl⟩ : ∃ c tail, rest = c :: tail :=
      List.exists_cons_of_ne_nil (by rintro rfl; simp at hlength)
    exact hbehind c rest rfl
  · intro params
    rw [locate_of_mismatch hlength hpre,
      locate_of_mismatch (hpath ▸ hlength) (hpath ▸ hpre)]

theorem alike_of_index {n n' : Node H} {c : Byte} {rest : Bytes} (hshape : n.Shape)
    (hshape' : n'.Shape) (htype : n.type ≠ .param) (htype' : n'.type ≠ .param)
    (hwild : n.hasWildChild = false) (hwild' : n'.hasWildChild = false) (hpath : n.path = n'.path)
    (hbelow : n.child? c = n'.child? c ∨ ∃ child child', n.child? c = some child ∧
      n'.child? c = some child' ∧ child.Alike child' (c :: rest)) :
    n.Alike n' (n.path ++ c :: rest) := by
  intro params
  rw [locate_index hwild htype (hshape.length_indices hwild (absurd · htype))]
  conv_rhs =>
    rw [hpath, locate_index hwild' htype' (hshape'.length_indices hwild' (absurd · htype'))]
  rcases hbelow with hsame | ⟨child, child', hchild, hchild', halike⟩
  · rw [hsame]
  · rw [hchild, hchild']
    exact halike params

theorem alike_of_param {n n' child child' : Node H} {rest : Bytes} (hrest : rest ≠ [])
    (hwild : n.hasWildChild = true) (hwild' : n'.hasWildChild = true)
    (hchildren : n.children = [child]) (hchildren' : n'.children = [child'])
    (hparam : child.type = .param) (hparam' : child'.type = .param) (hpath : n.path = n'.path)
    (hname : child.path.drop 1 = child'.path.drop 1) (hhandler : child.handler = child'.handler)
    (hbelow : ∀ tail params,
      child.locateBelow (slash :: tail) params = child'.locateBelow (slash :: tail) params) :
    n.Alike n' (n.path ++ rest) := by
  intro params
  rw [locate_param hrest hwild hchildren hparam]
  conv_rhs => rw [hpath, locate_param hrest hwild' hchildren' hparam']
  rw [handlerPtr_eq, handlerPtr_eq, hname, hhandler]
  by_cases hslash : slash ∈ rest
  · obtain ⟨value, tail, rfl, hvalue⟩ := List.eq_append_cons_of_mem hslash
    rw [if_neg (not_not.mpr hslash), if_neg (not_not.mpr hslash),
      (Trie.takeWhile_ne_append hvalue tail).2]
    exact hbelow tail _
  · rw [if_pos hslash, if_pos hslash]

/-! ## One step of the lookup in the trie -/

theorem Shape.lookup_core_nil {n : Node H} (hshape : n.Shape) :
    n.core.lookup slash [] = (n.handler.map some, []) := by
  rw [Trie.lookup_nil hshape.core_ne_rest, hshape.value?_core]

theorem Shape.lookup_self {n : Node H} (hshape : n.Shape) :
    n.flatten.lookup slash n.path = (n.handler.map some, []) := by
  have hchain := Trie.lookup_chain slash n.path n.core []
  rwa [List.append_nil, hshape.lookup_core_nil] at hchain

theorem lookup_of_mismatch {n : Node H} {path : Bytes} (hpre : ¬ n.path <+: path) :
    n.flatten.lookup slash path = (none, []) :=
  Trie.lookup_chain_of_mismatch slash hpre n.core

theorem Shape.lookup_index {n : Node H} (hshape : n.Shape) (hwild : n.hasWildChild = false)
    (c : Byte) (rest : Bytes) :
    n.flatten.lookup slash (n.path ++ c :: rest) =
      match n.child? c with
      | none => (none, [])
      | some child => child.flatten.lookup slash (c :: rest) := by
  obtain ⟨-, hplain, hnext⟩ := core_of_index hwild
  rw [flatten, Trie.lookup_chain, Trie.lookup_cons_of_plain hplain, hnext, nexts]
  cases hchild : n.child? c with
  | none => exact Trie.lookup_absent slash rest
  | some child =>
      obtain ⟨-, hhangs, hshape'⟩ := hshape.child_of_edge (mem_of_child? hchild)
      exact (Trie.lookup_cons_of_plain (hhangs.plain_flatten hshape') slash c rest).symm

theorem Shape.lookup_below_param {child : Node H} (hshape : child.Shape)
    (hparam : child.type = .param) (rest : Bytes) :
    child.core.lookup slash (slash :: rest) =
      match child.children with
      | [] => (none, [])
      | grandChild :: _ => grandChild.flatten.lookup slash (slash :: rest) := by
  obtain ⟨-, hplain, hnext⟩ := core_of_index (hshape.wild_of_param hparam)
  rw [Trie.lookup_cons_of_plain hplain, hnext]
  rcases hshape.children_of_param hparam with hnil | ⟨front, hchildren, hhangs, hfront⟩
  · have hedges : child.edges = [] := by rw [edges_of_param hparam, hnil]; rfl
    rw [hnil, nexts_of_edges_nil hedges]
    exact Trie.lookup_absent slash rest
  · have hedges : child.edges = [(slash, front)] := by rw [edges_of_param hparam, hchildren]; rfl
    rw [hchildren, nexts_of_edges_singleton hedges, Trie.single_same]
    exact (Trie.lookup_cons_of_plain (hhangs.plain_flatten hfront) slash slash rest).symm

theorem Shape.lookup_param {n child : Node H} {rest : Bytes} (hrest : rest ≠ [])
    (hwild : n.hasWildChild = true) (hchildren : n.children = [child])
    (hparam : child.type = .param) (hshape : child.Shape) :
    n.flatten.lookup slash (n.path ++ rest) =
      let found :=
        if slash ∉ rest then
          (child.handler.map some, [])
        else
          match child.children with
          | [] => (none, [])
          | grandChild :: _ => grandChild.flatten.lookup slash (rest.dropWhile (· ≠ slash))
      (found.1, (child.path.drop 1, rest.takeWhile (· ≠ slash)) :: found.2) := by
  have hne : child.type ≠ .catchAll := by rw [hparam]; exact nofun
  rw [flatten, Trie.lookup_chain, core_of_wild hwild hchildren hne,
    Trie.lookup_param slash _ _ _ hrest]
  by_cases hslash : slash ∈ rest
  · obtain ⟨value, rest, rfl, hvalue⟩ := List.eq_append_cons_of_mem hslash
    rw [if_neg (not_not.mpr hslash), (Trie.takeWhile_ne_append hvalue rest).2,
      hshape.lookup_below_param hparam]
  · rw [if_pos hslash, (Trie.takeWhile_ne_self hslash).2, hshape.lookup_core_nil]

theorem lookup_catchAll {n child : Node H} (hpath : n.path = []) (hwild : n.hasWildChild = true)
    (hchildren : n.children = [child]) (hcatchAll : child.type = .catchAll) (rest : Bytes) :
    n.flatten.lookup slash (slash :: rest) =
      (some child.handler, [(child.path.drop 2, slash :: rest)]) := by
  rw [flatten, hpath, core_of_catchAll hwild hchildren hcatchAll]
  show (Trie.static none _).lookup slash (slash :: rest) = _
  rw [Trie.lookup_cons_of_plain rfl, Trie.next_static, Trie.single_same]
  rfl

/-! ## What `locate` finds -/

/-- The walk down the tree meets a node with a handler whose path is as long as the rest of
the request, and differs from it. -/
inductive Misreads : Node H → Bytes → Prop
  | here {n path} (hlength : path.length = n.path.length) (hne : path ≠ n.path)
      (hhandler : n.handler.isSome) : Misreads n path
  | index {n child c rest} (hwild : n.hasWildChild = false) (hchild : n.child? c = some child)
      (hbelow : Misreads child (c :: rest)) : Misreads n (n.path ++ c :: rest)
  | param {n child grandChild value rest} (hwild : n.hasWildChild = true)
      (hchildren : n.children = [child]) (hparam : child.type = .param)
      (hgrand : child.children = [grandChild]) (hvalue : slash ∉ value)
      (hbelow : Misreads grandChild (slash :: rest)) :
      Misreads n (n.path ++ (value ++ slash :: rest))

/-- `locate` does what the lookup in the trie does. -/
def Agrees (n : Node H) (path : Bytes) : Prop :=
  ∀ params, n.locate path params = (.ofValue (n.flatten.lookup slash path).1,
    params ++ (n.flatten.lookup slash path).2.map .ofBinding)

theorem Shape.agrees_self {n : Node H} (hshape : n.Shape) : n.Agrees n.path := by
  intro params
  rw [locate_of_length rfl, hshape.lookup_self, handlerPtr_eq, List.map_nil, List.append_nil]

theorem agrees_of_mismatch {n : Node H} {path : Bytes} (hpre : ¬ n.path <+: path)
    (hhandler : path.length = n.path.length → n.handler = none) : n.Agrees path := by
  intro params
  rw [lookup_of_mismatch hpre, List.map_nil, List.append_nil]
  by_cases hlength : path.length = n.path.length
  · rw [locate_of_length hlength, handlerPtr_eq, hhandler hlength]
    rfl
  · exact locate_of_mismatch hlength hpre params

theorem Shape.agrees_index {n : Node H} (hshape : n.Shape) (hwild : n.hasWildChild = false)
    (htype : n.type ≠ .param) {c : Byte} {rest : Bytes}
    (hbelow : ∀ child, n.child? c = some child → child.Agrees (c :: rest)) :
    n.Agrees (n.path ++ c :: rest) := by
  intro params
  rw [locate_index hwild htype (hshape.length_indices hwild (absurd · htype)),
    hshape.lookup_index hwild]
  cases hchild : n.child? c with
  | none =>
      dsimp only
      rw [List.map_nil, List.append_nil]
      rfl
  | some child => exact hbelow child hchild params

theorem Shape.agrees_param {n child : Node H} {rest : Bytes} (hrest : rest ≠ [])
    (hwild : n.hasWildChild = true) (hchildren : n.children = [child])
    (hparam : child.type = .param) (hshape : child.Shape)
    (hbelow : ∀ grandChild value rest', child.children = [grandChild] → slash ∉ value →
      rest = value ++ slash :: rest' → grandChild.Agrees (slash :: rest')) :
    n.Agrees (n.path ++ rest) := by
  intro params
  rw [locate_param hrest hwild hchildren hparam, hshape.lookup_param hrest hwild hchildren hparam]
  by_cases hslash : slash ∈ rest
  · obtain ⟨value, rest', hsplit, hvalue⟩ := List.eq_append_cons_of_mem hslash
    have hdrop : rest.dropWhile (· ≠ slash) = slash :: rest' := by
      rw [hsplit, (Trie.takeWhile_ne_append hvalue rest').2]
    rw [if_neg (not_not.mpr hslash), if_neg (not_not.mpr hslash), hdrop]
    rcases hshape.children_of_param hparam with hnil | ⟨front, hgrand, -, -⟩
    · rw [hnil]
      rfl
    · rw [hgrand]
      dsimp only
      rw [hbelow front value rest' hgrand hvalue hsplit, List.append_assoc]
      rfl
  · rw [if_pos hslash, if_pos hslash, handlerPtr_eq]
    rfl

/-- **`locate` is the lookup in the trie**, unless it misreads the path. -/
theorem Shape.agrees {n : Node H} (hshape : n.Shape) (htype : n.type ≠ .param) {path : Bytes}
    (hcatchAll : n.type = .catchAll → path.head? = some slash) (hread : ¬ n.Misreads path) :
    n.Agrees path := by
  induction hsize : sizeOf n using Nat.strong_induction_on generalizing n path with
  | _ size ih =>
    by_cases hpre : n.path <+: path
    · obtain ⟨rest, rfl⟩ := hpre
      rcases rest with _ | ⟨c, rest⟩
      · rw [List.append_nil]
        exact hshape.agrees_self
      cases hwild : n.hasWildChild with
      | false =>
          refine hshape.agrees_index hwild htype fun child hchild => ?_
          obtain ⟨hmem, hhangs, hshape'⟩ := hshape.child_of_edge (mem_of_child? hchild)
          exact ih (sizeOf child) (hsize ▸ sizeOf_lt_of_mem hmem) hshape' hhangs.type_ne_param
            (hhangs.enters rfl).2 (fun h => hread (.index hwild hchild h)) rfl
      | true =>
          obtain ⟨child, hchildren, ⟨hparam, hshape'⟩ | ⟨hchild, htype'⟩⟩ :=
            hshape.cases_of_wild hwild
          · refine Shape.agrees_param (List.cons_ne_nil _ _) hwild hchildren hparam hshape' ?_
            intro grandChild value rest' hgrand hvalue hsplit
            obtain ⟨front, hgrand', hhangs, hfront⟩ :=
              (hshape'.children_of_param hparam).resolve_left (by rw [hgrand]; exact nofun)
            obtain ⟨rfl, -⟩ := List.cons.inj (hgrand.symm.trans hgrand')
            have hlt : sizeOf grandChild < size := by
              have hmem : grandChild ∈ child.children := hgrand ▸ List.mem_cons_self
              have hmem' : child ∈ n.children := hchildren ▸ List.mem_cons_self
              exact hsize ▸ (sizeOf_lt_of_mem hmem).trans (sizeOf_lt_of_mem hmem')
            refine ih (sizeOf grandChild) hlt hfront hhangs.type_ne_param (hhangs.enters rfl).2 ?_ rfl
            rw [hsplit] at hread
            exact fun h => hread (.param hwild hchildren hparam hgrand hvalue h)
          · have hpath := hshape.path_of_catchAll htype'
            have hhead := hcatchAll htype'
            rw [hpath] at hhead
            obtain rfl : c = slash := Option.some.inj hhead
            intro params
            rw [locate_catchAll (List.cons_ne_nil _ _) hwild hchildren hchild, hpath,
              List.nil_append, lookup_catchAll hpath hwild hchildren hchild]
            rfl
    · refine agrees_of_mismatch hpre fun hlength => ?_
      by_contra hne
      refine hread (.here hlength ?_ (Option.isSome_iff_ne_none.mpr hne))
      rintro rfl
      exact hpre (List.prefix_refl _)

theorem Misreads.lookup_eq_none {n : Node H} {path : Bytes} (hmisreads : n.Misreads path)
    (hshape : n.Shape) : (n.flatten.lookup slash path).1 = none := by
  induction hmisreads with
  | here hlength hne =>
      rw [lookup_of_mismatch fun h => hne (h.eq_of_length hlength.symm).symm]
  | @index n child c rest hwild hchild _ ih =>
      rw [hshape.lookup_index hwild, hchild]
      exact ih (hshape.child_of_edge (mem_of_child? hchild)).2.2
  | @param n child grandChild value rest hwild hchildren hparam hgrand hvalue _ ih =>
      obtain ⟨child', hchildren', hchild⟩ := hshape.cases_of_wild hwild
      obtain ⟨rfl, -⟩ := List.cons.inj (hchildren.symm.trans hchildren')
      have hshape' := (hchild.resolve_right fun h => by rw [hparam] at h; exact nomatch h.1).2
      obtain ⟨front, hgrand', -, hfront⟩ :=
        (hshape'.children_of_param hparam).resolve_left (by rw [hgrand]; exact nofun)
      obtain ⟨rfl, -⟩ := List.cons.inj (hgrand.symm.trans hgrand')
      have hslash : slash ∈ value ++ slash :: rest := List.mem_append_right _ List.mem_cons_self
      rw [Shape.lookup_param (List.append_ne_nil_of_right_ne_nil _ (List.cons_ne_nil _ _)) hwild
        hchildren hparam hshape', if_neg (not_not.mpr hslash), hgrand,
        (Trie.takeWhile_ne_append hvalue rest).2]
      exact ih hfront

theorem Misreads.locate_eq_found {n : Node H} {path : Bytes} (hmisreads : n.Misreads path)
    (hshape : n.Shape) (htype : n.type ≠ .param) (params : List Param) :
    ∃ v params', n.locate path params = (.found (some v), params') := by
  induction hmisreads generalizing params with
  | @here n path hlength _ hhandler =>
      obtain ⟨v, hv⟩ := Option.isSome_iff_exists.mp hhandler
      refine ⟨v, params, ?_⟩
      rw [locate_of_length hlength, handlerPtr_eq, hv]
      rfl
  | @index n child c rest hwild hchild _ ih =>
      obtain ⟨-, hhangs, hshape'⟩ := hshape.child_of_edge (mem_of_child? hchild)
      rw [locate_index hwild htype (hshape.length_indices hwild (absurd · htype)), hchild]
      exact ih hshape' hhangs.type_ne_param params
  | @param n child grandChild value rest hwild hchildren hparam hgrand hvalue _ ih =>
      obtain ⟨child', hchildren', hchild⟩ := hshape.cases_of_wild hwild
      obtain ⟨rfl, -⟩ := List.cons.inj (hchildren.symm.trans hchildren')
      have hshape' := (hchild.resolve_right fun h => by rw [hparam] at h; exact nomatch h.1).2
      obtain ⟨front, hgrand', hhangs, hfront⟩ :=
        (hshape'.children_of_param hparam).resolve_left (by rw [hgrand]; exact nofun)
      obtain ⟨rfl, -⟩ := List.cons.inj (hgrand.symm.trans hgrand')
      have hslash : slash ∈ value ++ slash :: rest := List.mem_append_right _ List.mem_cons_self
      rw [locate_param (List.append_ne_nil_of_right_ne_nil _ (List.cons_ne_nil _ _)) hwild
        hchildren hparam, if_neg (not_not.mpr hslash), hgrand,
        (Trie.takeWhile_ne_append hvalue rest).2]
      exact ih hfront hhangs.type_ne_param _

/-! ## The trees that `add_route` builds -/

/-- A tree with its routes: the trie has their patterns. -/
structure Built (n : Node H) (calls : List (Bytes × H)) : Prop where
  root : n.Root
  parses : ∀ call ∈ calls, ∃ tokens, parse call.1 = some tokens
  insertAll : (empty : Node H).flatten.insertAll (calls.map pattern) = some n.flatten

theorem flatten_empty : (empty : Node H).flatten = .leaf none :=
  flatten_of_blank root_empty ⟨rfl, rfl⟩

theorem built_of_addRoutes {n : Node H} {calls : List (Bytes × H)}
    (hslash : ∀ call ∈ calls, call.1.head? = some slash)
    (hrun : (empty : Node H).addRoutes (calls.map registration) = some n) : n.Built calls := by
  obtain ⟨hroot, hparses, hinserts⟩ := root_empty.addRoutes_insertAll hslash hrun
  exact ⟨hroot, hparses, hinserts⟩

theorem Built.has {n : Node H} {calls : List (Bytes × H)} (hbuilt : n.Built calls)
    {tokens : List (Token Byte)} {v : H} :
    n.flatten.Has tokens v ↔ ∃ call ∈ calls, parse call.1 = some tokens ∧ call.2 = v := by
  have hinsertAll := hbuilt.insertAll
  rw [flatten_empty] at hinsertAll
  have hempty : ¬ (Trie.leaf none : Trie Byte H).Has tokens v := by
    rcases tokens with _ | ⟨letter | name | name, tokens⟩
    · exact nofun
    · exact Trie.not_has_absent tokens v
    · exact Trie.not_has_param_of_plain rfl name tokens v
    · exact Trie.not_has_rest_of_plain rfl name tokens v
  rw [Trie.insertAll_has hinsertAll, or_iff_right hempty, List.mem_map]
  refine exists_congr fun call => and_congr_right fun hcall => ?_
  obtain ⟨tokens', hparse⟩ := hbuilt.parses call hcall
  rw [pattern, hparse, Option.getD_some, Prod.mk.injEq, Option.some.injEq]

theorem Built.wellFormed {n : Node H} {calls : List (Bytes × H)} (hbuilt : n.Built calls) :
    n.flatten.WellFormed := by
  have hinsertAll := hbuilt.insertAll
  rw [flatten_empty] at hinsertAll
  have hseparated : ∀ pattern' ∈ calls.map pattern, Trie.ParamsSeparated slash pattern'.1 := by
    intro pattern' hmem
    obtain ⟨call, hcall, rfl⟩ := List.mem_map.mp hmem
    obtain ⟨tokens, hparse⟩ := hbuilt.parses call hcall
    rw [pattern, hparse]
    exact paramsSeparated_of_parseFrom hparse
  exact Trie.WellFormed.insertAll .leaf hseparated hinsertAll

theorem Built.loaded {n : Node H} {calls : List (Bytes × H)} (hbuilt : n.Built calls) :
    n.flatten.Loaded := by
  have hinsertAll := hbuilt.insertAll
  rw [flatten_empty] at hinsertAll
  exact Trie.Loaded.insertAll .leaf hinsertAll

/-- What the lookup in the trie finds: the handlers of the routes that match. -/
theorem Built.lookup_eq_some {n : Node H} {calls : List (Bytes × H)} (hbuilt : n.Built calls)
    {path : Bytes} {v : H} {bindings : List (Binding Byte)} :
    n.flatten.lookup slash path = (some (some v), bindings) ↔
      ∃ call ∈ calls, call.2 = v ∧ Matches call.1 path (bindings.map .ofBinding) := by
  constructor
  · intro hlookup
    obtain ⟨tokens, hhas, hbinds⟩ := Trie.binds_of_lookup hbuilt.wellFormed hlookup
    obtain ⟨call, hcall, hparse, hv⟩ := hbuilt.has.mp hhas
    exact ⟨call, hcall, hv, matches_of_binds hparse hbinds⟩
  · rintro ⟨call, hcall, hv, hmatches⟩
    obtain ⟨tokens, bindings', hparse, hbinds, heq⟩ := exists_of_matches hmatches
    have hinjective : Function.Injective Param.ofBinding :=
      fun _ _ h => Prod.ext (congrArg Param.key h) (congrArg Param.value h)
    obtain rfl := List.map_injective_iff.mpr hinjective heq
    exact Trie.lookup_of_binds (hbuilt.has.mpr ⟨call, hcall, hparse, hv⟩) hbinds

/-- Whatever is found for the path is the handler of a route that matches it, with the
bindings of that route. -/
def FindsMatches (n : Node H) (calls : List (Bytes × H)) (path : Bytes) : Prop :=
  ∀ params handler params', n.locate path params = (.found handler, params') →
    ∃ call ∈ calls, handler = some call.2 ∧
      ∃ bindings, Matches call.1 path bindings ∧ params' = params ++ bindings

/-- **Lookups are sound** exactly where the path is not misread. -/
theorem findsMatches_iff {n : Node H} {calls : List (Bytes × H)}
    (hslash : ∀ call ∈ calls, call.1.head? = some slash)
    (hrun : (empty : Node H).addRoutes (calls.map registration) = some n) (path : Bytes) :
    n.FindsMatches calls path ↔ ¬ n.Misreads path := by
  have hbuilt := built_of_addRoutes hslash hrun
  have htype := hbuilt.root.type_ne_param
  constructor
  · intro hfinds hmisreads
    obtain ⟨v, params', hlocate⟩ := hmisreads.locate_eq_found hbuilt.root.shape htype []
    obtain ⟨call, hcall, -, bindings, hmatches, -⟩ := hfinds [] (some v) params' hlocate
    obtain ⟨tokens, bindings', hparse, hbinds, -⟩ := exists_of_matches hmatches
    have hlookup := Trie.lookup_of_binds (hbuilt.has.mpr ⟨call, hcall, hparse, rfl⟩) hbinds
    have hnone := hmisreads.lookup_eq_none hbuilt.root.shape
    rw [hlookup] at hnone
    exact nomatch hnone
  · intro hread params handler params' hlocate
    rw [hbuilt.root.shape.agrees htype (absurd · hbuilt.root.type_ne_catchAll) hread params]
      at hlocate
    obtain ⟨hfound, rfl⟩ := Prod.mk.inj hlocate
    rcases hlookup : n.flatten.lookup slash path with ⟨_ | _ | v, bindings⟩
    · rw [hlookup] at hfound
      exact nomatch hfound
    · have hsome : (n.flatten.lookup slash path).1 ≠ some none :=
        Trie.lookup_ne_some_none hbuilt.loaded path
      rw [hlookup] at hsome
      exact absurd rfl hsome
    · rw [hlookup] at hfound
      obtain rfl := LocateResult.found.inj hfound
      obtain ⟨call, hcall, rfl, hmatches⟩ := hbuilt.lookup_eq_some.mp hlookup
      exact ⟨call, hcall, rfl, _, hmatches, rfl⟩

theorem eq_of_matches_literal {route path : Bytes} {bindings : List Param}
    (hmatches : Matches route path bindings) (hliteral : Literal route) : path = route := by
  have hcolon : ∀ {name rest : Bytes}, ¬ Literal (colon :: name ++ rest) := fun h =>
    absurd (h colon List.mem_cons_self) (by decide)
  induction hmatches with
  | nil => rfl
  | lit _ _ ih => rw [ih fun c hc => hliteral c (List.mem_cons_of_mem _ hc)]
  | @paramEnd name => exact absurd (List.append_nil (colon :: name) ▸ hliteral) hcolon
  | param => exact absurd hliteral hcolon
  | catchAll =>
      have hstar := hliteral star (List.mem_cons_of_mem _ List.mem_cons_self)
      exact absurd hstar (by decide)

/-- A node that is as long as the request but has other bytes is taken for it. -/
theorem misread_finds_unmatched :
    ∃ n, (empty : Node ℕ).addRoutes ([(ascii "/a", 7)].map registration) = some n ∧
      ¬ n.FindsMatches [(ascii "/a", 7)] (ascii "/b") := by
  refine ⟨{ (empty : Node ℕ) with path := ascii "/a", type := .root, priority := 1,
                                  handler := some 7 }, rfl, ?_⟩
  intro hfinds
  obtain ⟨call, hcall, -, bindings, hmatches, -⟩ :=
    hfinds [] (some 7) [] (by rw [locate_of_length (by decide)]; rfl)
  obtain rfl := List.mem_singleton.mp hcall
  have hliteral : Literal (ascii "/a") := by
    unfold Literal
    decide +kernel
  exact absurd (eq_of_matches_literal hmatches hliteral) (by decide)

/-- A plain route and one with a parameter, which split a node. -/
def splitRoutes : List (Bytes × ℕ) := [(ascii "/ab", 1), (ascii "/ac/:x", 2)]

theorem splitRoutes_head : ∀ call ∈ splitRoutes, call.1.head? = some slash := by decide

theorem findsMatches_iff_split :
    ∃ n, (empty : Node ℕ).addRoutes (splitRoutes.map registration) = some n ∧
      ∀ path, n.FindsMatches splitRoutes path ↔ ¬ n.Misreads path := by
  obtain ⟨n, hrun⟩ := Option.isSome_iff_exists.mp (show ((empty : Node ℕ).addRoutes
    (splitRoutes.map registration)).isSome = true by decide +kernel)
  exact ⟨n, hrun, findsMatches_iff splitRoutes_head hrun⟩

/-- **Lookups are complete.**  Exactly one registered route matches, and its handler is
found with its bindings. -/
theorem locate_of_matches {n : Node H} {calls : List (Bytes × H)}
    (hslash : ∀ call ∈ calls, call.1.head? = some slash)
    (hrun : (empty : Node H).addRoutes (calls.map registration) = some n) {call : Bytes × H}
    (hcall : call ∈ calls) {path : Bytes} {bindings : List Param}
    (hmatches : Matches call.1 path bindings) :
    (calls.map Prod.fst).Nodup ∧
      (∃! route, route ∈ calls.map Prod.fst ∧ ∃ bindings', Matches route path bindings') ∧
        ∀ params, n.locate path params = (.found (some call.2), params ++ bindings) := by
  have hbuilt := built_of_addRoutes hslash hrun
  obtain ⟨tokens, bindings, hparse, hbinds, rfl⟩ := exists_of_matches hmatches
  have hhas := hbuilt.has.mpr ⟨call, hcall, hparse, rfl⟩
  refine ⟨?_, ⟨call.1, ⟨List.mem_map_of_mem hcall, _, hmatches⟩, ?_⟩, fun params => ?_⟩
  · have hnodup := (Trie.insertAll_nodup hbuilt.insertAll).2
    rw [List.map_map] at hnodup
    refine List.Nodup.of_map (fun route => (parse route).getD []) ?_
    rwa [List.map_map]
  · rintro route ⟨hroute, bindings', hmatches'⟩
    obtain ⟨call', hcall', rfl⟩ := List.mem_map.mp hroute
    obtain ⟨tokens', bindings', hparse', hbinds', rfl⟩ := exists_of_matches hmatches'
    have hhas' := hbuilt.has.mpr ⟨call', hcall', hparse', rfl⟩
    obtain rfl := Trie.binds_unique hhas' hhas hbinds' hbinds
    exact parse_injective hparse' hparse
  · have hlookup := Trie.lookup_of_binds hhas hbinds
    have hread : ¬ n.Misreads path := by
      intro hmisreads
      have hnone := hmisreads.lookup_eq_none hbuilt.root.shape
      rw [hlookup] at hnone
      exact nomatch hnone
    rw [hbuilt.root.shape.agrees hbuilt.root.type_ne_param (absurd · hbuilt.root.type_ne_catchAll)
      hread params, hlookup]
    rfl

/-- The route behind the split, found with its parameter. -/
theorem locate_of_matches_split :
    ∃ n, (empty : Node ℕ).addRoutes (splitRoutes.map registration) = some n ∧
      ∀ params, n.locate (ascii "/ac/17") params =
        (.found (some 2), params ++ [⟨ascii "x", ascii "17"⟩]) := by
  have hmatches : Matches (ascii "/ac/:x") (ascii "/ac/17") [⟨ascii "x", ascii "17"⟩] := by
    have hparam : Matches (colon :: ascii "x") (ascii "17") [⟨ascii "x", ascii "17"⟩] :=
      .paramEnd (by decide +kernel) (by decide +kernel) (by decide +kernel)
    have hroute : ascii "/ac/:x" = slash :: 97 :: 99 :: slash :: colon :: ascii "x" := by decide
    have hpath : ascii "/ac/17" = slash :: 97 :: 99 :: slash :: ascii "17" := by decide
    rw [hroute, hpath]
    exact .lit startsWildcard_slash (.lit (by decide) (.lit (by decide)
      (.lit startsWildcard_slash hparam)))
  obtain ⟨n, hrun⟩ := Option.isSome_iff_exists.mp (show ((empty : Node ℕ).addRoutes
    (splitRoutes.map registration)).isSome = true by decide +kernel)
  have hcall : (ascii "/ac/:x", 2) ∈ splitRoutes := List.mem_cons_of_mem _ List.mem_cons_self
  exact ⟨n, hrun, (locate_of_matches splitRoutes_head hrun hcall hmatches).2.2⟩

end Node

end Eureka.Router

import Eureka.Router.Attempt

/-!
# Sequences of `add_route` calls

`Adds` is `add_route` as a relation, and `Root` the invariant of the node that holds a
whole tree.  A call succeeds exactly if its route has tokens and these can be inserted
into the trie of the tree (`Root.addRoute_eq_ok`), and then it inserts them; so a run of
successful calls inserts the patterns of its routes one after the other
(`Root.addRoutes_insertAll`).
-/

namespace Eureka.Router

open PatternTrie

namespace Node

variable {H : Type}

/-! ## The node that holds a tree -/

/-- A node that may hold a whole tree. -/
structure Top (n : Node H) : Prop where
  shape : n.Shape
  type_eq : n.type = .plain ∨ n.type = .root

/-- The node that holds a whole tree of routes that start with `'/'`. -/
structure Root (n : Node H) : Prop extends Top n where
  starts : n.path.head? = some slash ∨
    n.path = [] ∧ n.handler = none ∧ n.hasWildChild = false ∧ ∀ c ∈ n.indices, c = slash

/-- No route was put into the tree: `path_.empty() && indices_.empty()`. -/
def Blank (n : Node H) : Prop := n.path = [] ∧ n.indices = []

theorem root_empty : Root (empty : Node H) where
  shape := .leaf (.inl rfl) (fun _ h => absurd h List.not_mem_nil) rfl rfl rfl
  type_eq := .inl rfl
  starts := .inr ⟨rfl, rfl, rfl, fun _ h => absurd h List.not_mem_nil⟩

theorem Top.bump {n : Node H} (htop : n.Top) : n.bump.Top :=
  ⟨htop.shape.bump, htop.type_eq⟩

theorem Root.bump {n : Node H} (hroot : n.Root) : n.bump.Root :=
  ⟨hroot.toTop.bump, hroot.starts⟩

theorem Top.type_ne_param {n : Node H} (htop : n.Top) : n.type ≠ .param := by
  rcases htop.type_eq with h | h <;> rw [h] <;> exact nofun

theorem Top.type_ne_catchAll {n : Node H} (htop : n.Top) : n.type ≠ .catchAll := by
  rcases htop.type_eq with h | h <;> rw [h] <;> exact nofun

theorem Top.enters {n : Node H} (htop : n.Top) (path : Bytes) : n.Enters path :=
  ⟨fun h => absurd h htop.type_ne_param, fun h => absurd h htop.type_ne_catchAll⟩

theorem Root.unused_of_blank {n : Node H} (hroot : n.Root) (hblank : n.Blank) : n.Unused := by
  obtain ⟨hpath, hindices⟩ := hblank
  rcases hroot.starts with hhead | ⟨-, hhandler, hwild, -⟩
  · rw [hpath] at hhead
    exact nomatch hhead
  · have hlength := hroot.shape.length_indices hwild (absurd · hroot.type_ne_param)
    rw [hindices, List.length_nil, eq_comm, List.length_eq_zero_iff] at hlength
    exact ⟨hpath, hindices, hlength, hhandler, hwild, hroot.type_ne_param⟩

/-! ## `add_route` -/

def asRoot (n : Node H) : Node H := { n with type := .root }

theorem Shape.asRoot {n : Node H} (hshape : n.Shape) (htype : n.type = .plain ∨ n.type = .root) :
    n.asRoot.Shape := by
  cases hshape with
  | leaf _ hpath hwild hindices hchildren => exact .leaf (.inr rfl) hpath hwild hindices hchildren
  | static _ hpath hwild hlength hchildren hnodup hindices hhangs hshape =>
      exact .static (.inr rfl) hpath hwild hlength hchildren hnodup hindices hhangs hshape
  | wild _ hpath hwild hindices hchildren hparam hshape =>
      exact .wild (.inr rfl) hpath hwild hindices hchildren hparam hshape
  | param h => rw [h] at htype; rcases htype with h | h <;> exact nomatch h
  | catchAll h => rw [h] at htype; rcases htype with h | h <;> exact nomatch h

theorem core_asRoot {n : Node H} (htype : n.type ≠ .param) : n.asRoot.core = n.core :=
  core_congr rfl rfl (iff_of_false (show NodeType.root ≠ .param from nofun) htype) rfl rfl

/-- `add_route` turns the first tree into the second one. -/
inductive Adds (handler : Option H) : Node H → Bytes → Node H → Verdict → Prop
  | first {n path n'} (hblank : n.Blank) (hfills : Fills handler n.bump path n' .accepted) :
      Adds handler n path n'.asRoot .accepted
  | firstFails {n path n' verdict} (hblank : n.Blank) (hverdict : verdict ≠ .accepted)
      (hfills : Fills handler n.bump path n' verdict) : Adds handler n path n' verdict
  | later {n path m rem n' verdict} (hblank : ¬ n.Blank) (hsplits : Splits n.bump path m rem)
      (hcontinues : Continues handler m rem n' verdict) : Adds handler n path n' verdict

theorem Outcome.verdict_eq_accepted {outcome : Outcome} :
    outcome.verdict = .accepted ↔ outcome = .ok := by
  cases outcome <;> simp [Outcome.verdict]

theorem addRoute_of_blank {n : Node H} (hblank : n.Blank) (path : Bytes) (handler : Option H) :
    n.addRoute path handler =
      match insertPath (path.length + 1) n.bump path path unknownWildcard handler with
      | (n, .ok) => (n.asRoot, .ok)
      | (n, outcome) => (n, outcome) := by
  have hempty : (n.bump.path.isEmpty && n.bump.indices.isEmpty) = true := by
    rw [Bool.and_eq_true, List.isEmpty_iff, List.isEmpty_iff]
    exact hblank
  exact if_pos hempty

/-- **`add_route` does what `Adds` says.** -/
theorem addRoute_adds {n : Node H} (htop : n.Top) (path : Bytes) (handler : Option H) :
    Adds handler n path (n.addRoute path handler).1 (n.addRoute path handler).2.verdict := by
  by_cases hblank : n.Blank
  · have hfills := insertPath_fills path handler n.bump (Nat.lt_succ_self path.length)
    rw [addRoute_of_blank hblank]
    generalize insertPath (path.length + 1) n.bump path path unknownWildcard handler = result
      at hfills
    obtain ⟨n', outcome⟩ := result
    cases outcome with
    | ok => exact .first hblank hfills
    | invalidArgument error => exact .firstFails hblank nofun hfills
    | fault fault => exact .firstFails hblank nofun hfills
  · have hne : ¬ (n.bump.path.isEmpty && n.bump.indices.isEmpty) = true := by
      rw [Bool.and_eq_true, List.isEmpty_iff, List.isEmpty_iff]
      exact hblank
    have hrun : n.addRoute path handler = insertRoute n.height n.bump path path handler := by
      rw [← height_bump]
      exact if_neg hne
    rw [hrun]
    obtain ⟨m, rem, hsplits, hcontinues⟩ := insertRoute_continues path handler htop.shape.bump
      (height_bump n).le (htop.bump.enters path)
    exact .later hblank hsplits hcontinues

theorem Adds.root {handler : Option H} {n n' : Node H} {path : Bytes} {verdict : Verdict}
    (hadds : Adds handler n path n' verdict) (hroot : n.Root) (hpath : path.head? = some slash) :
    n'.Root := by
  obtain ⟨rest, rfl⟩ := List.head?_eq_some_iff.mp hpath
  have hfilled : ∀ {n' : Node H} {verdict}, n.Blank →
      Fills handler n.bump (slash :: rest) n' verdict → n'.Root := by
    intro n' verdict hblank hfills
    obtain ⟨hshape, htype⟩ := hfills.shape hroot.shape.bump hroot.type_eq
    have hunused : n.bump.Unused := hroot.bump.unused_of_blank hblank
    refine ⟨⟨hshape, htype ▸ hroot.type_eq⟩, ?_⟩
    refine (hfills.starts startsWildcard_slash hunused.path_eq hunused.indices_eq).imp_right ?_
    rintro ⟨hpath, hhandler, hwild, hindices⟩
    exact ⟨hpath, hhandler.trans hunused.handler_eq, hwild.trans hunused.wild, hindices⟩
  cases hadds with
  | first hblank hfills =>
      have hroot' := hfilled hblank hfills
      exact ⟨⟨hroot'.shape.asRoot hroot'.type_eq, .inr rfl⟩, hroot'.starts⟩
  | firstFails hblank _ hfills => exact hfilled hblank hfills
  | later hblank hsplits hcontinues =>
      have hshape := hsplits.shape hroot.shape.bump (hroot.bump.enters _)
      have hreaches := hsplits.reaches hroot.shape.bump (hroot.bump.enters _)
      refine ⟨⟨hcontinues.shape hshape hreaches, ?_⟩, ?_⟩
      · rw [hcontinues.type_eq, hsplits.type_eq]
        exact hroot.type_eq
      · rcases hroot.starts with hhead | ⟨hnil, hhandler, hwild, hindices⟩
        · left
          rw [hcontinues.path_eq]
          exact hsplits.head?_path hhead
        · have hstarts : n.bump.path = [] ∧ ∀ c ∈ n.bump.indices, c = slash := ⟨hnil, hindices⟩
          refine (hcontinues.starts startsWildcard_slash (.inr hstarts) hsplits).imp_right ?_
          rintro ⟨hpath, hhandler', hwild', hindices'⟩
          exact ⟨hpath, hhandler'.trans hhandler, hwild'.trans hwild, hindices'⟩

/-! ## `add_route` and the trie -/

theorem Continues.indices_ne_nil {handler : Option H} {m n' : Node H} {rem : Bytes}
    {verdict : Verdict} (hcontinues : Continues handler m rem n' verdict) (hshape : m.Shape)
    (hindices : m.indices ≠ []) : n'.indices ≠ [] := by
  have hlength : ∀ {indices : Bytes} {children : List (Node H)},
      indices.length = children.length → children ≠ [] → indices ≠ [] := by
    rintro indices children hlength hne rfl
    exact hne (List.length_eq_zero_iff.mp hlength.symm)
  cases hcontinues with
  | registered | fill | wildConflict | wildDescend | paramDescend => exact hindices
  | indexDescend _ _ _ _ _ hlength' hperm => exact hlength hlength' (ne_nil_of_perm_append hperm)
  | push _ _ _ _ _ hlength' hperm => exact hlength hlength' (ne_nil_of_perm_append hperm)
  | special hwild htype _ hc hfills =>
      have hchildren : m.children ≠ [] := by
        intro hnil
        have hlength' := hshape.length_indices hwild (absurd · htype)
        rw [hnil, List.length_nil, List.length_eq_zero_iff] at hlength'
        exact hindices hlength'
      rw [(hfills.eq_of_occupied hchildren hc).1]
      exact hindices

theorem Top.indices_ne_nil {n : Node H} (htop : n.Top) (hblank : ¬ n.Blank) (hpath : n.path = []) :
    n.indices ≠ [] ∧ n.children ≠ [] := by
  have hindices : n.indices ≠ [] := fun h => hblank ⟨hpath, h⟩
  refine ⟨hindices, fun hchildren => hindices ?_⟩
  exact (htop.shape.leaf_of_children htop.type_eq hchildren).2.2

theorem Adds.not_blank {handler : Option H} {n n' : Node H} {path : Bytes} {verdict : Verdict}
    (hadds : Adds handler n path n' verdict) (htop : n.Top) (hblank : ¬ n.Blank) :
    n'.Top ∧ ¬ n'.Blank := by
  cases hadds with
  | first h | firstFails h => exact absurd h hblank
  | later _ hsplits hcontinues =>
      have henters := htop.bump.enters path
      have hshape := hsplits.shape htop.bump.shape henters
      refine ⟨⟨hcontinues.shape hshape (hsplits.reaches htop.bump.shape henters), ?_⟩, ?_⟩
      · rw [hcontinues.type_eq, hsplits.type_eq]
        exact htop.type_eq
      · rintro ⟨hpath, hindices⟩
        rw [hcontinues.path_eq] at hpath
        refine hcontinues.indices_ne_nil hshape ?_ hindices
        cases hsplits with
        | whole => exact (htop.indices_ne_nil hblank hpath).1
        | part hpath' =>
            rw [splitAt_eq hpath']
            exact List.cons_ne_nil _ _

/-- **What a call does to a tree** is determined by the trie of the tree. -/
theorem Adds.eq_attempt {handler : Option H} {n n' : Node H} {path : Bytes} {verdict : Verdict}
    (hadds : Adds handler n path n' verdict) (htop : n.Top) (hblank : ¬ n.Blank) :
    attempt handler n.flatten false path = (n'.flatten, verdict) := by
  cases hadds with
  | first h | firstFails h => exact absurd h hblank
  | @later m rem _ _ _ hsplits hcontinues =>
      have henters := htop.bump.enters path
      obtain ⟨hsplit, hflatten⟩ := hsplits.flatten_eq henters
      have hshape := hsplits.shape htop.bump.shape henters
      have htype := hsplits.type_eq ▸ htop.bump.type_ne_param
      have hheeds : m.Heeds rem (endsInSlash false m.path) := by
        intro hchildren _
        refine endsInSlash_iff (fun hpath => ?_) false
        cases hsplits with
        | whole => exact (htop.indices_ne_nil hblank hpath).2 hchildren
        | part hpath' =>
            rw [splitAt_eq hpath'] at hchildren
            exact nomatch hchildren
      rw [← flatten_bump, ← hflatten, hsplit, flatten,
        attempt_chain (hshape.literal_of_ne_param htype), hcontinues.eq_attempt hshape
          (hsplits.reaches htop.bump.shape henters) hheeds, flatten, hcontinues.path_eq]

theorem flatten_of_blank {n : Node H} (hroot : n.Root) (hblank : n.Blank) :
    n.flatten = .leaf none := by
  have hunused := hroot.unused_of_blank hblank
  rw [flatten, hunused.path_eq,
    core_of_leaf hunused.wild hunused.children_eq hunused.type_ne, hunused.handler_eq]
  rfl

theorem insert_leaf_none {v : H} {path : Bytes} {tokens : List (Token Byte)}
    (hpath : path.head? = some slash) (hparse : parse path = some tokens) :
    (Trie.leaf none : Trie Byte H).insert tokens v =
      (Trie.absent : Trie Byte H).insert tokens v := by
  obtain ⟨tokens', rfl⟩ := tokens_of_head startsWildcard_slash hpath hparse
  rfl

/-- **`add_route` is an insertion** into the trie of the tree, if it succeeds. -/
theorem Adds.inserts {v : H} {n n' : Node H} {path : Bytes} {verdict : Verdict}
    (hadds : Adds (some v) n path n' verdict) (hroot : n.Root) (hpath : path.head? = some slash) :
    Inserts (n'.flatten, verdict) (parse path) (n.flatten.insert · v) := by
  by_cases hblank : n.Blank
  · have hunused : n.bump.Unused := hroot.bump.unused_of_blank hblank
    have hstarts := startsLiteral_of_head? hpath startsWildcard_slash
    have hinto : ∀ {filled : Node H}, Fills (some v) n.bump path filled verdict →
        Inserts (filled.flatten, verdict) (parse path) (n.flatten.insert · v) := by
      intro filled hfills t
      refine (hfills.inserts hunused hstarts false t).trans ?_
      refine exists_congr fun tokens => and_congr_right fun hparse => ?_
      rw [flatten_of_blank hroot hblank]
      exact iff_of_eq (congrArg (· = some t) (insert_leaf_none hpath hparse).symm)
    cases hadds with
    | @first filled _ hfills =>
        have htype : filled.type ≠ .param := by
          rw [hfills.type_eq]
          exact hroot.type_ne_param
        have hflatten : filled.asRoot.flatten = filled.flatten :=
          congrArg (Trie.chain filled.path) (core_asRoot htype)
        rw [hflatten]
        exact hinto hfills
    | firstFails _ _ hfills => exact hinto hfills
    | later h => exact absurd hblank h
  · have hinserts := (hroot.shape.named.chain n.path).inserts_attempt v false path
    rwa [show attempt (some v) (Trie.chain n.path n.core) false path = (n'.flatten, verdict) from
      hadds.eq_attempt hroot.toTop hblank] at hinserts

theorem Adds.insert {v : H} {n n' : Node H} {path : Bytes} {outcome : Outcome}
    (hadds : Adds (some v) n path n' outcome.verdict) (hok : outcome = .ok) (hroot : n.Root)
    (hpath : path.head? = some slash) :
    ∃ tokens, parse path = some tokens ∧ n.flatten.insert tokens v = some n'.flatten :=
  (hadds.inserts hroot hpath _).mp (Prod.ext rfl (Outcome.verdict_eq_accepted.mpr hok))

/-- **When `add_route` succeeds.** -/
theorem Root.addRoute_eq_ok {n : Node H} (hroot : n.Root) {path : Bytes}
    (hpath : path.head? = some slash) (v : H) :
    (n.addRoute path (some v)).2 = .ok ↔
      ∃ tokens t, parse path = some tokens ∧ n.flatten.insert tokens v = some t := by
  have hadds := addRoute_adds hroot.toTop path (some v)
  constructor
  · intro hok
    obtain ⟨tokens, hparse, hinsert⟩ := hadds.insert hok hroot hpath
    exact ⟨tokens, _, hparse, hinsert⟩
  · rintro ⟨tokens, t, hparse, hinsert⟩
    have haccepted := (hadds.inserts hroot hpath t).mpr ⟨tokens, hparse, hinsert⟩
    exact Outcome.verdict_eq_accepted.mp (Prod.mk.inj haccepted).2

/-! ## Runs of successful calls -/

/-- The call of `add_route` for a route with its handler. -/
def registration (call : Bytes × H) : Bytes × Option H := (call.1, some call.2)

/-- The route as a pattern, for a route that has tokens. -/
def pattern (call : Bytes × H) : List (Token Byte) × H := ((parse call.1).getD [], call.2)

theorem addRoutes_cons_eq_some {n n' : Node H} {path : Bytes} {handler : Option H}
    {calls : List (Bytes × Option H)} :
    n.addRoutes ((path, handler) :: calls) = some n' ↔
      (n.addRoute path handler).2 = .ok ∧
        (n.addRoute path handler).1.addRoutes calls = some n' := by
  rw [addRoutes]
  rcases n.addRoute path handler with ⟨mid, _ | error | fault⟩
  · exact (and_iff_right rfl).symm
  · exact iff_of_false nofun fun h => nomatch h.1
  · exact iff_of_false nofun fun h => nomatch h.1

/-- **A run of successful calls** inserts the patterns of its routes. -/
theorem Root.addRoutes_insertAll {n n' : Node H} {calls : List (Bytes × H)} (hroot : n.Root)
    (hslash : ∀ call ∈ calls, call.1.head? = some slash)
    (hrun : n.addRoutes (calls.map registration) = some n') :
    n'.Root ∧ (∀ call ∈ calls, ∃ tokens, parse call.1 = some tokens) ∧
      n.flatten.insertAll (calls.map pattern) = some n'.flatten := by
  induction calls generalizing n with
  | nil =>
      obtain rfl := Option.some.inj hrun
      exact ⟨hroot, fun _ h => absurd h List.not_mem_nil, rfl⟩
  | cons call calls ih =>
      rw [List.forall_mem_cons] at hslash
      obtain ⟨hok, hrun⟩ := addRoutes_cons_eq_some.mp hrun
      have hadds := addRoute_adds hroot.toTop call.1 (some call.2)
      obtain ⟨tokens, hparse, hinsert⟩ :=
        hadds.insert hok hroot hslash.1
      obtain ⟨hroot', hparses, hinserts⟩ := ih (hadds.root hroot hslash.1) hslash.2 hrun
      refine ⟨hroot', List.forall_mem_cons.mpr ⟨⟨tokens, hparse⟩, hparses⟩, ?_⟩
      refine Trie.insertAll_cons_eq_some.mpr ⟨_, ?_, hinserts⟩
      rw [hparse]
      exact hinsert

/-- **Routes whose patterns can be inserted** one after the other are accepted. -/
theorem Root.addRoutes_of_insertAll {n : Node H} {calls : List (Bytes × H)} (hroot : n.Root)
    (hslash : ∀ call ∈ calls, call.1.head? = some slash)
    (hparses : ∀ call ∈ calls, ∃ tokens, parse call.1 = some tokens) {t : Trie Byte H}
    (hinserts : n.flatten.insertAll (calls.map pattern) = some t) :
    ∃ n', n.addRoutes (calls.map registration) = some n' := by
  induction calls generalizing n with
  | nil => exact ⟨n, rfl⟩
  | cons call calls ih =>
      rw [List.forall_mem_cons] at hslash hparses
      obtain ⟨tokens, hparse⟩ := hparses.1
      obtain ⟨mid, hinsert, hinserts⟩ := Trie.insertAll_cons_eq_some.mp hinserts
      rw [hparse] at hinsert
      have hok := (hroot.addRoute_eq_ok hslash.1 call.2).mpr ⟨tokens, mid, hparse, hinsert⟩
      have hadds := addRoute_adds hroot.toTop call.1 (some call.2)
      obtain ⟨tokens', hparse', hinsert'⟩ :=
        hadds.insert hok hroot hslash.1
      obtain rfl := Option.some.inj (hparse.symm.trans hparse')
      obtain rfl := Option.some.inj (hinsert.symm.trans hinsert')
      obtain ⟨n', hrun⟩ := ih (hadds.root hroot hslash.1) hslash.2 hparses.2 hinserts
      exact ⟨n', addRoutes_cons_eq_some.mpr ⟨hok, hrun⟩⟩

end Node

end Eureka.Router

import Eureka.Router.Shape

/-!
# What an insertion does

The insertion of a route as relations without fuel and without positions: `Splits` is the
split of a node at the common prefix, `Fills` is `insert_path`, and `Continues` is the
part of `insert_route` behind the split.  `insertRoute_continues` and `insertPath_fills`
connect them to the code; all later facts about insertions are inductions on these
relations.
-/

namespace Eureka.Router

/-- How a call of `add_route` ends, without the reason. -/
inductive Verdict
  | accepted
  | rejected
  | aborted
deriving DecidableEq, Repr

/-- A call that runs into a failing assertion does not come back. -/
def Outcome.verdict : Outcome → Verdict
  | .ok => .accepted
  | .invalidArgument _ => .rejected
  | .fault _ => .aborted

namespace Node

variable {H : Type}

/-! ## The split -/

/-- The node `m` that stands at the end of the common prefix of `path` and the path of
`n`, and the rest of `path`. -/
inductive Splits (n : Node H) : Bytes → Node H → Bytes → Prop
  | whole {rem} : Splits n (n.path ++ rem) n rem
  | part {shared tail rem a} (hpath : n.path = shared ++ a :: tail) (hrem : rem.head? ≠ some a) :
      Splits n (shared ++ rem) (n.splitAt shared.length) rem

theorem longestCommonPrefix_spec (s t : Bytes) :
    ∃ shared s' t', s = shared ++ s' ∧ t = shared ++ t' ∧
      longestCommonPrefix s t = shared.length ∧ (t' = [] ∨ s'.head? ≠ t'.head?) := by
  induction s generalizing t with
  | nil =>
      cases t with
      | nil => exact ⟨[], [], [], rfl, rfl, rfl, .inl rfl⟩
      | cons b t => exact ⟨[], [], b :: t, rfl, rfl, rfl, .inr nofun⟩
  | cons a s ih =>
      cases t with
      | nil => exact ⟨[], a :: s, [], rfl, rfl, rfl, .inl rfl⟩
      | cons b t =>
          rw [longestCommonPrefix]
          split_ifs with hsame
          · obtain ⟨shared, s', t', rfl, rfl, hlength, hheads⟩ := ih t
            exact ⟨a :: shared, s', t', rfl, by rw [hsame]; rfl, by rw [hlength]; rfl, hheads⟩
          · refine ⟨[], a :: s, b :: t, rfl, rfl, rfl, .inr ?_⟩
            exact fun heq => hsame (Option.some.inj heq)

theorem splits_longestCommonPrefix (n : Node H) (path : Bytes) :
    Splits n path
      (if longestCommonPrefix path n.path < n.path.length then
        n.splitAt (longestCommonPrefix path n.path) else n)
      (path.drop (longestCommonPrefix path n.path)) := by
  obtain ⟨shared, rem, tail, hpath, hn, hlength, hheads⟩ := longestCommonPrefix_spec path n.path
  have hdrop : path.drop (longestCommonPrefix path n.path) = rem := by
    rw [hlength, hpath, List.drop_left]
  have hshort : longestCommonPrefix path n.path < n.path.length ↔ tail ≠ [] := by
    rw [hlength, hn, List.length_append, ← List.length_pos_iff]
    omega
  rw [hdrop]
  cases tail with
  | nil =>
      rw [if_neg (hshort.not.mpr (not_not.mpr rfl)), hpath]
      rw [List.append_nil] at hn
      rw [← hn]
      exact .whole
  | cons a tail =>
      rw [if_pos (hshort.mpr (List.cons_ne_nil _ _)), hlength]
      nth_rewrite 1 [hpath]
      exact .part hn (hheads.resolve_left (List.cons_ne_nil _ _))

theorem splitAt_eq {n : Node H} {shared tail : Bytes} {a : Byte}
    (hpath : n.path = shared ++ a :: tail) :
    n.splitAt shared.length =
      { n with path := shared, indices := [a], hasWildChild := false, handler := none,
               children := [{ n with path := a :: tail, type := .plain,
                                     priority := n.priority - 1 }] } := by
  rw [splitAt, hpath, List.take_left, List.drop_left]
  rfl

/-! ## `insert_path` -/

def paramNode (name : Bytes) (handler : Option H) (children : List (Node H)) : Node H :=
  { (empty : Node H) with priority := 1, type := .param, path := colon :: name,
                          handler := handler, children := children }

def catchAllNode (name : Bytes) (handler : Option H) : Node H :=
  { (empty : Node H) with
    hasWildChild := true, type := .catchAll, priority := 1,
    children := [{ (empty : Node H) with path := slash :: star :: name, type := .catchAll,
                                         priority := 1, handler := handler }] }

/-- The node with a parameter below it. -/
def withParam (n : Node H) (plain : Bytes) (child : Node H) : Node H :=
  { n with path := if plain.isEmpty then n.path else plain, hasWildChild := true,
           children := [child] }

/-- `insert_path` turns the first node into the second one. -/
inductive Fills (handler : Option H) : Node H → Bytes → Node H → Verdict → Prop
  | plain {n path} (hscan : scan path = .plain) :
      Fills handler n path { n with path := path, handler := handler } .accepted
  | invalid {n path} (hscan : scan path = .invalid) : Fills handler n path n .rejected
  | occupied {n path} (hscan : scan path ≠ .plain) (hchildren : n.children ≠ []) :
      Fills handler n path n .rejected
  | paramEnd {n path plain name} (hscan : scan path = .param plain name [])
      (hchildren : n.children = []) :
      Fills handler n path (n.withParam plain (paramNode name handler [])) .accepted
  | param {n path plain name rest child verdict} (hscan : scan path = .param plain name rest)
      (hchildren : n.children = []) (hrest : rest ≠ [])
      (hfills : Fills handler { empty with priority := 1 } rest child verdict) :
      Fills handler n path (n.withParam plain (paramNode name none [child])) verdict
  | catchAllRejected {n path plain name rest} (hscan : scan path = .catchAll plain name rest)
      (hchildren : n.children = [])
      (hwhy : rest ≠ [] ∨ n.path.getLast? = some slash ∨
        plain ≠ [] ∧ plain.getLast? ≠ some slash) :
      Fills handler n path n .rejected
  | catchAllAborted {n path name} (hscan : scan path = .catchAll [] name [])
      (hchildren : n.children = []) (hlast : n.path.getLast? ≠ some slash) :
      Fills handler n path n .aborted
  | catchAll {n path plain name} (hscan : scan path = .catchAll (plain ++ [slash]) name [])
      (hchildren : n.children = []) (hlast : n.path.getLast? ≠ some slash) :
      Fills handler n path
        { n with path := plain, indices := [slash], children := [catchAllNode name handler] }
        .accepted

theorem insertCatchAll_fills (fullPath : Bytes) {handler : Option H} {n : Node H}
    {plain name rest : Bytes}
    (hscan : scan (plain ++ star :: (name ++ rest)) = .catchAll plain name rest)
    (hchildren : n.children = []) :
    Fills handler n (plain ++ star :: (name ++ rest))
      (n.insertCatchAll (plain ++ star :: (name ++ rest)) fullPath (star :: name)
        plain.length handler).1
      (n.insertCatchAll (plain ++ star :: (name ++ rest)) fullPath (star :: name)
        plain.length handler).2.verdict := by
  have hlength : plain.length + (star :: name).length = (plain ++ star :: (name ++ rest)).length ↔
      rest = [] := by
    rw [← List.length_eq_zero_iff]
    simp only [List.length_cons, List.length_append]
    omega
  unfold insertCatchAll
  by_cases hrest : rest = []
  · rw [if_neg (not_not.mpr (hlength.mpr hrest))]
    subst hrest
    split_ifs with hlast
    · exact .catchAllRejected hscan hchildren (.inr (.inl hlast))
    · rcases List.eq_nil_or_concat plain with rfl | ⟨plain, c, rfl⟩
      · exact .catchAllAborted hscan hchildren hlast
      · rw [List.concat_eq_append, List.length_append, List.length_singleton, List.append_assoc]
        dsimp only
        rw [List.getElem?_append_right le_rfl, Nat.sub_self, List.take_left, List.drop_left]
        rw [List.concat_eq_append] at hscan
        have hconcat : plain ++ ([c] ++ star :: (name ++ [])) =
            (plain ++ [c]) ++ star :: (name ++ []) := (List.append_assoc _ _ _).symm
        split_ifs with hslash
        · refine hconcat ▸ .catchAllRejected hscan hchildren (.inr (.inr ⟨?_, ?_⟩))
          · exact List.append_ne_nil_of_right_ne_nil _ (List.cons_ne_nil _ _)
          · rw [List.getLast?_concat]
            exact hslash
        · obtain rfl : c = slash := Option.some.inj (not_not.mp hslash)
          rw [hchildren, List.append_nil]
          rw [List.append_nil] at hconcat hscan
          exact hconcat ▸ .catchAll hscan hchildren hlast
  · rw [if_pos (hlength.not.mpr hrest)]
    exact .catchAllRejected hscan hchildren (.inl hrest)

theorem insertPath_fills (fullPath : Bytes) (handler : Option H) {fuel : ℕ} (n : Node H)
    {path : Bytes} (hfuel : path.length < fuel) :
    Fills handler n path (insertPath fuel n path fullPath unknownWildcard handler).1
      (insertPath fuel n path fullPath unknownWildcard handler).2.verdict := by
  induction fuel generalizing n path with
  | zero => exact absurd hfuel (Nat.not_lt_zero _)
  | succ fuel ih =>
      have hfind := findWildcard_eq path
      have hunknown : unknownWildcard.found = false := rfl
      rw [insertPath, if_neg (by rw [hunknown]; exact Bool.false_ne_true), hunknown]
      cases hscan : scan path with
      | plain =>
          rw [hscan] at hfind
          rw [hfind]
          exact .plain hscan
      | invalid =>
          rw [hscan] at hfind
          obtain ⟨pos, hpos⟩ := Option.isSome_iff_exists.mp hfind.1
          dsimp only
          rw [hpos, hfind.2]
          exact .invalid hscan
      | param plain name rest =>
          rw [hscan] at hfind
          obtain ⟨rfl, -, hname, -⟩ := eq_of_scan_param hscan
          have hvalid : (⟨colon :: name, some plain.length⟩ : WildcardResult).validName = true :=
            decide_eq_true (Nat.succ_lt_succ (List.length_pos_of_ne_nil hname.1))
          have htake : (plain ++ colon :: (name ++ rest)).take plain.length = plain :=
            List.take_left
          have hdrop : (plain ++ colon :: (name ++ rest)).drop plain.length =
              colon :: (name ++ rest) := List.drop_left
          rw [hfind]
          dsimp only
          rw [hvalid, htake, hdrop]
          by_cases hchildren : n.children = []
          · have hlength : (colon :: (name ++ rest)).length = (colon :: name).length ↔
                rest = [] := by
              rw [← List.length_eq_zero_iff]
              simp only [List.length_cons, List.length_append]
              omega
            rw [if_neg (by decide), if_neg (by rw [hchildren]; exact Bool.false_ne_true),
              List.head?_cons, if_pos rfl, hchildren]
            by_cases hrest : rest = []
            · rw [if_pos (hlength.mpr hrest)]
              rw [hrest] at hscan ⊢
              exact .paramEnd hscan hchildren
            · rw [if_neg (hlength.not.mpr hrest), ← List.cons_append, List.drop_left]
              refine .param hscan hchildren hrest (ih _ ?_)
              simp only [List.length_append, List.length_cons] at hfuel
              omega
          · rw [if_neg (by decide), if_pos (by simpa using hchildren)]
            exact .occupied (by rw [hscan]; exact nofun) hchildren
      | catchAll plain name rest =>
          rw [hscan] at hfind
          obtain ⟨rfl, -, hname, -⟩ := eq_of_scan_catchAll hscan
          have hvalid : (⟨star :: name, some plain.length⟩ : WildcardResult).validName = true :=
            decide_eq_true (Nat.succ_lt_succ (List.length_pos_of_ne_nil hname.1))
          rw [hfind]
          dsimp only
          rw [hvalid]
          by_cases hchildren : n.children = []
          · rw [if_neg (by decide), if_neg (by rw [hchildren]; exact Bool.false_ne_true),
              if_neg (by rw [List.head?_cons, Option.some.injEq]; exact colon_ne_star.symm)]
            exact insertCatchAll_fills fullPath hscan hchildren
          · rw [if_neg (by decide), if_pos (by simpa using hchildren)]
            exact .occupied (by rw [hscan]; exact nofun) hchildren

/-! ## `insert_route` behind the split -/

/-- The condition of `insert_route` to go on in the wild child. -/
def Follows (child : Node H) (path : Bytes) : Prop :=
  child.path <+: path ∧ child.type ≠ .catchAll ∧
    (child.path.length = path.length ∨ path[child.path.length]? = some slash)

instance (child : Node H) (path : Bytes) : Decidable (child.Follows path) :=
  inferInstanceAs (Decidable (_ ∧ _ ∧ _))

/-- The rest of `insert_route` turns the first node into the second one.  The children and
their index characters are known only up to their order. -/
inductive Continues (handler : Option H) : Node H → Bytes → Node H → Verdict → Prop
  | registered {n} (hhandler : n.handler.isSome) : Continues handler n [] n .rejected
  | fill {n} (hhandler : n.handler = none) :
      Continues handler n [] { n with handler := handler } .accepted
  | wildConflict {n front others path} (hpath : path ≠ []) (hwild : n.hasWildChild = true)
      (hchildren : n.children = front :: others) (hfollows : ¬ front.Follows path) :
      Continues handler n path { n with children := front.bump :: others } .rejected
  | wildDescend {n front others path m rem child verdict} (hpath : path ≠ [])
      (hwild : n.hasWildChild = true) (hchildren : n.children = front :: others)
      (hfollows : front.Follows path) (hsplits : Splits front.bump path m rem)
      (hcontinues : Continues handler m rem child verdict) :
      Continues handler n path { n with children := child :: others } verdict
  | paramDescend {n front path m rem child verdict} (hwild : n.hasWildChild = false)
      (htype : n.type = .param) (hpath : path.head? = some slash) (hchildren : n.children = [front])
      (hsplits : Splits front.bump path m rem)
      (hcontinues : Continues handler m rem child verdict) :
      Continues handler n path { n with children := [child] } verdict
  | indexDescend {n c rest front before after m rem child indices children verdict}
      (hwild : n.hasWildChild = false) (htype : n.type ≠ .param)
      (hedges : n.indices.zip n.children = before ++ (c, front) :: after)
      (hsplits : Splits front.bump (c :: rest) m rem)
      (hcontinues : Continues handler m rem child verdict)
      (hlength : indices.length = children.length)
      (hperm : (indices.zip children).Perm (before ++ (c, child) :: after)) :
      Continues handler n (c :: rest) { n with indices := indices, children := children } verdict
  | push {n c rest child indices children verdict} (hwild : n.hasWildChild = false)
      (hmiss : c ∉ n.indices) (hparam : n.type = .param → c = slash ∧ n.children = [])
      (hc : startsWildcard c = false)
      (hfills : Fills handler { empty with priority := 1 } (c :: rest) child verdict)
      (hlength : indices.length = children.length)
      (hperm : (indices.zip children).Perm (n.indices.zip n.children ++ [(c, child)])) :
      Continues handler n (c :: rest) { n with indices := indices, children := children } verdict
  | special {n c rest n' verdict} (hwild : n.hasWildChild = false) (htype : n.type ≠ .param)
      (hmiss : c ∉ n.indices) (hc : startsWildcard c = true)
      (hfills : Fills handler n (c :: rest) n' verdict) :
      Continues handler n (c :: rest) n' verdict

/-- A parameter is entered with its own name, and the nodes of a catch-all with the `'/'`
in front of it. -/
def Enters (n : Node H) (path : Bytes) : Prop :=
  (n.type = .param → n.Follows path) ∧ (n.type = .catchAll → path.head? = some slash)

/-- Behind a parameter the path ends or goes on with `'/'`. -/
def Reaches (n : Node H) (rem : Bytes) : Prop :=
  (n.type = .param → rem = [] ∨ rem.head? = some slash) ∧
    (n.type = .catchAll → rem.head? = some slash)

theorem Follows.bump {n : Node H} {path : Bytes} (hfollows : n.Follows path) :
    n.bump.Follows path :=
  hfollows

theorem Splits.eq_of_follows {n m : Node H} {path rem : Bytes} (hsplits : Splits n path m rem)
    (hfollows : n.Follows path) :
    m = n ∧ path = n.path ++ rem ∧ (rem = [] ∨ rem.head? = some slash) := by
  obtain ⟨⟨rem', hpre⟩, -, hend⟩ := hfollows
  cases hsplits with
  | whole =>
      refine ⟨rfl, rfl, ?_⟩
      rw [List.length_append, List.getElem?_append_right le_rfl, Nat.sub_self] at hend
      rcases hend with hlength | hslash
      · exact .inl (List.length_eq_zero_iff.mp (by omega))
      · exact .inr (by rw [List.head?_eq_getElem?]; exact hslash)
  | @part shared tail _ a hpath hrem =>
      rw [hpath, List.append_assoc] at hpre
      rw [← List.append_cancel_left hpre] at hrem
      exact absurd rfl hrem

theorem Splits.reaches {n m : Node H} {path rem : Bytes} (hsplits : Splits n path m rem)
    (hshape : n.Shape) (henters : n.Enters path) : m.Reaches rem := by
  constructor
  · intro hparam
    have htype : n.type = m.type := by cases hsplits <;> rfl
    exact (hsplits.eq_of_follows (henters.1 (htype.trans hparam))).2.2
  · intro hcatchAll
    have htype : n.type = .catchAll := by
      rw [← hcatchAll]
      cases hsplits <;> rfl
    have hpath : n.path = [] := by
      cases hshape with
      | catchAll _ hpath => exact hpath
      | leaf h | static h | wild h => rw [htype] at h; rcases h with h | h <;> exact nomatch h
      | param h => rw [htype] at h; exact nomatch h
    have hslash := henters.2 htype
    cases hsplits with
    | whole => rwa [hpath] at hslash
    | part hpath' => rw [hpath] at hpath'; simp at hpath'

theorem Shape.splitAt {n : Node H} {shared tail : Bytes} {a : Byte} (hshape : n.Shape)
    (hpath : n.path = shared ++ a :: tail) (htype : n.type ≠ .param) :
    (n.splitAt shared.length).Shape := by
  have hwhole : n.type = .plain ∨ n.type = .root → Literal n.path →
      Shape { n with path := a :: tail, type := .plain, priority := n.priority - 1 } →
      (n.splitAt shared.length).Shape := by
    intro htype hliteral hchild
    rw [hpath] at hliteral
    rw [splitAt_eq hpath]
    refine .static htype (fun c hc => hliteral c (List.mem_append_left _ hc)) rfl rfl
      (List.cons_ne_nil _ _) (List.nodup_singleton a) ?_ ?_ ?_
    · intro c hc
      obtain rfl := List.mem_singleton.mp hc
      exact hliteral c (List.mem_append_right _ List.mem_cons_self)
    · intro c child hmem
      obtain ⟨rfl, rfl⟩ := Prod.mk.inj (List.mem_singleton.mp hmem)
      exact ⟨.inl rfl, .inl rfl⟩
    · intro child hmem
      obtain rfl := List.mem_singleton.mp hmem
      exact hchild
  have hsuffix : Literal n.path → Literal (a :: tail) := by
    intro hliteral c hc
    exact hliteral c (hpath ▸ List.mem_append_right _ hc)
  cases hshape with
  | leaf htype hliteral hwild hindices hchildren =>
      exact hwhole htype hliteral (.leaf (.inl rfl) (hsuffix hliteral) hwild hindices hchildren)
  | static htype hliteral hwild hlength hchildren hnodup hindices hhangs hshape =>
      exact hwhole htype hliteral
        (.static (.inl rfl) (hsuffix hliteral) hwild hlength hchildren hnodup hindices hhangs hshape)
  | wild htype hliteral hwild hindices hchildren hparam hshape =>
      exact hwhole htype hliteral
        (.wild (.inl rfl) (hsuffix hliteral) hwild hindices hchildren hparam hshape)
  | param hparam => exact absurd hparam htype
  | catchAll _ hnil =>
      rw [hnil] at hpath
      exact absurd hpath.symm (List.append_ne_nil_of_right_ne_nil _ (List.cons_ne_nil _ _))

theorem Splits.shape {n m : Node H} {path rem : Bytes} (hsplits : Splits n path m rem)
    (hshape : n.Shape) (henters : n.Enters path) : m.Shape := by
  by_cases htype : n.type = .param
  · rw [(hsplits.eq_of_follows (henters.1 htype)).1]
    exact hshape
  · cases hsplits with
    | whole => exact hshape
    | part hpath => exact hshape.splitAt hpath htype

/-! ## The relation with the code -/

theorem height_lt_of_mem {child n : Node H} (hmem : child ∈ n.children) :
    child.height < n.height := by
  rw [height.eq_def n, Nat.lt_succ_iff]
  have hmax : ∀ heights : List ℕ, ∀ h ∈ heights, h ≤ heights.foldr max 0 := by
    intro heights
    induction heights with
    | nil => exact fun h hh => absurd hh List.not_mem_nil
    | cons first heights ih =>
        intro h hh
        rw [List.foldr_cons]
        rcases List.mem_cons.mp hh with rfl | hh
        · exact le_max_left _ _
        · exact (ih h hh).trans (le_max_right _ _)
  exact hmax _ _ (List.mem_map_of_mem hmem)

theorem height_bump (n : Node H) : n.bump.height = n.height := by
  rw [height.eq_def, height.eq_def n]
  rfl

theorem Shape.cases_of_wild {n : Node H} (hshape : n.Shape) (hwild : n.hasWildChild = true) :
    ∃ child, n.children = [child] ∧
      (child.type = .param ∧ child.Shape ∨ child.type = .catchAll ∧ n.type = .catchAll) := by
  cases hshape with
  | leaf _ _ hplain | static _ _ hplain | param _ _ _ hplain =>
      rw [hplain] at hwild
      exact absurd hwild Bool.false_ne_true
  | wild _ _ _ _ hchildren hparam hshape => exact ⟨_, hchildren, .inl ⟨hparam, hshape⟩⟩
  | catchAll htype _ _ _ _ hchildren hchild => exact ⟨_, hchildren, .inr ⟨hchild, htype⟩⟩

theorem Shape.of_follows {n front : Node H} {others : List (Node H)} {path : Bytes}
    (hshape : n.Shape) (hwild : n.hasWildChild = true) (hchildren : n.children = front :: others)
    (hfollows : front.Follows path) : others = [] ∧ front.type = .param ∧ front.Shape := by
  obtain ⟨front', hchildren', hfront⟩ := hshape.cases_of_wild hwild
  obtain ⟨rfl, rfl⟩ := List.cons.inj (hchildren.symm.trans hchildren')
  exact ⟨rfl, hfront.resolve_right fun h => hfollows.2.1 h.1⟩

theorem Follows.enters {n : Node H} {path : Bytes} (hfollows : n.Follows path) : n.Enters path :=
  ⟨fun _ => hfollows, fun h => absurd h hfollows.2.1⟩

/-- What a call on a child does, seen from its parent. -/
def Descends (handler : Option H) (recurse : Node H → Bytes → Node H × Outcome)
    (child : Node H) (path : Bytes) : Prop :=
  ∃ m rem, Splits child.bump path m rem ∧
    Continues handler m rem (recurse child.bump path).1 (recurse child.bump path).2.verdict

theorem indexRoute_continues (handler : Option H)
    (recurse : Node H → Bytes → Node H × Outcome) {n : Node H} {c : Byte} {rest : Bytes} {pos : ℕ}
    (hwild : n.hasWildChild = false) (htype : n.type ≠ .param)
    (hlength : n.indices.length = n.children.length) (hpos : n.indices.idxOf? c = some pos)
    (hrecurse : ∀ child, (c, child) ∈ n.edges → Descends handler recurse child (c :: rest)) :
    ∃ indices children newPos child, n.incrementChildPriority pos =
        .ok ({ n with indices := indices, children := children }, newPos) ∧
      children[newPos]? = some child ∧
      Continues handler n (c :: rest)
        { n with indices := indices, children := children.set newPos (recurse child (c :: rest)).1 }
        (recurse child (c :: rest)).2.verdict := by
  obtain ⟨hlt, hc, -⟩ := List.idxOf?_eq_some_iff.mp hpos
  have hlt' : pos < n.children.length := hlength ▸ hlt
  have hzip : pos < (n.indices.zip n.children).length := by
    rw [List.length_zip]
    exact lt_min hlt hlt'
  have hitem : (n.indices.zip n.children)[pos] = (c, n.children[pos]) := by
    rw [List.getElem_zip, hc]
  have hmem : (c, n.children[pos]) ∈ n.edges := by
    rw [edges_of_ne_param htype, ← hitem]
    exact List.getElem_mem hzip
  have hset : ∀ child, (n.indices.zip n.children).set pos (c, child) =
      (n.indices.zip n.children).take pos ++ (c, child) ::
        (n.indices.zip n.children).drop (pos + 1) := by
    intro child
    rw [List.set_eq_take_append_cons_drop, if_pos hzip]
  have hedges := hset n.children[pos]
  rw [← hitem, List.set_getElem_self, hitem] at hedges
  obtain ⟨indices, children, newPos, hrun, hchild, hlength', hperm⟩ :=
    incrementChildPriority_spec hlength
      (by rw [List.getElem?_eq_getElem hlt, hc]) (List.getElem?_eq_getElem hlt')
  obtain ⟨m, rem, hsplits, hcontinues⟩ := hrecurse _ hmem
  refine ⟨indices, children, newPos, _, hrun, hchild, ?_⟩
  refine .indexDescend hwild htype hedges hsplits hcontinues ?_ ?_
  · rw [List.length_set, hlength']
  · rw [← hset]
    exact hperm _

theorem Shape.length_indices {n : Node H} (hshape : n.Shape) (hwild : n.hasWildChild = false)
    (hparam : n.type = .param → n.children = []) : n.indices.length = n.children.length := by
  cases hshape with
  | leaf _ _ _ hindices hchildren => rw [hindices, hchildren]; rfl
  | static _ _ _ hlength => exact hlength
  | param htype _ _ _ _ hindices =>
      have hnil := hparam htype
      rcases hindices with hindices | ⟨-, hne⟩
      · rw [hindices, hnil]; rfl
      · exact absurd hnil hne
  | wild _ _ hwild' | catchAll _ _ _ hwild' =>
      rw [hwild'] at hwild
      exact absurd hwild.symm Bool.false_ne_true

theorem bump_empty : (empty : Node H).bump = { (empty : Node H) with priority := 1 } := rfl

theorem push_continues (fullPath : Bytes) (handler : Option H) {n : Node H} {c : Byte}
    (hwild : n.hasWildChild = false) (hlength : n.indices.length = n.children.length)
    (hmiss : c ∉ n.indices) (hparam : n.type = .param → c = slash ∧ n.children = [])
    (hc : startsWildcard c = false) (rest : Bytes) :
    ∃ indices children newPos child,
      incrementChildPriority { n with indices := n.indices ++ [c],
                                      children := n.children ++ [empty] }
          ((n.indices ++ [c]).length - 1) =
        .ok ({ n with indices := indices, children := children }, newPos) ∧
      children[newPos]? = some child ∧
      Continues handler n (c :: rest)
        { n with indices := indices,
                 children := children.set newPos (insertPath ((c :: rest).length + 1) child
                   (c :: rest) fullPath unknownWildcard handler).1 }
        (insertPath ((c :: rest).length + 1) child (c :: rest) fullPath unknownWildcard
          handler).2.verdict := by
  rw [List.length_append, List.length_singleton, Nat.add_sub_cancel]
  have hlast : (n.children ++ [empty])[n.indices.length]? = some empty := by
    rw [hlength, List.getElem?_concat_length]
  obtain ⟨indices, children, newPos, hrun, hchild, hlength', hperm⟩ :=
    incrementChildPriority_spec
      (n := { n with indices := n.indices ++ [c], children := n.children ++ [empty] })
      (by simp [hlength]) (List.getElem?_concat_length ..) hlast
  refine ⟨indices, children, newPos, _, hrun, hchild, ?_⟩
  refine .push hwild hmiss hparam hc (insertPath_fills fullPath handler _ (Nat.lt_succ_self _))
    ?_ ?_
  · rw [List.length_set, hlength']
  · refine (hperm _).trans (.of_eq ?_)
    dsimp only
    rw [List.zip_append hlength, List.set_append_right _ _ (by simp [hlength])]
    simp [hlength, bump_empty]

theorem Shape.children_of_param {n : Node H} (hshape : n.Shape) (htype : n.type = .param) :
    n.children = [] ∨ ∃ front, n.children = [front] ∧ front.Hangs slash ∧ front.Shape := by
  cases hshape with
  | leaf h | static h | wild h => rw [htype] at h; rcases h with h | h <;> exact nomatch h
  | catchAll h => rw [htype] at h; exact nomatch h
  | param _ _ _ _ hlength _ hhangs hshape =>
      match hchildren : n.children, hlength with
      | [], _ => exact .inl rfl
      | [front], _ =>
          rw [hchildren] at hhangs hshape
          exact .inr ⟨front, rfl, hhangs front List.mem_cons_self, hshape front List.mem_cons_self⟩

theorem Shape.below_param {n front : Node H} {others : List (Node H)} (hshape : n.Shape)
    (htype : n.type = .param) (hchildren : n.children = front :: others) :
    front.Hangs slash ∧ front.Shape := by
  obtain ⟨front', hchildren', hfront⟩ :=
    (hshape.children_of_param htype).resolve_left (hchildren ▸ List.cons_ne_nil _ _)
  obtain ⟨rfl, -⟩ := List.cons.inj (hchildren.symm.trans hchildren')
  exact hfront

theorem Hangs.enters {n : Node H} {c : Byte} {path : Bytes} (hhangs : n.Hangs c)
    (hpath : path.head? = some c) : n.Enters path := by
  constructor
  · intro htype
    rcases hhangs.type_eq with h | ⟨h, -⟩
    all_goals rw [htype] at h; exact nomatch h
  · intro htype
    rcases hhangs.type_eq with h | ⟨-, rfl⟩
    · rw [htype] at h; exact nomatch h
    · exact hpath

theorem Shape.child_of_edge {n child : Node H} {c : Byte} (hshape : n.Shape)
    (hmem : (c, child) ∈ n.edges) : child ∈ n.children ∧ child.Hangs c ∧ child.Shape := by
  have hchild : child ∈ n.children := (List.of_mem_zip hmem).2
  refine ⟨hchild, ?_⟩
  cases hshape with
  | leaf _ _ _ _ hchildren =>
      rw [hchildren] at hchild
      exact absurd hchild List.not_mem_nil
  | static htype _ _ _ _ _ _ hhangs hshape =>
      have hne : n.type ≠ .param := by rcases htype with h | h <;> rw [h] <;> exact nofun
      rw [edges_of_ne_param hne] at hmem
      exact ⟨hhangs c child hmem, hshape child hchild⟩
  | wild htype _ _ hindices =>
      have hne : n.type ≠ .param := by rcases htype with h | h <;> rw [h] <;> exact nofun
      rw [edges_of_ne_param hne, hindices] at hmem
      exact absurd hmem List.not_mem_nil
  | param htype _ _ _ _ _ hhangs hshape =>
      rw [edges_of_param htype] at hmem
      obtain ⟨_, hmem', heq⟩ := List.mem_map.mp hmem
      obtain ⟨rfl, rfl⟩ := Prod.mk.inj heq
      exact ⟨hhangs _ hmem', hshape _ hmem'⟩
  | catchAll htype _ _ _ hindices =>
      rw [edges_of_ne_param (by rw [htype]; exact nofun), hindices] at hmem
      exact absurd hmem List.not_mem_nil

theorem continueRoute_continues (fullPath : Bytes) (handler : Option H)
    (recurse : Node H → Bytes → Node H × Outcome) {n : Node H} (hshape : n.Shape) {len : ℕ}
    {path : Bytes} (hreaches : n.Reaches (path.drop len))
    (hrecurse : ∀ child, child.Shape → child.Enters (path.drop len) → child ∈ n.children →
      (n.hasWildChild = true ∨ ∃ c, (path.drop len).head? = some c ∧ (c, child) ∈ n.edges) →
      Descends handler recurse child (path.drop len)) :
    Continues handler n (path.drop len)
      (n.continueRoute recurse len path fullPath handler).1
      (n.continueRoute recurse len path fullPath handler).2.verdict := by
  unfold continueRoute
  generalize path.drop len = rem at hreaches hrecurse ⊢
  cases rem with
  | nil =>
      dsimp only
      split_ifs with hhandler
      · exact .registered hhandler
      · exact .fill (by simpa using hhandler)
  | cons c rest =>
      dsimp only
      by_cases hwild : n.hasWildChild = true
      · obtain ⟨front, hchildren, -⟩ := hshape.cases_of_wild hwild
        rw [if_pos hwild, hchildren]
        dsimp only
        split_ifs with hfollows
        · obtain ⟨-, -, hshape'⟩ := hshape.of_follows hwild hchildren hfollows
          obtain ⟨m, rem, hsplits, hcontinues⟩ := hrecurse front hshape' (Follows.enters hfollows)
            (hchildren ▸ List.mem_cons_self) (.inl hwild)
          exact .wildDescend (List.cons_ne_nil _ _) hwild hchildren hfollows hsplits hcontinues
        · exact .wildConflict (List.cons_ne_nil _ _) hwild hchildren hfollows
      · rw [if_neg hwild]
        have hwild : n.hasWildChild = false := by simpa using hwild
        have hedge : ∀ child, (c, child) ∈ n.edges →
            Descends handler recurse child (c :: rest) := by
          intro child hmem
          obtain ⟨hchild, hhangs, hshape'⟩ := hshape.child_of_edge hmem
          exact hrecurse child hshape' (hhangs.enters rfl) hchild (.inr ⟨c, rfl, hmem⟩)
        by_cases hbelow : n.type = .param ∧ c = slash ∧ n.children ≠ []
        · rw [if_pos hbelow]
          obtain ⟨htype, rfl, hne⟩ := hbelow
          obtain ⟨front, hchildren, -, -⟩ :=
            (hshape.children_of_param htype).resolve_left hne
          rw [hchildren]
          obtain ⟨m, rem, hsplits, hcontinues⟩ := hedge front
            (by rw [edges_of_param htype, hchildren]; exact List.mem_cons_self)
          exact .paramDescend hwild htype rfl hchildren hsplits hcontinues
        · rw [if_neg hbelow]
          have hparam : n.type = .param → c = slash ∧ n.children = [] := by
            intro htype
            have hslash : c = slash := by simpa using hreaches.1 htype
            exact ⟨hslash, not_not.mp fun hne => hbelow ⟨htype, hslash, hne⟩⟩
          have hlength := hshape.length_indices hwild fun htype => (hparam htype).2
          cases hpos : n.indices.idxOf? c with
          | some pos =>
              have htype : n.type ≠ .param := by
                intro htype
                rw [(hparam htype).2, List.length_nil, List.length_eq_zero_iff] at hlength
                rw [hlength] at hpos
                exact nomatch hpos
              obtain ⟨indices, children, newPos, child, hrun, hchild, hcontinues⟩ :=
                indexRoute_continues handler recurse hwild htype hlength hpos hedge
              dsimp only
              rw [hrun]
              dsimp only
              rw [hchild]
              exact hcontinues
          | none =>
              have hmiss : c ∉ n.indices := List.idxOf?_eq_none_iff.mp hpos
              dsimp only
              by_cases hspecial : c ≠ colon ∧ c ≠ star
              · rw [if_pos hspecial]
                have hc : startsWildcard c = false := by
                  rw [← Bool.not_eq_true, startsWildcard_iff]
                  exact not_or.mpr hspecial
                obtain ⟨indices, children, newPos, child, hrun, hchild, hcontinues⟩ :=
                  push_continues fullPath handler hwild hlength hmiss hparam hc rest
                rw [hrun]
                dsimp only
                rw [hchild]
                exact hcontinues
              · rw [if_neg hspecial]
                have hc : startsWildcard c = true := by
                  rw [startsWildcard_iff]
                  tauto
                refine .special hwild ?_ hmiss hc
                  (insertPath_fills fullPath handler n (Nat.lt_succ_self _))
                intro htype
                rw [(hparam htype).1] at hc
                exact absurd hc (by decide)

theorem Splits.eq_of_edge {n m child : Node H} {path rem : Bytes} (hsplits : Splits n path m rem)
    (htype : n.type ≠ .param)
    (hedge : m.hasWildChild = true ∨ ∃ c, rem.head? = some c ∧ (c, child) ∈ m.edges) : m = n := by
  cases hsplits with
  | whole => rfl
  | part hpath hrem =>
      rw [splitAt_eq hpath] at hedge
      rcases hedge with hwild | ⟨c, hc, hmem⟩
      · exact absurd hwild Bool.false_ne_true
      · rw [edges_of_ne_param (by exact htype)] at hmem
        obtain ⟨rfl, -⟩ := Prod.mk.inj (List.mem_singleton.mp hmem)
        exact absurd hc hrem

/-- **`insert_route` does what `Continues` says**, if its fuel is the height of the tree. -/
theorem insertRoute_continues (fullPath : Bytes) (handler : Option H) {fuel : ℕ} {n : Node H}
    (hshape : n.Shape) (hheight : n.height ≤ fuel) {path : Bytes} (henters : n.Enters path) :
    ∃ m rem, Splits n path m rem ∧
      Continues handler m rem (insertRoute fuel n path fullPath handler).1
        (insertRoute fuel n path fullPath handler).2.verdict := by
  induction fuel generalizing n path with
  | zero =>
      rw [height.eq_def] at hheight
      exact absurd hheight (Nat.not_succ_le_zero _)
  | succ fuel ih =>
      have hsplits := splits_longestCommonPrefix n path
      refine ⟨_, _, hsplits, ?_⟩
      have hshape' := hsplits.shape hshape henters
      refine continueRoute_continues fullPath handler _ hshape' (hsplits.reaches hshape henters) ?_
      intro child hchild hentersChild hmem hedge
      have hmem : child ∈ n.children := by
        by_cases htype : n.type = .param
        · rwa [(hsplits.eq_of_follows (henters.1 htype)).1] at hmem
        · rwa [hsplits.eq_of_edge htype hedge] at hmem
      refine ih hchild.bump ?_ ⟨fun h => (hentersChild.1 h).bump, hentersChild.2⟩
      rw [height_bump]
      exact Nat.lt_succ_iff.mp ((height_lt_of_mem hmem).trans_le hheight)

end Node

end Eureka.Router

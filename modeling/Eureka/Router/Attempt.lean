import Eureka.Router.Refinement

/-!
# `add_route` on tries

`attempt` is `insert_route` on the trie behind the path of a node, for every path, whether
the call ends well or not: the trie that is left, and how the call ends.

* `Continues.eq_attempt`: what a call does to a tree is determined by the trie of the tree;
* `Named.inserts_attempt`: a call succeeds exactly if its route has tokens that can be
  inserted into the trie, and then it inserts them.
-/

namespace Eureka.Router

open PatternTrie

variable {H : Type}

/-! ## The calls of `add_route` on tries -/

/-- `insert_path` where no route comes. -/
def fillTrie (handler : Option H) (behindSlash : Bool) (path : Bytes) : Trie Byte H × Verdict :=
  match _hscan : scan path with
  | .plain => (Trie.chain path (.leaf handler), .accepted)
  | .invalid => (.absent, .rejected)
  | .param plain name rest =>
      if rest = [] then
        (Trie.chain plain (.param none name (.static handler fun _ => .absent)), .accepted)
      else
        let below := fillTrie handler false rest
        (Trie.chain plain (.param none name (.static none (Trie.single slash (below.1.next slash)))),
          below.2)
  | .catchAll plain name rest =>
      if rest = [] ∧ (plain.getLast? = some slash ∨ plain = [] ∧ behindSlash) then
        (Trie.chain plain (.rest name handler), .accepted)
      else
        (.absent, .rejected)
termination_by path.length
decreasing_by exact length_of_scan_param _hscan

/-- `insert_path` where a route may end, for a path that starts with a wildcard. -/
def fillLeaf (handler value : Option H) (behindSlash : Bool) (path : Bytes) :
    Trie Byte H × Verdict :=
  match scan path with
  | .param _ name rest =>
      if rest = [] then
        (.param value name (.static handler fun _ => .absent), .accepted)
      else
        let below := fillTrie handler false rest
        (.param value name (.static none (Trie.single slash (below.1.next slash))), below.2)
  | .catchAll _ _ rest =>
      -- the assertion that the wildcard is not the first character
      (.leaf value, if rest = [] ∧ behindSlash = false then .aborted else .rejected)
  | _ => (.leaf value, .rejected)

def withHandler (handler : Option H) : Trie Byte H → Trie Byte H
  | .leaf _ => .leaf handler
  | .static _ next => .static handler next
  | .param _ name sub => .param handler name sub
  | t => t

/-- A path that ends at the position. -/
def settle (handler : Option H) (t : Trie Byte H) : Trie Byte H × Verdict :=
  if t.value?.isSome then (t, .rejected) else (withHandler handler t, .accepted)

/-- `insert_route` behind a position; `behindSlash` says whether a `'/'` stands in front of it. -/
def attempt (handler : Option H) : Trie Byte H → Bool → Bytes → Trie Byte H × Verdict
  | .absent, behindSlash, path => fillTrie handler behindSlash path
  | .rest name value, _, _ => (.rest name value, .rejected)
  | .leaf value, _, [] => settle handler (.leaf value)
  | .static value next, _, [] => settle handler (.static value next)
  | .param value name sub, _, [] => settle handler (.param value name sub)
  | .leaf value, behindSlash, c :: rest =>
      if startsWildcard c then
        fillLeaf handler value behindSlash (c :: rest)
      else
        let below := fillTrie handler (c == slash) rest
        (.static value (Trie.single c below.1), below.2)
  | .static value next, _, c :: rest =>
      if startsWildcard c then
        (.static value next, .rejected)
      else
        let below := attempt handler (next c) (c == slash) rest
        (.static value (Function.update next c below.1), below.2)
  | .param value name sub, _, c :: rest =>
      if c = colon ∧ name <+: rest ∧
          (rest.drop name.length = [] ∨ (rest.drop name.length).head? = some slash) then
        let below := attempt handler sub false (rest.drop name.length)
        (.param value name below.1, below.2)
      else
        (.param value name sub, .rejected)

/-! ## Steps of `fillTrie` and `attempt` -/

theorem fillTrie_of_plain {path : Bytes} (hscan : scan path = .plain) (handler : Option H)
    (behindSlash : Bool) :
    fillTrie handler behindSlash path = (Trie.chain path (.leaf handler), .accepted) := by
  rw [fillTrie.eq_def]
  split <;> simp_all

theorem fillTrie_of_invalid {path : Bytes} (hscan : scan path = .invalid) (handler : Option H)
    (behindSlash : Bool) : fillTrie handler behindSlash path = (.absent, .rejected) := by
  rw [fillTrie.eq_def]
  split <;> simp_all

theorem fillTrie_of_param {path plain name rest : Bytes}
    (hscan : scan path = .param plain name rest) (handler : Option H) (behindSlash : Bool) :
    fillTrie handler behindSlash path =
      if rest = [] then
        (Trie.chain plain (.param none name (.static handler fun _ => .absent)), .accepted)
      else
        (Trie.chain plain (.param none name (.static none (Trie.single slash
          ((fillTrie handler false rest).1.next slash)))), (fillTrie handler false rest).2) := by
  rw [fillTrie.eq_def]
  split <;> simp_all

theorem fillTrie_of_catchAll {path plain name rest : Bytes}
    (hscan : scan path = .catchAll plain name rest) (handler : Option H) (behindSlash : Bool) :
    fillTrie handler behindSlash path =
      if rest = [] ∧ (plain.getLast? = some slash ∨ plain = [] ∧ behindSlash) then
        (Trie.chain plain (.rest name handler), .accepted)
      else
        (.absent, .rejected) := by
  rw [fillTrie.eq_def]
  split <;> simp_all

theorem fillTrie_lit {c : Byte} (hc : startsWildcard c = false) (handler : Option H)
    (behindSlash : Bool) (path : Bytes) :
    fillTrie handler (c == slash) path =
      ((fillTrie handler behindSlash (c :: path)).1.next c,
        (fillTrie handler behindSlash (c :: path)).2) := by
  have hscan := scan_lit hc path
  cases hpath : scan path with
  | plain =>
      rw [hpath] at hscan
      rw [fillTrie_of_plain hscan, fillTrie_of_plain hpath, Trie.next_chain_cons]
  | invalid =>
      rw [hpath] at hscan
      rw [fillTrie_of_invalid hscan, fillTrie_of_invalid hpath]
      rfl
  | param plain name rest =>
      rw [hpath] at hscan
      rw [fillTrie_of_param hscan, fillTrie_of_param hpath]
      split_ifs with hrest
      · rw [Trie.next_chain_cons]
      · rw [Trie.next_chain_cons]
  | catchAll plain name rest =>
      rw [hpath] at hscan
      rw [fillTrie_of_catchAll hscan, fillTrie_of_catchAll hpath]
      have hlast : (c :: plain).getLast? = some slash ∨ c :: plain = [] ∧ behindSlash = true ↔
          plain.getLast? = some slash ∨ plain = [] ∧ (c == slash) = true := by
        cases plain with
        | nil => simp
        | cons b plain => simp [List.getLast?_cons_cons]
      simp only [hlast]
      split_ifs with hrest
      · rw [Trie.next_chain_cons]
      · rfl

theorem attempt_cons_of_plain {t : Trie Byte H} (hplain : t.plain) (hne : t ≠ .absent) {c : Byte}
    (hc : startsWildcard c = false) (handler : Option H) (behindSlash : Bool) (rest : Bytes) :
    attempt handler t behindSlash (c :: rest) =
      (.static t.value? (Function.update t.next c
        (attempt handler (t.next c) (c == slash) rest).1),
        (attempt handler (t.next c) (c == slash) rest).2) := by
  have hc' : ¬ startsWildcard c = true := by rw [hc]; exact Bool.false_ne_true
  cases t with
  | absent => exact absurd rfl hne
  | leaf value => exact if_neg hc'
  | static value next => exact if_neg hc'
  | param | rest => exact nomatch hplain

/-- Whether a `'/'` stands in front of what follows a text. -/
def endsInSlash : Bool → Bytes → Bool
  | behindSlash, [] => behindSlash
  | _, c :: text => endsInSlash (c == slash) text

theorem endsInSlash_iff {text : Bytes} (hne : text ≠ []) (behindSlash : Bool) :
    endsInSlash behindSlash text = true ↔ text.getLast? = some slash := by
  induction text generalizing behindSlash with
  | nil => exact absurd rfl hne
  | cons c text ih =>
      cases text with
      | nil => simp [endsInSlash]
      | cons b text =>
          rw [List.getLast?_cons_cons]
          exact ih (List.cons_ne_nil _ _) (c == slash)

theorem attempt_chain {text : Bytes} (htext : Literal text) (t : Trie Byte H)
    (handler : Option H) (behindSlash : Bool) (rest : Bytes) :
    attempt handler (Trie.chain text t) behindSlash (text ++ rest) =
      (Trie.chain text (attempt handler t (endsInSlash behindSlash text) rest).1,
        (attempt handler t (endsInSlash behindSlash text) rest).2) := by
  induction text generalizing behindSlash with
  | nil => rfl
  | cons c text ih =>
      have hne : Trie.chain (c :: text) t ≠ .absent :=
        show Trie.static none (Trie.single c (Trie.chain text t)) ≠ .absent from nofun
      rw [List.cons_append, attempt_cons_of_plain rfl hne (htext c List.mem_cons_self),
        Trie.next_chain_cons, ih (fun b hb => htext b (List.mem_cons_of_mem _ hb))]
      refine congrArg (fun next => (Trie.static none next, _)) ?_
      exact Function.update_idem _ _ _

theorem attempt_nil {t : Trie Byte H} (hne : t ≠ .absent) (hrest : ∀ name value, t ≠ .rest name value)
    (handler : Option H) (behindSlash : Bool) :
    attempt handler t behindSlash [] = settle handler t := by
  cases t with
  | absent => exact absurd rfl hne
  | rest name value => exact absurd rfl (hrest name value)
  | leaf | static | param => rfl

/-! ## Accepted calls and insertions -/

/-- A call is accepted exactly if the route has tokens that can be inserted, and then
inserts them. -/
def Inserts (result : Trie Byte H × Verdict) (parsed : Option (List (Token Byte)))
    (insert : List (Token Byte) → Option (Trie Byte H)) : Prop :=
  ∀ t, result = (t, .accepted) ↔ ∃ tokens, parsed = some tokens ∧ insert tokens = some t

section Inserts

variable {result : Trie Byte H × Verdict} {parsed : Option (List (Token Byte))}
  {insert insert' : List (Token Byte) → Option (Trie Byte H)}

theorem inserts_of_rejected {t : Trie Byte H} {verdict : Verdict} (hverdict : verdict ≠ .accepted)
    (hinsert : ∀ tokens t, parsed = some tokens → insert tokens ≠ some t) :
    Inserts (t, verdict) parsed insert := fun _ =>
  iff_of_false (fun h => hverdict (congrArg Prod.snd h))
    fun ⟨tokens, hparse, h⟩ => hinsert tokens _ hparse h

theorem inserts_of_accepted {t : Trie Byte H} {tokens : List (Token Byte)}
    (hinsert : insert tokens = some t) : Inserts (t, .accepted) (some tokens) insert := by
  intro t'
  simp only [Prod.mk.injEq, and_true, Option.some.injEq, exists_eq_left', hinsert]

theorem Inserts.map (hresult : Inserts result parsed insert) {f : Trie Byte H → Trie Byte H}
    {g : List (Token Byte) → List (Token Byte)}
    (hinsert : ∀ tokens, insert' (g tokens) = (insert tokens).map f) :
    Inserts (f result.1, result.2) (parsed.map g) insert' := by
  obtain ⟨below, verdict⟩ := result
  intro t
  constructor
  · intro h
    obtain ⟨rfl, rfl⟩ := Prod.mk.inj h
    obtain ⟨tokens, rfl, hbelow⟩ := (hresult below).mp rfl
    refine ⟨g tokens, rfl, ?_⟩
    rw [hinsert, hbelow]
    rfl
  · rintro ⟨_, hparse, ht⟩
    obtain ⟨tokens, rfl, rfl⟩ := Option.map_eq_some_iff.mp hparse
    rw [hinsert, Option.map_eq_some_iff] at ht
    obtain ⟨t', ht', rfl⟩ := ht
    obtain ⟨rfl, rfl⟩ := Prod.mk.inj ((hresult t').mpr ⟨tokens, rfl, ht'⟩)
    rfl

end Inserts

/-- What `insert_path` puts behind a new parameter. -/
def fillBelow (handler : Option H) (rest : Bytes) : Trie Byte H × Verdict :=
  if rest = [] then
    (.static handler fun _ => .absent, .accepted)
  else
    (.static none (Trie.single slash ((fillTrie handler false rest).1.next slash)),
      (fillTrie handler false rest).2)

theorem inserts_fillBelow {v : H} {rest : Bytes} (hrest : rest = [] ∨ rest.head? = some slash)
    (hfill : Inserts (fillTrie (some v) false rest) (parseFrom false rest)
      ((Trie.absent : Trie Byte H).insert · v)) :
    Inserts (fillBelow (some v) rest) (parseFrom false rest)
      ((Trie.void : Trie Byte H).insert · v) := by
  rcases hrest with rfl | hrest
  · rw [parseFrom_nil]
    exact inserts_of_accepted rfl
  obtain ⟨rest, rfl⟩ := List.head?_eq_some_iff.mp hrest
  rw [fillBelow, if_neg (List.cons_ne_nil _ _)]
  intro t
  have hsame : ∀ {tokens} {t : Trie Byte H}, parseFrom false (slash :: rest) = some tokens →
      (Trie.absent : Trie Byte H).insert tokens v = some t →
      (Trie.void : Trie Byte H).insert tokens v = some t ∧
        Trie.static none (Trie.single slash (t.next slash)) = t := by
    intro tokens t hparse hinsert
    obtain ⟨tokens, rfl⟩ := Node.tokens_of_head startsWildcard_slash rfl hparse
    refine ⟨hinsert, ?_⟩
    obtain ⟨-, next', -, rfl⟩ := Trie.insert_lit_eq_some.mp hinsert
    rw [Trie.next_static, Function.update_self]
    rfl
  constructor
  · intro h
    obtain ⟨rfl, haccepted⟩ := Prod.mk.inj h
    obtain ⟨tokens, hparse, hinsert⟩ := (hfill _).mp (Prod.ext rfl haccepted)
    rw [(hsame hparse hinsert).2]
    exact ⟨tokens, hparse, (hsame hparse hinsert).1⟩
  · rintro ⟨tokens, hparse, hinsert⟩
    obtain ⟨tokens, rfl⟩ := Node.tokens_of_head startsWildcard_slash rfl hparse
    rw [(hfill t).mpr ⟨_, hparse, hinsert⟩, (hsame hparse hinsert).2]

/-- **`insert_path` is an insertion** where no pattern comes, if it succeeds. -/
theorem inserts_fillTrie (v : H) (path : Bytes) (behindSlash : Bool) :
    Inserts (fillTrie (some v) behindSlash path) (parseFrom behindSlash path)
      ((Trie.absent : Trie Byte H).insert · v) := by
  cases hscan : scan path with
  | plain =>
      rw [fillTrie_of_plain hscan, parseFrom_of_plain hscan]
      refine inserts_of_accepted ?_
      rw [← List.append_nil (path.map _), Trie.insert_absent_chain]
      rfl
  | invalid =>
      rw [fillTrie_of_invalid hscan, parseFrom_of_invalid hscan]
      exact inserts_of_rejected nofun nofun
  | param plain name rest =>
      obtain ⟨-, -, -, hrest⟩ := eq_of_scan_param hscan
      have hfill : fillTrie (some v) behindSlash path =
          (Trie.chain plain (.param none name (fillBelow (some v) rest).1),
            (fillBelow (some v) rest).2) := by
        rw [fillTrie_of_param hscan, fillBelow]
        split_ifs <;> rfl
      rw [hfill, parseFrom_of_param hscan]
      refine (inserts_fillBelow hrest (inserts_fillTrie v rest false)).map
        (f := fun sub => Trie.chain plain (.param none name sub)) fun tokens => ?_
      show (Trie.absent : Trie Byte H).insert _ v = _
      rw [Trie.insert_absent_chain]
      exact Option.map_map _ _ _
  | catchAll plain name rest =>
      rw [fillTrie_of_catchAll hscan, parseFrom_of_catchAll hscan]
      split_ifs
      · refine inserts_of_accepted ?_
        rw [Trie.insert_absent_chain]
        rfl
      · exact inserts_of_rejected nofun nofun
termination_by path.length
decreasing_by exact length_of_scan_param hscan

theorem inserts_fillLeaf (v : H) (value : Option H) (behindSlash : Bool) {c : Byte} {rest : Bytes}
    (hc : startsWildcard c = true) :
    Inserts (fillLeaf (some v) value behindSlash (c :: rest)) (parseFrom behindSlash (c :: rest))
      ((Trie.leaf value).insert · v) := by
  generalize hpath : c :: rest = path
  cases hscan : scan path with
  | plain =>
      have hliteral := literal_of_scan_plain hscan c (hpath ▸ List.mem_cons_self)
      exact nomatch hc.symm.trans hliteral
  | invalid =>
      rw [fillLeaf, hscan, parseFrom_of_invalid hscan]
      exact inserts_of_rejected nofun nofun
  | param plain name rest =>
      obtain ⟨heq, hplain, -, hrest⟩ := eq_of_scan_param hscan
      obtain rfl := Node.plain_eq_nil hc hplain (hpath.trans heq)
      have hfill : fillLeaf (some v) value behindSlash path =
          (.param value name (fillBelow (some v) rest).1, (fillBelow (some v) rest).2) := by
        rw [fillLeaf, hscan, fillBelow]
        dsimp only
        split_ifs <;> rfl
      rw [hfill, parseFrom_of_param hscan]
      exact (inserts_fillBelow hrest (inserts_fillTrie v rest false)).map fun tokens => rfl
  | catchAll plain name rest =>
      obtain ⟨heq, hplain, -, -⟩ := eq_of_scan_catchAll hscan
      obtain rfl := Node.plain_eq_nil hc hplain (hpath.trans heq)
      rw [fillLeaf, hscan, parseFrom_of_catchAll hscan]
      refine inserts_of_rejected (by split_ifs <;> exact nofun) fun tokens t hparse hinsert => ?_
      obtain ⟨-, hsame⟩ := Option.ite_none_right_eq_some.mp hparse
      obtain rfl := Option.some.inj hsame
      exact nomatch (Trie.insert_rest_eq_some.mp hinsert).1

/-- The names of the parameters are such that a route can have. -/
inductive Named : Trie Byte H → Prop
  | absent : Named .absent
  | leaf {value} : Named (.leaf value)
  | static {value next} (hnext : ∀ c, Named (next c)) : Named (.static value next)
  | param {value name sub} (hname : ValidName name) (hsub : Named sub) :
      Named (.param value name sub)
  | rest {name value} : Named (.rest name value)

theorem Named.next {t : Trie Byte H} (hnamed : Named t) (c : Byte) : Named (t.next c) := by
  cases hnamed with
  | static hnext => exact hnext c
  | absent | leaf | param | rest => exact .absent

theorem named_single {t : Trie Byte H} (hnamed : Named t) (c c' : Byte) :
    Named (Trie.single c t c') := by
  by_cases hsame : c' = c
  · rwa [hsame, Trie.single_same]
  · rw [Trie.single_ne t hsame]
    exact .absent

theorem Named.chain {t : Trie Byte H} (hnamed : Named t) (text : Bytes) :
    Named (Trie.chain text t) := by
  induction text with
  | nil => exact hnamed
  | cons c text ih => exact .static (named_single ih c)

theorem inserts_attempt_nil (v : H) {t : Trie Byte H} (hne : t ≠ .absent)
    (hrest : ∀ name value, t ≠ .rest name value) (behindSlash : Bool) :
    Inserts (attempt (some v) t behindSlash []) (parseFrom behindSlash []) (t.insert · v) := by
  rw [attempt_nil hne hrest, parseFrom_nil]
  cases t with
  | absent => exact absurd rfl hne
  | rest name value => exact absurd rfl (hrest name value)
  | leaf value | static value _ | param value _ _ =>
      cases value with
      | none => exact inserts_of_accepted rfl
      | some w =>
          refine inserts_of_rejected nofun fun tokens t hparse => ?_
          obtain rfl := Option.some.inj hparse
          exact nofun

theorem inserts_attempt_lit {v : H} {t : Trie Byte H} (hplain : t.plain) (hne : t ≠ .absent)
    {c : Byte} (hc : startsWildcard c = false) (behindSlash : Bool) {rest : Bytes}
    (hnext : Inserts (attempt (some v) (t.next c) (c == slash) rest)
      (parseFrom (c == slash) rest) ((t.next c).insert · v)) :
    Inserts (attempt (some v) t behindSlash (c :: rest)) (parseFrom behindSlash (c :: rest))
      (t.insert · v) := by
  rw [attempt_cons_of_plain hplain hne hc, parseFrom_lit hc]
  exact hnext.map (f := fun below => .static t.value? (Function.update t.next c below))
    fun tokens => if_pos hplain

theorem inserts_attempt_wildcard {v : H} {value : Option H} {next : Byte → Trie Byte H}
    {c : Byte} (hc : startsWildcard c = true) (behindSlash : Bool) (rest : Bytes) :
    Inserts (attempt (some v) (.static value next) behindSlash (c :: rest))
      (parseFrom behindSlash (c :: rest)) ((Trie.static value next).insert · v) := by
  rw [attempt, if_pos hc]
  refine inserts_of_rejected nofun fun tokens t hparse hinsert => ?_
  rcases parseFrom_cases hparse with ⟨h, -⟩ | ⟨c', _, _, hc', h, -, -⟩ |
    ⟨_, _, _, -, -, -, -, rfl⟩ | ⟨_, -, -, -, rfl⟩
  · exact nomatch h
  · obtain ⟨rfl, -⟩ := List.cons.inj h
    exact nomatch hc.symm.trans hc'
  · obtain ⟨_, h, -⟩ := Trie.insert_param_eq_some.mp hinsert
    exact nomatch h
  · exact nomatch (Trie.insert_rest_eq_some.mp hinsert).1

theorem inserts_attempt_param {v : H} {value : Option H} {name : Bytes} {sub : Trie Byte H}
    (hname : ValidName name) (behindSlash : Bool) (c : Byte) (rest : Bytes)
    (hsub : ∀ path, Inserts (attempt (some v) sub false path) (parseFrom false path)
      (sub.insert · v)) :
    Inserts (attempt (some v) (.param value name sub) behindSlash (c :: rest))
      (parseFrom behindSlash (c :: rest)) ((Trie.param value name sub).insert · v) := by
  rw [attempt]
  split_ifs with hfollows
  · obtain ⟨rfl, ⟨rem, rfl⟩, hrem⟩ := hfollows
    rw [List.drop_left] at hrem ⊢
    rw [parseFrom_param hname hrem]
    refine (hsub rem).map (f := .param value name) fun tokens => ?_
    show ((if name = name then some sub else none).bind _) = _
    rw [if_pos rfl]
    rfl
  · refine inserts_of_rejected nofun fun tokens t hparse hinsert => hfollows ?_
    rcases parseFrom_cases hparse with ⟨h, -⟩ | ⟨_, _, _, _, _, -, rfl⟩ |
      ⟨name', rest', _, -, hrest, hpath, -, rfl⟩ | ⟨_, -, -, -, rfl⟩
    · exact nomatch h
    · exact nomatch (Trie.insert_lit_eq_some.mp hinsert).1
    · obtain ⟨_, hheld, -⟩ := Trie.insert_param_eq_some.mp hinsert
      obtain ⟨rfl, -⟩ := Option.ite_none_right_eq_some.mp hheld
      obtain ⟨rfl, rfl⟩ := List.cons.inj hpath
      rw [List.drop_left]
      exact ⟨rfl, List.prefix_append _ _, hrest⟩
    · exact nomatch (Trie.insert_rest_eq_some.mp hinsert).1

/-- **A call that succeeds inserts the pattern of its route**, and succeeds if that can be
inserted. -/
theorem Named.inserts_attempt {t : Trie Byte H} (hnamed : Named t) (v : H) (behindSlash : Bool)
    (path : Bytes) :
    Inserts (attempt (some v) t behindSlash path) (parseFrom behindSlash path) (t.insert · v) := by
  induction hnamed generalizing behindSlash path with
  | absent =>
      rw [attempt]
      exact inserts_fillTrie v path behindSlash
  | rest =>
      rw [attempt]
      refine inserts_of_rejected nofun fun tokens t _ hinsert => ?_
      exact nomatch (Trie.insert_rest_eq_none _ _ tokens v).symm.trans hinsert
  | @leaf value =>
      cases path with
      | nil => exact inserts_attempt_nil (t := .leaf value) v nofun nofun behindSlash
      | cons c path =>
          cases hc : startsWildcard c with
          | true =>
              rw [attempt, if_pos hc]
              exact inserts_fillLeaf v value behindSlash hc
          | false =>
              refine inserts_attempt_lit (t := .leaf value) rfl nofun hc behindSlash ?_
              show Inserts (attempt (some v) .absent (c == slash) path) _ _
              rw [attempt]
              exact inserts_fillTrie v path (c == slash)
  | @static value next _ ih =>
      cases path with
      | nil => exact inserts_attempt_nil (t := .static value next) v nofun nofun behindSlash
      | cons c path =>
          cases hc : startsWildcard c with
          | true => exact inserts_attempt_wildcard hc behindSlash path
          | false =>
              exact inserts_attempt_lit (t := .static value next) rfl nofun hc behindSlash
                (ih c (c == slash) path)
  | @param value name sub hname _ ih =>
      cases path with
      | nil => exact inserts_attempt_nil (t := .param value name sub) v nofun nofun behindSlash
      | cons c path => exact inserts_attempt_param hname behindSlash c path (ih false)

namespace Node

/-! ## `insert_path` -/

theorem Unused.flatten_eq {n : Node H} (hn : n.Unused) : n.flatten = .leaf none := by
  rw [flatten, hn.path_eq, core_of_leaf hn.wild hn.children_eq hn.type_ne, hn.handler_eq]
  rfl

/-- **`insert_path` in a new node** does what `fillTrie` says.  Where it changes nothing the
node stays without a route. -/
theorem Fills.eq_fillTrie {handler : Option H} {n n' : Node H} {path : Bytes} {verdict : Verdict}
    (hfills : Fills handler n path n' verdict) (hn : n.Unused) (hstarts : StartsLiteral path)
    (behindSlash : Bool) :
    (fillTrie handler behindSlash path).2 = verdict ∧
      ((fillTrie handler behindSlash path).1 = n'.flatten ∨
        (fillTrie handler behindSlash path).1 = .absent ∧ n'.flatten = .leaf none) := by
  induction hfills generalizing behindSlash with
  | @plain n path hscan =>
      have hcore : core { n with path := path, handler := handler } = .leaf handler :=
        core_of_leaf hn.wild hn.children_eq hn.type_ne
      rw [fillTrie_of_plain hscan, flatten, hcore]
      exact ⟨rfl, .inl rfl⟩
  | invalid hscan =>
      rw [fillTrie_of_invalid hscan]
      exact ⟨rfl, .inr ⟨rfl, hn.flatten_eq⟩⟩
  | occupied _ hne => exact absurd hn.children_eq hne
  | paramEnd hscan =>
      rw [fillTrie_of_param hscan, if_pos rfl, flatten, core_withParam, core_paramNode_nil,
        path_withParam hn.path_eq, hn.handler_eq]
      exact ⟨rfl, .inl rfl⟩
  | @param n path plain name rest child verdict hscan hchildren hrest hfills ih =>
      obtain ⟨hverdict, hflatten⟩ := ih unused_fresh (startsLiteral_of_scan hscan hrest) false
      have hnext : (fillTrie handler false rest).1.next slash = child.flatten.next slash := by
        rcases hflatten with hflatten | ⟨habsent, hleaf⟩
        · rw [hflatten]
        · rw [habsent, hleaf]
          rfl
      rw [fillTrie_of_param hscan, if_neg hrest, flatten, core_withParam, core_paramNode_singleton,
        path_withParam hn.path_eq, hn.handler_eq, hnext]
      exact ⟨hverdict, .inl rfl⟩
  | @catchAllRejected n path plain name rest hscan _ hwhy =>
      rw [fillTrie_of_catchAll hscan, if_neg]
      · exact ⟨rfl, .inr ⟨rfl, hn.flatten_eq⟩⟩
      · rintro ⟨hrest, hslash⟩
        rcases hwhy with hwhy | hwhy | ⟨hne, hnot⟩
        · exact hwhy hrest
        · rw [hn.path_eq] at hwhy
          cases hwhy
        · exact hslash.elim hnot fun h => hne h.1
  | catchAllAborted hscan =>
      obtain ⟨rfl, -⟩ := eq_of_scan_catchAll hscan
      exact absurd (hstarts star rfl) (by rw [startsWildcard_star]; decide)
  | @catchAll n path plain name hscan =>
      set m : Node H :=
        { n with path := plain, indices := [slash], children := [catchAllNode name handler] } with hm
      have hedges : m.edges = [(slash, catchAllNode name handler)] := edges_of_ne_param hn.type_ne
      have hnext : (catchAllNode name handler).flatten.next slash = .rest name handler := by
        rw [flatten, core_catchAllNode]
        exact Trie.single_same _ _
      have hcore : m.core = Trie.chain [slash] (.rest name handler) := by
        have hwild : m.hasWildChild = false := hn.wild
        rw [core_of_static hwild (.inl (List.cons_ne_nil _ _)), nexts_of_edges_singleton hedges,
          hnext, show m.handler = none from hn.handler_eq]
        rfl
      rw [fillTrie_of_catchAll hscan, if_pos ⟨rfl, .inl List.getLast?_concat⟩, flatten, hcore,
        ← Trie.chain_append]
      exact ⟨rfl, .inl rfl⟩

/-- What `insert_path` in a new node leaves behind the first character. -/
theorem Fills.next_eq {handler : Option H} {n n' : Node H} {c : Byte} {rest : Bytes}
    {verdict : Verdict} (hfills : Fills handler n (c :: rest) n' verdict) (hn : n.Unused)
    (hc : startsWildcard c = false) :
    fillTrie handler (c == slash) rest = (n'.flatten.next c, verdict) := by
  have hstarts : StartsLiteral (c :: rest) := startsLiteral_of_head? rfl hc
  obtain ⟨hverdict, hflatten⟩ := hfills.eq_fillTrie hn hstarts false
  rw [fillTrie_lit hc handler false, hverdict]
  rcases hflatten with hflatten | ⟨habsent, hleaf⟩
  · rw [hflatten]
  · rw [habsent, hleaf]
    rfl

/-- **`insert_path` where a route may end**, on a path that starts with a wildcard. -/
theorem Fills.eq_fillLeaf {handler : Option H} {n n' : Node H} {c : Byte} {rest : Bytes}
    {verdict : Verdict} (hfills : Fills handler n (c :: rest) n' verdict)
    (hwild : n.hasWildChild = false) (htype : n.type ≠ .param) (hchildren : n.children = [])
    (hc : startsWildcard c = true) {behindSlash : Bool}
    (hlast : behindSlash = true ↔ n.path.getLast? = some slash) :
    fillLeaf handler n.handler behindSlash (c :: rest) = (n'.core, verdict) := by
  have hleaf := core_of_leaf hwild hchildren htype
  generalize hpath : c :: rest = path at hfills ⊢
  unfold fillLeaf
  cases hfills with
  | plain hscan =>
      have hliteral := literal_of_scan_plain hscan c (hpath ▸ List.mem_cons_self)
      rw [hc] at hliteral
      exact nomatch hliteral
  | invalid hscan =>
      rw [hscan, hleaf]
  | occupied _ hne => exact absurd hchildren hne
  | paramEnd hscan =>
      rw [hscan, core_withParam, core_paramNode_nil]
      rfl
  | param hscan _ hrest hfills =>
      obtain ⟨-, -, -, hslash⟩ := eq_of_scan_param hscan
      obtain ⟨rest, rfl⟩ := List.head?_eq_some_iff.mp (hslash.resolve_left hrest)
      have hnext := fillTrie_lit startsWildcard_slash handler false rest
      rw [hfills.next_eq unused_fresh startsWildcard_slash, Prod.mk.injEq] at hnext
      rw [hscan, core_withParam, core_paramNode_singleton, hnext.1, hnext.2]
      exact if_neg hrest
  | @catchAllRejected n path plain name rest' hscan _ hwhy =>
      obtain ⟨heq, hplain, -, -⟩ := eq_of_scan_catchAll hscan
      obtain rfl := plain_eq_nil hc hplain (hpath.trans heq)
      rw [hscan, hleaf]
      dsimp only
      rw [if_neg]
      rintro ⟨hrest, hfalse⟩
      rcases hwhy with hwhy | hwhy | ⟨hne, -⟩
      · exact hwhy hrest
      · rw [hlast.mpr hwhy] at hfalse
        exact nomatch hfalse
      · exact hne rfl
  | catchAllAborted hscan _ hnot =>
      have hfalse : behindSlash = false := by
        rw [← Bool.not_eq_true]
        exact fun h => hnot (hlast.mp h)
      rw [hscan, hleaf]
      dsimp only
      rw [if_pos ⟨rfl, hfalse⟩]
  | catchAll hscan =>
      obtain ⟨heq, hplain, -, -⟩ := eq_of_scan_catchAll hscan
      exact absurd (plain_eq_nil hc hplain (hpath.trans heq))
        (List.append_ne_nil_of_right_ne_nil _ (List.cons_ne_nil _ _))

theorem Fills.eq_of_occupied {handler : Option H} {n n' : Node H} {c : Byte} {rest : Bytes}
    {verdict : Verdict} (hfills : Fills handler n (c :: rest) n' verdict)
    (hchildren : n.children ≠ []) (hc : startsWildcard c = true) :
    n' = n ∧ verdict = .rejected := by
  generalize hpath : c :: rest = path at hfills
  cases hfills with
  | plain hscan =>
      have hliteral := literal_of_scan_plain hscan c (hpath ▸ List.mem_cons_self)
      rw [hc] at hliteral
      exact nomatch hliteral
  | invalid | occupied => exact ⟨rfl, rfl⟩
  | paramEnd _ hnil | param _ hnil | catchAllRejected _ hnil | catchAllAborted _ hnil
  | catchAll _ hnil => exact absurd hnil hchildren

/-! ## `insert_route` behind the split -/

theorem Shape.core_withHandler {n : Node H} (hshape : n.Shape) (htype : n.type ≠ .catchAll)
    (handler : Option H) : core { n with handler := handler } = withHandler handler n.core := by
  set filled : Node H := { n with handler := handler } with hfilled
  have hstatic : n.hasWildChild = false → (n.children ≠ [] ∨ n.type = .param) →
      filled.core = withHandler handler n.core := by
    intro hwild hne
    have hwild' : filled.hasWildChild = false := hwild
    rw [core_of_static hwild hne, core_of_static hwild' hne]
    rfl
  cases hshape with
  | leaf htype' _ hwild _ hchildren =>
      have hne : n.type ≠ .param := by rcases htype' with h | h <;> rw [h] <;> exact nofun
      have hfill : filled.core = .leaf handler := core_of_leaf hwild hchildren hne
      rw [core_of_leaf hwild hchildren hne, hfill]
      rfl
  | static _ _ hwild _ hchildren => exact hstatic hwild (.inl hchildren)
  | @wild _ child _ _ hwild _ hchildren hparam =>
      have hne : child.type ≠ .catchAll := by rw [hparam]; exact nofun
      have hfill : filled.core = .param handler (child.path.drop 1) child.core :=
        core_of_wild hwild hchildren hne
      rw [core_of_wild hwild hchildren hne, hfill]
      rfl
  | param htype' _ _ hwild => exact hstatic hwild (.inr htype')
  | catchAll htype' => exact absurd htype' htype

/-- When `insert_route` goes on in a parameter. -/
theorem follows_iff {front : Node H} {name rest : Bytes} {c : Byte} (htype : front.type = .param)
    (hpath : front.path = colon :: name) :
    front.Follows (c :: rest) ↔ c = colon ∧ name <+: rest ∧
      (rest.drop name.length = [] ∨ (rest.drop name.length).head? = some slash) := by
  have hne : front.type ≠ .catchAll := by rw [htype]; exact nofun
  rw [Follows, hpath, List.cons_prefix_cons, and_assoc, eq_comm (a := colon)]
  refine and_congr_right fun _ => and_congr_right fun hpre => ?_
  have hlength : (colon :: name).length = (c :: rest).length ↔ rest.drop name.length = [] := by
    rw [List.length_cons, List.length_cons, Nat.add_right_cancel_iff, List.drop_eq_nil_iff]
    exact ⟨fun h => h.ge, fun h => le_antisymm hpre.length_le h⟩
  rw [hlength, List.length_cons, List.getElem?_cons_succ, List.head?_drop]
  exact and_iff_right hne

theorem attempt_index {handler : Option H} {n n' child : Node H} {c : Byte} {rest : Bytes}
    {verdict : Verdict} (hshape : n.Shape) (hshape' : n'.Shape) (hwild : n.hasWildChild = false)
    (hwild' : n'.hasWildChild = false) (hhandler : n'.handler = n.handler)
    (hmem : (c, child) ∈ n'.edges)
    (hother : ∀ c' child', c' ≠ c → ((c', child') ∈ n'.edges ↔ (c', child') ∈ n.edges))
    (hc : startsWildcard c = false) (behindSlash : Bool)
    (hbelow : attempt handler (n.nexts c) (c == slash) rest = (child.flatten.next c, verdict)) :
    attempt handler n.core behindSlash (c :: rest) = (n'.core, verdict) := by
  obtain ⟨hvalue, hplain, hnext⟩ := core_of_index hwild
  have hne : n'.children ≠ [] := List.ne_nil_of_mem (List.of_mem_zip hmem).2
  rw [attempt_cons_of_plain hplain hshape.core_ne_absent hc, hnext, hbelow,
    core_of_static hwild' (.inl hne), hvalue, hhandler,
    nexts_update hshape.nodup_edges hshape'.nodup_edges hmem hother]

/-- What is known about the character in front of the rest of a path, where that matters. -/
def Heeds (m : Node H) (rem : Bytes) (behindSlash : Bool) : Prop :=
  m.children = [] → (∃ c ∈ rem.head?, startsWildcard c = true) →
    (behindSlash = true ↔ m.path.getLast? = some slash)

theorem attempt_below {handler : Option H} {front m child : Node H} {c : Byte}
    {rest rem : Bytes} {verdict : Verdict} (hc : startsWildcard c = false)
    (hhangs : front.Hangs c) (hshape : front.Shape)
    (hsplits : Splits front.bump (c :: rest) m rem) (hpath : child.path = m.path)
    (hattempt : ∀ behindSlash, m.Heeds rem behindSlash →
      attempt handler m.core behindSlash rem = (child.core, verdict)) :
    attempt handler (front.flatten.next c) (c == slash) rest = (child.flatten.next c, verdict) := by
  have henters : front.bump.Enters (c :: rest) := hhangs.bump.enters rfl
  have hshape' := hsplits.shape hshape.bump henters
  obtain ⟨hsplit, hflatten⟩ := hsplits.flatten_eq henters
  have htype : m.type ≠ .param := by
    rw [hsplits.type_eq]
    exact hhangs.bump.type_ne_param
  have hheeds : m.Heeds rem (endsInSlash false m.path) := by
    intro _ hwildcard
    refine endsInSlash_iff ?_ false
    intro hnil
    rw [hnil, List.nil_append] at hsplit
    rw [← hsplit] at hwildcard
    obtain ⟨c', hc', hstarts⟩ := hwildcard
    obtain rfl := Option.some.inj hc'
    rw [hc] at hstarts
    exact nomatch hstarts
  have hwhole : attempt handler front.flatten false (c :: rest) = (child.flatten, verdict) := by
    rw [← flatten_bump, ← hflatten, hsplit, flatten,
      attempt_chain (hshape'.literal_of_ne_param htype), hattempt _ hheeds, flatten, hpath]
  have hne : front.flatten ≠ .absent := Trie.chain_ne_absent hshape.core_ne_absent
  rw [attempt_cons_of_plain (hhangs.plain_flatten hshape) hne hc, Prod.mk.injEq] at hwhole
  rw [← hwhole.1, ← hwhole.2, Trie.next_static, Function.update_self]

/-- **`insert_route` does what `attempt` says**, however the call ends. -/
theorem Continues.eq_attempt {handler : Option H} {m n' : Node H} {rem : Bytes}
    {verdict : Verdict} (hcontinues : Continues handler m rem n' verdict) (hshape : m.Shape)
    (hreaches : m.Reaches rem) {behindSlash : Bool} (hheeds : m.Heeds rem behindSlash) :
    attempt handler m.core behindSlash rem = (n'.core, verdict) := by
  induction hcontinues generalizing behindSlash with
  | @registered n hhandler =>
      rw [attempt_nil hshape.core_ne_absent hshape.core_ne_rest, settle, hshape.value?_core,
        if_pos hhandler]
  | @fill n hhandler =>
      have htype : n.type ≠ .catchAll := fun h => nomatch hreaches.2 h
      rw [attempt_nil hshape.core_ne_absent hshape.core_ne_rest, settle, hshape.value?_core, hhandler,
        hshape.core_withHandler htype]
      rfl
  | @wildConflict n front others path hne hwild hchildren hfollows =>
      obtain ⟨c, rest, rfl⟩ := List.exists_cons_of_ne_nil hne
      obtain ⟨front', hchildren', hfront⟩ := hshape.cases_of_wild hwild
      obtain ⟨rfl, rfl⟩ := List.cons.inj (hchildren.symm.trans hchildren')
      rcases hfront with ⟨hparam, hshape'⟩ | ⟨hcatchAll, htype⟩
      · have hne' : front.type ≠ .catchAll := by rw [hparam]; exact nofun
        obtain ⟨name, -, hpath⟩ := hshape'.path_of_param hparam
        have hcore := core_of_wild (n := { n with children := [front.bump] }) hwild rfl hne'
        rw [core_of_wild hwild hchildren' hne', hcore, core_bump]
        refine if_neg fun h => hfollows ?_
        rw [hpath] at h
        exact (follows_iff hparam hpath).mpr h
      · have hcatchAll' : front.bump.type = .catchAll := hcatchAll
        have hcore' := core_of_catchAll (n := { n with children := [front.bump] }) hwild rfl hcatchAll'
        have hcore := core_of_catchAll hwild hchildren' hcatchAll
        have hplain : n.core.plain = true := by rw [hcore]; rfl
        obtain rfl : c = slash := Option.some.inj (hreaches.2 htype)
        rw [attempt_cons_of_plain hplain hshape.core_ne_absent startsWildcard_slash, hcore, hcore',
          Trie.next_static, Trie.single_same]
        exact congrArg (fun next => (Trie.static none next, Verdict.rejected))
          (Function.update_idem _ _ _)
  | @wildDescend n front others path m rem child verdict hpath hwild hchildren hfollows hsplits
      hcontinues ih =>
      obtain ⟨rfl, hparam, hshape'⟩ := hshape.of_follows hwild hchildren hfollows
      have henters := hfollows.bump.enters
      obtain ⟨rfl, hsplit, hrem⟩ := hsplits.eq_of_follows hfollows.bump
      obtain ⟨name, -, hpath'⟩ := hshape'.path_of_param hparam
      obtain ⟨c, rest, rfl⟩ := List.exists_cons_of_ne_nil hpath
      have hne : front.type ≠ .catchAll := hfollows.2.1
      have hchild : child.type ≠ .catchAll := by
        rw [hcontinues.type_eq]
        exact hne
      have hcore : core { n with children := [child] } =
          .param n.handler (child.path.drop 1) child.core := core_of_wild hwild rfl hchild
      have hchildPath : child.path = front.path := hcontinues.path_eq
      -- what follows the name of the parameter is the rest of the path
      obtain ⟨rfl, hrest⟩ : c = colon ∧ rest = name ++ rem := by
        rw [show front.bump.path = colon :: name from hpath', List.cons_append] at hsplit
        exact List.cons.inj hsplit
      have hdrop : rest.drop name.length = rem := by rw [hrest, List.drop_left]
      have hbelow : attempt handler front.core false rem = (child.core, verdict) := by
        rw [← core_bump]
        refine ih (hsplits.shape hshape'.bump henters) (hsplits.reaches hshape'.bump henters) ?_
        rintro - ⟨c', hc', hstarts⟩
        rcases hrem with rfl | hrem
        · exact nomatch hc'
        · obtain rfl := Option.some.inj (hrem.symm.trans hc')
          exact nomatch hstarts
      have hfollows' := (follows_iff hparam hpath').mp hfollows
      rw [core_of_wild hwild hchildren hne, hcore, hchildPath, hpath', List.drop_one, List.tail_cons]
      show (if _ then _ else _) = _
      rw [if_pos hfollows', hdrop, hbelow]
  | @paramDescend n front path m rem child verdict hwild htype hpath hchildren hsplits hcontinues
      ih =>
      obtain ⟨hhangs, hshape'⟩ := hshape.below_param htype hchildren
      obtain ⟨rest, rfl⟩ := List.head?_eq_some_iff.mp hpath
      have henters := hhangs.bump.enters hpath
      have hnode : Shape { n with children := [child] } :=
        (Continues.paramDescend hwild htype hpath hchildren hsplits hcontinues).shape hshape hreaches
      have hedges : n.edges = [(slash, front)] := by
        rw [edges_of_param htype, hchildren]
        rfl
      have hedges' : edges { n with children := [child] } = [(slash, child)] := edges_of_param htype
      have hmem : (slash, child) ∈ edges { n with children := [child] } :=
        hedges' ▸ List.mem_cons_self
      refine attempt_index hshape hnode hwild hwild rfl hmem ?_ startsWildcard_slash behindSlash ?_
      · intro c' child' hne
        rw [hedges, hedges']
        simp [hne]
      · rw [nexts_of_edges_singleton hedges, Trie.single_same]
        exact attempt_below startsWildcard_slash hhangs hshape' hsplits hcontinues.path_eq
          fun behindSlash' hheeds' => ih (hsplits.shape hshape'.bump henters)
            (hsplits.reaches hshape'.bump henters) hheeds'
  | @indexDescend n c rest front before after m rem child indices children verdict hwild htype
      hedges hsplits hcontinues hlength hperm ih =>
      have hnode : Shape { n with indices := indices, children := children } :=
        (Continues.indexDescend hwild htype hedges hsplits hcontinues hlength hperm).shape hshape
          hreaches
      have hedges' : n.edges = before ++ (c, front) :: after :=
        (edges_of_ne_param htype).trans hedges
      have hedges'' : edges { n with indices := indices, children := children } =
          indices.zip children := edges_of_ne_param htype
      have hmem := mem_edges_of_zip htype hedges
      have hmem' : (c, child) ∈ edges { n with indices := indices, children := children } := by
        rw [hedges'', hperm.mem_iff]
        exact List.mem_append_right _ List.mem_cons_self
      obtain ⟨-, hhangs, hshape'⟩ := hshape.child_of_edge hmem
      have hc := hshape.literal_of_edge hwild hmem
      have henters : front.bump.Enters (c :: rest) := hhangs.bump.enters rfl
      refine attempt_index hshape hnode hwild hwild rfl hmem' ?_ hc behindSlash ?_
      · intro c' child' hne
        rw [hedges'', hperm.mem_iff, hedges']
        simp [hne]
      · rw [nexts_of_mem hshape.nodup_edges hmem]
        exact attempt_below hc hhangs hshape' hsplits hcontinues.path_eq
          fun behindSlash' hheeds' => ih (hsplits.shape hshape'.bump henters)
            (hsplits.reaches hshape'.bump henters) hheeds'
  | @push n c rest child indices children verdict hwild hmiss hparam hc hfills hlength hperm =>
      have hnode : Shape { n with indices := indices, children := children } :=
        (Continues.push hwild hmiss hparam hc hfills hlength hperm).shape hshape hreaches
      have hedges := edges_of_push hparam hlength hperm
      have hmem : (c, child) ∈ edges { n with indices := indices, children := children } :=
        hedges.symm.subset (List.mem_append_right _ List.mem_cons_self)
      refine attempt_index hshape hnode hwild hwild rfl hmem ?_ hc behindSlash ?_
      · intro c' child' hne
        rw [hedges.mem_iff]
        simp [hne]
      · rw [nexts_of_not_mem (not_mem_edges_of_push hshape hwild hmiss hparam)]
        exact hfills.next_eq unused_fresh hc
  | @special n c rest n' verdict hwild htype hmiss hc hfills =>
      by_cases hchildren : n.children = []
      · have hlast := hheeds hchildren ⟨c, rfl, hc⟩
        rw [core_of_leaf hwild hchildren htype]
        show (if startsWildcard c = true then _ else _) = _
        rw [if_pos hc, hfills.eq_fillLeaf hwild htype hchildren hc hlast]
      · obtain ⟨rfl, rfl⟩ := hfills.eq_of_occupied hchildren hc
        rw [core_of_static hwild (.inl hchildren)]
        exact if_pos hc

/-! ## Routes that are accepted -/

theorem named_nexts {n : Node H} (hnamed : ∀ child ∈ n.children, Named child.core) (c : Byte) :
    Named (n.nexts c) := by
  rw [nexts]
  cases hchild : n.child? c with
  | none => exact .absent
  | some child => exact ((hnamed child (mem_children_of_child? hchild)).chain child.path).next c

theorem Shape.named {n : Node H} (hshape : n.Shape) : Named n.core := by
  induction hshape with
  | leaf htype _ hwild _ hchildren =>
      rw [core_of_leaf hwild hchildren (by rcases htype with h | h <;> rw [h] <;> exact nofun)]
      exact .leaf
  | static _ _ hwild _ hchildren _ _ _ _ ih =>
      rw [core_of_static hwild (.inl hchildren)]
      exact .static (named_nexts ih)
  | wild _ _ hwild _ hchildren hparam hshape ih =>
      obtain ⟨name, hname, hpath⟩ := hshape.path_of_param hparam
      rw [core_of_wild hwild hchildren (by rw [hparam]; exact nofun), hpath]
      exact .param hname ih
  | param htype _ _ hwild _ _ _ _ ih =>
      rw [core_of_static hwild (.inr htype)]
      exact .static (named_nexts ih)
  | catchAll _ _ _ hwild _ hchildren hchild =>
      rw [core_of_catchAll hwild hchildren hchild]
      exact .static (named_single .rest slash)

/-- **`insert_path` in a new node** is an insertion where no pattern comes. -/
theorem Fills.inserts {v : H} {n n' : Node H} {path : Bytes} {verdict : Verdict}
    (hfills : Fills (some v) n path n' verdict) (hn : n.Unused) (hstarts : StartsLiteral path)
    (behindSlash : Bool) :
    Inserts (n'.flatten, verdict) (parseFrom behindSlash path)
      ((Trie.absent : Trie Byte H).insert · v) := by
  have hinserts := inserts_fillTrie v path behindSlash
  obtain ⟨hverdict, hflatten⟩ := hfills.eq_fillTrie hn hstarts behindSlash
  rcases hflatten with hflatten | ⟨habsent, -⟩
  · rwa [show fillTrie (some v) behindSlash path = (n'.flatten, verdict) from
      Prod.ext hflatten hverdict] at hinserts
  · have hne : verdict ≠ .accepted := by
      intro haccepted
      obtain ⟨_, -, hinsert⟩ := (hinserts _).mp (Prod.ext rfl (hverdict.trans haccepted))
      exact Trie.insert_ne_absent hinsert habsent
    refine inserts_of_rejected hne fun tokens t hparse hinsert => hne ?_
    exact hverdict.symm.trans (congrArg Prod.snd ((hinserts t).mpr ⟨tokens, hparse, hinsert⟩))

/-- **A route that is accepted** behind the split has tokens, which are inserted. -/
theorem Continues.insert {v : H} {m n' : Node H} {rem : Bytes}
    (hcontinues : Continues (some v) m rem n' .accepted) (hshape : m.Shape)
    (hreaches : m.Reaches rem) :
    ∃ behindSlash tokens, parseFrom behindSlash rem = some tokens ∧
      m.core.insert tokens v = some n'.core := by
  have hheeds : m.Heeds rem (decide (m.path.getLast? = some slash)) := fun _ _ => decide_eq_true_iff
  exact ⟨_, (hshape.named.inserts_attempt v _ rem _).mp
    (hcontinues.eq_attempt hshape hreaches hheeds)⟩

end Node

end Eureka.Router

import Eureka.Library.PatternTrie

/-!
# Chains of literals, and many insertions

A radix tree stores a text of literals in one node.  `chain` is such a text in a
trie, and insertions and lookups run through it as through its letters.  How a
trie is cut into chains is determined by the trie, if the chains are as long as
possible (`chain_injective`).

`insertAll` inserts patterns one after the other; by `insert_comm` their order
does not matter (`insertAll_perm`).
-/

namespace Eureka.PatternTrie

namespace Trie

variable {α V : Type} [DecidableEq α]

/-! ## Chains -/

/-- The trie behind a text of literals. -/
def chain : List α → Trie α V → Trie α V
  | [], t => t
  | letter :: text, t => static none (single letter (chain text t))

theorem chain_append (first second : List α) (t : Trie α V) :
    chain (first ++ second) t = chain first (chain second t) := by
  induction first with
  | nil => rfl
  | cons letter first ih => rw [List.cons_append, chain, chain, ih]

theorem next_chain_cons (letter : α) (text : List α) (t : Trie α V) :
    (chain (letter :: text) t).next letter = chain text t :=
  single_same letter _

theorem insert_absent_chain (text : List α) (tokens : List (Token α)) (v : V) :
    (absent : Trie α V).insert (text.map .lit ++ tokens) v =
      ((absent : Trie α V).insert tokens v).map (chain text) := by
  induction text with
  | nil =>
      rw [List.map_nil, List.nil_append]
      exact Option.map_id'.symm
  | cons letter text ih =>
      show ((absent : Trie α V).insert (text.map .lit ++ tokens) v).map _ = _
      rw [ih, Option.map_map]
      rfl

theorem insert_rest_eq_none (name : List α) (value : Option V) (tokens : List (Token α)) (v : V) :
    (rest name value).insert tokens v = none := by
  rcases tokens with _ | ⟨letter | name' | name', tokens⟩
  · rfl
  · rfl
  · rfl
  · cases tokens <;> rfl

theorem next_of_insert_lit {t t' : Trie α V} {letter : α} {tokens : List (Token α)} {v : V}
    (hinsert : t.insert (.lit letter :: tokens) v = some t') :
    (t.next letter).insert tokens v = some (t'.next letter) := by
  obtain ⟨-, next', hnext, rfl⟩ := insert_lit_eq_some.mp hinsert
  rw [hnext, next_static, Function.update_self]

theorem lookup_absent (sep : α) (text : List α) :
    (absent : Trie α V).lookup sep text = (none, []) := by
  cases text <;> rfl

theorem lookup_nil {sep : α} {t : Trie α V} (hrest : ∀ name value, t ≠ rest name value) :
    t.lookup sep [] = (t.value?.map some, []) := by
  cases t with
  | rest name value => exact absurd rfl (hrest name value)
  | absent | leaf | static | param => rfl

theorem lookup_cons_of_plain {t : Trie α V} (hplain : t.plain) (sep letter : α) (text : List α) :
    t.lookup sep (letter :: text) = (t.next letter).lookup sep text := by
  cases t with
  | absent | leaf => cases text <;> rfl
  | static => rfl
  | param | rest => exact absurd hplain Bool.false_ne_true

theorem lookup_chain (sep : α) (text : List α) (t : Trie α V) (rest : List α) :
    (chain text t).lookup sep (text ++ rest) = t.lookup sep rest := by
  induction text with
  | nil => rfl
  | cons letter text ih =>
      rw [List.cons_append, lookup_cons_of_plain rfl, next_chain_cons, ih]

theorem lookup_chain_of_mismatch (sep : α) {text path : List α} (hnot : ¬ text <+: path)
    (t : Trie α V) : (chain text t).lookup sep path = (none, []) := by
  induction text generalizing path with
  | nil => exact absurd List.nil_prefix hnot
  | cons letter text ih =>
      cases path with
      | nil => rfl
      | cons letter' path =>
          rw [lookup_cons_of_plain rfl]
          by_cases hsame : letter' = letter
          · subst hsame
            rw [next_chain_cons]
            refine ih fun hpre => hnot ?_
            exact List.cons_prefix_cons.mpr ⟨rfl, hpre⟩
          · rw [show (chain (letter :: text) t).next letter' = absent from single_ne _ hsame]
            cases path <;> rfl

/-- A chain of literals ends at the position: a pattern ends there, a wildcard comes, or
more than one literal continues. -/
def Branches : Trie α V → Prop
  | leaf value => value ≠ none
  | static value next =>
      value ≠ none ∨ (∃ a b, a ≠ b ∧ next a ≠ absent ∧ next b ≠ absent) ∨
        ∃ letter name value', next letter = rest name value'
  | param _ _ _ => True
  | _ => False

theorem chain_ne_absent {text : List α} {t : Trie α V} (ht : t ≠ absent) : chain text t ≠ absent := by
  cases text with
  | nil => exact ht
  | cons letter text => exact nofun

omit [DecidableEq α] in
theorem Branches.ne_absent {t : Trie α V} (hbranches : t.Branches) : t ≠ absent := by
  rintro rfl
  exact hbranches

theorem Branches.not_chain_cons {letter : α} {text : List α} {t : Trie α V}
    (hbranches : t.Branches) : ¬ (chain (letter :: text) t).Branches := by
  rintro (hvalue | ⟨a, b, hne, ha, hb⟩ | ⟨a, name, value, hnext⟩)
  · exact hvalue rfl
  · have hletter : ∀ c, single letter (chain text t) c ≠ absent → c = letter := by
      intro c hc
      by_contra hother
      exact hc (single_ne _ hother)
    exact hne ((hletter a ha).trans (hletter b hb).symm)
  · by_cases hsame : a = letter
    · rw [hsame, single_same] at hnext
      cases text with
      | nil =>
          rw [show t = rest name value from hnext] at hbranches
          exact hbranches
      | cons letter' text => exact nomatch hnext
    · rw [single_ne _ hsame] at hnext
      exact nomatch hnext

theorem single_injective {a b : α} {t t' : Trie α V} (ht : t ≠ absent)
    (heq : single a t = single b t') : a = b ∧ t = t' := by
  have hvalue := congrFun heq a
  rw [single_same] at hvalue
  by_cases hsame : a = b
  · subst hsame
    exact ⟨rfl, hvalue.trans (single_same a t')⟩
  · rw [single_ne _ hsame] at hvalue
    exact absurd hvalue ht

/-- **Chains are determined** by the trie, if they are as long as possible. -/
theorem chain_injective {text text' : List α} {t t' : Trie α V} (ht : t.Branches)
    (ht' : t'.Branches) (heq : chain text t = chain text' t') : text = text' ∧ t = t' := by
  induction text generalizing text' with
  | nil =>
      cases text' with
      | nil => exact ⟨rfl, heq⟩
      | cons letter text' =>
          obtain rfl : t = chain (letter :: text') t' := heq
          exact absurd ht ht'.not_chain_cons
  | cons letter text ih =>
      cases text' with
      | nil =>
          obtain rfl : chain (letter :: text) t = t' := heq
          exact absurd ht' ht.not_chain_cons
      | cons letter' text' =>
          obtain ⟨-, hnext⟩ := static.inj heq
          obtain ⟨rfl, hrest⟩ := single_injective (chain_ne_absent ht.ne_absent) hnext
          obtain ⟨rfl, rfl⟩ := ih hrest
          exact ⟨rfl, rfl⟩

theorem insert_ne_absent {t t' : Trie α V} {tokens : List (Token α)} {v : V}
    (hinsert : t.insert tokens v = some t') : t' ≠ absent := by
  rintro rfl
  rcases tokens with _ | ⟨letter | name | name, tokens⟩
  · obtain ⟨-, heq⟩ := insert_nil_eq_some.mp hinsert
    cases t <;> exact nomatch heq
  · obtain ⟨-, _, -, heq⟩ := insert_lit_eq_some.mp hinsert
    exact nomatch heq
  · obtain ⟨_, -, _, -, heq⟩ := insert_param_eq_some.mp hinsert
    exact nomatch heq
  · obtain ⟨-, -, heq⟩ := insert_rest_eq_some.mp hinsert
    exact nomatch heq

theorem Branches.insert {t t' : Trie α V} {tokens : List (Token α)} {v : V}
    (hbranches : t.Branches) (hinsert : t.insert tokens v = some t') : t'.Branches := by
  rcases tokens with _ | ⟨letter | name | name, tokens⟩
  · obtain ⟨-, rfl⟩ := insert_nil_eq_some.mp hinsert
    cases t with
    | leaf | absent => exact Option.some_ne_none v
    | static => exact .inl (Option.some_ne_none v)
    | param => trivial
    | rest => exact hbranches
  · obtain ⟨hplain, next', hnext, rfl⟩ := insert_lit_eq_some.mp hinsert
    cases t with
    | absent => exact absurd hbranches id
    | param | rest => exact nomatch hplain
    | leaf value => exact .inl hbranches
    | static value next =>
        rcases hbranches with hvalue | ⟨a, b, hne, ha, hb⟩ | ⟨a, name, value', hrest⟩
        · exact .inl hvalue
        · have hkeep : ∀ c, next c ≠ absent → Function.update next letter next' c ≠ absent := by
            intro c hc
            by_cases hsame : c = letter
            · rw [hsame, Function.update_self]
              exact insert_ne_absent hnext
            · rwa [Function.update_of_ne hsame]
          exact .inr (.inl ⟨a, b, hne, hkeep a ha, hkeep b hb⟩)
        · have hother : a ≠ letter := by
            rintro rfl
            rw [next_static, hrest, insert_rest_eq_none] at hnext
            exact nomatch hnext
          refine .inr (.inr ⟨a, name, value', ?_⟩)
          rw [next_static, Function.update_of_ne hother, hrest]
  · obtain ⟨_, -, _, -, rfl⟩ := insert_param_eq_some.mp hinsert
    trivial
  · obtain ⟨rfl, -⟩ := insert_rest_eq_some.mp hinsert
    exact absurd hbranches id

theorem branches_of_insert_single {a : α} {t t' : Trie α V} {tokens : List (Token α)} {v : V}
    (ht : t ≠ absent) (hleaves : tokens.head? ≠ some (.lit a))
    (hinsert : (static none (single a t)).insert tokens v = some t') : t'.Branches := by
  rcases tokens with _ | ⟨letter | name | name, tokens⟩
  · obtain ⟨-, rfl⟩ := insert_nil_eq_some.mp hinsert
    exact .inl (Option.some_ne_none v)
  · obtain ⟨-, next', hnext, rfl⟩ := insert_lit_eq_some.mp hinsert
    have hne : letter ≠ a := by
      rintro rfl
      exact hleaves rfl
    refine .inr (.inl ⟨letter, a, hne, ?_, ?_⟩)
    · rw [Function.update_self]
      exact insert_ne_absent hnext
    · rwa [Function.update_of_ne hne.symm, next_static, single_same]
  · obtain ⟨_, hsub, -⟩ := insert_param_eq_some.mp hinsert
    exact nomatch hsub
  · exact nomatch (insert_rest_eq_some.mp hinsert).1

/-! ## Many insertions -/

/-- Inserts the patterns one after the other, as long as they do not conflict. -/
def insertAll : Trie α V → List (List (Token α) × V) → Option (Trie α V)
  | t, [] => some t
  | t, (tokens, v) :: patterns => (t.insert tokens v).bind fun t' => insertAll t' patterns

theorem insertAll_cons_eq_some {t t' : Trie α V} {tokens : List (Token α)} {v : V}
    {patterns : List (List (Token α) × V)} :
    t.insertAll ((tokens, v) :: patterns) = some t' ↔
      ∃ mid, t.insert tokens v = some mid ∧ mid.insertAll patterns = some t' :=
  Option.bind_eq_some_iff

/-- **The order of insertions** does not matter. -/
theorem insertAll_perm {t t' : Trie α V} {patterns patterns' : List (List (Token α) × V)}
    (hperm : patterns.Perm patterns') (hinsert : t.insertAll patterns = some t') :
    t.insertAll patterns' = some t' := by
  induction hperm generalizing t with
  | nil => exact hinsert
  | cons pattern _ ih =>
      obtain ⟨mid, hmid, hinsert⟩ := insertAll_cons_eq_some.mp hinsert
      exact insertAll_cons_eq_some.mpr ⟨mid, hmid, ih hinsert⟩
  | swap second first =>
      obtain ⟨mid, hfirst, hinsert⟩ := insertAll_cons_eq_some.mp hinsert
      obtain ⟨mid', hsecond, hinsert⟩ := insertAll_cons_eq_some.mp hinsert
      obtain ⟨other, hsecond', hfirst'⟩ := insert_comm hfirst hsecond
      exact insertAll_cons_eq_some.mpr
        ⟨other, hsecond', insertAll_cons_eq_some.mpr ⟨mid', hfirst', hinsert⟩⟩
  | trans _ _ ih ih' => exact ih' (ih hinsert)

theorem insertAll_has {t t' : Trie α V} {patterns : List (List (Token α) × V)}
    (hinsert : t.insertAll patterns = some t') (tokens : List (Token α)) (v : V) :
    t'.Has tokens v ↔ t.Has tokens v ∨ (tokens, v) ∈ patterns := by
  induction patterns generalizing t with
  | nil =>
      obtain rfl := Option.some.inj hinsert
      simp
  | cons pattern patterns ih =>
      obtain ⟨mid, hmid, hinsert⟩ := insertAll_cons_eq_some.mp hinsert
      rw [ih hinsert, insert_has hmid, List.mem_cons, or_assoc, Prod.ext_iff]

theorem not_has_of_insert {t t' : Trie α V} {tokens : List (Token α)} {v : V}
    (hinsert : t.insert tokens v = some t') (w : V) : ¬ t.Has tokens w := by
  induction tokens generalizing t t' with
  | nil =>
      intro hhas
      have hnone := value?_of_free (insert_nil_eq_some.mp hinsert).1
      rw [show t.value? = some w from hhas] at hnone
      exact nomatch hnone
  | cons token tokens ih =>
      cases token with
      | lit letter =>
          obtain ⟨-, next', hnext, -⟩ := insert_lit_eq_some.mp hinsert
          exact ih hnext
      | param name =>
          obtain ⟨sub, hsub, sub', hinsert', -⟩ := insert_param_eq_some.mp hinsert
          rw [has_param_of_sub? hsub]
          exact fun h => ih hinsert' h.2
      | rest name =>
          obtain ⟨rfl, -⟩ := insert_rest_eq_some.mp hinsert
          exact not_has_absent _ w

theorem insertAll_nodup {t t' : Trie α V} {patterns : List (List (Token α) × V)}
    (hinsert : t.insertAll patterns = some t') :
    (∀ pattern ∈ patterns, ∀ w, ¬ t.Has pattern.1 w) ∧ (patterns.map Prod.fst).Nodup := by
  induction patterns generalizing t with
  | nil => exact ⟨fun _ h => absurd h List.not_mem_nil, List.nodup_nil⟩
  | cons pattern patterns ih =>
      obtain ⟨mid, hmid, hinsert⟩ := insertAll_cons_eq_some.mp hinsert
      obtain ⟨hfresh, hnodup⟩ := ih hinsert
      have hhas := insert_has hmid
      refine ⟨?_, List.nodup_cons.mpr ⟨?_, hnodup⟩⟩
      · refine List.forall_mem_cons.mpr ⟨not_has_of_insert hmid, fun pattern' hmem w hw => ?_⟩
        exact hfresh pattern' hmem w ((hhas _ _).mpr (.inl hw))
      · intro hmem
        obtain ⟨pattern', hmem', heq⟩ := List.mem_map.mp hmem
        exact hfresh pattern' hmem' pattern.2 ((hhas _ _).mpr (.inr ⟨heq, rfl⟩))

theorem WellFormed.insertAll {sep : α} {t t' : Trie α V} {patterns : List (List (Token α) × V)}
    (hwf : t.WellFormed) (hseparated : ∀ pattern ∈ patterns, ParamsSeparated sep pattern.1)
    (hinsert : t.insertAll patterns = some t') : t'.WellFormed := by
  induction patterns generalizing t with
  | nil => exact Option.some.inj hinsert ▸ hwf
  | cons pattern patterns ih =>
      obtain ⟨mid, hmid, hinsert⟩ := insertAll_cons_eq_some.mp hinsert
      rw [List.forall_mem_cons] at hseparated
      exact ih (hwf.insert hseparated.1 hmid) hseparated.2 hinsert

theorem Loaded.insertAll {t t' : Trie α V} {patterns : List (List (Token α) × V)}
    (hloaded : t.Loaded) (hinsert : t.insertAll patterns = some t') : t'.Loaded := by
  induction patterns generalizing t with
  | nil => exact Option.some.inj hinsert ▸ hloaded
  | cons pattern patterns ih =>
      obtain ⟨mid, hmid, hinsert⟩ := insertAll_cons_eq_some.mp hinsert
      exact ih (hloaded.insert hmid) hinsert

end Trie

end Eureka.PatternTrie

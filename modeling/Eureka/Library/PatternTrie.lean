import Mathlib

/-!
# Tries of patterns with wildcards

A pattern is a list of tokens over an alphabet with a distinguished separator: a
literal letter, a parameter that stands for a run of letters without separator,
or, as the last token and right after a separator, a catch-all that stands for
that separator and everything behind it.

A `Trie` is the uncompressed tree of a set of patterns: one position for every
pattern beginning, with the value of the pattern that ends there.  At a position
a trie continues with literals *or* with one parameter, never with both, so that
a text is looked up without backtracking.

* `Trie.insert_has`: insertion adds exactly the inserted pattern;
* `Trie.insert_comm`: two insertions that succeed in one order succeed in the
  other, with the same trie;
* `Trie.lookup_of_binds`, `Trie.binds_of_lookup`: a lookup finds the value of a
  pattern exactly if that pattern matches the text;
* `Trie.binds_unique`: at most one pattern of a trie matches a text.
-/

namespace Eureka.PatternTrie

inductive Token (α : Type)
  | lit (letter : α)
  | param (name : List α)
  | rest (name : List α)
deriving DecidableEq

/-- A name with the text it stands for. -/
abbrev Binding (α : Type) := List α × List α

/-- The pattern matches the text with these bindings.  A parameter in front of
a separator may stand for the empty text, one that ends the pattern may not. -/
inductive Binds {α : Type} (sep : α) : List (Token α) → List α → List (Binding α) → Prop
  | nil : Binds sep [] [] []
  | lit {letter tokens text bindings} :
      Binds sep tokens text bindings → Binds sep (.lit letter :: tokens) (letter :: text) bindings
  | paramEnd {name value} :
      value ≠ [] → sep ∉ value → Binds sep [.param name] value [(name, value)]
  | param {name value tokens text bindings} :
      sep ∉ value → Binds sep (.lit sep :: tokens) (sep :: text) bindings →
        Binds sep (.param name :: .lit sep :: tokens) (value ++ sep :: text)
          ((name, value) :: bindings)
  | rest {name text} : Binds sep [.rest name] text [(name, sep :: text)]

/-- A trie, by what is known at its top position. -/
inductive Trie (α V : Type)
  /-- no pattern comes here -/
  | absent
  /-- nothing continues -/
  | leaf (value : Option V)
  /-- literals continue -/
  | static (value : Option V) (next : α → Trie α V)
  /-- a parameter continues -/
  | param (value : Option V) (name : List α) (sub : Trie α V)
  /-- the position behind the separator of a catch-all -/
  | rest (name : List α) (value : Option V)

namespace Trie

variable {α V : Type}

/-- The value of the pattern that ends at the position. -/
def value? : Trie α V → Option V
  | leaf value => value
  | static value _ => value
  | param value _ _ => value
  | _ => none

/-- What follows a literal. -/
def next : Trie α V → α → Trie α V
  | static _ next => next
  | _ => fun _ => absent

/-- Literals may continue here. -/
def plain : Trie α V → Bool
  | absent => true
  | leaf _ => true
  | static _ _ => true
  | _ => false

/-- A pattern may end here. -/
def free : Trie α V → Bool
  | rest _ _ => false
  | t => t.value?.isNone

/-- The trie with another value at its top. -/
def withValue : Trie α V → V → Trie α V
  | static _ next, v => static (some v) next
  | param _ name sub, v => param (some v) name sub
  | rest name value, _ => rest name value
  | _, v => leaf (some v)

/-- The position behind a new parameter, where only literals may follow. -/
def void : Trie α V := static none fun _ => absent

/-- What follows a parameter, where that parameter may continue. -/
def sub? [DecidableEq α] : Trie α V → List α → Option (Trie α V)
  | absent, _ => some void
  | leaf _, _ => some void
  | param _ name sub, name' => if name = name' then some sub else none
  | _, _ => none

/-- The pattern belongs to the trie, with this value. -/
def Has : Trie α V → List (Token α) → V → Prop
  | t, [], v => t.value? = some v
  | t, .lit letter :: tokens, v => Has (t.next letter) tokens v
  | param _ name sub, .param name' :: tokens, v => name = name' ∧ Has sub tokens v
  | rest name value, [.rest name'], v => name = name' ∧ value = some v
  | _, _, _ => False

/-- Parameters are followed by literals or by nothing. -/
inductive WellFormed : Trie α V → Prop
  | absent : WellFormed absent
  | leaf {value} : WellFormed (leaf value)
  | static {value next} : (∀ letter, WellFormed (next letter)) → WellFormed (static value next)
  | param {value name sub} : sub.plain → WellFormed sub → WellFormed (param value name sub)
  | rest {name value} : WellFormed (rest name value)

/-- Every catch-all has a value. -/
inductive Loaded : Trie α V → Prop
  | absent : Loaded absent
  | leaf {value} : Loaded (leaf value)
  | static {value next} : (∀ letter, Loaded (next letter)) → Loaded (static value next)
  | param {value name sub} : Loaded sub → Loaded (param value name sub)
  | rest {name v} : Loaded (rest name (some v))

variable [DecidableEq α]

/-- Finds the value for a text and the bindings met on the way, also when the
text leads nowhere. -/
def lookup (sep : α) : Trie α V → List α → Option (Option V) × List (Binding α)
  | absent, _ => (none, [])
  | leaf value, [] => (value.map some, [])
  | leaf _, _ :: _ => (none, [])
  | static value _, [] => (value.map some, [])
  | static _ next, letter :: text => lookup sep (next letter) text
  | param value _ _, [] => (value.map some, [])
  | param _ name sub, letter :: text =>
      let found := lookup sep sub ((letter :: text).dropWhile (· ≠ sep))
      (found.1, (name, (letter :: text).takeWhile (· ≠ sep)) :: found.2)
  | rest name value, text => (some value, [(name, sep :: text)])

/-- A single continuation. -/
def single (letter : α) (t : Trie α V) : α → Trie α V :=
  Function.update (fun _ => absent) letter t

/-- Inserts a pattern, unless it conflicts with the patterns of the trie. -/
def insert : Trie α V → List (Token α) → V → Option (Trie α V)
  | t, [], v => if t.free then some (t.withValue v) else none
  | t, .lit letter :: tokens, v =>
      if t.plain then
        (insert (t.next letter) tokens v).map fun next' =>
          static t.value? (Function.update t.next letter next')
      else
        none
  | t, .param name :: tokens, v =>
      (t.sub? name).bind fun sub => (insert sub tokens v).map (param t.value? name)
  | absent, [.rest name], v => some (rest name (some v))
  | _, _, _ => none

/-- A pattern is found behind its insertion. -/
example (name : List α) (v : V) :
    ∃ t, insert absent [.param name] v = some t ∧ t.Has [.param name] v := by
  simp [insert, sub?, void, free, withValue, Has, value?]

/-! ## Access lemmas -/

section Access

variable (value : Option V) (nexts : α → Trie α V) (name : List α) (sub : Trie α V) (v : V)

omit [DecidableEq α]

@[simp] theorem value?_static : (static value nexts).value? = value := rfl

@[simp] theorem value?_param : (param value name sub).value? = value := rfl

@[simp] theorem next_static : (static value nexts).next = nexts := rfl

@[simp] theorem plain_static : (static value nexts).plain = true := rfl

@[simp] theorem free_static : (static value nexts).free = value.isNone := rfl

@[simp] theorem free_param : (param value name sub).free = value.isNone := rfl

@[simp] theorem withValue_static : (static value nexts).withValue v = static (some v) nexts := rfl

@[simp] theorem withValue_param :
    (param value name sub).withValue v = param (some v) name sub := rfl

end Access

omit [DecidableEq α] in
@[simp] theorem next_withValue (t : Trie α V) (v : V) : (t.withValue v).next = t.next := by
  cases t <;> rfl

omit [DecidableEq α] in
@[simp] theorem plain_withValue (t : Trie α V) (v : V) : (t.withValue v).plain = t.plain := by
  cases t <;> rfl

omit [DecidableEq α] in
theorem value?_of_free {t : Trie α V} (hfree : t.free) : t.value? = none := by
  cases t <;> simp_all [free]

omit [DecidableEq α] in
theorem value?_withValue {t : Trie α V} (hfree : t.free) (v : V) :
    (t.withValue v).value? = some v := by
  cases t <;> first | rfl | simp [free] at hfree

omit [DecidableEq α] in
theorem free_withValue (t : Trie α V) (v : V) : (t.withValue v).free = false := by
  cases t <;> rfl

theorem sub?_withValue (t : Trie α V) (v : V) (name : List α) :
    (t.withValue v).sub? name = t.sub? name := by
  cases t <;> rfl

@[simp] theorem single_same (letter : α) (t : Trie α V) : single letter t letter = t := by
  simp [single]

theorem single_ne {a b : α} (t : Trie α V) (hne : b ≠ a) : single a t b = absent := by
  simp [single, hne]

/-! ## The patterns of a trie after an insertion -/

omit [DecidableEq α] in
theorem not_has_absent (tokens : List (Token α)) (v : V) : ¬ Has absent tokens v := by
  induction tokens with
  | nil => simp [Has, value?]
  | cons token rest ih =>
      cases token with
      | lit letter => simpa [Has, next] using ih
      | param name => simp [Has]
      | rest name => simp [Has]

omit [DecidableEq α] in
theorem not_has_void (tokens : List (Token α)) (v : V) : ¬ Has void tokens v := by
  rcases tokens with _ | ⟨letter | name | name, rest⟩
  · simp [Has, void]
  · exact not_has_absent rest v
  · simp [Has, void]
  · simp [Has, void]

omit [DecidableEq α] in
theorem not_has_param_of_plain {t : Trie α V} (hplain : t.plain) (name : List α)
    (tokens : List (Token α)) (v : V) : ¬ t.Has (.param name :: tokens) v := by
  cases t <;> simp_all [plain, Has]

omit [DecidableEq α] in
theorem not_has_rest_of_plain {t : Trie α V} (hplain : t.plain) (name : List α)
    (tokens : List (Token α)) (v : V) : ¬ t.Has (.rest name :: tokens) v := by
  cases t <;> simp_all [plain, Has]

/-- What a trie into which a parameter can be inserted has, apart from the
value of its top position. -/
theorem has_param_of_sub? {t sub : Trie α V} {name : List α} (hsub : t.sub? name = some sub)
    (name' : List α) (tokens : List (Token α)) (v : V) :
    t.Has (.param name' :: tokens) v ↔ name = name' ∧ sub.Has tokens v := by
  cases t with
  | absent =>
      simp only [sub?, Option.some.injEq] at hsub
      subst hsub
      simp [Has, not_has_void]
  | leaf value =>
      simp only [sub?, Option.some.injEq] at hsub
      subst hsub
      simp [Has, not_has_void]
  | param value held s =>
      simp only [sub?, Option.ite_none_right_eq_some, Option.some.injEq] at hsub
      obtain ⟨rfl, rfl⟩ := hsub
      simp [Has]
  | static value next => simp [sub?] at hsub
  | rest held value => simp [sub?] at hsub

theorem next_of_sub? {t sub : Trie α V} {name : List α} (hsub : t.sub? name = some sub)
    (letter : α) : t.next letter = absent := by
  cases t <;> first | rfl | simp [sub?] at hsub

theorem not_has_rest_of_sub? {t sub : Trie α V} {name : List α} (hsub : t.sub? name = some sub)
    (name' : List α) (tokens : List (Token α)) (v : V) : ¬ t.Has (.rest name' :: tokens) v := by
  cases t <;> simp [sub?, Has] at hsub ⊢

/-! The ways an insertion goes on, by the first token. -/

theorem insert_lit_eq_some {t t' : Trie α V} {letter : α} {tokens : List (Token α)} {v : V} :
    t.insert (.lit letter :: tokens) v = some t' ↔
      t.plain ∧ ∃ next', (t.next letter).insert tokens v = some next' ∧
        static t.value? (Function.update t.next letter next') = t' := by
  simp only [insert, Option.ite_none_right_eq_some, Option.map_eq_some_iff]

theorem insert_param_eq_some {t t' : Trie α V} {name : List α} {tokens : List (Token α)} {v : V} :
    t.insert (.param name :: tokens) v = some t' ↔
      ∃ sub, t.sub? name = some sub ∧ ∃ sub', sub.insert tokens v = some sub' ∧
        param t.value? name sub' = t' := by
  simp only [insert, Option.bind_eq_some_iff, Option.map_eq_some_iff]

theorem insert_rest_eq_some {t t' : Trie α V} {name : List α} {tokens : List (Token α)} {v : V} :
    t.insert (.rest name :: tokens) v = some t' ↔
      t = absent ∧ tokens = [] ∧ rest name (some v) = t' := by
  cases t <;> cases tokens <;> simp [insert]

theorem insert_nil_eq_some {t t' : Trie α V} {v : V} :
    t.insert [] v = some t' ↔ t.free ∧ t.withValue v = t' := by
  simp only [insert, Option.ite_none_right_eq_some, Option.some.injEq]

/-- **An insertion adds exactly the inserted pattern.** -/
theorem insert_has {t t' : Trie α V} {tokens : List (Token α)} {v : V}
    (hinsert : t.insert tokens v = some t') (tokens' : List (Token α)) (w : V) :
    t'.Has tokens' w ↔ t.Has tokens' w ∨ tokens' = tokens ∧ w = v := by
  induction tokens generalizing t t' tokens' with
  | nil =>
      obtain ⟨hfree, rfl⟩ := insert_nil_eq_some.mp hinsert
      rcases tokens' with _ | ⟨letter | name | name, rest⟩
      · simp [Has, value?_withValue hfree, value?_of_free hfree, eq_comm]
      · simp [Has]
      · cases t <;> simp [Has, withValue]
      · cases t <;> simp [Has, withValue]
  | cons token rest ih =>
      cases token with
      | lit letter =>
          obtain ⟨hplain, next', hnext, rfl⟩ := insert_lit_eq_some.mp hinsert
          rcases tokens' with _ | ⟨letter' | name | name, rest'⟩
          · simp [Has, value?]
          · by_cases hsame : letter' = letter
            · subst hsame
              simpa [Has, next] using ih hnext rest'
            · simp [Has, next, hsame]
          · simp [Has, not_has_param_of_plain hplain]
          · simp [Has, not_has_rest_of_plain hplain]
      | param name =>
          obtain ⟨sub, hsub, sub', hinsert', rfl⟩ := insert_param_eq_some.mp hinsert
          rcases tokens' with _ | ⟨letter' | name' | name', rest'⟩
          · simp [Has, value?]
          · simp only [Has, next_of_sub? hsub, not_has_absent, false_or, List.cons.injEq,
              reduceCtorEq, false_and]
            exact iff_of_false (not_has_absent _ _) not_false
          · rw [has_param_of_sub? hsub]
            simp only [Has, ih hinsert' rest', List.cons.injEq, Token.param.injEq, eq_comm]
            tauto
          · simp [Has, not_has_rest_of_sub? hsub]
      | rest name =>
          obtain ⟨rfl, rfl, rfl⟩ := insert_rest_eq_some.mp hinsert
          rcases tokens' with _ | ⟨letter' | name' | name', _ | ⟨token', rest'⟩⟩ <;>
            simp [Has, next, value?, not_has_absent, eq_comm]

/-! ## The order of insertions -/

omit [DecidableEq α] in
theorem free_of_plain {t : Trie α V} (hplain : t.plain) (hvalue : t.value? = none) : t.free := by
  cases t <;> simp_all [free, plain]

theorem free_of_sub? {t sub : Trie α V} {name : List α} (hsub : t.sub? name = some sub)
    (hvalue : t.value? = none) : t.free := by
  cases t <;> simp_all [free, sub?]

/-- **Insertions commute.**  Two insertions that succeed in one order succeed in
the other, with the same result. -/
theorem insert_comm {t t₁ t₂ : Trie α V} {p q : List (Token α)} {v w : V}
    (hfirst : t.insert p v = some t₁) (hsecond : t₁.insert q w = some t₂) :
    ∃ t₁', t.insert q w = some t₁' ∧ t₁'.insert p v = some t₂ := by
  induction p generalizing t t₁ t₂ q with
  | nil =>
      obtain ⟨hfree, rfl⟩ := insert_nil_eq_some.mp hfirst
      have hvalue := value?_of_free hfree
      rcases q with _ | ⟨letter | name | name, rest⟩
      · simp [insert, free_withValue] at hsecond
      · obtain ⟨hplain, next', hnext, rfl⟩ := insert_lit_eq_some.mp hsecond
        simp only [plain_withValue, next_withValue] at hplain hnext ⊢
        refine ⟨_, insert_lit_eq_some.mpr ⟨hplain, next', hnext, rfl⟩, ?_⟩
        simp [insert, hvalue, value?_withValue hfree]
      · obtain ⟨sub, hsub, sub', hinsert, rfl⟩ := insert_param_eq_some.mp hsecond
        rw [sub?_withValue] at hsub
        refine ⟨_, insert_param_eq_some.mpr ⟨sub, hsub, sub', hinsert, rfl⟩, ?_⟩
        simp [insert, hvalue, value?_withValue hfree]
      · obtain ⟨habsent, -, -⟩ := insert_rest_eq_some.mp hsecond
        cases t <;> simp [withValue] at habsent
  | cons token rest ih =>
      cases token with
      | lit letter =>
          obtain ⟨hplain, next', hnext, rfl⟩ := insert_lit_eq_some.mp hfirst
          rcases q with _ | ⟨letter' | name | name, rest'⟩
          · obtain ⟨hfree, rfl⟩ := insert_nil_eq_some.mp hsecond
            have hvalue : t.value? = none := by simpa using hfree
            have htfree := free_of_plain hplain hvalue
            refine ⟨_, insert_nil_eq_some.mpr ⟨htfree, rfl⟩, ?_⟩
            refine insert_lit_eq_some.mpr ⟨by simpa using hplain, next', by simpa using hnext, ?_⟩
            simp [value?_withValue htfree]
          · obtain ⟨-, next'', hnext', rfl⟩ := insert_lit_eq_some.mp hsecond
            by_cases hsame : letter' = letter
            · -- both patterns go on behind the same literal
              subst hsame
              simp only [next, Function.update_self] at hnext'
              obtain ⟨mid, hmid, hend⟩ := ih hnext hnext'
              refine ⟨_, insert_lit_eq_some.mpr ⟨hplain, mid, hmid, rfl⟩, ?_⟩
              refine insert_lit_eq_some.mpr ⟨rfl, next'', by simpa [next] using hend, ?_⟩
              simp [next, value?]
            · simp only [next, Function.update_of_ne hsame] at hnext'
              refine ⟨_, insert_lit_eq_some.mpr ⟨hplain, next'', hnext', rfl⟩, ?_⟩
              refine insert_lit_eq_some.mpr ⟨rfl, next', ?_, ?_⟩
              · simpa [next, Function.update_of_ne (Ne.symm hsame)] using hnext
              · simp [next, value?, Function.update_comm hsame]
          · simp [insert, sub?] at hsecond
          · simp [insert] at hsecond
      | param name =>
          obtain ⟨sub, hsub, sub', hinsert, rfl⟩ := insert_param_eq_some.mp hfirst
          rcases q with _ | ⟨letter' | name' | name', rest'⟩
          · obtain ⟨hfree, rfl⟩ := insert_nil_eq_some.mp hsecond
            have hvalue : t.value? = none := by simpa using hfree
            have htfree := free_of_sub? hsub hvalue
            refine ⟨_, insert_nil_eq_some.mpr ⟨htfree, rfl⟩, ?_⟩
            refine insert_param_eq_some.mpr
              ⟨sub, by rw [sub?_withValue]; exact hsub, sub', hinsert, ?_⟩
            simp [value?_withValue htfree]
          · simp [insert, plain] at hsecond
          · obtain ⟨held, hheld, sub'', hinsert', rfl⟩ := insert_param_eq_some.mp hsecond
            simp only [sub?, Option.ite_none_right_eq_some, Option.some.injEq] at hheld
            obtain ⟨rfl, rfl⟩ := hheld
            obtain ⟨mid, hmid, hend⟩ := ih hinsert hinsert'
            refine ⟨_, insert_param_eq_some.mpr ⟨sub, hsub, mid, hmid, rfl⟩, ?_⟩
            exact insert_param_eq_some.mpr ⟨mid, by simp [sub?], sub'', hend, rfl⟩
          · simp [insert] at hsecond
      | rest name =>
          obtain ⟨rfl, rfl, rfl⟩ := insert_rest_eq_some.mp hfirst
          rcases q with _ | ⟨letter' | name' | name', rest'⟩ <;>
            simp [insert, free, plain, sub?] at hsecond

/-! ## Looking up a text -/

theorem takeWhile_ne_append {sep : α} {value : List α} (hsep : sep ∉ value) (text : List α) :
    (value ++ sep :: text).takeWhile (· ≠ sep) = value ∧
      (value ++ sep :: text).dropWhile (· ≠ sep) = sep :: text := by
  have hkeep : ∀ a ∈ value, decide (a ≠ sep) = true := by
    intro a ha
    simpa using fun heq : a = sep => hsep (heq ▸ ha)
  rw [List.takeWhile_append_of_pos hkeep, List.dropWhile_append_of_pos hkeep]
  simp

theorem takeWhile_ne_self {sep : α} {value : List α} (hsep : sep ∉ value) :
    value.takeWhile (· ≠ sep) = value ∧ value.dropWhile (· ≠ sep) = [] := by
  have hkeep : ∀ a ∈ value, decide (a ≠ sep) = true := by
    intro a ha
    simpa using fun heq : a = sep => hsep (heq ▸ ha)
  exact ⟨List.takeWhile_eq_self_iff.mpr hkeep, List.dropWhile_eq_nil_iff.mpr hkeep⟩

theorem lookup_param (sep : α) (value : Option V) (name : List α) (sub : Trie α V)
    {text : List α} (hne : text ≠ []) :
    (param value name sub).lookup sep text =
      ((sub.lookup sep (text.dropWhile (· ≠ sep))).1,
        (name, text.takeWhile (· ≠ sep)) :: (sub.lookup sep (text.dropWhile (· ≠ sep))).2) := by
  obtain ⟨letter, rest, rfl⟩ := List.exists_cons_of_ne_nil hne
  rfl

theorem lookup_nil_eq_some {sep : α} {t : Trie α V} {v : V} {bindings : List (Binding α)}
    (hplain : t.plain) :
    t.lookup sep [] = (some (some v), bindings) ↔ t.value? = some v ∧ bindings = [] := by
  cases t <;> simp_all [lookup, value?, plain, eq_comm]

theorem lookup_nil_of_value? {sep : α} {t : Trie α V} {v : V} (hvalue : t.value? = some v) :
    t.lookup sep [] = (some (some v), []) := by
  cases t <;> simp_all [lookup, value?]

/-- **Lookup is complete.**  The text of a pattern leads to the value of the
pattern, with the pattern's bindings. -/
theorem lookup_of_binds {sep : α} {t : Trie α V} {tokens : List (Token α)} {text : List α}
    {bindings : List (Binding α)} {v : V} (hhas : t.Has tokens v)
    (hbinds : Binds sep tokens text bindings) : t.lookup sep text = (some (some v), bindings) := by
  induction hbinds generalizing t with
  | nil => exact lookup_nil_of_value? hhas
  | lit hbinds ih =>
      cases t with
      | static value next => exact ih hhas
      | absent | leaf | param | rest => exact absurd hhas (not_has_absent _ _)
  | paramEnd hne hsep =>
      cases t with
      | param held name' sub =>
          obtain ⟨rfl, hsub⟩ := hhas
          rw [lookup_param _ _ _ _ hne, (takeWhile_ne_self hsep).1, (takeWhile_ne_self hsep).2,
            lookup_nil_of_value? hsub]
      | absent | leaf | static | rest => simp [Has] at hhas
  | @param name value tokens text bindings hsep hbinds ih =>
      cases t with
      | param held name' sub =>
          obtain ⟨rfl, hsub⟩ := hhas
          rw [lookup_param _ _ _ _ (by simp), (takeWhile_ne_append hsep _).1,
            (takeWhile_ne_append hsep _).2, ih hsub]
      | absent | leaf | static | rest => simp [Has] at hhas
  | rest =>
      cases t with
      | rest name' value =>
          obtain ⟨rfl, rfl⟩ := hhas
          rfl
      | absent | leaf | static | param => simp [Has] at hhas

/-- **Lookup is sound.**  A value that is found belongs to a pattern that matches
the text, with the bindings that were met. -/
theorem binds_of_lookup {sep : α} {t : Trie α V} (hwf : t.WellFormed) {text : List α}
    {bindings : List (Binding α)} {v : V}
    (hlookup : t.lookup sep text = (some (some v), bindings)) :
    ∃ tokens, t.Has tokens v ∧ Binds sep tokens text bindings := by
  induction hwf generalizing text bindings with
  | absent => simp [lookup] at hlookup
  | @leaf value =>
      cases text with
      | nil =>
          obtain ⟨hvalue, rfl⟩ := (lookup_nil_eq_some rfl).mp hlookup
          exact ⟨[], hvalue, .nil⟩
      | cons letter text => simp [lookup] at hlookup
  | @static value next _ ih =>
      cases text with
      | nil =>
          obtain ⟨hvalue, rfl⟩ := (lookup_nil_eq_some rfl).mp hlookup
          exact ⟨[], hvalue, .nil⟩
      | cons letter text =>
          obtain ⟨tokens, hhas, hbinds⟩ := ih letter hlookup
          exact ⟨.lit letter :: tokens, hhas, .lit hbinds⟩
  | @param value name sub hplain _ ih =>
      cases text with
      | nil =>
          simp only [lookup, Prod.mk.injEq, Option.map_eq_some_iff] at hlookup
          obtain ⟨⟨w, hvalue, hw⟩, rfl⟩ := hlookup
          exact ⟨[], by simpa [Has, hvalue] using hw, .nil⟩
      | cons letter text =>
          rw [lookup_param _ _ _ _ (by simp)] at hlookup
          obtain ⟨hvalue?, rfl⟩ := Prod.mk.inj hlookup
          generalize hvalue : (letter :: text).takeWhile (· ≠ sep) = held at *
          generalize hrest : (letter :: text).dropWhile (· ≠ sep) = left at *
          have hsplit : letter :: text = held ++ left := by
            rw [← hvalue, ← hrest, List.takeWhile_append_dropWhile]
          have hsep : sep ∉ held := by
            intro hmem
            rw [← hvalue] at hmem
            simpa using List.mem_takeWhile_imp hmem
          rcases hfound : sub.lookup sep left with ⟨value?, found⟩
          simp only [hfound] at hvalue? ⊢
          subst hvalue?
          obtain ⟨tokens, hhas, hbinds⟩ := ih hfound
          rw [hsplit]
          -- a plain position has no pattern that starts with a wildcard
          cases hbinds with
          | nil =>
              refine ⟨[.param name], ⟨rfl, hhas⟩, ?_⟩
              rw [List.append_nil]
              exact .paramEnd (by rintro rfl; simp at hsplit) hsep
          | @lit letter' tokens text' _ hbinds =>
              have hletter : letter' = sep := by
                have hhead := List.head?_dropWhile_not (· ≠ sep) (letter :: text)
                rw [hrest] at hhead
                simpa using hhead
              subst hletter
              exact ⟨.param name :: .lit letter' :: tokens, ⟨rfl, hhas⟩, .param hsep (.lit hbinds)⟩
          | paramEnd => exact absurd hhas (not_has_param_of_plain hplain _ _ _)
          | param => exact absurd hhas (not_has_param_of_plain hplain _ _ _)
          | rest => exact absurd hhas (not_has_rest_of_plain hplain _ _ _)
  | @rest name value =>
      simp only [lookup, Prod.mk.injEq, Option.some.injEq] at hlookup
      obtain ⟨rfl, rfl⟩ := hlookup
      exact ⟨[.rest name], ⟨rfl, rfl⟩, .rest⟩

/-- At most one pattern of a trie matches a text. -/
theorem binds_unique {sep : α} {t : Trie α V} {p q : List (Token α)} {text : List α}
    {bindings bindings' : List (Binding α)} {v w : V} (hp : t.Has p v) (hq : t.Has q w)
    (hbinds : Binds sep p text bindings) (hbinds' : Binds sep q text bindings') : p = q := by
  induction hbinds generalizing t q bindings' with
  | nil =>
      generalize htext : [] = whole at hbinds'
      cases hbinds' with
      | nil => rfl
      | lit => simp at htext
      | paramEnd hne => exact absurd htext.symm hne
      | param => simp at htext
      | rest => cases t <;> simp_all [Has, value?]
  | @lit letter tokens text _ hbinds ih =>
      cases t with
      | static value next =>
          generalize htext : letter :: text = whole at hbinds'
          cases hbinds' with
          | nil => simp at htext
          | lit hbinds' =>
              obtain ⟨rfl, rfl⟩ := List.cons.inj htext
              rw [ih hp hq hbinds']
          | paramEnd | param | rest => simp [Has] at hq
      | absent | leaf | param | rest => exact absurd hp (not_has_absent _ _)
  | @paramEnd name value hne hsep =>
      cases t with
      | param held name' sub =>
          cases hbinds' with
          | paramEnd => rw [← hp.1, ← hq.1]
          | param => simp at hsep
          | nil => exact absurd rfl hne
          | lit => exact absurd hq (not_has_absent _ _)
          | rest => simp [Has] at hq
      | absent | leaf | static | rest => simp [Has] at hp
  | @param name value tokens text bindings hsep hbinds ih =>
      cases t with
      | param held name' sub =>
          obtain ⟨rfl, hsub⟩ := hp
          generalize htext : value ++ sep :: text = whole at hbinds'
          cases hbinds' with
          | nil => simp at htext
          | lit => exact absurd hq (not_has_absent _ _)
          | paramEnd _ hsep' => simp [← htext] at hsep'
          | @param name'' value' tokens' text' _ hsep' hbinds' =>
              obtain ⟨rfl, hsub'⟩ := hq
              have hrest : sep :: text = sep :: text' := by
                rw [← (takeWhile_ne_append hsep text).2, htext, (takeWhile_ne_append hsep' text').2]
              rw [ih hsub hsub' (hrest ▸ hbinds')]
          | rest => simp [Has] at hq
      | absent | leaf | static | rest => simp [Has] at hp
  | @rest name text =>
      cases t with
      | rest held value =>
          cases hbinds' with
          | rest => rw [← hp.1, ← hq.1]
          | nil => simp [Has, value?] at hq
          | lit => exact absurd hq (not_has_absent _ _)
          | paramEnd | param => simp [Has] at hq
      | absent | leaf | static | param => simp [Has] at hp

/-- A trie whose catch-alls all have values finds no empty value. -/
theorem lookup_ne_some_none {sep : α} {t : Trie α V} (hloaded : t.Loaded) (text : List α) :
    (t.lookup sep text).1 ≠ some none := by
  induction hloaded generalizing text with
  | absent => simp [lookup]
  | leaf => cases text <;> simp [lookup]
  | static _ ih =>
      cases text with
      | nil => simp [lookup]
      | cons letter text => exact ih letter text
  | param _ ih =>
      cases text with
      | nil => simp [lookup]
      | cons letter text => exact ih _
  | rest => simp [lookup]

/-! ## What insertions preserve -/

/-- Every parameter of the pattern ends it or is followed by the separator. -/
def ParamsSeparated (sep : α) : List (Token α) → Prop
  | [] => True
  | .param _ :: tokens =>
      (tokens = [] ∨ ∃ rest, tokens = .lit sep :: rest) ∧ ParamsSeparated sep tokens
  | _ :: tokens => ParamsSeparated sep tokens

omit [DecidableEq α] in
theorem WellFormed.next {t : Trie α V} (hwf : t.WellFormed) (letter : α) :
    (t.next letter).WellFormed := by
  cases hwf with
  | static hnext => exact hnext letter
  | absent | leaf | param | rest => exact .absent

omit [DecidableEq α] in
theorem Loaded.next {t : Trie α V} (hloaded : t.Loaded) (letter : α) :
    (t.next letter).Loaded := by
  cases hloaded with
  | static hnext => exact hnext letter
  | absent | leaf | param | rest => exact .absent

theorem plain_and_wellFormed_of_sub? {t sub : Trie α V} {name : List α} (hwf : t.WellFormed)
    (hsub : t.sub? name = some sub) : sub.plain ∧ sub.WellFormed := by
  cases hwf with
  | param hplain hwf =>
      simp only [sub?, Option.ite_none_right_eq_some, Option.some.injEq] at hsub
      obtain ⟨-, rfl⟩ := hsub
      exact ⟨hplain, hwf⟩
  | absent | leaf =>
      simp only [sub?, Option.some.injEq] at hsub
      subst hsub
      exact ⟨rfl, .static fun _ => .absent⟩
  | static | rest => simp [sub?] at hsub

theorem WellFormed.insert {sep : α} {t t' : Trie α V} {tokens : List (Token α)} {v : V}
    (hwf : t.WellFormed) (hseparated : ParamsSeparated sep tokens)
    (hinsert : t.insert tokens v = some t') : t'.WellFormed := by
  induction tokens generalizing t t' with
  | nil =>
      obtain ⟨-, rfl⟩ := insert_nil_eq_some.mp hinsert
      cases hwf with
      | absent | leaf => exact .leaf
      | static hnext => exact .static hnext
      | param hplain hwf => exact .param hplain hwf
      | rest => exact .rest
  | cons token rest ih =>
      cases token with
      | lit letter =>
          obtain ⟨-, next', hnext, rfl⟩ := insert_lit_eq_some.mp hinsert
          refine .static fun letter' => ?_
          by_cases hsame : letter' = letter
          · subst hsame
            simpa using ih (hwf.next letter') hseparated hnext
          · simpa [Function.update_of_ne hsame] using hwf.next letter'
      | param name =>
          obtain ⟨sub, hsub, sub', hinsert', rfl⟩ := insert_param_eq_some.mp hinsert
          obtain ⟨hplain, hsubwf⟩ := plain_and_wellFormed_of_sub? hwf hsub
          refine .param ?_ (ih hsubwf hseparated.2 hinsert')
          rcases hseparated.1 with rfl | ⟨rest, rfl⟩
          · obtain ⟨-, rfl⟩ := insert_nil_eq_some.mp hinsert'
            simpa using hplain
          · obtain ⟨-, next', -, rfl⟩ := insert_lit_eq_some.mp hinsert'
            rfl
      | rest name =>
          obtain ⟨-, -, rfl⟩ := insert_rest_eq_some.mp hinsert
          exact .rest

theorem Loaded.insert {t t' : Trie α V} {tokens : List (Token α)} {v : V}
    (hloaded : t.Loaded) (hinsert : t.insert tokens v = some t') : t'.Loaded := by
  induction tokens generalizing t t' with
  | nil =>
      obtain ⟨-, rfl⟩ := insert_nil_eq_some.mp hinsert
      cases hloaded with
      | absent | leaf => exact .leaf
      | static hnext => exact .static hnext
      | param hloaded => exact .param hloaded
      | rest => exact .rest
  | cons token rest ih =>
      cases token with
      | lit letter =>
          obtain ⟨-, next', hnext, rfl⟩ := insert_lit_eq_some.mp hinsert
          refine .static fun letter' => ?_
          by_cases hsame : letter' = letter
          · subst hsame
            simpa using ih (hloaded.next letter') hnext
          · simpa [Function.update_of_ne hsame] using hloaded.next letter'
      | param name =>
          obtain ⟨sub, hsub, sub', hinsert', rfl⟩ := insert_param_eq_some.mp hinsert
          refine .param (ih ?_ hinsert')
          cases hloaded with
          | param hsubloaded =>
              simp only [sub?, Option.ite_none_right_eq_some, Option.some.injEq] at hsub
              exact hsub.2 ▸ hsubloaded
          | absent | leaf =>
              simp only [sub?, Option.some.injEq] at hsub
              exact hsub ▸ .static fun _ => .absent
          | static | rest => simp [sub?] at hsub
      | rest name =>
          obtain ⟨-, -, rfl⟩ := insert_rest_eq_some.mp hinsert
          exact .rest

end Trie

end Eureka.PatternTrie

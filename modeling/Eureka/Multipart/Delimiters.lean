import Eureka.Multipart.Safety

/-!
# Where the data of a part end

The reader looks for the bare boundary and then back over four bytes.  It goes
over the occurrences of the boundary from left to right, none of which overlaps
the one before, and stops at the first that is too near to the front or that
follows `\r\n--`.

`findDashedBoundary_eq_iff`: it stops behind the data of a part exactly if the
data let it (`Delimits`).
-/

namespace Eureka.Multipart

open TextSearch

/-! ## The end of the data -/

/-- What stands behind the data of a part. -/
def closing (boundary : Bytes) : Bytes := delimPrefix ++ boundary

/-- Of the occurrences of the boundary in the data and what stands behind them, the last one is the
end, and those before it are neither in the first four bytes nor behind `\r\n--`; the search begins
at this position. -/
def DelimitsFrom (boundary data : Bytes) (start : ℕ) : Prop :=
  ∃ before, Occurrences (data ++ closing boundary) boundary start (before ++ [data.length + 4]) ∧
    ∀ pos ∈ before, 4 ≤ pos ∧ ¬ delimPrefix <+: (data ++ closing boundary).drop (pos - 4)

def Delimits (boundary data : Bytes) : Prop := DelimitsFrom boundary data 0

variable {boundary data rest : Bytes}

theorem length_delimPrefix : delimPrefix.length = 4 := rfl

theorem length_delimited : (data ++ closing boundary).length = data.length + 4 + boundary.length := by
  rw [closing, List.length_append, List.length_append, length_delimPrefix, Nat.add_assoc]

theorem drop_delimited : (data ++ closing boundary).drop (data.length + 4) = boundary := by
  have hlength : (data ++ delimPrefix).length = data.length + 4 := by
    rw [List.length_append, length_delimPrefix]
  rw [closing, ← List.append_assoc, ← hlength, List.drop_left]

theorem find_ne_none {pos : ℕ} (h : pos ≤ data.length + 4) :
    find (data ++ closing boundary) boundary pos ≠ none := by
  intro hnone
  refine find_eq_none_iff.mp hnone (data.length + 4) h ?_ ?_
  · rw [length_delimited]
    exact Nat.le_add_right _ _
  · rw [drop_delimited]

theorem find_closing_end (hboundary : boundary ≠ []) :
    find (data ++ closing boundary) boundary (data.length + 4 + boundary.length) = none := by
  refine find_eq_none_iff.mpr fun i hi hle hprefix => ?_
  rw [List.drop_eq_nil_of_le (length_delimited ▸ hi), List.prefix_nil] at hprefix
  exact hboundary hprefix

/-- An occurrence of the boundary is not behind the last one. -/
theorem le_of_find {pos xpos : ℕ} (hfind : find (data ++ closing boundary) boundary pos = some xpos) :
    xpos ≤ data.length + 4 := by
  obtain ⟨⟨-, hle, hprefix⟩, -⟩ := find_eq_some_iff.mp hfind
  have hlength := hprefix.length_le
  rw [List.length_drop, length_delimited] at hlength
  rw [length_delimited] at hle
  omega

theorem not_delimitsFrom {pos : ℕ} (hfind : find (data ++ closing boundary) boundary pos = none) :
    ¬ DelimitsFrom boundary data pos := by
  rintro ⟨before, hocc, -⟩
  rw [Occurrences.iff_of_none hfind] at hocc
  exact List.append_ne_nil_of_right_ne_nil _ (List.cons_ne_nil _ _) hocc

theorem delimitsFrom_iff (hboundary : boundary ≠ []) {pos xpos : ℕ}
    (hfind : find (data ++ closing boundary) boundary pos = some xpos) :
    DelimitsFrom boundary data pos ↔ xpos = data.length + 4 ∨
      (4 ≤ xpos ∧ ¬ delimPrefix <+: (data ++ closing boundary).drop (xpos - 4)) ∧
        DelimitsFrom boundary data (xpos + boundary.length) := by
  constructor
  · rintro ⟨before, hocc, hbefore⟩
    obtain ⟨rest, heq, hrest⟩ := (Occurrences.iff_of_some hfind).mp hocc
    cases before with
    | nil =>
        obtain ⟨hxpos, -⟩ := List.cons.inj heq
        exact .inl hxpos.symm
    | cons pos' before =>
        obtain ⟨rfl, rfl⟩ := List.cons.inj heq
        refine .inr ⟨hbefore pos' List.mem_cons_self, before, hrest, fun pos hpos => ?_⟩
        exact hbefore pos (List.mem_cons_of_mem pos' hpos)
  · rintro (rfl | ⟨hxpos, before, hocc, hbefore⟩)
    · exact ⟨[], .next hfind (.missing (find_closing_end hboundary)), List.forall_mem_nil _⟩
    · exact ⟨xpos :: before, .next hfind hocc, List.forall_mem_cons.mpr ⟨hxpos, hbefore⟩⟩

theorem delimPrefix_at_end : delimPrefix <+: (data ++ closing boundary).drop data.length := by
  rw [List.drop_left]
  exact List.prefix_append _ _

theorem delimPrefix_iff {xpos : ℕ} (hnear : 4 ≤ xpos) (hle : xpos ≤ data.length + 4) :
    delimPrefix <+: (data ++ closing boundary ++ rest).drop (xpos - 4) ↔
      delimPrefix <+: (data ++ closing boundary).drop (xpos - 4) := by
  have hlength : xpos ≤ (data ++ closing boundary).length := by
    rw [length_delimited]
    omega
  rw [List.drop_append_of_le_length (by omega)]
  refine ⟨fun h => List.prefix_of_prefix_length_le h (List.prefix_append _ _) ?_, fun h =>
    h.trans (List.prefix_append _ _)⟩
  rw [List.length_drop, length_delimPrefix]
  omega

/-! ## The search -/

variable {esl : EslStrings} {v : StringView} {fuel pos : ℕ}

/-- What is found begins at most two bytes in front of where the search has begun. -/
theorem le_of_findDashedBoundaryFrom {found : ℕ}
    (h : findDashedBoundaryFrom esl v boundary fuel pos = .ok (some found)) : pos ≤ found + 2 := by
  induction fuel generalizing pos with
  | zero => cases h
  | succ fuel ih =>
      rw [findDashedBoundaryFrom] at h
      cases hfind : find v.text boundary pos with
      | none =>
          rw [hfind] at h
          cases h
      | some xpos =>
          obtain ⟨⟨hle, hend, -⟩, -⟩ := find_eq_some_iff.mp hfind
          rw [hfind] at h
          dsimp only at h
          split at h
          next => cases h
          next hnear =>
            have hback : xpos - delimPrefix.length ≤ v.text.length := by omega
            obtain ⟨tail, htail, -, -⟩ := View.substrFrom_spec hback
            rw [htail, View.ok_bind] at h
            split at h
            next =>
              cases h
              have hdashes : dashes.length = 2 := rfl
              omega
            next =>
              have hrest := ih h
              omega

variable (hesl : esl.Lawful)
include hesl

theorem findDashedBoundaryFrom_of_some {xpos : ℕ} (hfind : find v.text boundary pos = some xpos) :
    findDashedBoundaryFrom esl v boundary (fuel + 1) pos =
      if xpos < 4 then .ok none
      else if delimPrefix <+: v.text.drop (xpos - 4) then .ok (some (xpos - 2))
      else findDashedBoundaryFrom esl v boundary fuel (xpos + boundary.length) := by
  have hdashes : dashes.length = 2 := rfl
  have hback : xpos - 4 ≤ v.text.length := by
    obtain ⟨⟨-, hle, -⟩, -⟩ := find_eq_some_iff.mp hfind
    omega
  obtain ⟨tail, htail, -, htext⟩ := View.substrFrom_spec hback
  rw [findDashedBoundaryFrom, hfind]
  dsimp only
  rw [length_delimPrefix, htail, View.ok_bind, htext]
  simp only [hesl.startsWith_iff, hdashes]
  rfl

theorem findDashedBoundaryFrom_eq_iff (hboundary : boundary ≠ [])
    (hv : v.text = data ++ closing boundary ++ rest) (hfuel : v.text.length < fuel + pos)
    (hpos : pos ≤ v.text.length) :
    findDashedBoundaryFrom esl v boundary fuel pos = .ok (some (data.length + 2)) ↔
      DelimitsFrom boundary data pos := by
  have hpositive := List.length_pos_of_ne_nil hboundary
  induction fuel generalizing pos with
  | zero => omega
  | succ fuel ih =>
      cases hfind : find (data ++ closing boundary) boundary pos with
      | none =>
          -- the search has gone over the end of the data
          have hover : ¬ pos ≤ data.length + 4 := fun hle => find_ne_none hle hfind
          refine iff_of_false (fun hsome => ?_) (not_delimitsFrom hfind)
          have hle := le_of_findDashedBoundaryFrom hsome
          omega
      | some xpos =>
          have hle := le_of_find hfind
          have hfind' : find v.text boundary pos = some xpos := hv ▸ find_append hfind rest
          have hroom : xpos + boundary.length ≤ v.text.length := by
            rw [hv, List.length_append, length_delimited]
            omega
          have hstart := (find_eq_some_iff.mp hfind).1.1
          rw [findDashedBoundaryFrom_of_some hesl hfind', delimitsFrom_iff hboundary hfind]
          split
          next hnear =>
            have hxpos : xpos ≠ data.length + 4 := by omega
            simp [hxpos, hnear]
          next hnear =>
            split
            next hprefix =>
              rw [hv, delimPrefix_iff (not_lt.mp hnear) hle] at hprefix
              rw [Except.ok.injEq, Option.some.injEq, or_iff_left fun h => h.1.2 hprefix]
              omega
            next hprefix =>
              rw [hv, delimPrefix_iff (not_lt.mp hnear) hle] at hprefix
              have hxpos : xpos ≠ data.length + 4 := by
                rintro rfl
                exact hprefix delimPrefix_at_end
              have hfuel' : v.text.length < fuel + (xpos + boundary.length) := by omega
              rw [or_iff_right hxpos, and_iff_right ⟨not_lt.mp hnear, hprefix⟩]
              exact ih hfuel' hroom

/-- The search stops behind the data exactly if they delimit themselves. -/
theorem findDashedBoundary_eq_iff (hboundary : boundary ≠ [])
    (hv : v.text = data ++ closing boundary ++ rest) :
    findDashedBoundary esl v boundary = .ok (some (data.length + 2)) ↔ Delimits boundary data :=
  findDashedBoundaryFrom_eq_iff hesl hboundary hv (Nat.lt_succ_self _) (Nat.zero_le _)

/-- **The data are read back exactly if they delimit themselves.** -/
theorem consumeDataPart_iff (hboundary : boundary ≠ [])
    (hv : v.text = data ++ closing boundary ++ rest) :
    ∃ (found w : StringView), consumeDataPart esl boundary v = .ok (some found, w) ∧
      (data ≠ [] → (found.text = data ↔ Delimits boundary data)) ∧
      (data ≠ [] → found.text = data → w.text = dashes ++ (boundary ++ rest)) := by
  obtain ⟨found, hrun, hrange⟩ := findDashedBoundary_spec esl v hboundary
  rw [← findDashedBoundary_eq_iff hesl hboundary hv, hrun, Except.ok.injEq]
  rw [consumeDataPart, Consumer.view_bind, Consumer.lift_bind hrun]
  cases found with
  | none =>
      exact ⟨.null, v, rfl, fun hne => iff_of_false hne.symm (by simp), fun hne h => absurd h.symm hne⟩
  | some pos =>
      obtain ⟨hnewline, hle⟩ := hrange pos rfl
      obtain ⟨front, hfront, -, -, hfrontText⟩ :=
        View.substr_spec (Nat.zero_le v.text.length) pos
      have hlength : front.text.length = pos := by
        rw [hfrontText, List.drop_zero, List.length_take_of_le hle]
      obtain ⟨found, hfound, -, -, hfoundText⟩ :=
        View.removeSuffix_spec (hlength.symm ▸ hnewline)
      obtain ⟨w, hw, -, -, hwText⟩ := View.removePrefix_spec hle
      have htext : found.text = v.text.take (pos - 2) := by
        rw [hfoundText, hlength, hfrontText, List.drop_zero, List.take_take]
        exact congrArg (List.take · v.text) (min_eq_left (Nat.sub_le pos 2))
      have hfound_iff : found.text = data ↔ some pos = some (data.length + 2) := by
        have hnewline2 : newline.length = 2 := rfl
        rw [Option.some.injEq, htext]
        constructor
        · intro heq
          have hcount := congrArg List.length heq
          rw [List.length_take] at hcount
          omega
        · rintro rfl
          rw [Nat.add_sub_cancel, hv, List.append_assoc, List.take_left]
      refine ⟨found, w, ?_, fun _ => hfound_iff, fun _ heq => ?_⟩
      · dsimp only
        rw [Consumer.lift_bind hfront, Consumer.lift_bind hfound, Consumer.bind_of_some]
        · rfl
        · rw [Consumer.skip, hw]
          rfl
      · obtain rfl := Option.some.inj (hfound_iff.mp heq)
        have hdashes : data ++ newline ++ (dashes ++ (boundary ++ rest)) = v.text := by
          have hprefix : newline ++ dashes = delimPrefix := by decide
          rw [hv, closing, ← hprefix]
          simp only [List.append_assoc]
        have hlength' : (data ++ newline).length = data.length + 2 := List.length_append
        rw [hwText, ← hdashes, ← hlength', List.drop_left]

end Eureka.Multipart

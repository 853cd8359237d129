import Eureka.Library.Gregorian
import Eureka.Library.MachineArithmetic

/-!
# The date functions

`DateDiff` counts the days between two dates from the days that are past in their
years, and adds the leap days by a loop from the first year to the second.  The loop
has no rounds when the second year is the earlier one: the leap days between the
years are then left out.

The functions are given for the arithmetic of `int`, in which a result may be undefined,
and for exact integers.

* `dateDiff_eq_some_iff`: what is counted, and which results the way to it has;
* `dates_iff`: the dates for which the difference is right, and those for which the
  weekday is;
* `printCalendar_cells`: the calendar of a month, from 1900 on, in exact integers.
-/

namespace Eureka.Calendar

open Gregorian SignedArithmetic

/-! ## The code -/

/-- What the code computes in. -/
inductive Arithmetic
  | exact
  | int
deriving DecidableEq, Repr

/-- The arithmetic has this result. -/
def Arithmetic.Has : Arithmetic → ℤ → Prop
  | .exact, _ => True
  | .int, x => Fits 32 x

instance : (arithmetic : Arithmetic) → (x : ℤ) → Decidable (arithmetic.Has x)
  | .exact, _ => isTrue trivial
  | .int, x => inferInstanceAs (Decidable (Fits 32 x))

def Arithmetic.result (arithmetic : Arithmetic) (x : ℤ) : Option ℤ :=
  if arithmetic.Has x then some x else none

def isLeapYear (year : ℤ) : Bool :=
  (year.tmod 4 == 0 && year.tmod 100 != 0) || year.tmod 400 == 0

def daysPastPerMonth : List ℕ := [31, 59, 90, 120, 151, 181, 212, 243, 273, 304, 334]

/-- It is `none` when the table is read outside.  The days of a year are an `int` in any case. -/
def getDaysPast (date : Date) : Option ℤ := do
  let days : ℤ ←
    if date.month > 1 then (daysPastPerMonth[date.month - 2]?).map fun past => past + date.day
    else some date.day
  some (if isLeapYear date.year && date.month > 2 then days + 1 else days)

variable (arithmetic : Arithmetic)

/-- The loop over the years from `i` on, with so many rounds. -/
def leapLoop : ℕ → ℤ → ℤ → Option ℤ
  | 0, _, diff => some diff
  | rounds + 1, i, diff => do
      let diff ← if isLeapYear i then arithmetic.result (diff + 1) else some diff
      leapLoop rounds (i + 1) diff

def dateDiff (dateFirst dateSecond : Date) : Option ℤ := do
  let day1 ← getDaysPast dateFirst
  let day2 ← getDaysPast dateSecond
  if dateFirst.year = dateSecond.year then some (day2 - day1)
  else
    let years ← arithmetic.result (dateSecond.year - dateFirst.year)
    let days ← arithmetic.result (years * 365)
    let diff ← arithmetic.result (day2 - day1 + days)
    leapLoop arithmetic years.toNat dateFirst.year diff

def eraDay : Date := ⟨1899, 12, 31⟩

def queryWeekday (date : Date) : Option ℤ := do
  let dayDiff ← dateDiff arithmetic eraDay date
  some (dayDiff.tmod 7)

def daysPerMon : List ℕ := [31, 28, 31, 30, 31, 30, 31, 31, 30, 31, 30, 31]

/-- What is written for the day `i`. -/
def printDay (e : ℤ) (i : ℕ) : List Char :=
  Nat.toDigits 10 i ++ [if (i : ℤ).tmod 7 = e then '\n' else '\t']

/-- What is written for a month that begins on this weekday. -/
def printDays (firstWeekday : ℤ) (daysTotal : ℕ) : List Char :=
  let e := if firstWeekday ≠ 0 then 7 - firstWeekday else 0
  "Sun\tMon\tTue\tWen\tThu\tFri\tSat\n".toList ++
    (List.replicate firstWeekday.toNat '\t' ++ (List.range' 1 daysTotal).flatMap (printDay e))

/-- `PrintCalendar`, with what it writes. -/
def printCalendar (year : ℤ) (month : ℕ) : Option (List Char) := do
  let daysTotal ← if month = 0 then none else daysPerMon[month - 1]?
  let daysTotal := if isLeapYear year && 2 == month then daysTotal + 1 else daysTotal
  let firstWeekday ← queryWeekday arithmetic ⟨year, month, 1⟩
  some (printDays firstWeekday daysTotal)

/-! ## Differences of dates -/

variable {a b d : Date} {year : ℤ}

theorem isLeapYear_iff (year : ℤ) : isLeapYear year = true ↔ IsLeap year := by
  simp [isLeapYear, IsLeap, Int.dvd_iff_tmod_eq_zero]

theorem getDaysPast_eq (h : d.Valid) :
    getDaysPast d = some ((daysBefore d.year d.month + d.day : ℕ) : ℤ) := by
  obtain ⟨year, month, day⟩ := d
  obtain ⟨hpos, hle, -, -⟩ := h
  dsimp only at hpos hle
  have hleap := isLeapYear_iff year
  unfold getDaysPast daysBefore
  interval_cases month
  all_goals
    simp only [Finset.sum_range_succ, Finset.sum_range_zero, monthLength]
    by_cases hyear : IsLeap year <;> simp [hyear, hleap, daysPastPerMonth] <;> omega

theorem dayOfYear_range (h : d.Valid) : 1 ≤ (daysBefore d.year d.month + d.day : ℤ) ∧
    (daysBefore d.year d.month + d.day : ℤ) ≤ 366 := by
  have hwithin := h.within_year
  rw [yearStart_succ, daysBefore_twelve] at hwithin
  unfold Date.number at hwithin
  split_ifs at hwithin <;> omega

variable {arithmetic}

theorem result_eq_some_iff {x y : ℤ} :
    arithmetic.result x = some y ↔ arithmetic.Has x ∧ x = y := by
  rw [Arithmetic.result, Option.ite_none_right_eq_some, Option.some.injEq]

theorem Arithmetic.Has.between {x y z : ℤ} (hx : arithmetic.Has x) (hz : arithmetic.Has z)
    (hxy : x ≤ y) (hyz : y ≤ z) : arithmetic.Has y := by
  cases arithmetic with
  | exact => trivial
  | int => exact ⟨hx.1.trans hxy, hyz.trans_lt hz.2⟩

/-- The loop counts upwards, so its last result is the one that matters. -/
theorem leapLoop_eq_some_iff (rounds : ℕ) (i : ℤ) {diff n : ℤ} (hdiff : arithmetic.Has diff) :
    leapLoop arithmetic rounds i diff = some n ↔
      arithmetic.Has n ∧ n = diff + (leapYears (i + rounds) - leapYears i) := by
  induction rounds generalizing i diff with
  | zero =>
      simp only [leapLoop, Nat.cast_zero, add_zero, sub_self, Option.some.injEq]
      exact ⟨fun h => ⟨h ▸ hdiff, h.symm⟩, fun h => h.2.symm⟩
  | succ rounds ih =>
      have hsucc := leapYears_succ i
      have hyear : i + 1 + (rounds : ℤ) = i + (rounds + 1 : ℕ) := by
        push_cast
        omega
      rw [leapLoop]
      simp only [isLeapYear_iff, Option.bind_eq_bind]
      split_ifs at hsucc ⊢ with hleap
      · rw [Option.bind_eq_some_iff]
        have hmono : leapYears (i + 1) ≤ leapYears (i + 1 + rounds) := leapYears_mono (by omega)
        constructor
        · rintro ⟨next, hnext, hloop⟩
          obtain ⟨hhas, rfl⟩ := result_eq_some_iff.mp hnext
          obtain ⟨hn, rfl⟩ := (ih (i + 1) hhas).mp hloop
          refine ⟨hn, ?_⟩
          rw [hyear]
          omega
        · rintro ⟨hn, rfl⟩
          have hnext : arithmetic.Has (diff + 1) := hdiff.between hn (by omega) (by
            rw [← hyear]
            omega)
          refine ⟨diff + 1, result_eq_some_iff.mpr ⟨hnext, rfl⟩, (ih (i + 1) hnext).mpr ⟨hn, ?_⟩⟩
          rw [hyear]
          omega
      · rw [Option.bind_some, ih (i + 1) hdiff, hyear, hsucc, add_zero]

/-- What `dateDiff` counts: all days, except the leap days when the second year is the earlier
one. -/
def counted (a b : Date) : ℤ :=
  b.number - a.number + (leapYears a.year - leapYears (min a.year b.year))

/-- The results on the way to it. -/
def OnTheWay (arithmetic : Arithmetic) (a b : Date) : Prop :=
  arithmetic.Has (b.year - a.year) ∧ arithmetic.Has ((b.year - a.year) * 365) ∧
    arithmetic.Has ((daysBefore b.year b.month + b.day : ℕ) -
      (daysBefore a.year a.month + a.day : ℕ) + (b.year - a.year) * 365) ∧
    arithmetic.Has (counted a b)

/-- **What is counted.** -/
theorem dateDiff_eq_some_iff (ha : a.Valid) (hb : b.Valid) {n : ℤ} :
    dateDiff arithmetic a b = some n ↔
      (a.year = b.year ∨ OnTheWay arithmetic a b) ∧ counted a b = n := by
  rw [dateDiff, getDaysPast_eq ha, getDaysPast_eq hb]
  dsimp only [Option.bind_eq_bind, Option.bind_some]
  split_ifs with hyears
  · rw [counted, hyears, min_self, Option.some.injEq]
    unfold Date.number
    rw [hyears]
    constructor
    · rintro rfl
      exact ⟨.inl rfl, by omega⟩
    · rintro ⟨-, rfl⟩
      omega
  · have hcount : counted a b = (daysBefore b.year b.month + b.day : ℕ) -
        (daysBefore a.year a.month + a.day : ℕ) + (b.year - a.year) * 365 +
          (leapYears (a.year + (b.year - a.year).toNat) - leapYears a.year) := by
      unfold counted Date.number yearStart
      rcases lt_or_gt_of_ne hyears with hlt | hlt
      · rw [min_eq_left hlt.le, show a.year + ((b.year - a.year).toNat : ℤ) = b.year by omega]
        push_cast
        ring
      · rw [min_eq_right hlt.le, show ((b.year - a.year).toNat : ℤ) = 0 by omega, add_zero]
        push_cast
        ring
    simp only [Option.bind_eq_some_iff, result_eq_some_iff]
    rw [or_iff_right hyears, OnTheWay]
    constructor
    · rintro ⟨years, ⟨hyear, rfl⟩, days, ⟨hdays, rfl⟩, diff, ⟨hdiff, rfl⟩, hloop⟩
      obtain ⟨hn, rfl⟩ := (leapLoop_eq_some_iff _ _ hdiff).mp hloop
      exact ⟨⟨hyear, hdays, hdiff, hcount ▸ hn⟩, hcount⟩
    · rintro ⟨⟨hyear, hdays, hdiff, hn⟩, rfl⟩
      exact ⟨_, ⟨hyear, rfl⟩, _, ⟨hdays, rfl⟩, _, ⟨hdiff, rfl⟩,
        (leapLoop_eq_some_iff _ _ hdiff).mpr ⟨hn, hcount⟩⟩

/-- In `int` it matters only whether the last result fits, as far as the second year is not too much
earlier: in two thousand years the leap days are more than the days of a year. -/
theorem onTheWay_int_iff (ha : a.Valid) (hb : b.Valid) (hyears : -2 ^ 22 ≤ b.year - a.year) :
    OnTheWay .int a b ↔ b.number - a.number < 2 ^ 31 := by
  have hday := dayOfYear_range ha
  have hday' := dayOfYear_range hb
  have hmany : 2000 ≤ b.year - a.year → 366 ≤ leapYears b.year - leapYears a.year := by
    unfold leapYears
    omega
  unfold OnTheWay Arithmetic.Has Fits counted Date.number yearStart
  push_cast
  rcases le_total a.year b.year with hle | hle
  · have hmono := leapYears_mono hle
    rw [min_eq_left hle]
    omega
  · have hmono := leapYears_mono hle
    rw [min_eq_right hle]
    omega

/-! ## Weekdays -/

theorem eraDay_valid : eraDay.Valid := by decide

theorem eraDay_weekday : eraDay.weekday = 0 := by decide

theorem eraDay_number : eraDay.number = 693595 := by decide

theorem queryWeekday_eq_some_iff (hd : d.Valid) {n : ℤ} :
    queryWeekday arithmetic d = some n ↔
      (eraDay.year = d.year ∨ OnTheWay arithmetic eraDay d) ∧ (counted eraDay d).tmod 7 = n := by
  rw [queryWeekday, Option.bind_eq_bind, Option.bind_eq_some_iff]
  simp only [dateDiff_eq_some_iff eraDay_valid hd, Option.some.injEq, and_assoc, exists_and_left,
    exists_eq_left']

theorem counted_nonpos (hd : d.Valid) (hyear : d.year < 1900) : counted eraDay d ≤ 0 := by
  have hwithin := hd.within_year.2
  rw [yearStart_succ, daysBefore_twelve] at hwithin
  have hera : eraDay.year = 1899 := rfl
  rw [counted, eraDay_number, hera, min_eq_right (by omega)]
  unfold yearStart at hwithin
  have hend : leapYears 1899 = 460 := by decide
  rcases (Int.le_of_lt_add_one hyear : d.year ≤ 1899).lt_or_eq with hlt | heq
  · split_ifs at hwithin <;> omega
  · have hcommon : ¬ IsLeap 1899 := by decide
    rw [heq, if_neg hcommon] at hwithin
    rw [heq]
    omega

theorem counted_tmod_of_le (hd : d.Valid) (hyear : 1900 ≤ d.year) :
    (counted eraDay d).tmod 7 = d.weekday := by
  have hera : eraDay.number < d.number :=
    Date.number_lt_of_year_lt eraDay_valid hd (by show (1899 : ℤ) < d.year; omega)
  have hsunday : eraDay.number % 7 = 0 := eraDay_weekday
  rw [counted, min_eq_left (by show (1899 : ℤ) ≤ d.year; omega), sub_self, add_zero,
    Int.tmod_eq_emod_of_nonneg (sub_nonneg.mpr hera.le), Int.sub_emod, hsunday, sub_zero,
    Int.emod_emod]
  rfl

theorem queryWeekday_exact_of_le (hd : d.Valid) (hyear : 1900 ≤ d.year) :
    queryWeekday .exact d = some d.weekday :=
  (queryWeekday_eq_some_iff hd).mpr
    ⟨.inr ⟨trivial, trivial, trivial, trivial⟩, counted_tmod_of_le hd hyear⟩

theorem counted_tmod_iff (hd : d.Valid) :
    (counted eraDay d).tmod 7 = d.weekday ↔
      1900 ≤ d.year ∨ d.weekday = 0 ∧ 7 ∣ leapYears 1899 - leapYears d.year := by
  by_cases hyear : 1900 ≤ d.year
  · exact iff_of_true (counted_tmod_of_le hd hyear) (.inl hyear)
  · have hnonpos := counted_nonpos hd (not_le.mp hyear)
    have hcounted : counted eraDay d =
        d.number - 693595 + (leapYears 1899 - leapYears d.year) := by
      have hera : eraDay.year = 1899 := rfl
      rw [counted, eraDay_number, hera, min_eq_right (by omega)]
    rw [hcounted] at hnonpos ⊢
    rw [or_iff_right hyear, Date.weekday]
    generalize leapYears 1899 - leapYears d.year = leap at hnonpos ⊢
    -- a remainder that is not positive against one that is not negative
    have hrange := Int.emod_nonneg d.number (b := 7) (by decide)
    have hneg := Int.neg_tmod (d.number - 693595 + leap) 7
    rw [Int.tmod_eq_emod_of_nonneg (by omega)] at hneg
    omega

theorem counted_eq_iff : counted a b = b.number - a.number ↔
    ∀ year, b.year ≤ year → year < a.year → ¬ IsLeap year := by
  rw [counted, add_eq_left, sub_eq_zero]
  rcases le_total a.year b.year with hle | hle
  · rw [min_eq_left hle]
    exact iff_of_true rfl fun year hb ha => absurd (hle.trans hb) (not_le.mpr ha)
  · rw [min_eq_right hle, eq_comm]
    exact leapYears_eq_iff hle

theorem dateDiff_daysFrom_iff (ha : a.Valid) (hb : b.Valid) :
    (∃ n, dateDiff .int a b = some n ∧ DaysFrom a b n) ↔
      b.number - a.number < 2 ^ 31 ∧ ∀ year, b.year ≤ year → year < a.year → ¬ IsLeap year := by
  simp only [dateDiff_eq_some_iff ha hb, daysFrom_iff ha hb, and_assoc, exists_and_left,
    exists_eq_left', counted_eq_iff]
  refine and_congr_left fun hcommon => ?_
  -- without a leap year between them the second year is at most eight years earlier
  have hyears : -2 ^ 22 ≤ b.year - a.year := by
    rcases le_total a.year b.year with hle | hle
    · omega
    · have heq := (leapYears_eq_iff hle).mpr hcommon
      unfold leapYears at heq
      omega
  rw [onTheWay_int_iff ha hb hyears, or_iff_right_of_imp]
  intro hyear
  have hday := dayOfYear_range ha
  have hday' := dayOfYear_range hb
  unfold Date.number yearStart
  rw [hyear] at *
  omega

/-- **The dates for which the code is right**, in the arithmetic of `int`. -/
theorem dates_iff (ha : a.Valid) (hb : b.Valid) (hyear : 1 ≤ b.year) :
    ((∃ n, dateDiff .int a b = some n ∧ DaysFrom a b n) ↔
      b.number - a.number < 2 ^ 31 ∧ ∀ year, b.year ≤ year → year < a.year → ¬ IsLeap year) ∧
    (queryWeekday .int b = some b.weekday ↔
      b.number - eraDay.number < 2 ^ 31 ∧
        (1900 ≤ b.year ∨ b.weekday = 0 ∧ 7 ∣ leapYears 1899 - leapYears b.year)) := by
  refine ⟨dateDiff_daysFrom_iff ha hb, ?_⟩
  have hera : eraDay.year = 1899 := rfl
  rw [queryWeekday_eq_some_iff hb, counted_tmod_iff hb,
    onTheWay_int_iff eraDay_valid hb (by omega), or_iff_right_of_imp]
  intro heq
  have hday := dayOfYear_range hb
  have hera := eraDay_number
  unfold Date.number yearStart leapYears at *
  omega

theorem dates_iff_new_years_eve :
    (∃ n, dateDiff .int ⟨1899, 12, 31⟩ ⟨2012, 2, 29⟩ = some n ∧
        DaysFrom ⟨1899, 12, 31⟩ ⟨2012, 2, 29⟩ n) ∧
      queryWeekday .int ⟨2012, 2, 29⟩ = some (Date.weekday ⟨2012, 2, 29⟩) := by
  have hiff := dates_iff (a := ⟨1899, 12, 31⟩) (b := ⟨2012, 2, 29⟩) (by decide) (by decide)
    (by decide)
  have hcommon : ∀ year, (2012 : ℤ) ≤ year → year < 1899 → ¬ IsLeap year :=
    fun year hb ha => absurd (hb.trans_lt ha) (by decide)
  exact ⟨hiff.1.mpr ⟨by decide, hcommon⟩, hiff.2.mpr ⟨by decide, .inl (by decide)⟩⟩

/-- The Saturday in front of the era day, and a leap year that is counted backwards. -/
theorem not_dates : queryWeekday .int ⟨1899, 12, 30⟩ = some (-1) ∧
    Date.weekday ⟨1899, 12, 30⟩ = 6 ∧
    dateDiff .int ⟨1897, 1, 1⟩ ⟨1896, 1, 1⟩ = some (-365) ∧
    DaysFrom ⟨1897, 1, 1⟩ ⟨1896, 1, 1⟩ (-366) :=
  ⟨by decide, by decide, by decide, (daysFrom_iff (by decide) (by decide) _).mpr (by decide)⟩

/-! ## The page of a month -/

/-- A text on a page: the line, the column between the tabs, and the text. -/
structure Cell where
  line : ℕ
  column : ℕ
  text : List Char
deriving DecidableEq, Repr

/-- The cells of a page from a position on, where this part of a cell has been read; what is
empty is left out. -/
def cellsFrom (line column : ℕ) (cell : List Char) : List Char → List Cell
  | [] => if cell = [] then [] else [⟨line, column, cell⟩]
  | ch :: rest =>
      if ch = '\t' then
        (if cell = [] then [] else [⟨line, column, cell⟩]) ++ cellsFrom line (column + 1) [] rest
      else if ch = '\n' then
        (if cell = [] then [] else [⟨line, column, cell⟩]) ++ cellsFrom (line + 1) 0 [] rest
      else cellsFrom line column (cell ++ [ch]) rest

def cells (page : List Char) : List Cell := cellsFrom 0 0 [] page

section Cells

variable {line column : ℕ} {cell text rest : List Char}

theorem cellsFrom_tabs (count : ℕ) : cellsFrom line column [] (List.replicate count '\t' ++ rest) =
    cellsFrom line (column + count) [] rest := by
  induction count generalizing column with
  | zero => rfl
  | succ count ih =>
      rw [List.replicate_succ, List.cons_append, cellsFrom, if_pos rfl, if_pos rfl, List.nil_append,
        ih, Nat.add_assoc, Nat.add_comm 1]

theorem cellsFrom_text (htext : ∀ ch ∈ text, ch ≠ '\t' ∧ ch ≠ '\n') :
    cellsFrom line column cell (text ++ rest) = cellsFrom line column (cell ++ text) rest := by
  induction text generalizing cell with
  | nil => rw [List.nil_append, List.append_nil]
  | cons ch text ih =>
      obtain ⟨⟨htab, hbreak⟩, htext⟩ := List.forall_mem_cons.mp htext
      rw [List.cons_append, cellsFrom, if_neg htab, if_neg hbreak, ih htext, List.append_assoc,
        List.singleton_append]

theorem cellsFrom_day (e : ℤ) (i : ℕ) : cellsFrom line column [] (printDay e i ++ rest) =
    ⟨line, column, Nat.toDigits 10 i⟩ ::
      if (i : ℤ).tmod 7 = e then cellsFrom (line + 1) 0 [] rest
      else cellsFrom line (column + 1) [] rest := by
  have hdigits : ∀ ch ∈ Nat.toDigits 10 i, ch ≠ '\t' ∧ ch ≠ '\n' := by
    intro ch hch
    have hdigit := Nat.isDigit_of_mem_toDigits (by decide) (by decide) hch
    constructor
    · rintro rfl
      cases hdigit
    · rintro rfl
      cases hdigit
  rw [printDay, List.append_assoc, cellsFrom_text hdigits, List.nil_append, List.singleton_append,
    cellsFrom, if_neg Nat.toDigits_ne_nil]
  by_cases hbreak : (i : ℤ).tmod 7 = e
  · rw [if_pos hbreak, if_pos hbreak, if_neg (by decide), if_pos rfl]
    rfl
  · rw [if_neg hbreak, if_neg hbreak, if_pos rfl]
    rfl

end Cells

def dayCell (first day : ℕ) : Cell :=
  ⟨1 + (first + day - 1) / 7, (first + day - 1) % 7, Nat.toDigits 10 day⟩

/-- The weeks end where the code breaks the line. -/
theorem tmod_eq_iff {first : ℕ} (hfirst : first < 7) {e : ℤ}
    (he : e = if (first : ℤ) ≠ 0 then 7 - (first : ℤ) else 0) {day : ℕ} (hday : 1 ≤ day) :
    (day : ℤ).tmod 7 = e ↔ (first + day - 1) % 7 = 6 := by
  rw [Int.tmod_eq_emod_of_nonneg (Int.natCast_nonneg _), he]
  split_ifs <;> omega

/-- The days from one on, by induction on how many there are. -/
theorem cellsFrom_days {first : ℕ} (hfirst : first < 7) {e : ℤ}
    (he : e = if (first : ℤ) ≠ 0 then 7 - (first : ℤ) else 0) (day count : ℕ) (hday : 1 ≤ day) :
    cellsFrom (1 + (first + day - 1) / 7) ((first + day - 1) % 7) []
        ((List.range' day count).flatMap (printDay e)) =
      (List.range' day count).map (dayCell first) := by
  induction count generalizing day with
  | zero => rfl
  | succ count ih =>
      have hnext := ih (day + 1) (Nat.le_add_left 1 day)
      rw [List.range'_succ, List.flatMap_cons, cellsFrom_day, List.map_cons, ← hnext]
      simp only [tmod_eq_iff hfirst he hday]
      congr 1
      split_ifs with hsaturday
      · -- the week ends here
        congr 1 <;> omega
      · congr 1 <;> omega

/-- The names of the weekdays, in the line above. -/
def weekdayCells : List Cell :=
  [⟨0, 0, "Sun".toList⟩, ⟨0, 1, "Mon".toList⟩, ⟨0, 2, "Tue".toList⟩, ⟨0, 3, "Wen".toList⟩,
    ⟨0, 4, "Thu".toList⟩, ⟨0, 5, "Fri".toList⟩, ⟨0, 6, "Sat".toList⟩]

theorem cells_printDays {first : ℕ} (hfirst : first < 7) (daysTotal : ℕ) :
    cells (printDays first daysTotal) =
      weekdayCells ++ (List.range' 1 daysTotal).map (dayCell first) := by
  have hdays := cellsFrom_days hfirst rfl 1 daysTotal le_rfl
  rw [Nat.add_sub_cancel, Nat.div_eq_of_lt hfirst, Nat.mod_eq_of_lt hfirst] at hdays
  have htabs (rest : List Char) :
      cellsFrom 1 0 [] (List.replicate first '\t' ++ rest) = cellsFrom 1 first [] rest := by
    rw [cellsFrom_tabs, Nat.zero_add]
  rw [← hdays, ← htabs]
  rfl

/-- The Saturdays of a month in front of a day. -/
def saturdaysBefore (year : ℤ) (month day : ℕ) : ℕ :=
  (List.range' 1 (day - 1)).countP fun d => Date.weekday ⟨year, month, d⟩ = 6

section Month

variable {month first : ℕ} (hfirst : Date.weekday ⟨year, month, 1⟩ = first)

include hfirst

theorem weekday_day (day : ℕ) :
    Date.weekday ⟨year, month, day + 1⟩ = ((first + day) % 7 : ℕ) := by
  unfold Date.weekday Date.number at *
  push_cast at *
  omega

theorem saturdaysBefore_eq (hseven : first < 7) (day : ℕ) :
    saturdaysBefore year month (day + 1) = (first + day) / 7 := by
  induction day with
  | zero => exact (Nat.div_eq_of_lt hseven).symm
  | succ day ih =>
      have hstep : saturdaysBefore year month (day + 1 + 1) =
          saturdaysBefore year month (day + 1) +
            if Date.weekday ⟨year, month, day + 1⟩ = 6 then 1 else 0 := by
        unfold saturdaysBefore
        rw [Nat.add_sub_cancel, Nat.add_sub_cancel, List.range'_concat, List.countP_append,
          List.countP_singleton]
        simp [Nat.add_comm 1]
      rw [hstep, ih, weekday_day hfirst]
      split_ifs <;> omega

theorem dayCell_eq (hseven : first < 7) {day : ℕ} (hday : 1 ≤ day) : dayCell first day =
    ⟨1 + saturdaysBefore year month day, (Date.weekday ⟨year, month, day⟩).toNat,
      Nat.toDigits 10 day⟩ := by
  obtain ⟨day, rfl⟩ := Nat.exists_eq_add_of_le' hday
  rw [saturdaysBefore_eq hfirst hseven, weekday_day hfirst]
  rfl

theorem printDay_eq (hseven : first < 7) {e : ℤ}
    (he : e = if (first : ℤ) ≠ 0 then 7 - (first : ℤ) else 0) {day : ℕ} (hday : 1 ≤ day) :
    printDay e day = Nat.toDigits 10 day ++
      [if Date.weekday ⟨year, month, day⟩ = 6 then '\n' else '\t'] := by
  have hbreak := tmod_eq_iff hseven he hday
  obtain ⟨day, rfl⟩ := Nat.exists_eq_add_of_le' hday
  rw [printDay, weekday_day hfirst]
  congr 3
  rw [hbreak]
  exact propext (by omega)

end Month

theorem daysTotal_eq {month : ℕ} (hpos : 1 ≤ month) (hle : month ≤ 12) (year : ℤ) :
    ∃ days, daysPerMon[month - 1]? = some days ∧
      (if isLeapYear year && 2 == month then days + 1 else days) = monthLength year month := by
  have hleap := isLeapYear_iff year
  interval_cases month
  all_goals by_cases hyear : IsLeap year <;> simp [hyear, hleap, daysPerMon, monthLength]

/-- The text of a month: the names of the weekdays, tabs up to the first weekday, and the days, with a
line break behind a Saturday and a tab behind every other day. -/
def pageText (year : ℤ) (month : ℕ) : List Char :=
  "Sun\tMon\tTue\tWen\tThu\tFri\tSat\n".toList ++
    (List.replicate (Date.weekday ⟨year, month, 1⟩).toNat '\t' ++
      (List.range' 1 (monthLength year month)).flatMap fun day =>
        Nat.toDigits 10 day ++ [if Date.weekday ⟨year, month, day⟩ = 6 then '\n' else '\t'])

/-- **The calendar of a month**: every day stands once, in order, in the column of its weekday, and
the lines break behind the Saturdays. -/
theorem printCalendar_cells {year : ℤ} {month : ℕ} (hyear : 1900 ≤ year) (hpos : 1 ≤ month)
    (hle : month ≤ 12) :
    ∃ page, printCalendar .exact year month = some page ∧ page = pageText year month ∧
      cells page = weekdayCells ++ (List.range' 1 (monthLength year month)).map fun day =>
        ⟨1 + saturdaysBefore year month day, (Date.weekday ⟨year, month, day⟩).toNat,
          Nat.toDigits 10 day⟩ := by
  have hvalid : (⟨year, month, 1⟩ : Date).Valid :=
    ⟨hpos, hle, le_rfl, monthLength_pos year (Nat.ne_zero_of_lt hpos)⟩
  have hrange := weekday_range ⟨year, month, 1⟩
  obtain ⟨days, hdays, htotal⟩ := daysTotal_eq hpos hle year
  obtain ⟨first, hfirst⟩ := Int.eq_ofNat_of_zero_le hrange.1
  have hseven : first < 7 := by omega
  refine ⟨printDays first (monthLength year month), ?_, ?_, ?_⟩
  · rw [printCalendar, if_neg (Nat.ne_zero_of_lt hpos), hdays]
    dsimp only [Option.bind_eq_bind, Option.bind_some]
    rw [htotal, queryWeekday_exact_of_le hvalid hyear, hfirst]
    rfl
  · have htext : (List.range' 1 (monthLength year month)).flatMap
        (printDay (if (first : ℤ) ≠ 0 then 7 - (first : ℤ) else 0)) = _ :=
      List.flatMap_congr fun day hday =>
        printDay_eq hfirst hseven rfl (List.mem_range'_1.mp hday).1
    unfold printDays pageText
    dsimp only
    rw [htext, hfirst]
  · rw [cells_printDays hseven]
    congr 1
    exact List.map_congr_left fun day hday =>
      dayCell_eq hfirst hseven (List.mem_range'_1.mp hday).1

theorem printCalendar_cells_november :
    ∃ page, printCalendar .exact 2011 11 = some page ∧ page = pageText 2011 11 ∧
      cells page = weekdayCells ++ (List.range' 1 (monthLength 2011 11)).map fun day =>
        ⟨1 + saturdaysBefore 2011 11 day, (Date.weekday ⟨2011, 11, day⟩).toNat,
          Nat.toDigits 10 day⟩ := by
  have hyear : (1900 : ℤ) ≤ 2011 := by decide
  have hpage := printCalendar_cells hyear (show 1 ≤ 11 by decide) (by decide)
  exact hpage

end Eureka.Calendar

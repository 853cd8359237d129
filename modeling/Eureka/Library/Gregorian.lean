import Mathlib

/-!
# The Gregorian calendar

Dates of the proleptic Gregorian calendar.  The calendar itself is `Date.next`, the
date of the next day; `Date.number` counts the days, and day 1 is the first of
January of the year 1, a Monday.

* `number_next`, `number_injective`: the day numbers are those of the calendar;
* `daysFrom_iff`: the days from one date to another, forwards or backwards, are the
  difference of their numbers.
-/

namespace Eureka.Gregorian

def IsLeap (year : ℤ) : Prop := 4 ∣ year ∧ ¬ 100 ∣ year ∨ 400 ∣ year

instance (year : ℤ) : Decidable (IsLeap year) := inferInstanceAs (Decidable (_ ∨ _))

/-- The days of a month; January is month 1. -/
def monthLength (year : ℤ) : ℕ → ℕ
  | 0 => 0
  | 2 => if IsLeap year then 29 else 28
  | 4 => 30
  | 6 => 30
  | 9 => 30
  | 11 => 30
  | _ => 31

structure Date where
  year : ℤ
  month : ℕ
  day : ℕ
deriving DecidableEq, Repr

/-- The days of a year in front of a month. -/
def daysBefore (year : ℤ) (month : ℕ) : ℕ := ∑ m ∈ Finset.range month, monthLength year m

/-- The leap years from year 1 on that are over when this year begins. -/
def leapYears (year : ℤ) : ℤ := (year - 1) / 4 - (year - 1) / 100 + (year - 1) / 400

/-- The days that are over when this year begins. -/
def yearStart (year : ℤ) : ℤ := 365 * (year - 1) + leapYears year

namespace Date

structure Valid (d : Date) : Prop where
  month_pos : 1 ≤ d.month
  month_le : d.month ≤ 12
  day_pos : 1 ≤ d.day
  day_le : d.day ≤ monthLength d.year d.month

instance (d : Date) : Decidable d.Valid :=
  decidable_of_iff (1 ≤ d.month ∧ d.month ≤ 12 ∧ 1 ≤ d.day ∧ d.day ≤ monthLength d.year d.month)
    ⟨fun ⟨h1, h2, h3, h4⟩ => ⟨h1, h2, h3, h4⟩, fun ⟨h1, h2, h3, h4⟩ => ⟨h1, h2, h3, h4⟩⟩

def next (d : Date) : Date :=
  if d.day < monthLength d.year d.month then { d with day := d.day + 1 }
  else if d.month < 12 then ⟨d.year, d.month + 1, 1⟩
  else ⟨d.year + 1, 1, 1⟩

def number (d : Date) : ℤ := yearStart d.year + daysBefore d.year d.month + d.day

/-- The weekday, with 0 for Sunday. -/
def weekday (d : Date) : ℤ := d.number % 7

end Date

/-- There are so many days from one date to another, counted day by day; they are negative if
the second date is the earlier one. -/
def DaysFrom (a b : Date) (n : ℤ) : Prop :=
  ∃ k : ℕ, n = k ∧ Date.next^[k] a = b ∨ n = -k ∧ Date.next^[k] b = a

variable {a b d : Date} {year : ℤ}

/-! ## Years and months -/

theorem monthLength_pos (year : ℤ) {month : ℕ} (hmonth : month ≠ 0) :
    0 < monthLength year month := by
  unfold monthLength
  split
  · exact absurd rfl hmonth
  · split_ifs <;> decide
  all_goals decide

theorem leapYears_succ (year : ℤ) :
    leapYears (year + 1) = leapYears year + if IsLeap year then 1 else 0 := by
  unfold leapYears IsLeap
  split_ifs with h <;> omega

theorem leapYears_mono : Monotone leapYears := by
  apply monotone_int_of_le_succ
  intro year
  rw [leapYears_succ]
  split_ifs <;> omega

/-- No leap day lies between two years. -/
theorem leapYears_eq_iff {first last : ℤ} (hle : first ≤ last) :
    leapYears first = leapYears last ↔ ∀ year, first ≤ year → year < last → ¬ IsLeap year := by
  induction last, hle using Int.leInduction with
  | base => exact iff_of_true rfl fun year hfirst hlast => absurd hlast (not_lt.mpr hfirst)
  | succ last hle ih =>
      have hmono := leapYears_mono hle
      rw [leapYears_succ]
      constructor
      · intro heq year hfirst hlast
        split_ifs at heq with hleap
        · omega
        · rcases (Int.lt_add_one_iff.mp hlast).lt_or_eq with hlt | rfl
          · exact ih.mp (by omega) year hfirst hlt
          · exact hleap
      · intro hnone
        have hbefore := ih.mpr fun year hfirst hlast => hnone year hfirst (by omega)
        rw [if_neg (hnone last hle (by omega)), hbefore, add_zero]

theorem daysBefore_succ (year : ℤ) (month : ℕ) :
    daysBefore year (month + 1) = daysBefore year month + monthLength year month :=
  Finset.sum_range_succ _ _

theorem daysBefore_one (year : ℤ) : daysBefore year 1 = 0 := by
  rw [daysBefore_succ]
  rfl

theorem daysBefore_mono (year : ℤ) : Monotone (daysBefore year) := by
  apply monotone_nat_of_le_succ
  intro month
  rw [daysBefore_succ]
  exact Nat.le_add_right _ _

theorem daysBefore_twelve (year : ℤ) :
    daysBefore year 12 = 334 + if IsLeap year then 1 else 0 := by
  unfold daysBefore
  simp only [Finset.sum_range_succ, Finset.sum_range_zero, monthLength]
  split_ifs <;> rfl

theorem yearStart_succ (year : ℤ) :
    yearStart (year + 1) = yearStart year + (daysBefore year 12 + 31) := by
  have hleap := leapYears_succ year
  have htwelve := daysBefore_twelve year
  unfold yearStart
  split_ifs at hleap htwelve <;> omega

theorem yearStart_mono : Monotone yearStart := by
  apply monotone_int_of_le_succ
  intro year
  rw [yearStart_succ]
  omega

/-! ## The day numbers -/

namespace Date

theorem Valid.next (h : d.Valid) : d.next.Valid := by
  have hmonth := h.month_le
  unfold Date.next
  split_ifs with hday hless
  · exact ⟨h.month_pos, h.month_le, Nat.le_add_left _ _, hday⟩
  · exact ⟨Nat.le_add_left _ _, hless, le_rfl, monthLength_pos d.year (Nat.succ_ne_zero _)⟩
  · exact ⟨le_rfl, Nat.le_add_left 1 11, le_rfl, Nat.le_add_left 1 30⟩

theorem number_next (h : d.Valid) : d.next.number = d.number + 1 := by
  have hday := h.day_le
  have hmonth := h.month_le
  unfold Date.next number
  split_ifs with hinside hless
  · dsimp only
    omega
  · have hmonths := daysBefore_succ d.year d.month
    dsimp only
    omega
  · have hyear := yearStart_succ d.year
    have hfirst := daysBefore_one (d.year + 1)
    have hlast : d.month = 12 := by omega
    rw [hlast] at hday hinside ⊢
    have hlength : monthLength d.year 12 = 31 := rfl
    dsimp only
    omega

theorem Valid.iterate (h : d.Valid) (k : ℕ) : (Date.next^[k] d).Valid := by
  induction k with
  | zero => exact h
  | succ k ih =>
      rw [Function.iterate_succ_apply']
      exact ih.next

theorem number_iterate (h : d.Valid) (k : ℕ) : (Date.next^[k] d).number = d.number + k := by
  induction k with
  | zero => exact (add_zero _).symm
  | succ k ih =>
      rw [Function.iterate_succ_apply', number_next (h.iterate k), ih]
      push_cast
      exact add_assoc _ _ _

theorem Valid.within_month (h : d.Valid) :
    daysBefore d.year d.month + d.day ≤ daysBefore d.year (d.month + 1) := by
  rw [daysBefore_succ]
  exact Nat.add_le_add_left h.day_le _

theorem Valid.within_year (h : d.Valid) :
    yearStart d.year < d.number ∧ d.number ≤ yearStart (d.year + 1) := by
  have hpos := h.day_pos
  have hmonth := h.within_month
  have hyear : daysBefore d.year (d.month + 1) ≤ daysBefore d.year 13 :=
    daysBefore_mono d.year (Nat.succ_le_succ h.month_le)
  have hlast : daysBefore d.year 13 = daysBefore d.year 12 + 31 := daysBefore_succ d.year 12
  rw [yearStart_succ, number]
  constructor
  · omega
  · omega

theorem number_lt_of_year_lt (ha : a.Valid) (hb : b.Valid) (hyear : a.year < b.year) :
    a.number < b.number :=
  calc
    a.number ≤ yearStart (a.year + 1) := ha.within_year.2
    _ ≤ yearStart b.year := yearStart_mono hyear
    _ < b.number := hb.within_year.1

theorem number_lt_of_month_lt (ha : a.Valid) (hb : b.Valid) (hyear : a.year = b.year)
    (hmonth : a.month < b.month) : a.number < b.number := by
  have hmonths : daysBefore b.year (a.month + 1) ≤ daysBefore b.year b.month :=
    daysBefore_mono b.year hmonth
  have hwithin := ha.within_month
  have hpos := hb.day_pos
  rw [hyear] at hwithin
  rw [number, number, hyear]
  omega

/-- **A date is given by its number.** -/
theorem number_injective (ha : a.Valid) (hb : b.Valid) (h : a.number = b.number) : a = b := by
  have hyear : a.year = b.year := by
    rcases lt_trichotomy a.year b.year with hlt | heq | hlt
    · exact absurd h (number_lt_of_year_lt ha hb hlt).ne
    · exact heq
    · exact absurd h (number_lt_of_year_lt hb ha hlt).ne'
  have hmonth : a.month = b.month := by
    rcases lt_trichotomy a.month b.month with hlt | heq | hlt
    · exact absurd h (number_lt_of_month_lt ha hb hyear hlt).ne
    · exact heq
    · exact absurd h (number_lt_of_month_lt hb ha hyear.symm hlt).ne'
  have hday : a.day = b.day := by
    rw [number, number, hyear, hmonth] at h
    omega
  cases a
  cases b
  congr

end Date

/-! ## Counting days -/

theorem iterate_next_iff (ha : a.Valid) (hb : b.Valid) (k : ℕ) :
    Date.next^[k] a = b ↔ b.number = a.number + k := by
  constructor
  · rintro rfl
    exact Date.number_iterate ha k
  · intro h
    exact Date.number_injective (ha.iterate k) hb ((Date.number_iterate ha k).trans h.symm)

/-- **The days from one date to another** are the difference of their numbers. -/
theorem daysFrom_iff (ha : a.Valid) (hb : b.Valid) (n : ℤ) :
    DaysFrom a b n ↔ n = b.number - a.number := by
  constructor
  · rintro ⟨k, ⟨rfl, hforward⟩ | ⟨rfl, hbackward⟩⟩
    · have hnumber := (iterate_next_iff ha hb k).mp hforward
      omega
    · have hnumber := (iterate_next_iff hb ha k).mp hbackward
      omega
  · rintro rfl
    refine ⟨(b.number - a.number).natAbs, ?_⟩
    rw [iterate_next_iff ha hb, iterate_next_iff hb ha]
    omega

theorem weekday_range (d : Date) : 0 ≤ d.weekday ∧ d.weekday < 7 :=
  ⟨Int.emod_nonneg _ (by decide), Int.emod_lt_of_pos _ (by decide)⟩

/-- The first of January 1970 was a Thursday. -/
example : (⟨1970, 1, 1⟩ : Date).weekday = 4 := by decide

end Eureka.Gregorian

import Mathlib

/-!
# Decimal strings

Strings of decimal digits, the first digit first, and the numbers that they stand for.

* `value_append`, `value_lt`: a number by its digits;
* `lt_iff_value_lt`: strings of one length are ordered as their numbers are;
* `toDigits_value`: a string without superfluous zeros is the decimal form of its number;
* `toInteger_digits`, `toInteger_minus`: what `std::stoi` makes of digits.
-/

namespace Eureka.Decimal

def value (s : List Char) : ℕ := Nat.ofDigitChars 10 s 0

def IsDigits (s : List Char) : Prop := ∀ c ∈ s, c.isDigit = true

instance decidableIsDigits (s : List Char) : Decidable (IsDigits s) :=
  decidable_of_iff (s.all Char.isDigit = true) List.all_eq_true

/-- It has a digit, and no superfluous zero in front. -/
structure Canonical (s : List Char) : Prop where
  digits : IsDigits s
  ne_nil : s ≠ []
  no_zero : s.head? = some '0' → s = ['0']

variable {s t : List Char} {c d : Char}

/-! ## Digits -/

theorem digit_range (hc : c.isDigit = true) : 48 ≤ c.toNat ∧ c.toNat ≤ 57 := by
  rw [Char.isDigit, Bool.and_eq_true, decide_eq_true_eq, decide_eq_true_eq] at hc
  exact ⟨UInt32.le_iff_toNat_le.mp hc.1, UInt32.le_iff_toNat_le.mp hc.2⟩

theorem digit_lt_iff (c d : Char) : c < d ↔ c.toNat < d.toNat := Iff.rfl

theorem isDigits_append : IsDigits (s ++ t) ↔ IsDigits s ∧ IsDigits t := List.forall_mem_append

theorem isDigits_cons : IsDigits (c :: s) ↔ c.isDigit = true ∧ IsDigits s := List.forall_mem_cons

theorem isDigits_singleton : IsDigits [c] ↔ c.isDigit = true := List.forall_mem_singleton

theorem isDigits_toDigits (n : ℕ) : IsDigits (Nat.toDigits 10 n) :=
  fun _ hc => Nat.isDigit_of_mem_toDigits (by decide) (by decide) hc

/-! ## Values -/

@[simp] theorem value_toDigits (n : ℕ) : value (Nat.toDigits 10 n) = n :=
  Nat.ofDigitChars_ten_toDigits

theorem value_append (s t : List Char) : value (s ++ t) = value s * 10 ^ t.length + value t := by
  rw [value, Nat.ofDigitChars_append, Nat.ofDigitChars_eq_ofDigitChars_zero, Nat.mul_comm]
  rfl

theorem value_cons (c : Char) (s : List Char) :
    value (c :: s) = (c.toNat - 48) * 10 ^ s.length + value s := by
  rw [value, Nat.ofDigitChars_cons, Nat.ofDigitChars_eq_ofDigitChars_zero, Nat.mul_zero,
    Nat.zero_add, Nat.mul_comm]
  rfl

theorem value_lt (hs : IsDigits s) : value s < 10 ^ s.length := by
  induction s with
  | nil => exact Nat.one_pos
  | cons c s ih =>
      obtain ⟨hc, hs⟩ := isDigits_cons.mp hs
      have hrange := digit_range hc
      have hrest := ih hs
      calc
        value (c :: s) = (c.toNat - 48) * 10 ^ s.length + value s := value_cons c s
        _ < (c.toNat - 48) * 10 ^ s.length + 10 ^ s.length := Nat.add_lt_add_left hrest _
        _ = (c.toNat - 48 + 1) * 10 ^ s.length := (Nat.succ_mul _ _).symm
        _ ≤ 10 * 10 ^ s.length := Nat.mul_le_mul_right _ (by omega)
        _ = 10 ^ (c :: s).length := (pow_succ' 10 _).symm

/-- **The order of strings** of one length is that of their numbers. -/
theorem lt_iff_value_lt (hs : IsDigits s) (ht : IsDigits t) (hlength : s.length = t.length) :
    s < t ↔ value s < value t := by
  induction s generalizing t with
  | nil =>
      obtain rfl := List.length_eq_zero_iff.mp hlength.symm
      exact iff_of_false (List.lt_irrefl []) (lt_irrefl _)
  | cons c s ih =>
      cases t with
      | nil => cases hlength
      | cons d t =>
          obtain ⟨hc, hs⟩ := isDigits_cons.mp hs
          obtain ⟨hd, ht⟩ := isDigits_cons.mp ht
          have hlength := Nat.succ.inj hlength
          have hcrange := digit_range hc
          have hdrange := digit_range hd
          have hslt := value_lt hs
          have htlt := value_lt ht
          rw [List.cons_lt_cons_iff, digit_lt_iff, ih hs ht hlength, value_cons, value_cons]
          rw [hlength] at hslt ⊢
          -- the first digits decide, unless they are the same
          rcases lt_trichotomy c.toNat d.toNat with hlt | heq | hlt
          · have hmul : (c.toNat - 48 + 1) * 10 ^ t.length ≤ (d.toNat - 48) * 10 ^ t.length :=
              Nat.mul_le_mul_right _ (by omega)
            rw [Nat.succ_mul] at hmul
            exact iff_of_true (.inl hlt) (by omega)
          · obtain rfl := Char.toNat_inj.mp heq
            rw [or_iff_right (lt_irrefl _), and_iff_right rfl, Nat.add_lt_add_iff_left]
          · have hmul : (d.toNat - 48 + 1) * 10 ^ t.length ≤ (c.toNat - 48) * 10 ^ t.length :=
              Nat.mul_le_mul_right _ (by omega)
            rw [Nat.succ_mul] at hmul
            refine iff_of_false ?_ (by omega)
            rintro (hless | ⟨rfl, -⟩)
            · omega
            · exact lt_irrefl _ hlt

theorem value_injective (hs : IsDigits s) (ht : IsDigits t) (hlength : s.length = t.length)
    (h : value s = value t) : s = t := by
  have hst := mt (lt_iff_value_lt hs ht hlength).mp h.not_lt
  have hts := mt (lt_iff_value_lt ht hs hlength.symm).mp h.symm.not_lt
  exact le_antisymm (not_lt.mp hts) (not_lt.mp hst)

/-! ## Decimal forms -/

theorem le_value (hs : IsDigits s) (hne : s ≠ []) (hhead : s.head? ≠ some '0') :
    10 ^ (s.length - 1) ≤ value s := by
  cases s with
  | nil => exact absurd rfl hne
  | cons c s =>
      have hrange := digit_range (isDigits_cons.mp hs).1
      have hpos : 1 ≤ c.toNat - 48 := by
        have hzero : c.toNat ≠ 48 := fun heq => hhead (congrArg some (Char.toNat_inj.mp heq))
        omega
      rw [value_cons, List.length_cons, Nat.add_sub_cancel]
      exact Nat.le_add_right_of_le (Nat.le_mul_of_pos_left _ hpos)

theorem length_toDigits {n k : ℕ} (hlow : 10 ^ k ≤ n) (hhigh : n < 10 ^ (k + 1)) :
    (Nat.toDigits 10 n).length = k + 1 := by
  have hle := (Nat.length_toDigits_le_iff (by decide : 1 < 10) (Nat.succ_pos k)).mpr hhigh
  have hpos := Nat.length_toDigits_pos (b := 10) (n := n)
  by_contra hne
  have hless : (Nat.toDigits 10 n).length ≤ k := by omega
  have hlt := (Nat.length_toDigits_le_iff (by decide : 1 < 10) (by omega : 0 < k)).mp hless
  omega

theorem toDigits_value_of_le (hs : IsDigits s) (hne : s ≠ [])
    (hlow : 10 ^ (s.length - 1) ≤ value s) : Nat.toDigits 10 (value s) = s := by
  have hhigh := value_lt hs
  have hlength : s.length - 1 + 1 = s.length := Nat.sub_add_cancel (List.length_pos_iff.mpr hne)
  rw [← hlength] at hhigh
  refine value_injective (isDigits_toDigits _) hs ?_ (value_toDigits _)
  rw [length_toDigits hlow hhigh, hlength]

/-- **A string without superfluous zeros** is the decimal form of its number. -/
theorem toDigits_value (h : Canonical s) : Nat.toDigits 10 (value s) = s := by
  by_cases hhead : s.head? = some '0'
  · rw [h.no_zero hhead]
    rfl
  · exact toDigits_value_of_le h.digits h.ne_nil (le_value h.digits h.ne_nil hhead)

theorem toDigits_canonical (n : ℕ) : Canonical (Nat.toDigits 10 n) where
  digits := isDigits_toDigits n
  ne_nil := Nat.toDigits_ne_nil
  no_zero hhead := by
    cases hdigits : Nat.toDigits 10 n with
    | nil => exact absurd hdigits Nat.toDigits_ne_nil
    | cons c rest =>
        rw [hdigits] at hhead
        obtain rfl := Option.some.inj hhead
        by_contra hne
        have hrest : rest ≠ [] := fun hnil => hne (by rw [hnil])
        have hvalue : value ('0' :: rest) = n := hdigits ▸ value_toDigits n
        have hall := isDigits_cons.mp (hdigits ▸ isDigits_toDigits n)
        have hsmall : n < 10 ^ rest.length := by
          rw [← hvalue, value_cons]
          show 0 * _ + value rest < _
          rw [Nat.zero_mul, Nat.zero_add]
          exact value_lt hall.2
        have hlength := (Nat.length_toDigits_le_iff (by decide : 1 < 10)
          (List.length_pos_iff.mpr hrest)).mpr hsmall
        rw [hdigits, List.length_cons] at hlength
        omega

/-! ## Reading a number -/

/-- The integer, if it is one of the signed type of this width. -/
def represent (width : ℕ) (v : ℤ) : Option ℤ :=
  if -2 ^ (width - 1) ≤ v ∧ v < 2 ^ (width - 1) then some v else none

def isSpace (c : Char) : Bool := c = ' ' ∨ ('\t' ≤ c ∧ c ≤ '\r')

/-- The digits at the front as a number, if there are any. -/
def readDigits (width : ℕ) (negative : Bool) (s : List Char) : Option ℤ :=
  let digits := s.takeWhile Char.isDigit
  if digits = [] then none
  else represent width (if negative then -(value digits : ℤ) else value digits)

/-- A number with spaces and a sign in front and anything behind it, as `std::stoi` and its
companions read it; `none` is an exception. -/
def toInteger (width : ℕ) (s : List Char) : Option ℤ :=
  let s := s.dropWhile isSpace
  if s.head? = some '-' then readDigits width true s.tail
  else if s.head? = some '+' then readDigits width false s.tail
  else readDigits width false s

section Numbers

variable {width : ℕ}

theorem not_isSpace (hc : c.isDigit = true ∨ c = '-') : isSpace c = false := by
  rcases hc with hc | rfl
  · have hrange := digit_range hc
    rw [isSpace, decide_eq_false_iff_not]
    rintro (rfl | ⟨-, hle⟩)
    · exact absurd hrange.1 (by decide)
    · have hle : c.toNat ≤ 13 := hle
      omega
  · rfl

theorem dropWhile_isSpace (hc : c.isDigit = true ∨ c = '-') :
    (c :: s).dropWhile isSpace = c :: s := by
  rw [List.dropWhile_cons, not_isSpace hc, if_neg Bool.false_ne_true]

theorem readDigits_eq (hs : IsDigits s) (hne : s ≠ []) (negative : Bool) :
    readDigits width negative s =
      represent width (if negative then -(value s : ℤ) else value s) := by
  have htake : s.takeWhile Char.isDigit = s := List.takeWhile_eq_self_iff.mpr hs
  simp only [readDigits, htake]
  rw [if_neg hne]

theorem toInteger_minus (hs : IsDigits s) (hne : s ≠ []) :
    toInteger width ('-' :: s) = represent width (-(value s : ℤ)) := by
  rw [toInteger, dropWhile_isSpace (.inr rfl), if_pos List.head?_cons, List.tail_cons,
    readDigits_eq hs hne, if_pos rfl]

theorem toInteger_digits (hs : IsDigits s) (hne : s ≠ []) :
    toInteger width s = represent width (value s) := by
  obtain ⟨c, rest, rfl⟩ := List.exists_cons_of_ne_nil hne
  have hc : c.isDigit = true := hs c List.mem_cons_self
  have hhead {d : Char} (hd : d.isDigit = false) : (c :: rest).head? ≠ some d := by
    intro heq
    obtain rfl := Option.some.inj heq
    rw [hc] at hd
    cases hd
  rw [toInteger, dropWhile_isSpace (.inl hc), if_neg (hhead rfl), if_neg (hhead rfl),
    readDigits_eq hs hne, if_neg Bool.false_ne_true]

end Numbers

end Eureka.Decimal

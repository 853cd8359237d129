import Eureka.Library.Decimal
import Eureka.Library.WhileLoop

/-!
# Products of decimal strings

`multiply` writes the rows of a written multiplication into one string, the low digit
first, and adds each row to the digits of the rows before.

* `Row`: after `j` digits of a row, the digits and the carry stand for what has been added;
* `Rows`: after `i` rows the digits stand for the product with the last `i` digits of
  `num2`, and there are `i + num1.length` of them, or one less;
* `multiply_canonical`: the product, as far as the indexes are values of `int`.
-/

namespace Eureka.Leetcode.MultiplyStrings

open Decimal WhileLoop

/-! ## The code -/

def digit (c : Char) : ℕ := c.toNat - '0'.toNat

def char (d : ℕ) : Char := Char.ofNat (d + '0'.toNat)

/-- The sum of two indexes, which is undefined where it is no `int`. -/
def addIndex (i j : ℕ) : Option ℕ := if i + j < intLimit then some (i + j) else none

/-- The inner loop on the `j`-th digit of `num1` from behind, for the state
`(digits, carry)`. -/
def addDigit (num1 : List Char) (i d2 : ℕ) (s : List Char × ℕ) (j : ℕ) :
    Option (List Char × ℕ) := do
  let (digits, carry) := s
  let c1 ← num1[num1.length - 1 - j]?
  let d1 := digit c1
  let dst ← addIndex i j
  let digits := if dst ≥ digits.length then digits ++ ['0'] else digits
  let c ← digits[dst]?
  let product := d1 * d2 + carry + digit c
  some (digits.set dst (char (product % 10)), product / 10)

/-- The outer loop on the `i`-th digit of `num2` from behind.  Beside the digits stand the
carries that have been appended to them. -/
def addRow (num1 num2 : List Char) (s : List Char × List ℕ) (i : ℕ) :
    Option (List Char × List ℕ) := do
  let (digits, appended) := s
  let c2 ← num2[num2.length - 1 - i]?
  let d2 := digit c2
  let (digits, carry) ← countedLoop intLimit (addDigit num1 i d2) 0 num1.length (digits, 0)
  some (if carry > 0 then (digits ++ [char carry], appended ++ [carry]) else (digits, appended))

/-- The product, with the carries that have been appended. -/
def multiply (num1 num2 : List Char) : Option (List Char × List ℕ) := do
  if num1 = ['0'] ∨ num2 = ['0'] then some (['0'], [])
  else
    let (num1, num2) := if num1.length > num2.length then (num2, num1) else (num1, num2)
    let (digits, appended) ← countedLoop intLimit (addRow num1 num2) 0 num2.length ([], [])
    some (digits.reverse, appended)

/-! ## Digits, the low one first -/

variable {digits num1 num2 s : List Char}

/-- The number of digits whose low one comes first. -/
def low (digits : List Char) : ℕ := value digits.reverse

theorem digit_char {d : ℕ} (hd : d < 10) : digit (char d) = d ∧ (char d).isDigit = true := by
  interval_cases d <;> exact ⟨rfl, rfl⟩

theorem digit_lt {c : Char} (hc : c.isDigit = true) : digit c < 10 := by
  have hrange := digit_range hc
  rw [digit]
  show c.toNat - 48 < 10
  omega

theorem low_append (s t : List Char) : low (s ++ t) = low s + 10 ^ s.length * low t := by
  rw [low, List.reverse_append, value_append, List.length_reverse, Nat.add_comm, Nat.mul_comm]
  rfl

theorem low_singleton (c : Char) : low [c] = digit c := by
  rw [low, List.reverse_singleton, value_cons, List.length_nil, pow_zero, Nat.mul_one]
  rfl

theorem isDigits_set (hs : IsDigits s) {k : ℕ} {c : Char} (hc : c.isDigit = true) :
    IsDigits (s.set k c) := by
  intro c' hc'
  rcases List.mem_or_eq_of_mem_set hc' with hmem | rfl
  · exact hs c' hmem
  · exact hc

theorem low_set {k : ℕ} {c : Char} (hc : s[k]? = some c) (c' : Char) :
    low (s.set k c') + 10 ^ k * digit c = low s + 10 ^ k * digit c' := by
  obtain ⟨hk, hget⟩ := List.getElem?_eq_some_iff.mp hc
  have hsplit : s = s.take k ++ ([c] ++ s.drop (k + 1)) := by
    rw [List.singleton_append, ← hget, List.getElem_cons_drop, List.take_append_drop]
  have hset : s.set k c' = s.take k ++ ([c'] ++ s.drop (k + 1)) :=
    List.set_eq_take_append_cons_drop.trans (if_pos hk)
  have hlength : (s.take k).length = k := List.length_take_of_le hk.le
  conv_rhs => rw [hsplit]
  rw [hset, low_append, low_append, low_append, low_append, low_singleton, low_singleton, hlength]
  simp only [List.length_singleton]
  ring

theorem value_drop {i : ℕ} (hi : i < s.length) :
    ∃ c ∈ s, s[s.length - 1 - i]? = some c ∧
      value (s.drop (s.length - (i + 1))) = digit c * 10 ^ i + value (s.drop (s.length - i)) := by
  have hpos : s.length - 1 - i < s.length := by omega
  have hnext : s.length - 1 - i + 1 = s.length - i := by omega
  have hfirst : s.length - (i + 1) = s.length - 1 - i := by omega
  have hrest : (s.drop (s.length - i)).length = i := by
    rw [List.length_drop]
    omega
  refine ⟨s[s.length - 1 - i], List.getElem_mem hpos, List.getElem?_eq_getElem hpos, ?_⟩
  rw [hfirst, List.drop_eq_getElem_cons hpos, hnext, value_cons, hrest]
  rfl

/-! ## A row -/

/-- What the inner loop keeps, with `digits` before the row. -/
structure Row (digits num1 : List Char) (i d2 j : ℕ) (s : List Char × ℕ) : Prop where
  isDigits : IsDigits s.1
  length : s.1.length = max digits.length (i + j)
  carry_lt : s.2 < 10
  low_eq : low s.1 + 10 ^ (i + j) * s.2 =
    low digits + 10 ^ i * (d2 * value (num1.drop (num1.length - j)))

theorem Row.addDigit {i d2 j : ℕ} {s : List Char × ℕ} (h : Row digits num1 i d2 j s)
    (hnum1 : IsDigits num1) (hd2 : d2 < 10) (hj : j < num1.length) (hdst : i + j < intLimit) :
    ∃ s', addDigit num1 i d2 s j = some s' ∧ Row digits num1 i d2 (j + 1) s' := by
  obtain ⟨result, carry⟩ := s
  obtain ⟨hdigits, hlength, hcarry, hlow⟩ := h
  dsimp only at hdigits hlength hcarry hlow
  obtain ⟨c1, hmem, hc1, hvalue⟩ := value_drop hj
  have hd1 : digit c1 ≤ 9 := Nat.le_of_lt_succ (digit_lt (hnum1 c1 hmem))
  -- a zero is appended if there is no digit yet
  obtain ⟨result', hresult', hdigits', hlength', hlow'⟩ :
      ∃ result', (if i + j ≥ result.length then result ++ ['0'] else result) = result' ∧
        IsDigits result' ∧ result'.length = max digits.length (i + (j + 1)) ∧
        low result' = low result := by
    by_cases hend : i + j ≥ result.length
    · refine ⟨result ++ ['0'], if_pos hend, ?_, ?_, ?_⟩
      · exact isDigits_append.mpr ⟨hdigits, isDigits_singleton.mpr rfl⟩
      · rw [List.length_append, List.length_singleton]
        omega
      · rw [low_append, low_singleton]
        exact Nat.add_zero _
    · exact ⟨result, if_neg hend, hdigits, by omega, rfl⟩
  have hinside : i + j < result'.length := by omega
  have hget : result'[i + j]? = some result'[i + j] := List.getElem?_eq_getElem hinside
  have hd : digit result'[i + j] ≤ 9 :=
    Nat.le_of_lt_succ (digit_lt (hdigits' _ (List.getElem_mem hinside)))
  have hproduct : digit c1 * d2 ≤ 9 * 9 := Nat.mul_le_mul hd1 (Nat.le_of_lt_succ hd2)
  set product := digit c1 * d2 + carry + digit result'[i + j] with hdef
  have hchar := digit_char (Nat.mod_lt product (by decide : 0 < 10))
  refine ⟨(result'.set (i + j) (char (product % 10)), product / 10), ?_, ?_, ?_, ?_, ?_⟩
  · rw [MultiplyStrings.addDigit]
    dsimp only [Option.bind_eq_bind]
    rw [hc1, Option.bind_some, addIndex, if_pos hdst, Option.bind_some, hresult', hget]
    rfl
  · exact isDigits_set hdigits' hchar.2
  · rw [List.length_set, hlength']
  · show product / 10 < 10
    omega
  · have hset := low_set hget (char (product % 10))
    rw [hchar.1] at hset
    have hdivmod : product % 10 + 10 * (product / 10) = product := Nat.mod_add_div _ _
    show low (result'.set (i + j) (char (product % 10))) +
      10 ^ (i + j + 1) * (product / 10) = _
    rw [hvalue]
    have hexpand : 10 ^ (i + j) * (product % 10) + 10 ^ (i + j + 1) * (product / 10) =
        10 ^ (i + j) * (digit c1 * d2) + 10 ^ (i + j) * carry +
          10 ^ (i + j) * digit result'[i + j] := by
      calc
        10 ^ (i + j) * (product % 10) + 10 ^ (i + j + 1) * (product / 10)
            = 10 ^ (i + j) * (product % 10 + 10 * (product / 10)) := by ring
        _ = 10 ^ (i + j) * product := by rw [hdivmod]
        _ = _ := by rw [hdef]; ring
    have hright : 10 ^ i * (d2 * (digit c1 * 10 ^ j + value (num1.drop (num1.length - j)))) =
        10 ^ (i + j) * (digit c1 * d2) +
          10 ^ i * (d2 * value (num1.drop (num1.length - j))) := by ring
    rw [hright]
    omega

/-! ## All rows -/

/-- What the outer loop keeps. -/
structure Rows (num1 num2 : List Char) (i : ℕ) (s : List Char × List ℕ) : Prop where
  isDigits : IsDigits s.1
  le_length : i ≤ s.1.length
  length_le : s.1.length ≤ i + num1.length
  low_eq : low s.1 = value num1 * value (num2.drop (num2.length - i))
  /-- The last row ended with a carry, or it added no digit beyond those of `num1`. -/
  full : 1 ≤ i → 10 ^ (i + num1.length - 1) ≤ low s.1 ∨
    s.1.length = i + num1.length - 1
  appended : ∀ carry ∈ s.2, carry < 10

theorem Rows.addRow {i : ℕ} {s : List Char × List ℕ} (h : Rows num1 num2 i s)
    (hnum1 : IsDigits num1) (hne : num1 ≠ []) (hnum2 : IsDigits num2) (hi : i < num2.length)
    (hlengths : num1.length + num2.length ≤ intLimit) :
    ∃ s', addRow num1 num2 s i = some s' ∧ Rows num1 num2 (i + 1) s' := by
  obtain ⟨digits, appended⟩ := s
  obtain ⟨hdigits, hlele, hlenle, hlow, -, happended⟩ := h
  dsimp only at hdigits hlele hlenle hlow happended
  have hpos := List.length_pos_iff.mpr hne
  obtain ⟨c2, hmem, hc2, hvalue⟩ := value_drop hi
  have hd2 := digit_lt (hnum2 c2 hmem)
  have hstart : Row digits num1 i (digit c2) 0 (digits, 0) :=
    ⟨hdigits, (max_eq_left hlele).symm, Nat.succ_pos 9, by simp [value]⟩
  obtain ⟨⟨result, carry⟩, hloop, hrow⟩ := countedLoop_rule (Row digits num1 i (digit c2))
    (by omega : 0 + num1.length < intLimit)
    (fun j hj s hs => hs.addDigit hnum1 hd2 (by omega) (by omega)) hstart
  rw [Nat.zero_add] at hrow
  obtain ⟨hresult, hlength, hcarry, hrowlow⟩ := hrow
  dsimp only at hresult hlength hcarry hrowlow
  rw [max_eq_right hlenle] at hlength
  have hsum : low result + 10 ^ (i + num1.length) * carry =
      value num1 * value (num2.drop (num2.length - (i + 1))) := by
    rw [hrowlow, hlow, hvalue, Nat.sub_self, List.drop_zero]
    ring
  have hstep : MultiplyStrings.addRow num1 num2 (digits, appended) i =
      some (if carry > 0 then (result ++ [char carry], appended ++ [carry])
        else (result, appended)) := by
    rw [MultiplyStrings.addRow]
    dsimp only [Option.bind_eq_bind]
    rw [hc2, Option.bind_some, hloop]
    rfl
  refine ⟨_, hstep, ?_⟩
  by_cases hcarried : carry > 0
  · have hchar := digit_char hcarry
    have hnewlow : low (result ++ [char carry]) =
        low result + 10 ^ (i + num1.length) * carry := by
      rw [low_append, low_singleton, hchar.1, hlength]
    rw [if_pos hcarried]
    refine ⟨isDigits_append.mpr ⟨hresult, isDigits_singleton.mpr hchar.2⟩, ?_, ?_, ?_, ?_, ?_⟩
    · rw [List.length_append, List.length_singleton]
      omega
    · rw [List.length_append, List.length_singleton]
      omega
    · exact hnewlow.trans hsum
    · refine fun _ => .inl ?_
      show 10 ^ (i + 1 + num1.length - 1) ≤ low (result ++ [char carry])
      rw [hnewlow, show i + 1 + num1.length - 1 = i + num1.length by omega]
      exact Nat.le_add_left_of_le (Nat.le_mul_of_pos_right _ hcarried)
    · exact List.forall_mem_append.mpr ⟨happended, by simpa using hcarry⟩
  · rw [if_neg hcarried]
    obtain rfl : carry = 0 := by omega
    refine ⟨hresult, ?_, ?_, ?_, fun _ => .inr ?_, happended⟩
    · show i + 1 ≤ result.length
      omega
    · show result.length ≤ i + 1 + num1.length
      omega
    · exact hsum
    · show result.length = i + 1 + num1.length - 1
      omega

theorem rows (hnum1 : IsDigits num1) (hne : num1 ≠ []) (hnum2 : IsDigits num2)
    (hlengths : num1.length + num2.length ≤ intLimit) :
    ∃ s, countedLoop intLimit (addRow num1 num2) 0 num2.length ([], []) = some s ∧
      Rows num1 num2 num2.length s := by
  have hpos := List.length_pos_iff.mpr hne
  rw [← Nat.zero_add num2.length] at hlengths
  suffices hstart : Rows num1 num2 0 ([], []) by
    have hloop := countedLoop_rule (Rows num1 num2) (by omega : 0 + num2.length < intLimit)
      (fun i hi s hs => hs.addRow hnum1 hne hnum2 (by omega) (by omega)) hstart
    rwa [Nat.zero_add] at hloop
  refine ⟨?_, le_rfl, ?_, ?_, ?_, ?_⟩
  · exact List.forall_mem_nil _
  · exact Nat.zero_le _
  · rw [Nat.sub_zero, List.drop_length]
    exact (Nat.mul_zero _).symm
  · intro hle
    exact absurd hle (by decide)
  · exact List.forall_mem_nil _

/-! ## The product -/

/-- What `multiply` gives: the decimal form of the product, without zeros in front, by carries that
are single digits. -/
def IsProduct (num1 num2 : List Char) (result : List Char × List ℕ) : Prop :=
  Canonical result.1 ∧ result.1 = Nat.toDigits 10 (value num1 * value num2) ∧
    ∀ carry ∈ result.2, carry < 10

theorem Rows.isProduct {s : List Char × List ℕ} (h : Rows num1 num2 num2.length s)
    (hnum1 : Canonical num1) (hnum2 : Canonical num2) (hne1 : num1 ≠ ['0']) (hne2 : num2 ≠ ['0']) :
    IsProduct num1 num2 (s.1.reverse, s.2) := by
  have hpos1 := List.length_pos_iff.mpr hnum1.ne_nil
  have hpos2 := List.length_pos_iff.mpr hnum2.ne_nil
  have hvalue : value s.1.reverse = value num1 * value num2 := by
    rw [← List.drop_zero (l := num2), ← Nat.sub_self num2.length]
    exact h.low_eq
  have hlow : 10 ^ (s.1.reverse.length - 1) ≤ value s.1.reverse := by
    rw [List.length_reverse]
    rcases h.full hpos2 with hcarry | hlength
    · exact (Nat.pow_le_pow_right (by decide) (by have := h.length_le; omega)).trans hcarry
    · -- the product of the smallest numbers of these lengths
      have h1 := le_value hnum1.digits hnum1.ne_nil (mt hnum1.no_zero hne1)
      have h2 := le_value hnum2.digits hnum2.ne_nil (mt hnum2.no_zero hne2)
      calc
        10 ^ (s.1.length - 1) = 10 ^ (num1.length - 1) * 10 ^ (num2.length - 1) := by
          rw [← pow_add]
          congr 1
          omega
        _ ≤ value num1 * value num2 := Nat.mul_le_mul h1 h2
        _ = value s.1.reverse := hvalue.symm
  have hdigits : IsDigits s.1.reverse := fun c hc => h.isDigits c (List.mem_reverse.mp hc)
  have hne : s.1.reverse ≠ [] := by
    have hle := h.le_length
    intro hnil
    rw [List.reverse_eq_nil_iff.mp hnil] at hle
    exact absurd (hpos2.trans_le hle) (Nat.lt_irrefl 0)
  have heq := toDigits_value_of_le hdigits hne hlow
  refine ⟨?_, ?_, h.appended⟩
  · show Canonical s.1.reverse
    rw [← heq]
    exact toDigits_canonical _
  · rw [← hvalue]
    exact heq.symm

/-- **The product** of two decimal strings whose lengths are together at most 2^31. -/
theorem multiply_canonical (hnum1 : Canonical num1) (hnum2 : Canonical num2)
    (hlengths : num1.length + num2.length ≤ intLimit) :
    ∃ result, multiply num1 num2 = some result ∧ IsProduct num1 num2 result := by
  by_cases hzero : num1 = ['0'] ∨ num2 = ['0']
  · refine ⟨(['0'], []), if_pos hzero, toDigits_canonical 0, ?_, List.forall_mem_nil _⟩
    rcases hzero with rfl | rfl
    · exact (congrArg (Nat.toDigits 10) (Nat.zero_mul _)).symm
    · exact (congrArg (Nat.toDigits 10) (Nat.mul_zero _)).symm
  · obtain ⟨hne1, hne2⟩ := not_or.mp hzero
    rw [multiply, if_neg hzero]
    by_cases hswap : num1.length > num2.length
    · obtain ⟨s, hloop, hrows⟩ := rows hnum2.digits hnum2.ne_nil hnum1.digits
        (Nat.add_comm _ _ ▸ hlengths)
      obtain ⟨hcanonical, heq, happended⟩ := hrows.isProduct hnum2 hnum1 hne2 hne1
      refine ⟨_, ?_, hcanonical, ?_, happended⟩
      · rw [if_pos hswap]
        dsimp only [Option.bind_eq_bind]
        rw [hloop]
        rfl
      · rwa [Nat.mul_comm]
    · obtain ⟨s, hloop, hrows⟩ := rows hnum1.digits hnum1.ne_nil hnum2.digits hlengths
      refine ⟨_, ?_, hrows.isProduct hnum1 hnum2 hne1 hne2⟩
      rw [if_neg hswap]
      dsimp only [Option.bind_eq_bind]
      rw [hloop]
      rfl

theorem multiply_canonical_swapped :
    ∃ result, multiply ['9', '8', '7'] ['6', '5'] = some result ∧
      IsProduct ['9', '8', '7'] ['6', '5'] result :=
  multiply_canonical ⟨by decide, by decide, by decide⟩ ⟨by decide, by decide, by decide⟩ (by decide)

theorem canonical_replicate {n : ℕ} (hn : n ≠ 0) : Canonical (List.replicate n '1') where
  digits c hc := by
    rw [List.eq_of_mem_replicate hc]
    rfl
  ne_nil := mt (List.replicate_eq_nil_iff '1').mp hn
  no_zero hhead := by
    rw [List.head?_replicate, if_neg hn] at hhead
    exact absurd (Option.some.inj hhead) (by decide)

/-- A factor of 2^31 ones, which the counter of the outer loop cannot count. -/
theorem multiply_ones :
    Canonical ['1'] ∧ Canonical (List.replicate (2 ^ 31) '1') ∧
      multiply ['1'] (List.replicate (2 ^ 31) '1') = none := by
  have hcanonical : Canonical (List.replicate (2 ^ 31) '1') := canonical_replicate (by decide)
  have hone : Canonical ['1'] := ⟨by decide, by decide, by decide⟩
  have hzero : List.replicate (2 ^ 31) '1' ≠ ['0'] := fun heq =>
    absurd (List.eq_of_mem_replicate (heq ▸ List.mem_singleton_self '0')) (by decide)
  have hswap : ¬ (['1'].length > (List.replicate (2 ^ 31) '1').length) := by
    rw [List.length_replicate]
    decide
  have hloop := countedLoop_eq_none (n := (List.replicate (2 ^ 31) '1').length)
    (addRow ['1'] (List.replicate (2 ^ 31) '1')) ([], []) (by decide : 0 < intLimit)
    (by rw [List.length_replicate, Nat.zero_add]; exact le_rfl)
  refine ⟨hone, hcanonical, ?_⟩
  rw [multiply, if_neg (not_or.mpr ⟨by decide, hzero⟩), if_neg hswap]
  dsimp only [Option.bind_eq_bind]
  rw [hloop]
  rfl

end Eureka.Leetcode.MultiplyStrings

import Eureka.Library.WhileLoop

/-!
# Division by shifts

`divide` divides the absolute values, as `uint64_t`, and restores the sign.  `doDiv`
doubles the divisor as long as the next double is not above the dividend.

* `doDiv_eq`: below `2 ^ 63` the loop ends and the result is the quotient;
* `doDiv_none`: the absolute value of `INT_MIN` wraps to `INT_MIN`, which as a
  `uint64_t` is `2 ^ 64 - 2 ^ 31`.  No double of a divisor is above that, and the
  loop goes on with zero;
* `divide_iff`: the dividends that are divided.
-/

namespace Eureka.Leetcode.DivideTwoIntegers

open WhileLoop

/-! ## The code -/

/-- `m >= (f << 1)`, for the state `(round, f)` of the loop. -/
def canDouble (m : UInt64) (s : UInt64 × UInt64) : Bool := s.2 <<< 1 ≤ m

def double (s : UInt64 × UInt64) : UInt64 × UInt64 := (s.1 <<< 1, s.2 <<< 1)

/-- `do_div`.  It is `none` when the fuel does not suffice. -/
def doDiv : ℕ → UInt64 → UInt64 → Option UInt64
  | 0, _, _ => none
  | fuel + 1, m, n =>
      if m < n then some 0
      else do
        let (round, f) ← whileLoop (canDouble m) double fuel (1, n)
        let rest ← doDiv fuel (m - f) n
        some (round + rest)

def intMin : Int64 := -2147483648

def intMax : Int64 := 2147483647

/-- The sign is restored and the result is brought into an `int`. -/
def restore (dividend divisor : Int32) (quo : Int64) : Int32 :=
  let quo := if decide (dividend < 0) ^^ decide (divisor < 0) then -quo else quo
  let quo := if quo < intMin ∨ quo > intMax then intMax else quo
  quo.toInt32

def divide (fuel : ℕ) (dividend divisor : Int32) : Option Int32 := do
  let m := dividend.abs.toInt64.toUInt64
  let n := divisor.abs.toInt64.toUInt64
  let quo ← doDiv fuel m n
  some (restore dividend divisor quo.toInt64)

/-! ## Dividends below `2 ^ 63` -/

variable {m n : UInt64}

theorem toNat_shift_one (f : UInt64) : (f <<< 1).toNat = 2 * f.toNat % 2 ^ 64 := by
  rw [UInt64.toNat_shiftLeft]
  show f.toNat <<< 1 % 2 ^ 64 = _
  rw [Nat.shiftLeft_eq, pow_one, Nat.mul_comm]

/-- What the loop keeps: `f` is `round` divisors and not above the dividend. -/
structure Doubled (m n : UInt64) (s : UInt64 × UInt64) : Prop where
  round_pos : 1 ≤ s.1.toNat
  eq_mul : s.2.toNat = s.1.toNat * n.toNat
  le_dividend : s.2.toNat ≤ m.toNat

theorem Doubled.double {s : UInt64 × UInt64} (h : Doubled m n s) (hm : m.toNat < 2 ^ 63)
    (hn : 1 ≤ n.toNat) (hcond : canDouble m s = true) :
    Doubled m n (double s) ∧ m.toNat - (double s).2.toNat < m.toNat - s.2.toNat := by
  obtain ⟨hround, hmul, hle⟩ := h
  have hfits : 2 * s.2.toNat % 2 ^ 64 = 2 * s.2.toNat := Nat.mod_eq_of_lt (by omega)
  have hnext : 2 * s.2.toNat ≤ m.toNat := by
    have hshift := UInt64.le_iff_toNat_le.mp (of_decide_eq_true hcond)
    rwa [toNat_shift_one, hfits] at hshift
  have hsmall : s.1.toNat ≤ s.2.toNat := by
    rw [hmul]
    exact Nat.le_mul_of_pos_right _ hn
  have hround' : (s.1 <<< 1).toNat = 2 * s.1.toNat := by
    rw [toNat_shift_one, Nat.mod_eq_of_lt (by omega)]
  have hf' : (s.2 <<< 1).toNat = 2 * s.2.toNat := by rw [toNat_shift_one, hfits]
  refine ⟨⟨?_, ?_, ?_⟩, ?_⟩
  · show 1 ≤ (s.1 <<< 1).toNat
    omega
  · show (s.2 <<< 1).toNat = (s.1 <<< 1).toNat * n.toNat
    rw [hf', hround', hmul, Nat.mul_assoc]
  · show (s.2 <<< 1).toNat ≤ m.toNat
    omega
  · show m.toNat - (s.2 <<< 1).toNat < m.toNat - s.2.toNat
    omega

/-- **The quotient**, with fuel above the dividend. -/
theorem doDiv_eq {fuel : ℕ} (hm : m.toNat < 2 ^ 63) (hn : 1 ≤ n.toNat) (hfuel : m.toNat < fuel) :
    ∃ q, doDiv fuel m n = some q ∧ q.toNat = m.toNat / n.toNat := by
  induction fuel generalizing m with
  | zero => exact absurd hfuel (Nat.not_lt_zero _)
  | succ fuel ih =>
      rw [doDiv]
      by_cases hless : m < n
      · rw [if_pos hless]
        exact ⟨0, rfl, (Nat.div_eq_of_lt (UInt64.lt_iff_toNat_lt.mp hless)).symm⟩
      · have hle : n.toNat ≤ m.toNat := not_lt.mp (mt UInt64.lt_iff_toNat_lt.mpr hless)
        have hstart : Doubled m n (1, n) := ⟨le_rfl, (Nat.one_mul _).symm, hle⟩
        have hvariant : m.toNat - n.toNat < fuel := by omega
        obtain ⟨⟨round, f⟩, hloop, hdoubled, -⟩ :=
          whileLoop_rule (Doubled m n) (fun s => m.toNat - s.2.toNat)
            (fun s hs hcond => hs.double hm hn hcond) hstart hvariant
        obtain ⟨hround, hmul, hf⟩ := hdoubled
        dsimp only at hround hmul hf
        have hpos : 1 ≤ f.toNat := by
          rw [hmul]
          exact Nat.mul_pos hround hn
        have hsub : (m - f).toNat = m.toNat - f.toNat :=
          UInt64.toNat_sub_of_le _ _ (UInt64.le_iff_toNat_le.mpr hf)
        obtain ⟨rest, hrest, hquotient⟩ := ih (m := m - f) (by omega) (by omega)
        have hsum : m.toNat / n.toNat = round.toNat + rest.toNat := by
          have hsplit : m.toNat = m.toNat - f.toNat + n.toNat * round.toNat := by
            rw [Nat.mul_comm, ← hmul, Nat.sub_add_cancel hf]
          rw [hquotient, hsub, Nat.add_comm]
          conv_lhs => rw [hsplit]
          exact Nat.add_mul_div_left _ _ hn
        have hbound : m.toNat / n.toNat ≤ m.toNat := Nat.div_le_self _ _
        refine ⟨round + rest, ?_, ?_⟩
        · rw [if_neg hless, hloop]
          dsimp only [Option.bind_eq_bind, Option.bind_some]
          rw [hrest]
          rfl
        · rw [UInt64.toNat_add, hsum]
          exact Nat.mod_eq_of_lt (by omega)

/-! ## The dividend `INT_MIN` -/

/-- What the loop keeps: a double of a small divisor, or a number that loses its bits at the top. -/
def Overflowing (n : UInt64) (s : UInt64 × UInt64) : Prop :=
  (∃ k ≤ 32, s.2.toNat = n.toNat * 2 ^ k ∧ n.toNat < 2 ^ 31) ∨ 2 ^ 31 ∣ s.2.toNat

theorem Overflowing.double {s : UInt64 × UInt64} (hm : m.toNat = 2 ^ 64 - 2 ^ 31)
    (h : Overflowing n s) : canDouble m s = true ∧ Overflowing n (double s) := by
  have hcond : canDouble m s = true ↔ 2 * s.2.toNat % 2 ^ 64 ≤ 2 ^ 64 - 2 ^ 31 := by
    rw [canDouble, decide_eq_true_eq, UInt64.le_iff_toNat_le, toNat_shift_one, hm]
  have hnext : (DivideTwoIntegers.double s).2.toNat = 2 * s.2.toNat % 2 ^ 64 := toNat_shift_one s.2
  rw [hcond, Overflowing, hnext]
  rcases h with ⟨k, hk, heq, hn⟩ | hdvd
  · have hbound : n.toNat * 2 ^ k < 2 ^ 31 * 2 ^ 32 :=
      Nat.mul_lt_mul_of_lt_of_le hn (Nat.pow_le_pow_right (by decide) hk) (by decide)
    have hdouble : 2 * s.2.toNat = n.toNat * 2 ^ (k + 1) := by
      rw [heq, pow_succ]
      ring
    have hfits : 2 * s.2.toNat % 2 ^ 64 = n.toNat * 2 ^ (k + 1) := by
      rw [← hdouble]
      exact Nat.mod_eq_of_lt (by omega)
    rcases hk.lt_or_eq with hlt | rfl
    · have hsmall : n.toNat * 2 ^ (k + 1) < 2 ^ 31 * 2 ^ 32 :=
        Nat.mul_lt_mul_of_lt_of_le hn (Nat.pow_le_pow_right (by decide) hlt) (by decide)
      rw [hfits]
      exact ⟨by omega, .inl ⟨k + 1, hlt, rfl, hn⟩⟩
    · rw [hfits]
      exact ⟨by omega, .inr ⟨n.toNat * 4, by ring⟩⟩
  · exact ⟨by omega, .inr (by omega)⟩

/-- **The loop does not end.** -/
theorem doDiv_none (fuel : ℕ) (hm : m.toNat = 2 ^ 64 - 2 ^ 31)
    (hn : n.toNat < 2 ^ 31 ∨ n.toNat = 2 ^ 64 - 2 ^ 31) : doDiv fuel m n = none := by
  cases fuel with
  | zero => rfl
  | succ fuel =>
      have hless : ¬ m < n := by
        rw [UInt64.lt_iff_toNat_lt]
        omega
      have hstart : Overflowing n (1, n) := by
        rcases hn with hn | hn
        · exact .inl ⟨0, by decide, (Nat.mul_one _).symm, hn⟩
        · exact .inr (hn ▸ by decide)
      have hloop := whileLoop_eq_none (fun s hs => hs.double hm) fuel hstart
      rw [doDiv, if_neg hless, hloop]
      rfl

/-! ## The operands -/

variable {a b dividend divisor : Int32}

theorem toInt_abs (h : a ≠ .minValue) : a.abs.toInt = a.toInt.natAbs := by
  have hne : a.toBitVec ≠ BitVec.intMin 32 := fun heq => h (Int32.toBitVec_inj.mp heq)
  exact BitVec.toInt_abs_eq_natAbs_of_ne_intMin hne

theorem toNat_abs (h : a ≠ .minValue) : a.abs.toInt64.toUInt64.toNat = a.toInt.natAbs := by
  have habs : a.abs.toInt64.toInt = a.toInt.natAbs := by rw [Int32.toInt_toInt64, toInt_abs h]
  have hnonneg : (0 : Int64) ≤ a.abs.toInt64 := by
    rw [Int64.le_iff_toInt_le, habs]
    exact Int.natCast_nonneg _
  rw [Int64.toNat_toUInt64_of_le hnonneg, ← Int64.toNat_toInt, habs, Int.toNat_natCast]

theorem toNat_abs_minValue :
    (Int32.minValue.abs.toInt64.toUInt64).toNat = 2 ^ 64 - 2 ^ 31 := by decide

theorem natAbs_lt (h : a ≠ .minValue) : a.toInt.natAbs < 2 ^ 31 := by
  have hle := a.le_toInt
  have hlt := a.toInt_lt
  have hne : a.toInt ≠ -2 ^ 31 := fun heq => h (Int32.toInt_inj.mp heq)
  omega

theorem tdiv_eq (a b : ℤ) : a.tdiv b =
    if decide (a < 0) ^^ decide (b < 0) then -((a.natAbs / b.natAbs : ℕ) : ℤ)
    else (a.natAbs / b.natAbs : ℕ) := by
  have hofNat (m : ℕ) : decide (Int.ofNat m < 0) = false :=
    decide_eq_false (Int.natCast_nonneg m).not_gt
  have hnegSucc (m : ℕ) : decide (Int.negSucc m < 0) = true :=
    decide_eq_true (Int.negSucc_lt_zero m)
  cases a <;> cases b <;> simp only [hofNat, hnegSucc] <;> rfl

theorem restore_eq {q : UInt64} (hq : q.toNat = dividend.toInt.natAbs / divisor.toInt.natAbs)
    (hsmall : q.toNat < 2 ^ 31) :
    (restore dividend divisor q.toInt64).toInt = dividend.toInt.tdiv divisor.toInt := by
  have hvalue : q.toInt64.toInt = q.toNat := BitVec.toInt_eq_toNat_of_lt (by
    show 2 * q.toNat < 2 ^ 64
    omega)
  have hneg : (-q.toInt64).toInt = -(q.toNat : ℤ) := by
    rw [Int64.toInt_neg, hvalue]
    exact Int.bmod_eq_of_le (by omega) (by omega)
  have hmin : intMin.toInt = -2 ^ 31 := by decide
  have hmax : intMax.toInt = 2 ^ 31 - 1 := by decide
  have hinside (quo : Int64) (hlow : -2 ^ 31 < quo.toInt) (hhigh : quo.toInt < 2 ^ 31) :
      (if quo < intMin ∨ quo > intMax then intMax else quo).toInt32.toInt = quo.toInt := by
    have hnot : ¬ (quo < intMin ∨ quo > intMax) := by
      rw [gt_iff_lt, Int64.lt_iff_toInt_lt, Int64.lt_iff_toInt_lt, hmin, hmax]
      omega
    rw [if_neg hnot, Int64.toInt_toInt32]
    exact Int.bmod_eq_of_le (by omega) (by omega)
  have hsign (x : Int32) : decide (x < 0) = decide (x.toInt < 0) :=
    decide_eq_decide.mpr Int32.lt_iff_toInt_lt
  rw [restore, tdiv_eq, ← hq, hsign, hsign]
  split
  · rw [hinside _ (by omega) (by omega), hneg]
  · rw [hinside _ (by omega) (by omega), hvalue]

/-- The quotient that is asked for: truncated, and `INT_MAX` where it does not fit. -/
def quotient (dividend divisor : Int32) : ℤ :=
  let q := dividend.toInt.tdiv divisor.toInt
  if -2 ^ 31 ≤ q ∧ q ≤ 2 ^ 31 - 1 then q else 2 ^ 31 - 1

theorem divide_of_ne (hdividend : dividend ≠ .minValue) (hdivisor : divisor ≠ 0) :
    ∃ fuel q, divide fuel dividend divisor = some q ∧ q.toInt = quotient dividend divisor := by
  have hm := toNat_abs hdividend
  have hsmall := natAbs_lt hdividend
  have hpos : 1 ≤ divisor.toInt.natAbs :=
    Int.natAbs_pos.mpr fun hzero => hdivisor (Int32.toInt_inj.mp hzero)
  obtain ⟨hn, hquotient⟩ : 1 ≤ divisor.abs.toInt64.toUInt64.toNat ∧
      dividend.toInt.natAbs / divisor.abs.toInt64.toUInt64.toNat =
        dividend.toInt.natAbs / divisor.toInt.natAbs := by
    by_cases hmin : divisor = .minValue
    · have habs : divisor.toInt.natAbs = 2 ^ 31 := by
        rw [hmin]
        rfl
      rw [habs, hmin, toNat_abs_minValue, Nat.div_eq_of_lt hsmall, Nat.div_eq_of_lt (by omega)]
      exact ⟨by decide, rfl⟩
    · rw [toNat_abs hmin]
      exact ⟨hpos, rfl⟩
  obtain ⟨q, hdiv, hq⟩ := doDiv_eq (m := dividend.abs.toInt64.toUInt64) (by omega) hn
    (Nat.lt_succ_self _)
  rw [hm, hquotient] at hq
  have hbound : q.toNat < 2 ^ 31 := hq ▸ (Nat.div_le_self _ _).trans_lt hsmall
  have hresult := restore_eq hq hbound
  have hlow := (restore dividend divisor q.toInt64).le_toInt
  have hhigh := (restore dividend divisor q.toInt64).toInt_lt
  refine ⟨dividend.abs.toInt64.toUInt64.toNat + 1, restore dividend divisor q.toInt64, ?_, ?_⟩
  · rw [divide, hdiv]
    rfl
  · rw [hresult] at hlow hhigh
    rw [hresult, quotient, if_pos ⟨hlow, by omega⟩]

theorem divide_minValue (fuel : ℕ) (divisor : Int32) : divide fuel .minValue divisor = none := by
  have hn : divisor.abs.toInt64.toUInt64.toNat < 2 ^ 31 ∨
      divisor.abs.toInt64.toUInt64.toNat = 2 ^ 64 - 2 ^ 31 := by
    by_cases hmin : divisor = .minValue
    · exact .inr (hmin ▸ toNat_abs_minValue)
    · exact .inl ((toNat_abs hmin).trans_lt (natAbs_lt hmin))
  rw [divide, doDiv_none fuel toNat_abs_minValue hn]
  rfl

/-- **All dividends but `INT_MIN`** are divided. -/
theorem divide_iff (hdivisor : divisor ≠ 0) :
    (∃ fuel q, divide fuel dividend divisor = some q ∧ q.toInt = quotient dividend divisor) ↔
      dividend ≠ .minValue := by
  constructor
  · rintro ⟨fuel, q, hdivide, -⟩ rfl
    rw [divide_minValue] at hdivide
    cases hdivide
  · intro hdividend
    exact divide_of_ne hdividend hdivisor

theorem divide_iff_seven :
    ∃ fuel q, divide fuel 7 (-2) = some q ∧ q.toInt = quotient 7 (-2) :=
  (divide_iff (by decide)).mpr (by decide)

/-- `INT_MIN / -1` does not fit and is not clamped either. -/
theorem not_divide : quotient .minValue (-1) = 2 ^ 31 - 1 ∧
    ¬ ∃ fuel q, divide fuel .minValue (-1) = some q := by
  refine ⟨by decide, ?_⟩
  rintro ⟨fuel, q, hdivide⟩
  rw [divide_minValue] at hdivide
  cases hdivide

end Eureka.Leetcode.DivideTwoIntegers

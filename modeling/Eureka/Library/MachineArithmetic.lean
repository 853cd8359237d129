import Mathlib

/-!
# Machine arithmetic

Arithmetic of a signed type of `w` bits on exact integers.  An operation whose
result does not fit, or a division by zero, is undefined and stops the
computation; an assertion that fails stops it as well.

* `Fits.tdiv`: a quotient always fits, the one of the least value apart;
* `neverUndefined_add_bind` and its companions take a computation apart into the
  conditions under which none of its operations is undefined.
-/

namespace Eureka.SignedArithmetic

/-- The integer is a value of the signed type of `w` bits. -/
def Fits (w : ℕ) (x : ℤ) : Prop := -2 ^ (w - 1) ≤ x ∧ x < 2 ^ (w - 1)

instance (w : ℕ) (x : ℤ) : Decidable (Fits w x) := inferInstanceAs (Decidable (_ ∧ _))

inductive Stop
  | undefined
  | assertion
deriving DecidableEq, Repr

/-- The exact result, if it is a value. -/
def exact (w : ℕ) (x : ℤ) : Except Stop ℤ := if Fits w x then .ok x else .error .undefined

def add (w : ℕ) (a b : ℤ) : Except Stop ℤ := exact w (a + b)

def sub (w : ℕ) (a b : ℤ) : Except Stop ℤ := exact w (a - b)

def mul (w : ℕ) (a b : ℤ) : Except Stop ℤ := exact w (a * b)

def neg (w : ℕ) (a : ℤ) : Except Stop ℤ := exact w (-a)

def div (w : ℕ) (a b : ℤ) : Except Stop ℤ :=
  if b = 0 then .error .undefined else exact w (a.tdiv b)

def assert (condition : Prop) [Decidable condition] : Except Stop Unit :=
  if condition then .ok () else .error .assertion

variable {w : ℕ} {a b x : ℤ}

/-! ## Results that fit -/

theorem Fits.of_abs_le (ha : Fits w a) (hlow : -2 ^ (w - 1) < a) (hle : |b| ≤ |a|) : Fits w b := by
  have hbound : |a| < 2 ^ (w - 1) := abs_lt.mpr ⟨hlow, ha.2⟩
  obtain ⟨hlow', hhigh⟩ := abs_lt.mp (hle.trans_lt hbound)
  exact ⟨hlow'.le, hhigh⟩

theorem Fits.tdiv (ha : Fits w a) (hlow : -2 ^ (w - 1) < a) (b : ℤ) : Fits w (a.tdiv b) := by
  refine ha.of_abs_le hlow ?_
  rw [Int.abs_eq_natAbs, Int.abs_eq_natAbs]
  exact_mod_cast Int.natAbs_tdiv_le_natAbs a b

/-! ## Results of operations -/

theorem exact_eq_ok_iff {y : ℤ} : exact w x = .ok y ↔ Fits w x ∧ y = x := by
  unfold exact
  split
  · next hfits => exact ⟨fun h => ⟨hfits, (Except.ok.inj h).symm⟩, fun h => by rw [h.2]⟩
  · next hfits => exact iff_of_false nofun fun h => hfits h.1

theorem div_eq_ok_iff {y : ℤ} : div w a b = .ok y ↔ b ≠ 0 ∧ Fits w (a.tdiv b) ∧ y = a.tdiv b := by
  unfold div
  split
  · next hzero => exact iff_of_false nofun fun h => h.1 hzero
  · next hzero => rw [exact_eq_ok_iff, and_iff_right hzero]

theorem assert_eq_ok_iff {condition : Prop} [Decidable condition] :
    assert condition = .ok () ↔ condition := by
  unfold assert
  split
  · next h => exact iff_of_true rfl h
  · next h => exact iff_of_false nofun h

theorem bind_eq_ok_iff {α β : Type} {c : Except Stop α} {f : α → Except Stop β} {y : β} :
    (c >>= f) = .ok y ↔ ∃ a, c = .ok a ∧ f a = .ok y := by
  cases c with
  | error stop => exact iff_of_false nofun fun ⟨_, h, _⟩ => nomatch h
  | ok a => exact ⟨fun h => ⟨a, rfl, h⟩, fun ⟨a', ha, hf⟩ => Except.ok.inj ha ▸ hf⟩

/-! ## Computations without an undefined operation -/

/-- The computation ends with a result or at an assertion. -/
def NeverUndefined {α : Type} (c : Except Stop α) : Prop := c ≠ .error .undefined

section NeverUndefined

variable {α β : Type} {f : ℤ → Except Stop α}

theorem neverUndefined_pure (y : α) : NeverUndefined (pure y : Except Stop α) := nofun

theorem neverUndefined_exact_bind :
    NeverUndefined (exact w x >>= f) ↔ Fits w x ∧ NeverUndefined (f x) := by
  unfold exact
  split
  · next hfits => exact (and_iff_right hfits).symm
  · next hfits => exact iff_of_false (fun h => h rfl) fun h => hfits h.1

theorem neverUndefined_add_bind :
    NeverUndefined (add w a b >>= f) ↔ Fits w (a + b) ∧ NeverUndefined (f (a + b)) :=
  neverUndefined_exact_bind

theorem neverUndefined_sub_bind :
    NeverUndefined (sub w a b >>= f) ↔ Fits w (a - b) ∧ NeverUndefined (f (a - b)) :=
  neverUndefined_exact_bind

theorem neverUndefined_mul_bind :
    NeverUndefined (mul w a b >>= f) ↔ Fits w (a * b) ∧ NeverUndefined (f (a * b)) :=
  neverUndefined_exact_bind

theorem neverUndefined_neg_bind :
    NeverUndefined (neg w a >>= f) ↔ Fits w (-a) ∧ NeverUndefined (f (-a)) :=
  neverUndefined_exact_bind

theorem neverUndefined_div_bind :
    NeverUndefined (div w a b >>= f) ↔
      b ≠ 0 ∧ Fits w (a.tdiv b) ∧ NeverUndefined (f (a.tdiv b)) := by
  unfold div
  split
  · next hzero => exact iff_of_false (fun h => h rfl) fun h => h.1 hzero
  · next hzero => rw [neverUndefined_exact_bind, and_iff_right hzero]

theorem neverUndefined_assert_bind {condition : Prop} [Decidable condition]
    {f : Unit → Except Stop α} :
    NeverUndefined (assert condition >>= f) ↔ (condition → NeverUndefined (f ())) := by
  unfold assert
  split
  · next h => exact ⟨fun hf _ => hf, fun hf => hf h⟩
  · next h => exact iff_of_true nofun fun hcondition => absurd hcondition h

theorem neverUndefined_bind {c : Except Stop β} {f : β → Except Stop α} :
    NeverUndefined (c >>= f) ↔ NeverUndefined c ∧ ∀ y, c = .ok y → NeverUndefined (f y) := by
  cases c with
  | ok y =>
      exact ⟨fun h => ⟨nofun, fun y' hy => Except.ok.inj hy ▸ h⟩, fun h => h.2 y rfl⟩
  | error stop =>
      refine ⟨fun h => ⟨fun hc => h ?_, nofun⟩, fun h hbind => h.1 ?_⟩
      · rw [Except.error.inj hc]
        rfl
      · exact congrArg Except.error (Except.error.inj (α := α) hbind)

end NeverUndefined

end Eureka.SignedArithmetic

/-!
## Arithmetic that wraps around

The operators of a calculator on 64-bit integers, by their exact results: the
sum, the difference, the product and the truncated quotient of two integers,
wrapped around to 64 bits.  Only a division by zero has no result.  A decimal
literal is a value if its number is one.

`Operator.apply_add` and its companions say that the operations of the machine
type are these.
-/

namespace Eureka.WrappingArithmetic

inductive Operator
  | add
  | sub
  | mul
  | div
  deriving DecidableEq, Repr

namespace Operator

/-- The exact result, if the operator has one. -/
def exact : Operator → ℤ → ℤ → Option ℤ
  | add, a, b => some (a + b)
  | sub, a, b => some (a - b)
  | mul, a, b => some (a * b)
  | div, a, b => if b = 0 then none else some (a.tdiv b)

def apply (o : Operator) (a b : Int64) : Option Int64 :=
  (o.exact a.toInt b.toInt).map Int64.ofInt

@[simp] theorem apply_add (a b : Int64) : add.apply a b = some (a + b) := by
  simp [apply, exact]

@[simp] theorem apply_sub (a b : Int64) : sub.apply a b = some (a - b) := by
  simp [apply, exact]

@[simp] theorem apply_mul (a b : Int64) : mul.apply a b = some (a * b) := by
  simp [apply, exact]

theorem ofInt_tdiv_toInt (a b : Int64) : Int64.ofInt (a.toInt.tdiv b.toInt) = a / b := by
  apply Int64.toInt_inj.mp
  rw [Int64.toInt_div, Int64.toInt_ofInt]

@[simp] theorem apply_div (a b : Int64) : div.apply a b = if b = 0 then none else some (a / b) := by
  have hzero : b.toInt = 0 ↔ b = 0 := Int64.toInt_inj (y := 0)
  simp only [apply, exact, hzero]
  split
  · rfl
  · exact congrArg some (ofInt_tdiv_toInt a b)

end Operator

/-- The number that decimal digits write. -/
def decimal (digits : List UInt8) : ℕ :=
  Nat.ofDigits 10 (digits.reverse.map fun digit => digit.toNat - 48)

theorem decimal_eq_foldl (digits : List UInt8) :
    decimal digits = digits.foldl (fun n digit => 10 * n + (digit.toNat - 48)) 0 := by
  rw [decimal, Nat.ofDigits_eq_foldr, List.foldr_map, List.foldr_reverse]
  refine congrArg (fun f => digits.foldl f 0) ?_
  funext n digit
  exact Nat.add_comm _ _

/-- The value of a literal, if its number is in range. -/
def literal (digits : List UInt8) : Option Int64 :=
  if decimal digits < 2 ^ 63 then some (Int64.ofInt (decimal digits)) else none

end Eureka.WrappingArithmetic

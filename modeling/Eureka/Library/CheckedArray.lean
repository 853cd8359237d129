import Mathlib

/-!
# Arrays with checked indexes

Loops over arrays whose indexes are integers.  An access is checked, and a loop is run on fuel, one
unit for each turn, so that a run with a result has only read and written what is there.  An index
that is an `int` cannot be counted up to 2^31.
-/

namespace Eureka.CheckedArray

variable {α : Type*} {l : List α} {i j : ℕ}

inductive Stop where
  | outOfRange (i : ℤ)
  | overflow
  | outOfFuel
deriving DecidableEq, Repr

/-- `i + 1`, for an index that is an `int` -/
def next (i : ℕ) : Except Stop ℕ := if i + 1 < 2 ^ 31 then .ok (i + 1) else .error .overflow

/-- `l[i]` -/
def get (l : List α) (i : ℤ) : Except Stop α :=
  if 0 ≤ i then l[i.toNat]?.elim (.error (.outOfRange i)) .ok else .error (.outOfRange i)

/-- `l[i] = a` -/
def put (l : List α) (i : ℤ) (a : α) : Except Stop (List α) :=
  if 0 ≤ i ∧ i < l.length then .ok (l.set i.toNat a) else .error (.outOfRange i)

def swap (l : List α) (i j : ℤ) : Except Stop (List α) := do
  let first ← get l i
  let second ← get l j
  let l ← put l i second
  put l j first

theorem get_eq (hi : i < l.length) : get l i = .ok l[i] := by
  rw [get, if_pos (Int.natCast_nonneg i), Int.toNat_natCast, List.getElem?_eq_getElem hi,
    Option.elim_some]

theorem put_eq (hi : i < l.length) (a : α) : put l i a = .ok (l.set i a) := by
  rw [put, if_pos ⟨Int.natCast_nonneg i, Int.ofNat_lt.mpr hi⟩, Int.toNat_natCast]

theorem swap_eq (hi : i < l.length) (hj : j < l.length) :
    swap l i j = .ok ((l.set i l[j]).set j l[i]) := by
  have hj' : j < (l.set i l[j]).length := by rwa [List.length_set]
  rw [swap, get_eq hi, get_eq hj]
  change (put l i l[j]).bind _ = _
  rw [put_eq hi]
  exact put_eq hj' _

end Eureka.CheckedArray

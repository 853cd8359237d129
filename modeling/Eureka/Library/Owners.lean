import Mathlib

/-!
# Owners of objects

Finitely many owners, each of which refers to one object, and the owners of an
object.  An owner comes, is turned to another object or goes.

* `of_acquire_self`, `of_acquire_of_ne`, `of_drop`: the owners of an object
  after each of these;
* `of_acquire_of_mem`: an owner that is turned to its object again changes nothing.
-/

namespace Eureka

/-- The owners there are, and the object of each; `obj` means nothing elsewhere. -/
structure Owners (Owner Obj : Type) where
  live : Finset Owner
  obj : Owner → Obj

namespace Owners

variable {Owner Obj : Type}

def empty [Inhabited Obj] : Owners Owner Obj := ⟨∅, fun _ => default⟩

section Operations

variable [DecidableEq Owner]

/-- The owner refers to this object, whatever it did before. -/
def acquire (o : Owners Owner Obj) (x : Owner) (p : Obj) : Owners Owner Obj :=
  ⟨insert x o.live, Function.update o.obj x p⟩

def drop (o : Owners Owner Obj) (x : Owner) : Owners Owner Obj :=
  ⟨o.live.erase x, o.obj⟩

/-- The object of an owner, if it is there. -/
def find (o : Owners Owner Obj) (x : Owner) : Option Obj :=
  if x ∈ o.live then some (o.obj x) else none

variable {o : Owners Owner Obj} {x y : Owner} {p : Obj}

@[simp] theorem live_acquire : (o.acquire x p).live = insert x o.live := rfl

@[simp] theorem live_drop : (o.drop x).live = o.live.erase x := rfl

@[simp] theorem obj_drop : (o.drop x).obj = o.obj := rfl

@[simp] theorem obj_acquire_self : (o.acquire x p).obj x = p := Function.update_self _ _ _

theorem obj_acquire_of_ne (hne : y ≠ x) : (o.acquire x p).obj y = o.obj y :=
  Function.update_of_ne hne _ _

theorem find_eq_some_iff : o.find x = some p ↔ x ∈ o.live ∧ o.obj x = p := by
  rw [find, Option.ite_none_right_eq_some, Option.some_inj]

theorem find_eq_none_iff : o.find x = none ↔ x ∉ o.live := by
  unfold find
  split <;> simp_all

end Operations

/-! ## The owners of one object -/

variable [DecidableEq Obj]

/-- The owners of an object. -/
def of (o : Owners Owner Obj) (p : Obj) : Finset Owner := o.live.filter fun x => o.obj x = p

variable {o : Owners Owner Obj} {x y : Owner} {p q : Obj}

@[simp] theorem mem_of : x ∈ o.of p ↔ x ∈ o.live ∧ o.obj x = p := Finset.mem_filter

@[simp] theorem of_empty [Inhabited Obj] : (empty : Owners Owner Obj).of p = ∅ := rfl

theorem of_eq_singleton (hcard : (o.of p).card = 1) (hx : x ∈ o.of p) : o.of p = {x} := by
  obtain ⟨y, hy⟩ := Finset.card_eq_one.mp hcard
  rw [hy] at hx ⊢
  rw [Finset.mem_singleton.mp hx]

variable [DecidableEq Owner]

theorem of_acquire_self : (o.acquire x p).of p = insert x (o.of p) := by
  ext y
  by_cases hy : y = x
  · subst hy
    simp
  · simp [hy, obj_acquire_of_ne hy]

theorem of_acquire_of_ne (hne : q ≠ p) : (o.acquire x p).of q = (o.of q).erase x := by
  ext y
  by_cases hy : y = x
  · subst hy
    simp [Ne.symm hne]
  · simp [hy, obj_acquire_of_ne hy]

theorem of_drop : (o.drop x).of q = (o.of q).erase x := by
  ext y
  simp [and_assoc]

theorem of_acquire_of_mem (hx : x ∈ o.of p) : (o.acquire x p).of q = o.of q := by
  by_cases hq : q = p
  · rw [hq, of_acquire_self, Finset.insert_eq_of_mem hx]
  · rw [of_acquire_of_ne hq, Finset.erase_eq_of_notMem]
    intro hmem
    exact hq ((mem_of.mp hmem).2.symm.trans (mem_of.mp hx).2)

end Owners

end Eureka

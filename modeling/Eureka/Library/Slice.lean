import Mathlib

/-!
# Slices with checked bounds

A slice is a window on an array: it has its own length, and the array goes on
behind it up to the capacity.  An index is checked against the length, but the
bounds of a slice expression against the capacity, so that a slice of a slice
may reach behind the slice it was taken of.

* `returns_index_bind`, `returns_slice_bind`: when a computation goes on behind
  an access, which says of a chain of accesses which bounds it needs.
* `Slice.Holds`: what lies in a slice from a place on, and in the slices of it.
-/

namespace Eureka

/-- How a computation is broken off. -/
inductive Panic
  | indexOutOfRange
  | sliceBoundsOutOfRange
  | message (text : String)
  deriving DecidableEq, Repr

abbrev Checked := Except Panic

/-- The computation comes to its end. -/
def Returns {α : Type} (x : Checked α) : Prop :=
  ∃ a, x = .ok a

structure Slice (α : Type) where
  /-- The array, from the start of the slice on. -/
  array : List α
  length : ℕ
  length_le : length ≤ array.length

variable {α β : Type}

@[simp] theorem returns_pure (a : α) : Returns (pure a : Checked α) :=
  ⟨a, rfl⟩

@[simp] theorem not_returns_throw (p : Panic) : ¬ Returns (throw p : Checked α) :=
  fun ⟨_, heq⟩ => nomatch heq

theorem bind_eq_ok {x : Checked α} {f : α → Checked β} {b : β} :
    x >>= f = .ok b ↔ ∃ a, x = .ok a ∧ f a = .ok b := by
  cases x with
  | error p => simp [bind, Except.bind]
  | ok a => simp [bind, Except.bind]

theorem ok_bind (a : α) (f : α → Checked β) : Except.ok a >>= f = f a :=
  rfl

theorem returns_bind {x : Checked α} {f : α → Checked β} :
    Returns (x >>= f) ↔ ∃ a, x = .ok a ∧ Returns (f a) := by
  cases x with
  | error p => simp [Returns, bind, Except.bind]
  | ok a => simp [bind, Except.bind]

@[simp] theorem returns_map {x : Checked α} {f : α → β} : Returns (f <$> x) ↔ Returns x := by
  cases x with
  | error p => exact iff_of_false (fun ⟨_, heq⟩ => nomatch heq) fun ⟨_, heq⟩ => nomatch heq
  | ok a => exact iff_of_true ⟨f a, rfl⟩ ⟨a, rfl⟩

theorem returns_bind_of_forall {x : Checked α} {f : α → Checked β} {P : Prop}
    (hf : ∀ a, Returns (f a) ↔ P) : Returns (x >>= f) ↔ Returns x ∧ P := by
  rw [returns_bind]
  exact ⟨fun ⟨a, ha, h⟩ => ⟨⟨a, ha⟩, (hf a).mp h⟩, fun ⟨⟨a, ha⟩, h⟩ => ⟨a, ha, (hf a).mpr h⟩⟩

namespace Slice

variable (s : Slice α)

def cap : ℕ := s.array.length

/-- The elements of the slice. -/
def toList : List α := s.array.take s.length

/-- The slice from `low` to `high`, as far as the array goes. -/
def window (low high : ℕ) : Slice α where
  array := s.array.drop low
  length := min (high - low) (s.array.length - low)
  length_le := by
    rw [List.length_drop]
    exact min_le_right _ _

/-- `s[low:high]`. -/
def slice (low high : ℕ) : Checked (Slice α) :=
  if low ≤ high ∧ high ≤ s.cap then pure (s.window low high) else throw .sliceBoundsOutOfRange

/-- `s[low:]`. -/
def sliceFrom (low : ℕ) : Checked (Slice α) :=
  s.slice low s.length

theorem length_le_cap : s.length ≤ s.cap := s.length_le

theorem length_window {low high : ℕ} (hhigh : high ≤ s.cap) :
    (s.window low high).length = high - low :=
  min_eq_left (Nat.sub_le_sub_right hhigh low)

theorem slice_eq_ok {low high : ℕ} {t : Slice α} :
    s.slice low high = .ok t ↔ (low ≤ high ∧ high ≤ s.cap) ∧ t = s.window low high := by
  rw [slice]
  split
  · next hbounds => exact ⟨fun h => ⟨hbounds, (Except.ok.inj h).symm⟩, fun h => h.2 ▸ rfl⟩
  · next hbounds => exact iff_of_false (fun h => nomatch h) fun h => hbounds h.1

theorem slice_of_le {low high : ℕ} (hlow : low ≤ high) (hhigh : high ≤ s.cap) :
    s.slice low high = .ok (s.window low high) :=
  s.slice_eq_ok.mpr ⟨⟨hlow, hhigh⟩, rfl⟩

theorem returns_slice_bind {low high : ℕ} {f : Slice α → Checked β} :
    Returns (s.slice low high >>= f) ↔
      (low ≤ high ∧ high ≤ s.cap) ∧ Returns (f (s.window low high)) := by
  simp only [returns_bind, slice_eq_ok]
  exact ⟨fun ⟨_, ⟨hbounds, heq⟩, h⟩ => ⟨hbounds, heq ▸ h⟩, fun h => ⟨_, ⟨h.1, rfl⟩, h.2⟩⟩

theorem returns_sliceFrom_bind {low : ℕ} {f : Slice α → Checked β} :
    Returns (s.sliceFrom low >>= f) ↔ low ≤ s.length ∧ Returns (f (s.window low s.length)) := by
  rw [sliceFrom, returns_slice_bind, and_iff_left s.length_le_cap]

variable [Inhabited α]

/-- What lies at a place of the array. -/
def elem (i : ℕ) : α := s.array.getD i default

/-- `s[i]`. -/
def index (i : ℕ) : Checked α :=
  if i < s.length then pure (s.elem i) else throw .indexOutOfRange

@[simp] theorem elem_window (low high i : ℕ) : (s.window low high).elem i = s.elem (low + i) := by
  rw [elem, window, List.getD_eq_getElem?_getD, List.getElem?_drop, ← List.getD_eq_getElem?_getD,
    elem]

theorem index_eq_ok {i : ℕ} {a : α} : s.index i = .ok a ↔ i < s.length ∧ a = s.elem i := by
  rw [index]
  split
  · next hi => exact ⟨fun h => ⟨hi, (Except.ok.inj h).symm⟩, fun h => h.2 ▸ rfl⟩
  · next hi => exact iff_of_false (fun h => nomatch h) fun h => hi h.1

theorem index_of_lt {i : ℕ} (hi : i < s.length) : s.index i = .ok (s.elem i) :=
  s.index_eq_ok.mpr ⟨hi, rfl⟩

theorem returns_index_bind {i : ℕ} {f : α → Checked β} :
    Returns (s.index i >>= f) ↔ i < s.length ∧ Returns (f (s.elem i)) := by
  simp only [returns_bind, index_eq_ok]
  exact ⟨fun ⟨_, ⟨hi, heq⟩, h⟩ => ⟨hi, heq ▸ h⟩, fun h => ⟨_, ⟨h.1, rfl⟩, h.2⟩⟩

theorem returns_index {i : ℕ} : Returns (s.index i) ↔ i < s.length := by
  rw [← returns_map (f := id), map_eq_pure_bind, returns_index_bind]
  simp

/-! ### What lies in a slice -/

/-- These elements lie in the slice, from a place on. -/
def Holds (s : Slice α) : ℕ → List α → Prop
  | _, [] => True
  | low, a :: as => (low < s.length ∧ s.elem low = a) ∧ s.Holds (low + 1) as

variable {s} {low high : ℕ} {as bs : List α}

theorem holds_append : s.Holds low (as ++ bs) ↔ s.Holds low as ∧ s.Holds (low + as.length) bs := by
  induction as generalizing low with
  | nil => exact (and_iff_right trivial).symm
  | cons a as ih =>
      rw [List.cons_append, Holds, Holds, ih, List.length_cons, Nat.add_assoc, Nat.add_comm 1,
        and_assoc (a := low < s.length ∧ s.elem low = a)]

theorem holds_of_toList_append {before : List α} (h : s.toList = before ++ as) :
    s.Holds before.length as := by
  have helem : ∀ i (hi : i < s.toList.length), i < s.length ∧ s.elem i = s.toList[i] := by
    intro i hi
    rw [toList, List.length_take, lt_min_iff] at hi
    refine ⟨hi.1, ?_⟩
    simp only [toList, List.getElem_take, elem, List.getD_eq_getElem?_getD,
      List.getElem?_eq_getElem hi.2, Option.getD_some]
  induction as generalizing before with
  | nil => trivial
  | cons a as ih =>
      have hi : before.length < s.toList.length := by
        rw [h, List.length_append, List.length_cons]
        omega
      obtain ⟨hlt, heq⟩ := helem before.length hi
      refine ⟨⟨hlt, ?_⟩, ?_⟩
      · simp only [heq, h, List.getElem_append_right (le_refl _), Nat.sub_self,
          List.getElem_cons_zero]
      · have hsplit : s.toList = before ++ [a] ++ as := by
          rw [h, List.append_assoc, List.singleton_append]
        have hrest := ih hsplit
        rwa [List.length_append] at hrest

theorem holds_of_toList (h : s.toList = as) : s.Holds 0 as :=
  holds_of_toList_append (h.trans (List.nil_append as).symm)

theorem Holds.le_length (h : s.Holds low as) (hne : as ≠ []) : low + as.length ≤ s.length := by
  induction as generalizing low with
  | nil => exact absurd rfl hne
  | cons a as ih =>
      cases as with
      | nil => exact h.1.1
      | cons b as =>
          have hle := ih h.2 (List.cons_ne_nil b as)
          rw [List.length_cons, Nat.add_comm (b :: as).length, ← Nat.add_assoc]
          exact hle

theorem Holds.index (h : s.Holds low as) {i : ℕ} (hi : i < as.length) :
    s.index (low + i) = .ok as[i] := by
  induction as generalizing low i with
  | nil => exact absurd hi i.not_lt_zero
  | cons a as ih =>
      cases i with
      | zero => exact s.index_eq_ok.mpr ⟨h.1.1, h.1.2.symm⟩
      | succ i =>
          rw [show low + (i + 1) = low + 1 + i by omega]
          exact ih h.2 (Nat.lt_of_succ_lt_succ hi)

theorem Holds.window {i : ℕ} (h : s.Holds (low + i) as) (hhigh : low + i + as.length ≤ high)
    (hcap : high ≤ s.cap) : (s.window low high).Holds i as := by
  induction as generalizing i with
  | nil => trivial
  | cons a as ih =>
      rw [List.length_cons] at hhigh
      refine ⟨⟨?_, (s.elem_window low high i).trans h.1.2⟩, ih h.2 (by omega)⟩
      rw [s.length_window hcap]
      omega

theorem Holds.take_drop (h : s.Holds low as) : (s.array.drop low).take as.length = as := by
  induction as generalizing low with
  | nil => exact List.take_zero
  | cons a as ih =>
      have hlt : low < s.array.length := h.1.1.trans_le s.length_le
      have helem : s.array[low] = a := by
        rw [← h.1.2, elem, List.getD_eq_getElem?_getD, List.getElem?_eq_getElem hlt,
          Option.getD_some]
      rw [List.drop_eq_getElem_cons hlt, List.length_cons, List.take_succ_cons, ih h.2, helem]

theorem Holds.toList_window (h : s.Holds low as) (hcap : low + as.length ≤ s.cap) :
    (s.window low (low + as.length)).toList = as := by
  rw [toList, s.length_window hcap, Nat.add_sub_cancel_left]
  exact h.take_drop

theorem Holds.slice {n : ℕ} (h : s.Holds low as) (hlength : as.length = n) (hne : as ≠ []) :
    s.slice low (low + n) = .ok (s.window low (low + n)) ∧
      (s.window low (low + n)).length = n ∧ (s.window low (low + n)).Holds 0 as := by
  have hcap := (h.le_length hne).trans s.length_le_cap
  rw [hlength] at hcap
  refine ⟨s.slice_of_le (Nat.le_add_right low n) hcap, ?_, h.window (hlength ▸ le_refl _) hcap⟩
  rw [s.length_window hcap, Nat.add_sub_cancel_left]

end Slice

end Eureka

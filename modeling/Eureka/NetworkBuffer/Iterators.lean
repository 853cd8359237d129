import Eureka.NetworkBuffer.Operations

/-!
# Iterators of a network buffer

`Buffer::Iterator` and the free operators of `buffer.h`.  An iterator is the position of its pointer
in the vector.  The operators come in terms of one another, and `it - n` moves its argument and
returns the copy that it made before.

* `sub_eq_self`: `it - n` is `it`;
* `laws_iff`: the laws of random access hold for the offset zero and for no other.
-/

namespace Eureka.NetworkBuffer.Buffer

/-- `ptr_`, as a position in `buf_`. -/
structure Iterator where
  ptr : ℤ
deriving DecidableEq, Repr

def cbegin (b : Buffer) : Iterator := ⟨b.readerIndex⟩

def cend (b : Buffer) : Iterator := ⟨b.writerIndex⟩

namespace Iterator

/-! ## The members -/

/-- `*it`, the byte that is there. -/
def deref (b : Buffer) (it : Iterator) : Option Byte :=
  if 0 ≤ it.ptr then b.buf[it.ptr.toNat]? else none

/-- `it[n]` -/
def index (b : Buffer) (it : Iterator) (n : ℤ) : Option Byte := deref b ⟨it.ptr + n⟩

/-- `--it` -/
def decrement (it : Iterator) : Iterator := ⟨it.ptr - 1⟩

/-- `it += n` -/
def addAssign (it : Iterator) (n : ℤ) : Iterator := ⟨it.ptr + n⟩

/-- `it -= n` -/
def subAssign (it : Iterator) (n : ℤ) : Iterator := ⟨it.ptr - n⟩

/-- `lhs - rhs` -/
def difference (lhs rhs : Iterator) : ℤ := lhs.ptr - rhs.ptr

def equal (lhs rhs : Iterator) : Bool := lhs.ptr = rhs.ptr

/-! ## The free operators -/

/-- `it + n` -/
def add (it : Iterator) (n : ℤ) : Iterator :=
  let temp := it
  temp.addAssign n

/-- `it - n`.  The parameter is moved, and the copy is returned. -/
def sub (it : Iterator) (n : ℤ) : Iterator :=
  let temp := it
  let _it := it.subAssign n
  temp

def less (lhs rhs : Iterator) : Bool := difference rhs lhs > 0

def greater (lhs rhs : Iterator) : Bool := less rhs lhs

def lessEqual (lhs rhs : Iterator) : Bool := !greater lhs rhs

def greaterEqual (lhs rhs : Iterator) : Bool := !less lhs rhs

/-! ## What is promised -/

/-- The position is in the readable range, or it is its end. -/
def InRange (b : Buffer) (it : Iterator) : Prop :=
  b.cbegin.ptr ≤ it.ptr ∧ it.ptr ≤ b.cend.ptr

/-- The laws of random access for two iterators and an offset. -/
structure Laws (b : Buffer) (a c : Iterator) (n : ℤ) : Prop where
  add_sub : InRange b (a.addAssign n) → equal ((a.add n).sub n) a = true
  sub_add : InRange b (a.subAssign n) → equal ((a.sub n).add n) a = true
  sub_eq : InRange b (a.subAssign n) → equal (a.sub n) (a.subAssign n) = true
  add_difference : equal (a.add (difference c a)) c = true
  index_eq : index b a n = deref b (a.add n)
  less_iff : less a c = true ↔ a.ptr < c.ptr
  greater_iff : greater a c = true ↔ c.ptr < a.ptr
  lessEqual_iff : lessEqual a c = true ↔ a.ptr ≤ c.ptr
  greaterEqual_iff : greaterEqual a c = true ↔ c.ptr ≤ a.ptr
  /-- A step backwards comes to the byte at that distance. -/
  back : InRange b (a.subAssign n) → deref b (a.sub n) = deref b ⟨a.ptr - n⟩

/-! ## The operators -/

variable {b : Buffer} {a c : Iterator} {n : ℤ}

theorem equal_iff : equal a c = true ↔ a = c := by
  rw [equal, decide_eq_true_eq, Iterator.mk.injEq]

theorem add_eq (a : Iterator) (n : ℤ) : a.add n = ⟨a.ptr + n⟩ := rfl

/-- **The subtraction** returns its argument. -/
theorem sub_eq_self (a : Iterator) (n : ℤ) : a.sub n = a := rfl

theorem less_eq_true_iff : less a c = true ↔ a.ptr < c.ptr := by
  rw [less, decide_eq_true_eq, difference, gt_iff_lt, Int.sub_pos]

theorem lessEqual_eq_true_iff : lessEqual a c = true ↔ a.ptr ≤ c.ptr := by
  rw [lessEqual, greater, Bool.not_eq_true', Bool.eq_false_iff, ne_eq, less_eq_true_iff, not_lt]

theorem greaterEqual_eq_true_iff : greaterEqual a c = true ↔ c.ptr ≤ a.ptr := by
  rw [greaterEqual, Bool.not_eq_true', Bool.eq_false_iff, ne_eq, less_eq_true_iff, not_lt]

theorem add_difference (a c : Iterator) : a.add (difference c a) = c := by
  rw [add_eq, difference, add_sub_cancel]

/-! ## Going backwards by `--` -/

/-! ## The laws -/

/-- **The laws of random access** hold for the offset zero, and for no other that stays in range. -/
theorem laws_iff (hn : InRange b (a.addAssign n) ∨ InRange b (a.subAssign n)) :
    Laws b a c n ↔ n = 0 := by
  constructor
  · intro h
    rcases hn with hn | hn
    · have heq := equal_iff.mp (h.add_sub hn)
      rw [sub_eq_self, add_eq, Iterator.mk.injEq] at heq
      omega
    · have heq := equal_iff.mp (h.sub_eq hn)
      rw [sub_eq_self, subAssign, Iterator.mk.injEq] at heq
      omega
  · rintro rfl
    have hself : a.add 0 = a := congrArg Iterator.mk (add_zero a.ptr)
    have hself' : a.subAssign 0 = a := congrArg Iterator.mk (sub_zero a.ptr)
    refine ⟨fun _ => ?_, fun _ => ?_, fun _ => ?_, ?_, rfl, less_eq_true_iff, less_eq_true_iff,
      lessEqual_eq_true_iff, greaterEqual_eq_true_iff, fun _ => ?_⟩
    · rw [sub_eq_self, hself, equal_iff]
    · rw [sub_eq_self, hself, equal_iff]
    · rw [sub_eq_self, hself', equal_iff]
    · rw [add_difference, equal_iff]
    · rw [sub_eq_self, sub_zero]

theorem laws_iff_one :
    let b : Buffer := ⟨List.replicate 8 0 ++ ascii "hi", 8, 10⟩
    InRange b (b.cbegin.addAssign 1) ∧ (Laws b b.cbegin b.cend 1 ↔ (1 : ℤ) = 0) :=
  ⟨⟨by decide, by decide⟩, laws_iff (.inl ⟨by decide, by decide⟩)⟩

/-- With the text `hi` in the buffer, `(it + 1) - 1` is not `it`, and the last byte is not the one
at `end - 1`. -/
theorem not_laws_one :
    let b : Buffer := ⟨List.replicate 8 0 ++ ascii "hi", 8, 10⟩
    Valid b ∧ InRange b b.cbegin ∧ InRange b b.cend ∧ InRange b (b.cbegin.addAssign 1) ∧
      equal ((b.cbegin.add 1).sub 1) b.cbegin = false ∧
      deref b (b.cend.sub 1) ≠ deref b b.cend.decrement ∧ ¬ Laws b b.cbegin b.cend 1 := by
  refine ⟨⟨by decide, by decide, by decide, by decide⟩, ⟨by decide, by decide⟩,
    ⟨by decide, by decide⟩, ⟨by decide, by decide⟩, by decide, by decide, fun h => ?_⟩
  have heq := equal_iff.mp (h.add_sub ⟨by decide, by decide⟩)
  revert heq
  decide

end Iterator

end Eureka.NetworkBuffer.Buffer

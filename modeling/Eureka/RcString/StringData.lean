import Mathlib
import Eureka.Bytes

/-!
# Shared string data

`StringData` of `rc_string.cpp`: a buffer that grows, and a count of the strings
that share it.  The count is an `unsigned int`; its greatest value marks data
that is not to be shared.  Sizes are those of texts that fit in memory, so that
the arithmetic on `size_t` does not wrap around.

* `Content.Fits`: the buffer has the length that `capacity_` says, and holds the
  text.  `construct_of_spare`, `reserve_spec`, `copyData_spec` and `clone_of_spare`
  say what the operations do to it.

`ThreadSafeStringData` has the same buffer; only its count is atomic.
-/

namespace Eureka.RcString

/-- Why a program goes wrong. -/
inductive Fault
  /-- An assertion fails. -/
  | assertion
  /-- Bytes outside the buffer are copied. -/
  | outOfBounds
  /-- Data is used after it was deleted. -/
  | dangling
deriving DecidableEq, Repr

def kBaseSize : ℕ := 4

/-- Rounds up `num` to the nearest multiple of `factor`.  A `num` of 0, for which `num - 1` wraps in
the source, does not come up. -/
def roundToMultiple (num factor : ℕ) : ℕ :=
  if factor = 0 then 0 else num - 1 - (num - 1) % factor + factor

/-- The buffer and what is said of it; no bytes stand for a null pointer. -/
structure Content where
  buffer : Bytes
  capacity : ℕ
  size : ℕ
deriving DecidableEq, Repr

namespace Content

/-- What the string shows. -/
def text (c : Content) : Bytes := c.buffer.take c.size

/-- The fresh bytes of the new buffer have no value; they are never shown. -/
def reserve (c : Content) (requiredCapacity : ℕ) : Except Fault Content :=
  if requiredCapacity ≤ c.capacity then .ok c
  else
    let newBase := max (c.capacity * 3 / 2) requiredCapacity
    let newCapacity := roundToMultiple newBase kBaseSize
    if c.buffer.length < c.size ∨ newCapacity < c.size then .error .outOfBounds
    else .ok ⟨c.text ++ List.replicate (newCapacity - c.size) 0, newCapacity, c.size⟩

/-- `StringData(capacity)`.  The constructor does not set `capacity_`, so that it
begins with whatever was in memory. -/
def construct (memory capacity : ℕ) : Except Fault Content :=
  reserve ⟨[], memory, 0⟩ capacity

/-- `CopyData`, behind the assertion on the count. -/
def copyData (c : Content) (str : Bytes) (pos : ℕ) : Except Fault Content :=
  if c.size < pos ∨ c.capacity < pos + str.length then .error .assertion
  else if str = [] then .ok { c with size := max pos c.size }
  else if c.buffer.length < pos + str.length then .error .outOfBounds
  else .ok { c with
    buffer := c.buffer.take pos ++ str ++ c.buffer.drop (pos + str.length)
    size := max (pos + str.length) c.size }

/-- `*(data() + pos) = ch`. -/
def set (c : Content) (pos : ℕ) (ch : Byte) : Content :=
  { c with buffer := c.buffer.set pos ch }

end Content

structure StringData extends Content where
  refCount : ℕ
deriving DecidableEq, Repr

def kUnsharedRefMark : ℕ := 2 ^ 32 - 1

namespace StringData

def unique (d : StringData) : Bool := d.refCount = 1 ∨ d.refCount = kUnsharedRefMark

def unsharedable (d : StringData) : Bool := d.refCount = kUnsharedRefMark

def makeUnsharedable (d : StringData) : Except Fault StringData :=
  if d.unique then .ok { d with refCount := kUnsharedRefMark } else .error .assertion

def resetSharedable (d : StringData) : Except Fault StringData :=
  if d.unique then .ok { d with refCount := 1 } else .error .assertion

def addRef (d : StringData) : Except Fault StringData :=
  if 0 < d.refCount then .ok { d with refCount := (d.refCount + 1) % 2 ^ 32 }
  else .error .assertion

/-- The data afterwards, and whether the last owner should clean it up. -/
def release (d : StringData) : Except Fault (Bool × StringData) :=
  if 0 < d.refCount then
    if d.unsharedable then .ok (true, d)
    else .ok (d.refCount - 1 = 0, { d with refCount := d.refCount - 1 })
  else .error .assertion

/-- The assertion of the destructor. -/
def destructible (d : StringData) : Bool := d.refCount = 0 ∨ d.refCount = kUnsharedRefMark

def construct (memory capacity : ℕ) : Except Fault StringData := do
  let c ← Content.construct memory capacity
  return ⟨c, 1⟩

def reserve (d : StringData) (requiredCapacity : ℕ) : Except Fault StringData := do
  let c ← d.toContent.reserve requiredCapacity
  return ⟨c, d.refCount⟩

def copyData (d : StringData) (str : Bytes) (pos : ℕ) : Except Fault StringData :=
  if d.unique then do
    let c ← d.toContent.copyData str pos
    return ⟨c, d.refCount⟩
  else .error .assertion

/-- The count of the clone is that of its construction, so that it is unique. -/
def clone (d : StringData) (memory newCapacity : ℕ) : Except Fault StringData := do
  let data ← construct memory (max newCapacity d.capacity)
  data.copyData d.text 0

end StringData

/-! ## The buffer -/

theorem le_roundToMultiple {num factor : ℕ} (hfactor : 0 < factor) :
    num ≤ roundToMultiple num factor := by
  have hmod := Nat.mod_lt (num - 1) hfactor
  have hle := Nat.mod_le (num - 1) factor
  unfold roundToMultiple
  rw [if_neg hfactor.ne']
  omega

/-- What new data finds in the place of `capacity_` does not keep it from taking a buffer, unless
there is none to be taken. -/
def Spare (memory capacity : ℕ) : Prop := memory = 0 ∨ memory < capacity

instance (memory capacity : ℕ) : Decidable (Spare memory capacity) :=
  inferInstanceAs (Decidable (_ ∨ _))

namespace Content

/-- The buffer is as long as `capacity_` says and long enough for the text. -/
structure Fits (c : Content) : Prop where
  length_eq : c.buffer.length = c.capacity
  size_le : c.size ≤ c.capacity

variable {c : Content} {str : Bytes} {n pos : ℕ}

theorem Fits.length_text (hc : c.Fits) : c.text.length = c.size := by
  unfold text
  rw [List.length_take, hc.length_eq]
  exact Nat.min_eq_left hc.size_le

theorem reserve_spec (hc : c.Fits) (n : ℕ) :
    ∃ d, c.reserve n = .ok d ∧ d.Fits ∧ d.text = c.text ∧ d.size = c.size ∧ n ≤ d.capacity := by
  have hsize := hc.size_le
  have hlength := hc.length_eq
  unfold reserve
  split
  next hle => exact ⟨c, rfl, hc, rfl, rfl, hle⟩
  next hgt =>
    have hbase : max (c.capacity * 3 / 2) n ≤
        roundToMultiple (max (c.capacity * 3 / 2) n) kBaseSize := le_roundToMultiple (by decide)
    dsimp only
    generalize hcapacity : roundToMultiple _ _ = newCapacity at hbase ⊢
    have hle : n ≤ newCapacity := (le_max_right _ _).trans hbase
    have hroom : c.size ≤ newCapacity := by omega
    rw [if_neg (by omega)]
    refine ⟨_, rfl, ⟨?_, hroom⟩, ?_, rfl, hle⟩
    · show (c.text ++ List.replicate (newCapacity - c.size) 0).length = newCapacity
      rw [List.length_append, hc.length_text, List.length_replicate]
      omega
    · show (c.text ++ _).take c.size = c.text
      rw [← hc.length_text, List.take_left]

theorem construct_of_spare {memory : ℕ} (hspare : Spare memory n) :
    ∃ d, construct memory n = .ok d ∧ d.Fits ∧ d.text = [] ∧ d.size = 0 ∧ n ≤ d.capacity := by
  rcases hspare with rfl | hlt
  · exact reserve_spec (c := ⟨[], 0, 0⟩) ⟨rfl, le_refl _⟩ n
  · have hbase : max (memory * 3 / 2) n ≤ roundToMultiple (max (memory * 3 / 2) n) kBaseSize :=
      le_roundToMultiple (by decide)
    unfold construct reserve
    rw [if_neg (not_le.mpr hlt)]
    dsimp only
    generalize roundToMultiple _ _ = newCapacity at hbase
    refine ⟨⟨List.replicate newCapacity 0, newCapacity, 0⟩, ?_, ⟨?_, ?_⟩, rfl, rfl, ?_⟩
    · rw [if_neg (by simp)]
      rfl
    · exact List.length_replicate
    · exact Nat.zero_le _
    · exact (le_max_right _ _).trans hbase

theorem copyData_spec (hc : c.Fits) (hle : c.size + str.length ≤ c.capacity) :
    ∃ d, c.copyData str c.size = .ok d ∧ d.Fits ∧ d.text = c.text ++ str ∧
      d.capacity = c.capacity := by
  have hlength := hc.length_eq
  unfold copyData
  rw [if_neg (by omega)]
  split
  next hempty =>
    refine ⟨_, rfl, ⟨hlength, by simpa using hc.size_le⟩, ?_, rfl⟩
    show c.buffer.take (max c.size c.size) = _
    rw [max_self, hempty, List.append_nil]
    rfl
  next hne =>
    rw [if_neg (by omega)]
    have hmax : max (c.size + str.length) c.size = c.size + str.length := by omega
    refine ⟨_, rfl, ⟨?_, hmax.trans_le hle⟩, ?_, rfl⟩
    · show (c.text ++ str ++ _).length = c.capacity
      rw [List.length_append, List.length_append, hc.length_text, List.length_drop]
      omega
    · show (c.text ++ str ++ _).take (max (c.size + str.length) c.size) = _
      have hfront : (c.text ++ str).length = c.size + str.length := by
        rw [List.length_append, hc.length_text]
      rw [hmax, ← hfront, List.take_left]

theorem Fits.set (hc : c.Fits) (pos : ℕ) (ch : Byte) : (c.set pos ch).Fits where
  length_eq := (List.length_set).trans hc.length_eq
  size_le := hc.size_le

theorem text_set (c : Content) (pos : ℕ) (ch : Byte) : (c.set pos ch).text = c.text.set pos ch := by
  show (c.buffer.set pos ch).take c.size = (c.buffer.take c.size).set pos ch
  rw [List.take_set]

end Content

/-! ## The count -/

namespace StringData

variable {d : StringData} {str : Bytes} {n : ℕ}

theorem unique_iff : d.unique = true ↔ d.refCount = 1 ∨ d.refCount = kUnsharedRefMark :=
  decide_eq_true_iff

theorem unsharedable_iff : d.unsharedable = true ↔ d.refCount = kUnsharedRefMark :=
  decide_eq_true_iff

theorem construct_of_spare {memory : ℕ} (hspare : Spare memory n) :
    ∃ d, construct memory n = .ok d ∧ d.Fits ∧ d.text = [] ∧ d.size = 0 ∧ n ≤ d.capacity ∧
      d.refCount = 1 := by
  obtain ⟨c, hconstruct, hfits, htext, hsize, hle⟩ := Content.construct_of_spare hspare
  refine ⟨⟨c, 1⟩, ?_, hfits, htext, hsize, hle, rfl⟩
  unfold construct
  rw [hconstruct]
  rfl

theorem construct_spec (n : ℕ) :
    ∃ d, construct 0 n = .ok d ∧ d.Fits ∧ d.text = [] ∧ d.size = 0 ∧ n ≤ d.capacity ∧
      d.refCount = 1 :=
  construct_of_spare (.inl rfl)

theorem reserve_spec (hd : d.Fits) (n : ℕ) :
    ∃ e, d.reserve n = .ok e ∧ e.Fits ∧ e.text = d.text ∧ e.size = d.size ∧ n ≤ e.capacity ∧
      e.refCount = d.refCount := by
  obtain ⟨c, hreserve, hfits, htext, hsize, hle⟩ := Content.reserve_spec hd n
  refine ⟨⟨c, d.refCount⟩, ?_, hfits, htext, hsize, hle, rfl⟩
  unfold reserve
  rw [hreserve]
  rfl

theorem copyData_spec (hd : d.Fits) (hunique : d.unique) (hle : d.size + str.length ≤ d.capacity) :
    ∃ e, d.copyData str d.size = .ok e ∧ e.Fits ∧ e.text = d.text ++ str ∧
      e.capacity = d.capacity ∧ e.refCount = d.refCount := by
  obtain ⟨c, hcopy, hfits, htext, hcapacity⟩ := Content.copyData_spec hd hle
  refine ⟨⟨c, d.refCount⟩, ?_, hfits, htext, hcapacity, rfl⟩
  unfold copyData
  rw [if_pos hunique, hcopy]
  rfl

theorem clone_of_spare {memory : ℕ} (hd : d.Fits) (hspare : Spare memory (max n d.capacity)) :
    ∃ e, d.clone memory n = .ok e ∧ e.Fits ∧ e.text = d.text ∧ n ≤ e.capacity ∧
      e.refCount = 1 := by
  obtain ⟨fresh, hfresh, hfits, htext, hsize, hle, hcount⟩ := construct_of_spare hspare
  have hroom : fresh.size + d.text.length ≤ fresh.capacity := by
    have hsize_le := hd.size_le
    rw [hsize, hd.length_text]
    omega
  obtain ⟨e, hcopy, hefits, hetext, hcapacity, hecount⟩ :=
    copyData_spec hfits (unique_iff.mpr (.inl hcount)) hroom
  refine ⟨e, ?_, hefits, ?_, ?_, hecount.trans hcount⟩
  · rw [hsize] at hcopy
    unfold clone
    rw [hfresh]
    exact hcopy
  · rw [hetext, htext, List.nil_append]
  · omega

theorem clone_spec (hd : d.Fits) (n : ℕ) :
    ∃ e, d.clone 0 n = .ok e ∧ e.Fits ∧ e.text = d.text ∧ n ≤ e.capacity ∧ e.refCount = 1 :=
  clone_of_spare hd (.inl rfl)

end StringData

end Eureka.RcString

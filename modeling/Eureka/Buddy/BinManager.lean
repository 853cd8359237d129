import Eureka.Library.Transition

/-!
# The bin manager of the buddy allocator

`buddy_util.h` and `bin_manager.cpp`.  The manager keeps, for every node of a
complete binary tree over the slots, the greatest number of consecutive slots
that can still be allocated below it; the nodes lie in one array, level by
level, with the root first.

A `size_t` is a natural number here.  Only `NearestUpperPowerOf2` is written with
the wrap-around at `2 ^ 64`: for at most `2 ^ 32` slots no other computation
leaves the range.  An access outside the array, and a loop that never ends, has
no result (`none`).
-/

namespace Eureka.Buddy

/-! ## `buddy_util` -/

def isPowerOf2 (number : ℕ) : Bool :=
  number ≠ 0 && number &&& (number - 1) = 0

/-- `--number`, the loop over the shifts 1, 2, 4, 8 and 16, and `++number`. -/
def nearestUpperPowerOf2 (number : ℕ) : ℕ :=
  let number := (number + (2 ^ 64 - 1)) % 2 ^ 64
  let number := [1, 2, 4, 8, 16].foldl (fun number i => number ||| number >>> i) number
  (number + 1) % 2 ^ 64

def parent (i : ℕ) : ℕ := (i + 1) / 2 - 1

def leftChild (i : ℕ) : ℕ := (i + 1) * 2 - 1

def rightChild (i : ℕ) : ℕ := (i + 1) * 2

theorem parent_lt {i : ℕ} (hi : i ≠ 0) : parent i < i := by
  unfold parent
  omega

/-! ## `BinManager` -/

structure BinManager where
  totalSlotCount : ℕ
  maxConsecutiveSlot : List ℕ
deriving DecidableEq, Repr

/-- The value that stands for no offset. -/
def noffset : ℕ := 2 ^ 64 - 1

namespace BinManager

/-- The loop of the constructor from node `i` on. -/
def fill (i nodeSlotCount : ℕ) : ℕ → List ℕ
  | 0 => []
  | count + 1 =>
      let nodeSlotCount := if isPowerOf2 (i + 1) then nodeSlotCount / 2 else nodeSlotCount
      nodeSlotCount :: fill (i + 1) nodeSlotCount count

/-- The constructor; `none` for the exception of its check. -/
def construct (totalSlotCount : ℕ) : Option BinManager :=
  if isPowerOf2 totalSlotCount then
    some ⟨totalSlotCount, fill 0 (totalSlotCount * 2) (totalSlotCount * 2 - 1)⟩
  else
    none

/-- The way of `Allocate` down to a node of `slotsNeeded` slots. -/
def descend (slots : List ℕ) (slotsNeeded index nodeSlots : ℕ) : Option ℕ :=
  if nodeSlots = slotsNeeded then
    some index
  else if nodeSlots = 0 then
    none
  else
    match slots[leftChild index]? with
    | none => none
    | some left =>
        if left ≥ slotsNeeded then
          descend slots slotsNeeded (leftChild index) (nodeSlots / 2)
        else
          descend slots slotsNeeded (rightChild index) (nodeSlots / 2)
termination_by nodeSlots

/-- The way back to the root: every ancestor is computed anew from its slot
count and the values of its two children. -/
def updateAncestors (rule : ℕ → ℕ → ℕ → ℕ) (slots : List ℕ) (index nodeSlotCount : ℕ) :
    Option (List ℕ) :=
  if index = 0 then
    some slots
  else
    let index := parent index
    let nodeSlotCount := nodeSlotCount * 2
    match slots[leftChild index]?, slots[rightChild index]? with
    | some left, some right =>
        updateAncestors rule (slots.set index (rule nodeSlotCount left right)) index nodeSlotCount
    | _, _ => none
termination_by index
decreasing_by exact parent_lt ‹_›

/-- The rule of `Allocate`. -/
def maximumRule (_ left right : ℕ) : ℕ := max left right

/-- The rule of `Free`: merge adjacent bins if possible. -/
def mergeRule (nodeSlotCount left right : ℕ) : ℕ :=
  if left + right = nodeSlotCount then nodeSlotCount else max left right

/-- `BinManager::Allocate`. -/
def allocate (m : BinManager) (slotsRequired : ℕ) : Option (BinManager × ℕ) :=
  if slotsRequired = 0 then
    some (m, noffset)
  else
    let slotsNeeded := nearestUpperPowerOf2 slotsRequired
    match m.maxConsecutiveSlot[0]? with
    | none => none
    | some largest =>
        if largest < slotsNeeded then
          some (m, noffset)
        else
          match descend m.maxConsecutiveSlot slotsNeeded 0 m.totalSlotCount with
          | none => none
          | some index =>
              let offset := (index + 1) * slotsNeeded - m.totalSlotCount
              (updateAncestors maximumRule (m.maxConsecutiveSlot.set index 0) index
                slotsNeeded).map fun slots => ({ m with maxConsecutiveSlot := slots }, offset)

/-- The way of `Free` up to the first node without slots, and the slot count of
that node; `none` inside if there is none up to the root. -/
def findBin (slots : List ℕ) (index nodeSlotCount : ℕ) : Option (Option (ℕ × ℕ)) :=
  match slots[index]? with
  | none => none
  | some 0 => some (some (index, nodeSlotCount))
  | some _ => if index = 0 then some none else findBin slots (parent index) (nodeSlotCount * 2)
termination_by index
decreasing_by exact parent_lt ‹_›

/-- `BinManager::Free`. -/
def free (m : BinManager) (offset : ℕ) : Option BinManager :=
  if offset ≥ m.totalSlotCount then
    some m
  else
    match findBin m.maxConsecutiveSlot (offset + m.totalSlotCount - 1) 1 with
    | none => none
    | some none => some m
    | some (some (index, nodeSlotCount)) =>
        (updateAncestors mergeRule (m.maxConsecutiveSlot.set index nodeSlotCount) index
          nodeSlotCount).map fun slots => { m with maxConsecutiveSlot := slots }

/-- Frees the offsets one after the other. -/
def freeAll (m : BinManager) : List ℕ → Option BinManager
  | [] => some m
  | offset :: offsets => (m.free offset).bind fun m' => m'.freeAll offsets

end BinManager

/-! ## Runs -/

/-- A live bin: the offset that `Allocate` returned and the number of slots that
were asked for. -/
structure Grant where
  offset : ℕ
  slotsRequired : ℕ
deriving DecidableEq, Repr

/-- A manager and the bins its client holds. -/
structure State where
  manager : BinManager
  live : List Grant
deriving DecidableEq, Repr

inductive Action
  | allocate (slotsRequired : ℕ)
  | free (offset : ℕ)
deriving DecidableEq, Repr

/-- Requests of 1 to `2 ^ 32` slots are made, and only live offsets are freed. -/
def State.step (s : State) : Action → Option State
  | .allocate slotsRequired =>
      if 1 ≤ slotsRequired ∧ slotsRequired ≤ 2 ^ 32 then
        (s.manager.allocate slotsRequired).map fun (manager, offset) =>
          if offset = noffset then ⟨manager, s.live⟩
          else ⟨manager, ⟨offset, slotsRequired⟩ :: s.live⟩
      else
        none
  | .free offset =>
      if offset ∈ s.live.map Grant.offset then
        (s.manager.free offset).map fun manager =>
          ⟨manager, s.live.filter fun grant => grant.offset ≠ offset⟩
      else
        none

open Transition in
/-- A manager of at most `2 ^ 32` slots and its client. -/
def system : System State Action where
  start s := ∃ height ≤ 32, BinManager.construct (2 ^ height) = some s.manager ∧ s.live = []
  step := State.step

end Eureka.Buddy

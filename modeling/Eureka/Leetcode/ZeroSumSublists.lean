import Eureka.Library.LinkedList
import Mathlib

/-!
# Sublists that sum up to zero

`removeZeroSumSublists` goes through the list twice, first to note the last node of every sum, then
to skip what is between two nodes of the same sum.

* `firstPass_raises`: the first pass adds to `sum`, which has no value, so it raises an exception at
  the dummy node;
* `removeZeroSumSublists_raises`: no call gets to the second pass.
-/

namespace Eureka.Leetcode.ZeroSumSublists

open LinkedList

/-! ## The code -/

structure ListNode where
  val : ℤ
  next : Option ℕ
deriving DecidableEq, Repr

inductive Exception where
  /-- A local variable is read before it has a value. -/
  | unboundLocalError (name : String)
  | keyError (key : ℤ)
  | attributeError
deriving DecidableEq, Repr

inductive Stop where
  | raised (exception : Exception)
  | outOfFuel
deriving DecidableEq, Repr

/-- The node at an address, which is an index of the heap. -/
def node (heap : List ListNode) (p : ℕ) : Except Stop ListNode :=
  heap[p]?.elim (.error (.raised .attributeError)) .ok

/-- The local variables of the first loop.  As `sum` is assigned to, it is a local variable, and it
has no value at first. -/
structure Locals where
  sum : Option ℤ
  acc : ℤ
  sumTable : ℤ → Option ℕ
  p : Option ℕ

/-- `sum += p.val` -/
def addToSum (s : Locals) (val : ℤ) : Except Stop Locals :=
  s.sum.elim (.error (.raised (.unboundLocalError "sum"))) fun sum =>
    .ok { s with sum := some (sum + val) }

/-- The first loop. -/
def firstPass (heap : List ListNode) : ℕ → Locals → Except Stop Locals
  | 0, _ => .error .outOfFuel
  | fuel + 1, s =>
      match s.p with
      | none => .ok s
      | some p => do
          let n ← node heap p
          let s ← addToSum s n.val
          firstPass heap fuel
            { s with sumTable := Function.update s.sumTable s.acc (some p), p := n.next }

/-- The second loop, with the heap that it leaves. -/
def secondPass (sumTable : ℤ → Option ℕ) :
    ℕ → List ListNode → ℤ → Option ℕ → Except Stop (List ListNode)
  | 0, _, _, _ => .error .outOfFuel
  | _ + 1, heap, _, none => .ok heap
  | fuel + 1, heap, acc, some p => do
      let n ← node heap p
      let acc := acc + n.val
      let last ← (sumTable acc).elim (.error (.raised (.keyError acc))) .ok
      let next ← if last ≠ p then ListNode.next <$> node heap last else .ok n.next
      secondPass sumTable fuel (heap.set p { n with next := next }) acc next

def removeZeroSumSublists (fuel : ℕ) (heap : List ListNode) (head : Option ℕ) :
    Except Stop (Option ℕ × List ListNode) := do
  let dummy := heap.length
  let heap := heap ++ [⟨0, head⟩]
  let s ← firstPass heap fuel ⟨none, 0, fun _ => none, some dummy⟩
  let heap ← secondPass s.sumTable fuel heap 0 (some dummy)
  let n ← node heap dummy
  .ok (n.next, heap)

/-! ## What is promised -/

/-- A pointer to a list of these addresses, each with its value. -/
structure Listed (heap : List ListNode) (head : Option ℕ) (cells : List (ℕ × ℤ)) : Prop where
  chain : Chain (fun p => heap[p]?.bind ListNode.next) head (cells.map Prod.fst)
  val : ∀ cell ∈ cells, heap[cell.1]?.map ListNode.val = some cell.2

def IsList (heap : List ListNode) (head : Option ℕ) (values : List ℤ) : Prop :=
  ∃ cells, Listed heap head cells ∧ cells.map Prod.snd = values

/-- One contiguous run with sum zero is deleted. -/
inductive Deletion : List ℤ → List ℤ → Prop
  | run (front run back : List ℤ) : run.sum = 0 → Deletion (front ++ (run ++ back)) (front ++ back)

def NoZeroRun (values : List ℤ) : Prop := ∀ run, run <:+: values → run ≠ [] → run.sum ≠ 0

/-- The call returns a list that is obtained from these values by deletions, as far as they go. -/
def Meets (heap : List ListNode) (head : Option ℕ) (values : List ℤ) : Prop :=
  ∃ fuel root heap', removeZeroSumSublists fuel heap head = .ok (root, heap') ∧
    ∃ result, IsList heap' root result ∧ Relation.ReflTransGen Deletion values result ∧
      NoZeroRun result

/-! ## The first pass -/

variable {heap : List ListNode} {head : Option ℕ}

theorem firstPass_raises (heap : List ListNode) (head : Option ℕ) (fuel : ℕ) :
    firstPass (heap ++ [⟨0, head⟩]) (fuel + 1) ⟨none, 0, fun _ => none, some heap.length⟩ =
      .error (.raised (.unboundLocalError "sum")) := by
  have hdummy : (heap ++ [⟨0, head⟩])[heap.length]? = some ⟨0, head⟩ := by
    rw [List.getElem?_append_right le_rfl, Nat.sub_self, List.getElem?_cons_zero]
  have hnode : node (heap ++ [⟨0, head⟩]) heap.length = .ok ⟨0, head⟩ := by
    rw [node, hdummy]
    rfl
  rw [firstPass]
  dsimp only
  rw [hnode]
  rfl

/-- **No call returns**, whatever the list is. -/
theorem removeZeroSumSublists_raises (heap : List ListNode) (head : Option ℕ) :
    (∀ fuel, removeZeroSumSublists (fuel + 1) heap head =
      .error (.raised (.unboundLocalError "sum"))) ∧
      ∀ values, ¬ Meets heap head values := by
  have hraises (fuel : ℕ) : removeZeroSumSublists (fuel + 1) heap head =
      .error (.raised (.unboundLocalError "sum")) := by
    rw [removeZeroSumSublists, firstPass_raises]
    rfl
  refine ⟨hraises, ?_⟩
  rintro values ⟨fuel, root, heap', hreturns, -⟩
  cases fuel with
  | zero => cases hreturns
  | succ fuel =>
      rw [hraises] at hreturns
      cases hreturns

/-- One and minus one, which leave nothing. -/
theorem not_removeZeroSumSublists :
    IsList [⟨1, some 1⟩, ⟨-1, none⟩] (some 0) [1, -1] ∧ Deletion [1, -1] [] ∧ NoZeroRun [] ∧
      ∀ fuel result,
        removeZeroSumSublists (fuel + 1) [⟨1, some 1⟩, ⟨-1, none⟩] (some 0) ≠ .ok result := by
  refine ⟨⟨[(0, 1), (1, -1)], ⟨⟨rfl, rfl, rfl⟩, by decide⟩, rfl⟩, .run [] [1, -1] [] rfl, ?_, ?_⟩
  · exact fun run hrun hne => absurd (List.infix_nil.mp hrun) hne
  · intro fuel result hreturns
    have hraises : removeZeroSumSublists (fuel + 1) [⟨1, some 1⟩, ⟨-1, none⟩] (some 0) =
        .error (.raised (.unboundLocalError "sum")) := rfl
    rw [hraises] at hreturns
    cases hreturns

end Eureka.Leetcode.ZeroSumSublists

import Eureka.Library.Transition

/-!
# First in, first out

A queue with its history: what was enqueued, what was served, and what waits.
Nothing is lost and nothing is served twice or out of order: in every reachable
state the served elements are an initial segment of the enqueued ones, and the
waiting elements are the others.
-/

namespace Eureka.Fifo

open Transition

/-- A queue with its history. -/
structure Queue (α : Type) where
  enqueued : List α
  served : List α
  waiting : List α

inductive Action (α : Type)
  | enqueue (item : α)
  | serve

namespace Queue

variable {α : Type}

def empty : Queue α := ⟨[], [], []⟩

def step (q : Queue α) : Action α → Option (Queue α)
  | .enqueue item =>
      some { q with enqueued := q.enqueued ++ [item], waiting := q.waiting ++ [item] }
  | .serve =>
      match q.waiting with
      | [] => none
      | item :: waiting => some { q with served := q.served ++ [item], waiting := waiting }

end Queue

variable {α : Type}

def system (α : Type) : System (Queue α) (Action α) where
  start q := q = .empty
  step := Queue.step

theorem served_append_waiting {q : Queue α} (hreach : (system α).Reachable q) :
    q.served ++ q.waiting = q.enqueued := by
  refine hreach.invariant (P := fun q => q.served ++ q.waiting = q.enqueued) ?_ ?_
  · rintro q rfl
    rfl
  · intro q action q' hq hstep
    cases action with
    | enqueue item =>
        simp only [system, Queue.step, Option.some.injEq] at hstep
        subst hstep
        simp only [← List.append_assoc, hq]
    | serve =>
        rcases hwaiting : q.waiting with _ | ⟨item, waiting⟩
        · simp [system, Queue.step, hwaiting] at hstep
        · simp only [system, Queue.step, hwaiting, Option.some.injEq] at hstep
          subst hstep
          rw [← hq, hwaiting]
          simp

/-- The elements are served in the order in which they were enqueued, each at most once. -/
theorem served_prefix_enqueued {q : Queue α} (hreach : (system α).Reachable q) :
    q.served <+: q.enqueued :=
  ⟨q.waiting, served_append_waiting hreach⟩

end Eureka.Fifo

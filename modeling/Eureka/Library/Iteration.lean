import Mathlib

/-!
# Iterations over a map that changes

An iteration that runs beside stores and removals is no snapshot.  It visits no
key twice and it visits every key that is in the map all the time; a key that is
there only for a while may be visited or not.

* `Iteration.visit_eq_some_iff`: a visit, and what it leaves;
* `Iteration.mem_lasting_remove`: the other keys last when one is removed.
-/

namespace Eureka

/-- An iteration that is under way. -/
structure Iteration (Key : Type) where
  /-- The keys that have been in the map ever since the iteration began. -/
  lasting : List Key
  /-- The keys that have been in the map at some time since then. -/
  met : List Key
  visited : List Key
  mem_met : ∀ key ∈ lasting, key ∈ met

namespace Iteration

variable {Key : Type} [DecidableEq Key]

def start (keys : List Key) : Iteration Key := ⟨keys, keys, [], fun _ hkey => hkey⟩

/-- A key is stored in the map. -/
def store (iteration : Iteration Key) (key : Key) : Iteration Key :=
  { iteration with
    met := key :: iteration.met
    mem_met := fun other hother => List.mem_cons_of_mem key (iteration.mem_met other hother) }

/-- A key is removed from the map.  A visit of it may still come. -/
def remove (iteration : Iteration Key) (key : Key) : Iteration Key :=
  { iteration with
    lasting := iteration.lasting.filter (· ≠ key)
    mem_met := fun other hother => iteration.mem_met other (List.mem_filter.mp hother).1 }

def visit (iteration : Iteration Key) (key : Key) : Option (Iteration Key) :=
  if key ∈ iteration.met ∧ key ∉ iteration.visited then
    some { iteration with visited := key :: iteration.visited }
  else none

/-- The iteration may end here. -/
def Done (iteration : Iteration Key) : Prop := ∀ key ∈ iteration.lasting, key ∈ iteration.visited

instance (iteration : Iteration Key) : Decidable iteration.Done :=
  inferInstanceAs (Decidable (∀ key ∈ iteration.lasting, key ∈ iteration.visited))

theorem visit_eq_some_iff {iteration iteration' : Iteration Key} {key : Key} :
    iteration.visit key = some iteration' ↔
      (key ∈ iteration.met ∧ key ∉ iteration.visited) ∧
        iteration' = { iteration with visited := key :: iteration.visited } := by
  rw [visit, Option.ite_none_right_eq_some, Option.some.injEq, eq_comm (a := iteration')]

theorem mem_lasting_remove {iteration : Iteration Key} {key other : Key}
    (hlasting : key ∈ iteration.lasting) (hne : key ≠ other) :
    key ∈ (iteration.remove other).lasting :=
  List.mem_filter.mpr ⟨hlasting, decide_eq_true hne⟩

end Iteration

end Eureka

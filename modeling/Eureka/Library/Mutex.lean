import Mathlib.Data.Option.Basic
import Mathlib.Logic.Function.Basic
import Mathlib.Logic.Relation
import Mathlib.Order.WellFounded

/-!
# Mutexes and the threads that hold them

`owner` is the thread that has locked a mutex, and `inside t` says of every
thread whether it is between its lock and its unlock.  `Guards` is the invariant
that ties the two together; it holds from an open mutex on and is kept by locks,
by unlocks and by the steps in between.

With several mutexes, a thread may wait for one while it holds others.  Where it
waits for one of a lower rank only (`Descending`), the chain of those that wait
for each other ends at a thread that can go on (`Descending.exists_runnable`).
-/

namespace Eureka

variable {Thread : Type}

/-- The threads inside are exactly the owner of the mutex. -/
def Guards (owner : Option Thread) (inside : Thread → Bool) : Prop :=
  ∀ t, inside t = true ↔ owner = some t

namespace Guards

variable {owner : Option Thread} {inside : Thread → Bool} {t u : Thread}

theorem open_of_outside (hinside : ∀ t, inside t = false) : Guards none inside := by
  intro t
  simp [hinside t]

/-- **Mutual exclusion.** -/
theorem unique (h : Guards owner inside) (ht : inside t = true) (hu : inside u = true) : t = u := by
  have howner : some t = some u := by rw [← (h t).mp ht, (h u).mp hu]
  exact Option.some.inj howner

variable [DecidableEq Thread]

theorem lock (h : Guards none inside) (t : Thread) :
    Guards (some t) (Function.update inside t true) := by
  intro u
  by_cases hu : u = t
  · subst hu
    simp
  · have hout : ¬ inside u = true := fun hin => nomatch (h u).mp hin
    simp [Function.update_of_ne hu, hout, Ne.symm hu]

theorem unlock (h : Guards owner inside) (ht : inside t = true) :
    Guards none (Function.update inside t false) := by
  intro u
  by_cases hu : u = t
  · subst hu
    simp
  · have hout : ¬ inside u = true := fun hin => hu (h.unique hin ht)
    simp [Function.update_of_ne hu, hout]

theorem stay (h : Guards owner inside) {b : Bool} (hb : b = inside t) :
    Guards owner (Function.update inside t b) := by
  rw [hb, Function.update_eq_self]
  exact h

end Guards

/-! ### The order of several mutexes -/

variable {Mutex ρ : Type}

/-- A thread waits for a mutex that another one holds. -/
def WaitsFor (owner : Mutex → Option Thread) (wants : Thread → Option Mutex) (t u : Thread) :
    Prop :=
  ∃ m, wants t = some m ∧ owner m = some u

/-- The thread wants no mutex, or an open one. -/
def Runnable (owner : Mutex → Option Thread) (wants : Thread → Option Mutex) (t : Thread) : Prop :=
  ∀ m, wants t = some m → owner m = none

/-- Who wants a mutex holds only those of a higher rank. -/
def Descending [LT ρ] (rank : Mutex → ρ) (owner : Mutex → Option Thread)
    (wants : Thread → Option Mutex) : Prop :=
  ∀ t m held, wants t = some m → owner held = some t → rank m < rank held

/-- **No circular wait.**  Where mutexes are locked in descending order, every thread waits, along
those that wait for each other, for one that can go on. -/
theorem Descending.exists_runnable [LT ρ] [WellFoundedLT ρ] {rank : Mutex → ρ}
    {owner : Mutex → Option Thread} {wants : Thread → Option Mutex}
    (h : Descending rank owner wants) (t : Thread) :
    ∃ u, Relation.ReflTransGen (WaitsFor owner wants) t u ∧ Runnable owner wants u := by
  have hwants : ∀ m t, wants t = some m →
      ∃ u, Relation.ReflTransGen (WaitsFor owner wants) t u ∧ Runnable owner wants u := by
    have hwf : WellFounded fun m m' => rank m < rank m' :=
      InvImage.wf rank (wellFounded_lt (α := ρ))
    intro m
    induction m using hwf.induction with
    | _ m ih =>
        intro t ht
        cases howner : owner m with
        | none =>
            refine ⟨t, .refl, fun m' hm' => ?_⟩
            obtain rfl := Option.some.inj (ht.symm.trans hm')
            exact howner
        | some holder =>
            have hwait : WaitsFor owner wants t holder := ⟨m, ht, howner⟩
            cases hholder : wants holder with
            | none => exact ⟨holder, .single hwait, fun m' hm' => nomatch hholder.symm.trans hm'⟩
            | some m' =>
                obtain ⟨u, hchain, hu⟩ := ih m' (h holder m' m hholder howner) holder hholder
                exact ⟨u, .head hwait hchain, hu⟩
  cases ht : wants t with
  | none => exact ⟨t, .refl, fun m hm => nomatch ht.symm.trans hm⟩
  | some m => exact hwants m t ht

end Eureka

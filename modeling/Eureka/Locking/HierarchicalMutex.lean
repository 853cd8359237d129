import Eureka.Library.Mutex
import Eureka.Library.Transition

/-!
# Hierarchical mutexes

`HierarchicalMutex` of
`CPPConcurrencyInAction/sharing_data_between_threads/hierarchical_mutex.h`.  A thread
remembers the hierarchy value of the mutex that it locked last, and each mutex the
value that its thread had before.  An unlock restores that value, which is right if it
is the last locked mutex that is unlocked (`ordered_iff_lastFirst`).  If that is always
so, the threads cannot block each other for good (`hierarchy_no_deadlock`).
-/

namespace Eureka.HierarchicalMutex

open Transition

/-- The largest `unsigned int`, the value of a thread that holds no mutex. -/
def unlimited : ℕ := 4294967295

/-- All mutexes and threads.  The list `held` has the mutexes of a thread, the last locked
one first. -/
structure State (Thread Mutex : Type) where
  owner : Mutex → Option Thread
  /-- `previous_hierarchy_value_` -/
  previous : Mutex → ℕ
  /-- `current_thread_hierachy_value` -/
  current : Thread → ℕ
  /-- the mutex whose `mutex_.lock()` the thread has called -/
  acquiring : Thread → Option Mutex
  held : Thread → List Mutex

inductive Action (Thread Mutex : Type)
  | lock (t : Thread) (m : Mutex)
  | acquire (t : Thread)
  | tryLock (t : Thread) (m : Mutex)
  | unlock (t : Thread) (m : Mutex)
  deriving DecidableEq

variable {Thread Mutex : Type} [DecidableEq Thread] [DecidableEq Mutex]

namespace State

def unlocked : State Thread Mutex :=
  ⟨fun _ => none, fun _ => 0, fun _ => unlimited, fun _ => none, fun _ => []⟩

/-- `CheckHierarchyViolation` does not throw. -/
def allowed (hierarchyValue : Mutex → ℕ) (s : State Thread Mutex) (t : Thread) (m : Mutex) :
    Bool :=
  s.current t > hierarchyValue m

/-- `mutex_` is locked, and `UpdateThreadHierarchyValue` called. -/
def take (hierarchyValue : Mutex → ℕ) (s : State Thread Mutex) (t : Thread) (m : Mutex) :
    State Thread Mutex where
  owner := Function.update s.owner m (some t)
  previous := Function.update s.previous m (s.current t)
  current := Function.update s.current t (hierarchyValue m)
  acquiring := Function.update s.acquiring t none
  held := Function.update s.held t (m :: s.held t)

def unlock (s : State Thread Mutex) (t : Thread) (m : Mutex) : State Thread Mutex :=
  { s with
    owner := Function.update s.owner m none
    current := Function.update s.current t (s.previous m)
    held := Function.update s.held t ((s.held t).erase m) }

end State

/-- The mutexes with these values, locked and unlocked by any threads.  A call that throws, and a
`try_lock` that fails, change nothing; only the owner unlocks a mutex. -/
def mutexes (hierarchyValue : Mutex → ℕ) (Thread : Type) [DecidableEq Thread] :
    System (State Thread Mutex) (Action Thread Mutex) where
  start s := s = .unlocked
  step s
    | .lock t m =>
        if s.acquiring t ≠ none then none
        else if s.allowed hierarchyValue t m then
          some { s with acquiring := Function.update s.acquiring t (some m) }
        else some s
    | .acquire t =>
        match s.acquiring t with
        | none => none
        | some m => if s.owner m = none then some (s.take hierarchyValue t m) else none
    | .tryLock t m =>
        if s.acquiring t ≠ none then none
        else if s.allowed hierarchyValue t m ∧ s.owner m = none then
          some (s.take hierarchyValue t m)
        else some s
    | .unlock t m =>
        if s.acquiring t = none ∧ s.owner m = some t then some (s.unlock t m) else none

/-- From the last locked mutex on, each value is below the one that its mutex remembers, and that is
the value of the next one. -/
def Stacked (hierarchyValue previous : Mutex → ℕ) : ℕ → List Mutex → Prop
  | value, [] => value = unlimited
  | value, m :: held => value = hierarchyValue m ∧ hierarchyValue m < previous m ∧
      Stacked hierarchyValue previous (previous m) held

/-- Every thread has locked its mutexes in descending order and knows the last value, and each of
them remembers the one before it. -/
def Ordered (hierarchyValue : Mutex → ℕ) (s : State Thread Mutex) : Prop :=
  ∀ t, Stacked hierarchyValue s.previous (s.current t) (s.held t)

/-- What a thread unlocks is the mutex that it has locked last. -/
def LastFirst (s : State Thread Mutex) : Action Thread Mutex → Prop
  | .unlock t m => (s.held t).head? = some m
  | .lock _ _ | .acquire _ | .tryLock _ _ => True

instance (s : State Thread Mutex) : (action : Action Thread Mutex) → Decidable (LastFirst s action)
  | .unlock t m => inferInstanceAs (Decidable ((s.held t).head? = some m))
  | .lock _ _ | .acquire _ | .tryLock _ _ => .isTrue trivial

structure Inv (hierarchyValue : Mutex → ℕ) (s : State Thread Mutex) : Prop where
  mem_held : ∀ t m, m ∈ s.held t ↔ s.owner m = some t
  nodup : ∀ t, (s.held t).Nodup
  acquiring : ∀ t m, s.acquiring t = some m → hierarchyValue m < s.current t

variable {hierarchyValue previous previous' : Mutex → ℕ} {s s' : State Thread Mutex}

/-! ### The stack of a thread -/

omit [DecidableEq Mutex] in
theorem Stacked.congr {value : ℕ} {held : List Mutex}
    (h : Stacked hierarchyValue previous value held)
    (hprevious : ∀ m ∈ held, previous' m = previous m) :
    Stacked hierarchyValue previous' value held := by
  induction held generalizing value with
  | nil => exact h
  | cons m held ih =>
      obtain ⟨hvalue, hlt, hrest⟩ := h
      rw [Stacked, hprevious m List.mem_cons_self]
      exact ⟨hvalue, hlt, ih hrest fun m' hm' => hprevious m' (List.mem_cons_of_mem m hm')⟩

omit [DecidableEq Mutex] in
/-- All mutexes of the stack have at least the value of the thread. -/
theorem Stacked.le {value : ℕ} {held : List Mutex}
    (h : Stacked hierarchyValue previous value held) {m : Mutex} (hm : m ∈ held) :
    value ≤ hierarchyValue m ∧ hierarchyValue m < previous m := by
  induction held generalizing value with
  | nil => cases hm
  | cons m' held ih =>
      obtain ⟨rfl, hlt, hrest⟩ := h
      rcases List.mem_cons.mp hm with rfl | hm
      · exact ⟨Nat.le_refl _, hlt⟩
      · obtain ⟨hle, hlt'⟩ := ih hrest hm
        exact ⟨by omega, hlt'⟩

/-! ### What a step can do -/

inductive Moves (hierarchyValue : Mutex → ℕ) (s : State Thread Mutex) :
    Action Thread Mutex → State Thread Mutex → Prop
  | stay {action : Action Thread Mutex} (hlast : LastFirst s action) :
      Moves hierarchyValue s action s
  | wait {t : Thread} {m : Mutex} (hlt : hierarchyValue m < s.current t) :
      Moves hierarchyValue s (.lock t m)
        { s with acquiring := Function.update s.acquiring t (some m) }
  | take {t : Thread} {m : Mutex} {action : Action Thread Mutex} (hlast : LastFirst s action)
      (hlt : hierarchyValue m < s.current t) (hopen : s.owner m = none) :
      Moves hierarchyValue s action (s.take hierarchyValue t m)
  | unlock {t : Thread} {m : Mutex} (hidle : s.acquiring t = none) (howner : s.owner m = some t) :
      Moves hierarchyValue s (.unlock t m) (s.unlock t m)

theorem moves_of_step (hinv : Inv hierarchyValue s) {action : Action Thread Mutex}
    (h : (mutexes hierarchyValue Thread).step s action = some s') :
    Moves hierarchyValue s action s' := by
  cases action with
  | lock t m =>
      simp only [mutexes, Option.ite_none_left_eq_some] at h
      obtain ⟨-, h⟩ := h
      split at h
      case isTrue hallowed =>
          obtain rfl := Option.some.inj h
          exact .wait (by simpa [State.allowed] using hallowed)
      case isFalse =>
          obtain rfl := Option.some.inj h
          exact .stay trivial
  | acquire t =>
      simp only [mutexes] at h
      split at h
      case h_1 => cases h
      case h_2 m hacquiring =>
          obtain ⟨hopen, rfl⟩ := Option.ite_none_right_eq_some.mp h |>.imp_right Option.some.inj
          exact .take trivial (hinv.acquiring t m hacquiring) hopen
  | tryLock t m =>
      simp only [mutexes, Option.ite_none_left_eq_some] at h
      obtain ⟨-, h⟩ := h
      split at h
      case isTrue hboth =>
          obtain rfl := Option.some.inj h
          exact .take trivial (by simpa [State.allowed] using hboth.1) hboth.2
      case isFalse =>
          obtain rfl := Option.some.inj h
          exact .stay trivial
  | unlock t m =>
      simp only [mutexes, Option.ite_none_right_eq_some, Option.some.injEq] at h
      obtain ⟨⟨hidle, howner⟩, rfl⟩ := h
      exact .unlock hidle howner

theorem Inv.take (h : Inv hierarchyValue s) {t : Thread} {m : Mutex} (hopen : s.owner m = none) :
    Inv hierarchyValue (s.take hierarchyValue t m) where
  mem_held u m' := by
    by_cases hm : m' = m
    · subst hm
      by_cases hu : u = t
      · simp [State.take, hu]
      · have hnot : m' ∉ s.held u := by simp [h.mem_held, hopen]
        simp [State.take, Function.update_of_ne hu, hnot, Ne.symm hu]
    · by_cases hu : u = t
      · subst hu
        simp [State.take, hm, h.mem_held]
      · simp [State.take, hm, Function.update_of_ne hu, h.mem_held]
  nodup u := by
    by_cases hu : u = t
    · subst hu
      have hnot : m ∉ s.held u := by simp [h.mem_held, hopen]
      simpa [State.take, hnot] using h.nodup u
    · simpa [State.take, Function.update_of_ne hu] using h.nodup u
  acquiring u m' hm' := by
    by_cases hu : u = t
    · subst hu
      simp [State.take] at hm'
    · simp only [State.take, Function.update_of_ne hu] at hm'
      simpa [State.take, Function.update_of_ne hu] using h.acquiring u m' hm'

theorem Inv.unlock (h : Inv hierarchyValue s) {t : Thread} {m : Mutex}
    (hidle : s.acquiring t = none) (howner : s.owner m = some t) :
    Inv hierarchyValue (s.unlock t m) where
  mem_held u m' := by
    by_cases hm : m' = m
    · subst hm
      by_cases hu : u = t
      · subst hu
        simp [State.unlock, (h.nodup u).mem_erase_iff]
      · have hnot : m' ∉ s.held u := by simp [h.mem_held, howner, Ne.symm hu]
        simp [State.unlock, Function.update_of_ne hu, hnot]
    · by_cases hu : u = t
      · subst hu
        simp [State.unlock, hm, (h.nodup u).mem_erase_iff, h.mem_held]
      · simp [State.unlock, hm, Function.update_of_ne hu, h.mem_held]
  nodup u := by
    by_cases hu : u = t
    · subst hu
      simpa [State.unlock] using (h.nodup u).erase m
    · simpa [State.unlock, Function.update_of_ne hu] using h.nodup u
  acquiring u m' hm' := by
    have hu : u ≠ t := by
      rintro rfl
      exact nomatch hidle.symm.trans hm'
    simpa [State.unlock, Function.update_of_ne hu] using h.acquiring u m' hm'

theorem Inv.step (h : Inv hierarchyValue s) {action : Action Thread Mutex}
    (hstep : (mutexes hierarchyValue Thread).step s action = some s') : Inv hierarchyValue s' := by
  cases moves_of_step h hstep with
  | stay => exact h
  | @wait t m hlt =>
      refine { h with acquiring := fun u m' hm' => ?_ }
      by_cases hu : u = t
      · subst hu
        simp only [Function.update_self, Option.some.injEq] at hm'
        exact hm' ▸ hlt
      · simp only [Function.update_of_ne hu] at hm'
        exact h.acquiring u m' hm'
  | take _ _ hopen => exact h.take hopen
  | unlock hidle howner => exact h.unlock hidle howner

theorem inv_of_start (hstart : (mutexes hierarchyValue Thread).start s) :
    Inv hierarchyValue s ∧ Ordered hierarchyValue s := by
  obtain rfl := hstart
  exact ⟨⟨fun _ _ => iff_of_false nofun nofun, fun _ => List.nodup_nil, nofun⟩, fun _ => rfl⟩

/-! ### The order of the mutexes of a thread -/

theorem Ordered.take (h : Ordered hierarchyValue s) (hinv : Inv hierarchyValue s) {t : Thread}
    {m : Mutex} (hlt : hierarchyValue m < s.current t) (hopen : s.owner m = none) :
    Ordered hierarchyValue (s.take hierarchyValue t m) := by
  have hkeep : ∀ u, ∀ m' ∈ s.held u, (s.take hierarchyValue t m).previous m' = s.previous m' := by
    intro u m' hm'
    refine Function.update_of_ne ?_ _ _
    rintro rfl
    exact nomatch hopen.symm.trans ((hinv.mem_held u m').mp hm')
  intro u
  have hrest := (h u).congr (hkeep u)
  by_cases hu : u = t
  · subst hu
    simpa [State.take, Stacked, hlt] using hrest
  · simpa [State.take, Function.update_of_ne hu] using hrest

/-- **An unlock keeps the order exactly if it unlocks the last locked mutex.** -/
theorem ordered_unlock_iff (h : Ordered hierarchyValue s) (hinv : Inv hierarchyValue s)
    {t : Thread} {m : Mutex} (howner : s.owner m = some t) :
    Ordered hierarchyValue (s.unlock t m) ↔ (s.held t).head? = some m := by
  have hmem : m ∈ s.held t := (hinv.mem_held t m).mpr howner
  have ht := h t
  cases hheld : s.held t with
  | nil => simp [hheld] at hmem
  | cons last rest =>
      rw [hheld] at ht hmem
      obtain ⟨hvalue, hlt, hrest⟩ := ht
      constructor
      · intro hordered
        have ht' := hordered t
        by_contra hne
        have hlast : last ≠ m := by simpa using hne
        have hm : m ∈ rest := (List.mem_cons.mp hmem).resolve_left (Ne.symm hlast)
        -- the value that `m` restores is above its own, and so above that of `last`
        obtain ⟨hle, hlt'⟩ := hrest.le hm
        simp only [State.unlock, Function.update_self, hheld, List.erase_cons,
          beq_eq_false_iff_ne.mpr hlast] at ht'
        have hvalue' : s.previous m = hierarchyValue last := ht'.1
        omega
      · intro hlast u
        obtain rfl : last = m := by simpa using hlast
        by_cases hu : u = t
        · subst hu
          simpa [State.unlock, hheld] using hrest
        · simpa [State.unlock, Function.update_of_ne hu] using h u

theorem ordered_step_iff (h : Ordered hierarchyValue s) (hinv : Inv hierarchyValue s)
    {action : Action Thread Mutex}
    (hstep : (mutexes hierarchyValue Thread).step s action = some s') :
    Ordered hierarchyValue s' ↔ LastFirst s action := by
  cases moves_of_step hinv hstep with
  | stay hlast => exact iff_of_true h hlast
  | wait => exact iff_of_true h trivial
  | take hlast hlt hopen => exact iff_of_true (h.take hinv hlt hopen) hlast
  | unlock _ howner => exact ordered_unlock_iff h hinv howner

/-- **The hierarchy values are right exactly as long as the last locked mutex is unlocked first**:
in all states of a run every thread has locked its mutexes in descending order and knows
the value of the last one, exactly if every unlock of the run is one of the last locked mutex. -/
theorem ordered_iff_lastFirst (hstart : (mutexes hierarchyValue Thread).start s)
    {actions : List (Action Thread Mutex)}
    (hrun : (mutexes hierarchyValue Thread).run s actions = some s') :
    (mutexes hierarchyValue Thread).Always (Ordered hierarchyValue) s actions ↔
      (mutexes hierarchyValue Thread).EachStep LastFirst s actions := by
  obtain ⟨hinv, hordered⟩ := inv_of_start hstart
  refine System.always_iff_eachStep (I := Inv hierarchyValue) (fun s action s' h => h.step) ?_ hinv
    hordered hrun
  exact fun s action s' hinv h hstep => ordered_step_iff h hinv hstep

def values (low : Bool) : ℕ := bif low then 5000 else 10000

/-- A thread locks the mutex of value 10000 and then that of value 5000, and unlocks them in the
same order: its value is too large while it holds the second one. -/
def crossed : List (Action Bool Bool) :=
  [.lock true false, .acquire true, .lock true true, .acquire true, .unlock true false]

theorem ordered_iff_lastFirst_crossed :
    ¬ (mutexes values Bool).Always (Ordered values)
      .unlocked crossed := by
  have hfacts : (((mutexes values Bool).run .unlocked crossed).map fun s => s.current true) =
      some unlimited := by
    decide
  obtain ⟨s, hrun, -⟩ := Option.map_eq_some_iff.mp hfacts
  rw [ordered_iff_lastFirst rfl hrun]
  decide

omit [DecidableEq Thread] [DecidableEq Mutex] in
theorem Ordered.descending (h : Ordered hierarchyValue s) (hinv : Inv hierarchyValue s) :
    Descending hierarchyValue s.owner s.acquiring := by
  intro t m held hm hheld
  calc hierarchyValue m
      < s.current t := hinv.acquiring t m hm
    _ ≤ hierarchyValue held := ((h t).le ((hinv.mem_held t held).mpr hheld)).1

/-- **No deadlock.**  Where every unlock is one of the last locked mutex, in all states of the run
every thread waits, along those that wait for each other, for one that can go on. -/
theorem hierarchy_no_deadlock (hstart : (mutexes hierarchyValue Thread).start s)
    {actions : List (Action Thread Mutex)}
    (hlast : (mutexes hierarchyValue Thread).EachStep LastFirst s actions) :
    (mutexes hierarchyValue Thread).Always
      (fun s => ∀ t, ∃ u, Relation.ReflTransGen (WaitsFor s.owner s.acquiring) t u ∧
        Runnable s.owner s.acquiring u) s actions := by
  refine System.always_of_eachStep
    (I := fun s => Inv hierarchyValue s ∧ Ordered hierarchyValue s) ?_ ?_ (inv_of_start hstart)
    hlast
  · rintro s action s' ⟨hinv, h⟩ hlast hstep
    exact ⟨hinv.step hstep, (ordered_step_iff h hinv hstep).mpr hlast⟩
  · rintro s ⟨hinv, h⟩
    exact (h.descending hinv).exists_runnable

/-- One thread waits for a mutex of the other, which tries to lock upward, gets an exception and
unlocks. -/
def upward : List (Action Bool Bool) :=
  [.lock true false, .acquire true, .lock false true, .acquire false, .lock true true,
    .lock false false, .unlock false true, .acquire true]

theorem hierarchy_no_deadlock_upward :
    (mutexes values Bool).Always
      (fun s => ∀ t, ∃ u, Relation.ReflTransGen (WaitsFor s.owner s.acquiring) t u ∧
        Runnable s.owner s.acquiring u)
      .unlocked upward :=
  hierarchy_no_deadlock rfl (by decide)

end Eureka.HierarchicalMutex

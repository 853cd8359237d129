import Mathlib
import Eureka.Library.Owners
import Eureka.Library.Transition

/-!
# An object factory

`ObjectFactory` of `object_pool.h`: one object for each key, as long as somebody
holds it.  The pool has a weak pointer to the object of a key; the deleter of an
object erases the entry of its key and then deletes the object.

**The deleter comes late.**  Between the last release of an object and the
erasure of its entry, `Get` creates a new object under the same key, and the
erasure is that of the new object's entry (`unique_replaced`).  `StockFactory` of
`stock_pool.h` erases an entry only if its object is gone; where the deleters do
no more than that, the objects are unique (`always_unique`).
-/

namespace Eureka.ObjectPool

open Transition

/-- The shared pointers with their objects and the keys they were asked for by, the key of each
object that was created, the weak pointers of the pool, and how far the deleters are. -/
structure Factory (Key Handle : Type) where
  instances : Owners Handle ℕ
  requests : Handle → Option Key
  keys : List Key
  pool : Key → Option ℕ
  removing : Finset ℕ
  deleting : Finset ℕ

inductive Action (Key Handle : Type)
  /-- The mutex section of `Get`. -/
  | get (key : Key) (handle : Handle)
  /-- A shared pointer is copied. -/
  | copy (handle other : Handle)
  | release (handle : Handle)
  /-- The deleter of an object: the mutex section of `Remove`. -/
  | remove (object : ℕ)
  /-- `delete ptr`. -/
  | delete (object : ℕ)

namespace Factory

variable {Key Handle : Type}

def initial : Factory Key Handle := ⟨.empty, fun _ => none, [], fun _ => none, ∅, ∅⟩

def useCount (s : Factory Key Handle) (object : ℕ) : ℕ := (s.instances.of object).card

/-- `object.lock()` of the entry of a key. -/
def lock (s : Factory Key Handle) (key : Key) : Option ℕ :=
  (s.pool key).filter fun object => s.useCount object ≠ 0

variable [DecidableEq Key] [DecidableEq Handle]

def get (s : Factory Key Handle) (key : Key) (handle : Handle) : Factory Key Handle :=
  match s.lock key with
  | some object => { s with
      instances := s.instances.acquire handle object
      requests := Function.update s.requests handle (some key) }
  | none => { s with
      instances := s.instances.acquire handle s.keys.length
      requests := Function.update s.requests handle (some key)
      keys := s.keys ++ [key]
      pool := Function.update s.pool key (some s.keys.length) }

def release (s : Factory Key Handle) (handle : Handle) : Factory Key Handle :=
  let object := s.instances.obj handle
  let s := { s with instances := s.instances.drop handle }
  if s.useCount object = 0 then { s with removing := insert object s.removing } else s

/-- `pool_.erase(key)` with the key of the object. -/
def remove (s : Factory Key Handle) (object : ℕ) : Factory Key Handle :=
  { s with
    pool := match s.keys[object]? with
      | some key => Function.update s.pool key none
      | none => s.pool
    removing := s.removing.erase object
    deleting := insert object s.deleting }

def step (s : Factory Key Handle) : Action Key Handle → Option (Factory Key Handle)
  | .get key handle => if handle ∈ s.instances.live then none else some (s.get key handle)
  | .copy handle other =>
      if handle ∈ s.instances.live ∧ other ∉ s.instances.live then
        some { s with
          instances := s.instances.acquire other (s.instances.obj handle)
          requests := Function.update s.requests other (s.requests handle) }
      else none
  | .release handle => if handle ∈ s.instances.live then some (s.release handle) else none
  | .remove object => if object ∈ s.removing then some (s.remove object) else none
  | .delete object =>
      if object ∈ s.deleting then some { s with deleting := s.deleting.erase object } else none

end Factory

/-- Any threads that get, copy and release pointers; it does not matter which thread has a pointer. -/
def factory (Key Handle : Type) [DecidableEq Key] [DecidableEq Handle] :
    System (Factory Key Handle) (Action Key Handle) where
  start s := s = .initial
  step := Factory.step

namespace Factory

variable {Key Handle : Type}

/-- Two pointers with the same key point to the same object. -/
def Unique (s : Factory Key Handle) : Prop :=
  ∀ handle ∈ s.instances.live, ∀ other ∈ s.instances.live,
    s.requests handle = s.requests other → s.instances.obj handle = s.instances.obj other

/-- `Remove` finds no entry of an object that somebody holds. -/
def Timely (s : Factory Key Handle) : Action Key Handle → Prop
  | .remove object => ∀ key ∈ s.keys[object]?, s.lock key = none
  | _ => True

instance [DecidableEq Key] (s : Factory Key Handle) : Decidable s.Unique := by
  unfold Unique
  infer_instance

instance (s : Factory Key Handle) (action : Action Key Handle) : Decidable (s.Timely action) := by
  cases action <;> unfold Timely <;> infer_instance

/-! ## Objects and entries -/

/-- The object of every pointer is the one in the pool. -/
def Registered (s : Factory Key Handle) : Prop :=
  ∀ handle ∈ s.instances.live, ∃ key, s.requests handle = some key ∧
    s.pool key = some (s.instances.obj handle)

variable {s s' : Factory Key Handle} {key : Key} {handle other : Handle} {object : ℕ}

theorem registered_initial : (initial : Factory Key Handle).Registered := fun _ hmem =>
  absurd hmem (Finset.notMem_empty _)

theorem lock_eq_some_iff :
    s.lock key = some object ↔ s.pool key = some object ∧ s.useCount object ≠ 0 := by
  rw [lock, Option.filter_eq_some_iff, decide_eq_true_iff]

theorem lock_of_pool (hhandle : handle ∈ s.instances.live)
    (hpool : s.pool key = some (s.instances.obj handle)) :
    s.lock key = some (s.instances.obj handle) := by
  refine lock_eq_some_iff.mpr ⟨hpool, ?_⟩
  exact Finset.card_ne_zero_of_mem (Owners.mem_of.mpr ⟨hhandle, rfl⟩)

theorem Registered.unique (h : s.Registered) : s.Unique := by
  intro handle hhandle other hother hsame
  obtain ⟨key, hkey, hpool⟩ := h handle hhandle
  obtain ⟨key', hkey', hpool'⟩ := h other hother
  obtain rfl : key = key' := Option.some.inj ((hkey.symm.trans hsame).trans hkey')
  exact Option.some.inj (hpool.symm.trans hpool')

variable [DecidableEq Handle]

theorem Registered.acquire (h : s.Registered) {keys : List Key} {pool : Key → Option ℕ}
    (hpool : pool key = some object)
    (hothers : ∀ other ∈ s.instances.live, ∀ key, s.pool key = some (s.instances.obj other) →
      pool key = some (s.instances.obj other)) :
    Registered { s with
      instances := s.instances.acquire handle object
      requests := Function.update s.requests handle (some key)
      keys := keys
      pool := pool } := by
  intro other hother
  show ∃ key', Function.update s.requests handle (some key) other = some key' ∧
    pool key' = some ((s.instances.acquire handle object).obj other)
  by_cases hne : other = handle
  · rw [hne, Function.update_self, Owners.obj_acquire_self]
    exact ⟨key, rfl, hpool⟩
  · have hlive := Finset.mem_of_mem_insert_of_ne hother hne
    obtain ⟨key', hkey', hold⟩ := h other hlive
    rw [Function.update_of_ne hne, Owners.obj_acquire_of_ne hne]
    exact ⟨key', hkey', hothers other hlive key' hold⟩

variable [DecidableEq Key]

theorem Registered.get (h : s.Registered) : (s.get key handle).Registered := by
  unfold Factory.get
  cases hlock : s.lock key with
  | none =>
      refine h.acquire (Function.update_self _ _ _) fun other hother key' hpool => ?_
      have hne : key' ≠ key := by
        rintro rfl
        exact nomatch hlock.symm.trans (lock_of_pool hother hpool)
      exact (Function.update_of_ne hne _ _).trans hpool
  | some object => exact h.acquire (lock_eq_some_iff.mp hlock).1 fun _ _ _ hpool => hpool

omit [DecidableEq Key] in
theorem Registered.release (h : s.Registered) : (s.release handle).Registered := by
  unfold Factory.release
  dsimp only
  split
  all_goals exact fun other hother => h other (Finset.mem_of_mem_erase hother)

omit [DecidableEq Handle] in
/-- The entry that is erased is that of an object that nobody holds. -/
theorem Registered.remove (h : s.Registered) (htimely : s.Timely (.remove object)) :
    (s.remove object).Registered := by
  intro other hother
  obtain ⟨key', hkey', hpool⟩ := h other hother
  refine ⟨key', hkey', ?_⟩
  unfold Factory.remove
  cases hkey : s.keys[object]? with
  | none => exact hpool
  | some key =>
      have hne : key' ≠ key := by
        rintro rfl
        exact nomatch (htimely key' hkey).symm.trans (lock_of_pool hother hpool)
      exact (Function.update_of_ne hne _ _).trans hpool

theorem Registered.step (h : s.Registered) {action : Action Key Handle} (htimely : s.Timely action)
    (hstep : (factory Key Handle).step s action = some s') : s'.Registered := by
  cases action with
  | get key handle =>
      obtain ⟨-, heq⟩ := Option.ite_none_left_eq_some.mp hstep
      exact Option.some.inj heq ▸ h.get
  | copy handle other =>
      obtain ⟨⟨hhandle, -⟩, heq⟩ := Option.ite_none_right_eq_some.mp hstep
      obtain ⟨key, hkey, hpool⟩ := h handle hhandle
      rw [← Option.some.inj heq, hkey]
      exact h.acquire hpool fun _ _ _ hpool => hpool
  | release handle =>
      obtain ⟨-, heq⟩ := Option.ite_none_right_eq_some.mp hstep
      exact Option.some.inj heq ▸ h.release
  | remove object =>
      obtain ⟨-, heq⟩ := Option.ite_none_right_eq_some.mp hstep
      exact Option.some.inj heq ▸ h.remove htimely
  | delete object =>
      obtain ⟨-, heq⟩ := Option.ite_none_right_eq_some.mp hstep
      exact Option.some.inj heq ▸ h

/-- **Objects are unique** in every run in which no deleter erases the entry of an object that
somebody holds. -/
theorem always_unique {actions : List (Action Key Handle)}
    (htimely : (factory Key Handle).EachStep Timely .initial actions) :
    (factory Key Handle).Always Unique .initial actions :=
  System.always_of_eachStep (I := Registered) (fun _ _ _ h htimely hstep => h.step htimely hstep)
    (fun _ h => h.unique) registered_initial htimely

/-- Two pointers to one object, whose deleter runs late but before the next `Get`. -/
theorem always_unique_late :
    (factory ℕ ℕ).Always Unique .initial
      [.get 0 0, .get 0 1, .get 1 2, .release 0, .release 1, .release 2, .get 1 3,
        .remove 0, .get 0 4, .delete 0] :=
  always_unique (by decide)

/-- The deleter of the first object erases the entry of the second, and there is a third one. -/
theorem unique_replaced :
    ∃ s, (factory ℕ ℕ).run .initial
        [.get 0 0, .release 0, .get 0 1, .remove 0, .get 0 2] = some s ∧ ¬ s.Unique := by
  refine ⟨_, rfl, ?_⟩
  decide

end Factory

end Eureka.ObjectPool

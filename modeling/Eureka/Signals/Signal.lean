import Mathlib
import Eureka.Library.Owners
import Eureka.Library.Transition

/-!
# Signals and slots

`SignalImpl` of `signals.h` with any threads that connect, disconnect and emit,
also from inside the slots they invoke.  The slots are in a vector behind a
shared pointer: an emission copies the pointer under the mutex and iterates
without it; a change of the vector copies the vector first unless the signal's
pointer is the only one (`CopyIfNeeded`).  The test of the use count, the copy
and the change are steps of their own, since emissions end at any time.

Slots are values of a type with decidable equality, as the pointers to them are
compared for the same control block; `bound` gives the object of those that are
weakly bound.
-/

namespace Eureka.Signals

open Transition

/-- Who has a pointer to a vector: the signal (`slots_`) or an emission (`slots` of `Invoke`). -/
inductive Holder
  | signal
  | emission (id : ℕ)
deriving DecidableEq, Repr

/-- What is done to the vector under the mutex. -/
inductive Edit (Slot : Type)
  | addSlot (slot : Slot)
  | removeSlot (slot : Slot)
  | removeAllSlots
deriving DecidableEq, Repr

def Edit.apply {Slot : Type} [DecidableEq Slot] (slots : List Slot) : Edit Slot → List Slot
  | addSlot slot => slots ++ [slot]
  | removeSlot slot => slots.erase slot
  | removeAllSlots => []

/-- Where a thread is in `AddSlot`, `RemoveSlot` or `RemoveAllSlots`. -/
inductive Stage (Slot : Type)
  | outside
  /-- Before the mutex is locked. -/
  | waiting (edit : Edit Slot)
  /-- `slots_.unique()`. -/
  | testing (edit : Edit Slot)
  /-- `slots_.reset(new SlotList(*slots_))`. -/
  | copying (edit : Edit Slot)
  | editing (edit : Edit Slot)
deriving DecidableEq, Repr

/-- The edit of a thread that is on its way. -/
def Stage.edit {Slot : Type} : Stage Slot → Option (Edit Slot)
  | outside => none
  | waiting edit | testing edit | copying edit | editing edit => some edit

/-- The thread has locked the mutex. -/
def Stage.inside {Slot : Type} : Stage Slot → Bool
  | outside | waiting _ => false
  | testing _ | copying _ | editing _ => true

/-- How far a call of `Invoke` is. -/
inductive Progress
  | iterating
  /-- Inside `slot->fn`. -/
  | calling
  | returned
  /-- A slot has thrown an exception. -/
  | thrown
deriving DecidableEq, Repr

/-- The call has not come to its end. -/
def Progress.ongoing : Progress → Bool
  | iterating | calling => true
  | returned | thrown => false

/-- A call of `Invoke`: what was connected when it copied the pointer, the slots it has reached, each
with the objects that were gone then, and those it has invoked. -/
structure Emission (Slot Obj : Type) where
  snapshot : List Slot
  reached : List (Slot × Finset Obj)
  invoked : List Slot
  progress : Progress

/-- The vectors and who points to them, the mutex, the threads with their emissions (the innermost
first), the objects that are gone; and the slots that were made, added and removed so far. -/
structure Signal (Thread Slot Obj : Type) where
  lists : ℕ → List Slot
  next : ℕ
  holders : Owners Holder ℕ
  mutex : Option Thread
  stage : Thread → Stage Slot
  stack : Thread → List ℕ
  emissions : ℕ → Option (Emission Slot Obj)
  started : ℕ
  gone : Finset Obj
  made : Finset Slot
  added : List Slot
  removed : Finset Slot

inductive Action (Thread Slot Obj : Type)
  | connect (t : Thread) (slot : Slot)
  | disconnect (t : Thread) (slot : Slot)
  /-- The weak pointer of the slot finds nothing. -/
  | disconnectExpired (t : Thread) (slot : Slot)
  | disconnectAll (t : Thread)
  | lock (t : Thread)
  | test (t : Thread)
  | copy (t : Thread)
  | edit (t : Thread)
  /-- The mutex section of `Invoke`. -/
  | emit (t : Thread)
  /-- The next slot of the innermost emission. -/
  | reach (t : Thread)
  /-- The slot that was invoked returns. -/
  | «return» (t : Thread)
  | throw (t : Thread)
  | finish (t : Thread)
  | die (object : Obj)

namespace Signal

variable {Thread Slot Obj : Type}

def initial : Signal Thread Slot Obj where
  lists _ := []
  next := 1
  holders := ⟨{.signal}, fun _ => 0⟩
  mutex := none
  stage _ := .outside
  stack _ := []
  emissions _ := none
  started := 0
  gone := ∅
  made := ∅
  added := []
  removed := ∅

/-- `slots_`. -/
def slots (s : Signal Thread Slot Obj) : ℕ := s.holders.obj .signal

/-- The thread runs code that may call: its own, or that of a slot. -/
def mayCall (s : Signal Thread Slot Obj) (t : Thread) : Bool :=
  match s.stage t, s.stack t with
  | .outside, [] => true
  | .outside, id :: _ => (s.emissions id).any (·.progress = .calling)
  | _, _ => false

variable [DecidableEq Slot]

/-- The slots that were added and not removed since, in the order in which they were added. -/
def connected (s : Signal Thread Slot Obj) : List Slot := s.added.filter (· ∉ s.removed)

/-- `weakly_bound_object.lock()` fails. -/
def isGone [DecidableEq Obj] (bound : Slot → Option Obj) (gone : Finset Obj) (slot : Slot) : Bool :=
  (bound slot).any (· ∈ gone)

variable [DecidableEq Thread]

def setStage (s : Signal Thread Slot Obj) (t : Thread) (stage : Stage Slot) :
    Signal Thread Slot Obj :=
  { s with stage := Function.update s.stage t stage }

def setEmission (s : Signal Thread Slot Obj) (id : ℕ) (e : Emission Slot Obj) :
    Signal Thread Slot Obj :=
  { s with emissions := Function.update s.emissions id (some e) }

/-- `slots_` is given a vector of its own. -/
def copy (s : Signal Thread Slot Obj) (t : Thread) (edit : Edit Slot) : Signal Thread Slot Obj :=
  { s with
    lists := Function.update s.lists s.next (s.lists s.slots)
    next := s.next + 1
    holders := s.holders.acquire .signal s.next
    stage := Function.update s.stage t (.editing edit) }

/-- The vector is changed, and the mutex unlocked. -/
def edit (s : Signal Thread Slot Obj) (t : Thread) (edit : Edit Slot) : Signal Thread Slot Obj :=
  { s with
    lists := Function.update s.lists s.slots (edit.apply (s.lists s.slots))
    mutex := none
    stage := Function.update s.stage t .outside
    added := match edit with
      | .addSlot slot => s.added ++ [slot]
      | _ => s.added
    removed := match edit with
      | .addSlot _ => s.removed
      | .removeSlot slot => insert slot s.removed
      | .removeAllSlots => s.removed ∪ s.added.toFinset }

def emit (s : Signal Thread Slot Obj) (t : Thread) : Signal Thread Slot Obj :=
  { s with
    holders := s.holders.acquire (.emission s.started) s.slots
    stack := Function.update s.stack t (s.started :: s.stack t)
    emissions := Function.update s.emissions s.started (some ⟨s.connected, [], [], .iterating⟩)
    started := s.started + 1 }

/-- The slot is invoked, unless the object it is bound to has gone. -/
def reach [DecidableEq Obj] (bound : Slot → Option Obj) (s : Signal Thread Slot Obj) (id : ℕ)
    (e : Emission Slot Obj) (slot : Slot) : Signal Thread Slot Obj :=
  if isGone bound s.gone slot then
    s.setEmission id { e with reached := e.reached ++ [(slot, s.gone)] }
  else
    s.setEmission id { e with
      reached := e.reached ++ [(slot, s.gone)]
      invoked := e.invoked ++ [slot]
      progress := .calling }

/-- `slots` of `Invoke` goes out of scope. -/
def leave (s : Signal Thread Slot Obj) (t : Thread) (id : ℕ) (ids : List ℕ)
    (e : Emission Slot Obj) (progress : Progress) : Signal Thread Slot Obj :=
  { s with
    holders := s.holders.drop (.emission id)
    stack := Function.update s.stack t ids
    emissions := Function.update s.emissions id (some { e with progress := progress }) }

/-- The innermost emission of a thread that is not in the middle of a change. -/
def top (s : Signal Thread Slot Obj) (t : Thread) : Option (ℕ × List ℕ × Emission Slot Obj) :=
  match s.stage t, s.stack t with
  | .outside, id :: ids => (s.emissions id).map fun e => (id, ids, e)
  | _, _ => none

def step [DecidableEq Obj] (bound : Slot → Option Obj) (s : Signal Thread Slot Obj) :
    Action Thread Slot Obj → Option (Signal Thread Slot Obj)
  | .connect t slot =>
      if s.mayCall t ∧ slot ∉ s.made then
        some { s.setStage t (.waiting (.addSlot slot)) with made := insert slot s.made }
      else none
  | .disconnect t slot =>
      if s.mayCall t ∧ slot ∈ s.added then some (s.setStage t (.waiting (.removeSlot slot))) else none
  | .disconnectExpired t slot =>
      if s.mayCall t ∧ ∀ holder ∈ s.holders.live, slot ∉ s.lists (s.holders.obj holder) then some s
      else none
  | .disconnectAll t => if s.mayCall t then some (s.setStage t (.waiting .removeAllSlots)) else none
  | .lock t =>
      match s.stage t, s.mutex with
      | .waiting edit, none => some { s.setStage t (.testing edit) with mutex := some t }
      | _, _ => none
  | .test t =>
      match s.stage t with
      | .testing edit =>
          let unique := (s.holders.of s.slots).card = 1
          some (s.setStage t (if unique then .editing edit else .copying edit))
      | _ => none
  | .copy t =>
      match s.stage t with
      | .copying edit => some (s.copy t edit)
      | _ => none
  | .edit t =>
      match s.stage t with
      | .editing edit => some (s.edit t edit)
      | _ => none
  | .emit t => if s.mayCall t ∧ s.mutex = none then some (s.emit t) else none
  | .reach t =>
      match s.top t with
      | some (id, _, e) =>
          if e.progress = .iterating then
            (s.lists (s.holders.obj (.emission id)))[e.reached.length]?.map (s.reach bound id e)
          else none
      | none => none
  | .return t =>
      match s.top t with
      | some (id, _, e) =>
          if e.progress = .calling then some (s.setEmission id { e with progress := .iterating })
          else none
      | none => none
  | .throw t =>
      match s.top t with
      | some (id, ids, e) =>
          if e.progress = .calling then some (s.leave t id ids e .thrown) else none
      | none => none
  | .finish t =>
      match s.top t with
      | some (id, ids, e) =>
          if e.progress = .iterating ∧
              (s.lists (s.holders.obj (.emission id))).length ≤ e.reached.length then
            some (s.leave t id ids e .returned)
          else none
      | none => none
  | .die object => some { s with gone := insert object s.gone }

end Signal

/-- One signal, any threads, and slots some of which are bound to objects. -/
def signal (Thread : Type) {Slot Obj : Type} [DecidableEq Thread] [DecidableEq Slot] [DecidableEq Obj]
    (bound : Slot → Option Obj) : System (Signal Thread Slot Obj) (Action Thread Slot Obj) where
  start s := s = .initial
  step := Signal.step bound

end Eureka.Signals

import Mathlib.Data.List.Basic
import Mathlib.Logic.Function.Basic

/-!
# Sequential objects and the calls that are attributed to them

A concurrent object is compared with a sequential one.  Its calls take effect
one after another, in the order of a history; what the sequential object answers
to the history has to be what the calls return, where a call that has taken
effect and not yet returned owes its answer.

* `Linearizes`: the invariant, with the two steps that keep it, `Linearizes.commit`
  (a call takes effect) and `Linearizes.answer` (it returns).
-/

namespace Eureka

/-- A sequential object: what a call answers and what it leaves behind. -/
structure SequentialObject (σ Op Ret : Type) where
  start : σ
  call : σ → Op → Ret × σ

variable {σ Op Ret Thread : Type}

namespace SequentialObject

/-- The answers to a history of calls, and what it leaves behind. -/
def run (obj : SequentialObject σ Op Ret) : σ → List (Thread × Op) → List (Thread × Ret) × σ
  | s, [] => ([], s)
  | s, (t, op) :: history =>
      let answered := obj.call s op
      let rest := obj.run answered.2 history
      ((t, answered.1) :: rest.1, rest.2)

theorem run_append (obj : SequentialObject σ Op Ret) (s : σ) (first second : List (Thread × Op)) :
    obj.run s (first ++ second) =
      ((obj.run s first).1 ++ (obj.run (obj.run s first).2 second).1,
        (obj.run (obj.run s first).2 second).2) := by
  induction first generalizing s with
  | nil => rfl
  | cons call first ih => simp only [List.cons_append, run, ih]

theorem run_append_call (obj : SequentialObject σ Op Ret) (s : σ)
    (history : List (Thread × Op)) (t : Thread) (op : Op) :
    obj.run s (history ++ [(t, op)]) =
      ((obj.run s history).1 ++ [(t, (obj.call (obj.run s history).2 op).1)],
        (obj.call (obj.run s history).2 op).2) :=
  obj.run_append s history [(t, op)]

theorem run_map_fst (obj : SequentialObject σ Op Ret) (s : σ) (history : List (Thread × Op)) :
    (obj.run s history).1.map Prod.fst = history.map Prod.fst := by
  induction history generalizing s with
  | nil => rfl
  | cons call history ih => simp only [run, List.map_cons, ih]

end SequentialObject

variable [DecidableEq Thread]

/-- What belongs to one thread, in order. -/
def ofThread (t : Thread) (answers : List (Thread × Ret)) : List Ret :=
  (answers.filter (·.1 = t)).map Prod.snd

theorem ofThread_append_self (t : Thread) (answers : List (Thread × Ret)) (answer : Ret) :
    ofThread t (answers ++ [(t, answer)]) = ofThread t answers ++ [answer] := by
  simp [ofThread]

theorem ofThread_append_of_ne {t u : Thread} (hne : u ≠ t) (answers : List (Thread × Ret))
    (answer : Ret) : ofThread u (answers ++ [(t, answer)]) = ofThread u answers := by
  simp [ofThread, Ne.symm hne]

/-- What the answers hand out, with the threads that get it. -/
def handedOut {β : Type} (f : Ret → Option β) (answers : List (Thread × Ret)) :
    List (Thread × β) :=
  answers.filterMap fun answer => (f answer.2).map (answer.1, ·)

omit [DecidableEq Thread] in
theorem handedOut_append {β : Type} (f : Ret → Option β) (first second : List (Thread × Ret)) :
    handedOut f (first ++ second) = handedOut f first ++ handedOut f second :=
  List.filterMap_append ..

theorem ofThread_handedOut {β : Type} (f : Ret → Option β) (t : Thread)
    (answers : List (Thread × Ret)) :
    ofThread t (handedOut f answers) = (ofThread t answers).filterMap f := by
  induction answers with
  | nil => rfl
  | cons answer answers ih =>
      obtain ⟨u, ret⟩ := answer
      simp only [handedOut, ofThread, List.filterMap_cons] at ih ⊢
      by_cases hu : u = t <;> cases hret : f ret <;> simp [hu, hret, ih]

/-- The history leads the sequential object to `contents`, and every thread has
been returned what the object answered it, except for what it is still owed. -/
structure Linearizes (obj : SequentialObject σ Op Ret) (history : List (Thread × Op))
    (returned : List (Thread × Ret)) (owed : Thread → Option Ret) (contents : σ) : Prop where
  contents_eq : (obj.run obj.start history).2 = contents
  answers_eq : ∀ t, ofThread t (obj.run obj.start history).1 =
    ofThread t returned ++ (owed t).toList

namespace Linearizes

variable {obj : SequentialObject σ Op Ret} {history : List (Thread × Op)}
  {returned : List (Thread × Ret)} {owed : Thread → Option Ret} {contents : σ} {t : Thread}

theorem start (howed : ∀ t, owed t = none) :
    Linearizes obj ([] : List (Thread × Op)) [] owed obj.start where
  contents_eq := rfl
  answers_eq t := by rw [howed t]; rfl

theorem exists_call (h : Linearizes obj history returned owed contents)
    (ht : ofThread t returned ≠ []) : ∃ op, (t, op) ∈ history := by
  obtain ⟨ret, hret⟩ := List.exists_mem_of_ne_nil _ ht
  have hanswer : ret ∈ ofThread t (obj.run obj.start history).1 := by
    rw [h.answers_eq]
    exact List.mem_append_left _ hret
  obtain ⟨⟨u, ret'⟩, hmem, -⟩ := List.mem_map.mp hanswer
  obtain ⟨hmem, hu⟩ := List.mem_filter.mp hmem
  have hfst : t ∈ history.map Prod.fst := by
    rw [← obj.run_map_fst obj.start history]
    exact List.mem_map.mpr ⟨_, hmem, by simpa using hu⟩
  obtain ⟨⟨u', op⟩, hcall, rfl⟩ := List.mem_map.mp hfst
  exact ⟨op, hcall⟩

theorem ofThread_handedOut (h : Linearizes obj history returned owed contents) {β : Type}
    (f : Ret → Option β) (t : Thread) :
    ofThread t (handedOut f (obj.run obj.start history).1) =
      (ofThread t returned).filterMap f ++ ((owed t).bind f).toList := by
  rw [Eureka.ofThread_handedOut, h.answers_eq, List.filterMap_append]
  cases hret : owed t with
  | none => rfl
  | some ret => cases hf : f ret <;> simp [hf]

theorem commit (h : Linearizes obj history returned owed contents) (howed : owed t = none)
    (op : Op) :
    Linearizes obj (history ++ [(t, op)]) returned
      (Function.update owed t (some (obj.call contents op).1)) (obj.call contents op).2 where
  contents_eq := by rw [obj.run_append_call, h.contents_eq]
  answers_eq u := by
    rw [obj.run_append_call, h.contents_eq]
    by_cases hu : u = t
    · subst hu
      rw [ofThread_append_self, h.answers_eq, howed, Function.update_self]
      simp
    · rw [ofThread_append_of_ne hu, h.answers_eq, Function.update_of_ne hu]

theorem answer (h : Linearizes obj history returned owed contents) {ret : Ret}
    (howed : owed t = some ret) :
    Linearizes obj history (returned ++ [(t, ret)]) (Function.update owed t none) contents where
  contents_eq := h.contents_eq
  answers_eq u := by
    by_cases hu : u = t
    · subst hu
      rw [ofThread_append_self, h.answers_eq, howed, Function.update_self]
      simp
    · rw [ofThread_append_of_ne hu, h.answers_eq, Function.update_of_ne hu]

theorem stay (h : Linearizes obj history returned owed contents) {ret : Option Ret}
    (hret : ret = owed t) :
    Linearizes obj history returned (Function.update owed t ret) contents := by
  rw [hret, Function.update_eq_self]
  exact h

end Linearizes

end Eureka

import Eureka.Library.Mutex
import Eureka.Library.SequentialObject
import Eureka.Library.Transition

/-!
# Monitors with one condition variable

Data behind a mutex, and a condition variable on which an operation waits until
its predicate holds.  An operation locks, tests its predicate, works on the data,
may notify before and after it unlocks, and returns.  A thread that waits leaves
the wait set when it is notified, or spuriously, and has to lock and test again.

* `linearizes`, `history_ready`: the operations take effect one after another, each
  when its predicate holds, and answer what the sequential object answers;
* `Signals`, `Signals.supply`: the condition on the notifications under which no
  thread waits for what nobody will tell it, with `Signals.awake` and
  `Signals.not_stuck`.
-/

namespace Eureka.Monitor

open Transition

/-- Whom an operation notifies. -/
inductive Signal
  | nobody
  | one
  | all
  deriving DecidableEq

/-- The operations of a monitor. -/
structure Spec (σ Op Ret : Type) where
  start : σ
  /-- The predicate that the operation waits for, if it waits. -/
  predicate : Op → Option (σ → Bool)
  body : σ → Op → Ret × σ
  /-- The notification before the unlock, which may depend on the data. -/
  during : Op → σ → Signal
  /-- The notification after the unlock. -/
  after : Op → Signal

variable {σ Op Ret Thread : Type}

namespace Spec

variable (spec : Spec σ Op Ret)

def object : SequentialObject σ Op Ret := ⟨spec.start, spec.body⟩

def waits (op : Op) : Bool := (spec.predicate op).isSome

/-- The operation need not wait. -/
def ready (op : Op) (data : σ) : Bool :=
  match spec.predicate op with
  | none => true
  | some p => p data

/-- The operation, which has left `data` behind, makes this notification before or after it
unlocks. -/
def tells (signal : Signal) (op : Op) (data : σ) : Bool :=
  spec.during op data = signal || spec.after op = signal

end Spec

/-- What a thread does next. -/
inductive At (Op Ret : Type)
  | idle
  | lock (op : Op)
  | test (op : Op)
  | wait (op : Op)
  | signal (during : Signal) (op : Op) (ret : Ret)
  | unlock (op : Op) (ret : Ret)
  | notify (op : Op) (ret : Ret)

/-- The thread is between its lock and its unlock. -/
def At.inside : At Op Ret → Bool
  | .test _ | .signal _ _ _ | .unlock _ _ => true
  | .idle | .lock _ | .wait _ | .notify _ _ => false

/-- The operation that the thread is busy with. -/
def At.op? : At Op Ret → Option Op
  | .idle => none
  | .lock op | .test op | .wait op | .signal _ op _ | .unlock op _ | .notify op _ => some op

@[simp]
theorem At.op?_idle : (At.idle : At Op Ret).op? = none := rfl

/-- The answer of an operation that has taken effect and not yet returned. -/
def At.owed : At Op Ret → Option Ret
  | .signal _ _ ret | .unlock _ ret | .notify _ ret => some ret
  | .idle | .lock _ | .test _ | .wait _ => none

/-- The monitor and its threads.  The logs `history` and `returned` have the
operations in the order in which they took effect, and the answers. -/
structure State (σ Op Ret Thread : Type) where
  data : σ
  mutex : Option Thread
  waiting : Finset Thread
  pc : Thread → At Op Ret
  history : List (Thread × Op)
  returned : List (Thread × Ret)

inductive Action (Op Thread : Type)
  | call (t : Thread) (op : Op)
  /-- the next step of `t`; if it is a notification of one thread, `chosen` is that thread -/
  | step (t chosen : Thread)
  | spurious (t : Thread)
  deriving DecidableEq

variable [DecidableEq Thread]

namespace State

def goto (s : State σ Op Ret Thread) (t : Thread) (pc : At Op Ret) : State σ Op Ret Thread :=
  { s with pc := Function.update s.pc t pc }

/-- A notification, if it can be that of `chosen`. -/
def signal (s : State σ Op Ret Thread) (chosen : Thread) :
    Signal → Option (State σ Op Ret Thread)
  | .nobody => some s
  | .one =>
      if chosen ∈ s.waiting ∨ s.waiting = ∅ then
        some { s with waiting := s.waiting.erase chosen }
      else none
  | .all => some { s with waiting := ∅ }

/-- The operation of `t` takes effect. -/
def work (spec : Spec σ Op Ret) (s : State σ Op Ret Thread) (t : Thread) (op : Op) :
    State σ Op Ret Thread :=
  let done := spec.body s.data op
  { s with data := done.2, history := s.history ++ [(t, op)] }.goto t
    (.signal (spec.during op done.2) op done.1)

/-- `t` evaluates the predicate, and works on the data or waits. -/
def test (spec : Spec σ Op Ret) (s : State σ Op Ret Thread) (t : Thread) (op : Op) :
    State σ Op Ret Thread :=
  if spec.ready op s.data then s.work spec t op
  else { s with mutex := none, waiting := insert t s.waiting }.goto t (.wait op)

/-- The next step of a thread, if it can be done. -/
def step (spec : Spec σ Op Ret) (s : State σ Op Ret Thread) (t chosen : Thread) :
    Option (State σ Op Ret Thread) :=
  match s.pc t with
  | .idle => none
  | .lock op =>
      if s.mutex = none then some ({ s with mutex := some t }.goto t (.test op)) else none
  | .test op => some (s.test spec t op)
  | .wait op =>
      if t ∉ s.waiting ∧ s.mutex = none then
        some ({ s with mutex := some t }.goto t (.test op))
      else none
  | .signal during op ret => (s.signal chosen during).map (·.goto t (.unlock op ret))
  | .unlock op ret => some ({ s with mutex := none }.goto t (.notify op ret))
  | .notify op ret =>
      (s.signal chosen (spec.after op)).map fun s =>
        { s with returned := s.returned ++ [(t, ret)] }.goto t .idle

end State

def system (spec : Spec σ Op Ret) (Thread : Type) [DecidableEq Thread] :
    System (State σ Op Ret Thread) (Action Op Thread) where
  start s := s = ⟨spec.start, none, ∅, fun _ => .idle, [], []⟩
  step s
    | .call t op =>
        match s.pc t with
        | .idle => some (s.goto t (.lock op))
        | _ => none
    | .step t chosen => s.step spec t chosen
    | .spurious t =>
        if t ∈ s.waiting then some { s with waiting := s.waiting.erase t } else none

/-! ### What a step can do -/

/-- What a notification can leave of a wait set. -/
inductive Notified (waiting : Finset Thread) : Signal → Finset Thread → Prop
  | nobody : Notified waiting .nobody waiting
  | one {u : Thread} (hu : u ∈ waiting) : Notified waiting .one (waiting.erase u)
  | noneWaits (hempty : waiting = ∅) : Notified waiting .one ∅
  | all : Notified waiting .all ∅

/-- What the step of a thread can do. -/
inductive Moves (spec : Spec σ Op Ret) (s : State σ Op Ret Thread) (t : Thread) :
    State σ Op Ret Thread → Prop
  | lock {op : Op} (hpc : s.pc t = .lock op) (hopen : s.mutex = none) :
      Moves spec s t ({ s with mutex := some t }.goto t (.test op))
  | work {op : Op} (hpc : s.pc t = .test op) (hready : spec.ready op s.data = true) :
      Moves spec s t (s.work spec t op)
  | block {op : Op} (hpc : s.pc t = .test op) (hready : spec.ready op s.data = false) :
      Moves spec s t ({ s with mutex := none, waiting := insert t s.waiting }.goto t (.wait op))
  | relock {op : Op} (hpc : s.pc t = .wait op) (hwoken : t ∉ s.waiting) (hopen : s.mutex = none) :
      Moves spec s t ({ s with mutex := some t }.goto t (.test op))
  | signal {during : Signal} {op : Op} {ret : Ret} {waiting : Finset Thread}
      (hpc : s.pc t = .signal during op ret) (hnotified : Notified s.waiting during waiting) :
      Moves spec s t ({ s with waiting := waiting }.goto t (.unlock op ret))
  | unlock {op : Op} {ret : Ret} (hpc : s.pc t = .unlock op ret) :
      Moves spec s t ({ s with mutex := none }.goto t (.notify op ret))
  | notify {op : Op} {ret : Ret} {waiting : Finset Thread}
      (hpc : s.pc t = .notify op ret) (hnotified : Notified s.waiting (spec.after op) waiting) :
      Moves spec s t ({ s with
        waiting := waiting
        returned := s.returned ++ [(t, ret)] }.goto t .idle)

variable {spec : Spec σ Op Ret} {s s' : State σ Op Ret Thread}

theorem signal_eq_some {chosen : Thread} {signal : Signal} (h : s.signal chosen signal = some s') :
    ∃ waiting, s' = { s with waiting := waiting } ∧ Notified s.waiting signal waiting := by
  cases signal with
  | nobody =>
      obtain rfl := Option.some.inj h
      exact ⟨s.waiting, rfl, .nobody⟩
  | one =>
      rw [State.signal] at h
      split at h
      case isTrue hchosen =>
          obtain rfl := Option.some.inj h
          refine ⟨_, rfl, ?_⟩
          rcases hchosen with hchosen | hempty
          · exact .one hchosen
          · simpa [hempty] using Notified.noneWaits hempty
      case isFalse => cases h
  | all =>
      obtain rfl := Option.some.inj h
      exact ⟨∅, rfl, .all⟩

theorem moves_of_step {t chosen : Thread} (h : s.step spec t chosen = some s') :
    Moves spec s t s' := by
  rw [State.step] at h
  cases hpc : s.pc t with
  | idle => simp [hpc] at h
  | lock op =>
      simp only [hpc, Option.ite_none_right_eq_some, Option.some.injEq] at h
      obtain ⟨hopen, rfl⟩ := h
      exact .lock hpc hopen
  | test op =>
      simp only [hpc, Option.some.injEq] at h
      subst h
      cases hready : spec.ready op s.data with
      | true => simpa only [State.test, hready, if_true] using Moves.work hpc hready
      | false =>
          simpa only [State.test, hready, Bool.false_eq_true, if_false] using
            Moves.block hpc hready
  | wait op =>
      simp only [hpc, Option.ite_none_right_eq_some, Option.some.injEq] at h
      obtain ⟨⟨hwoken, hopen⟩, rfl⟩ := h
      exact .relock hpc hwoken hopen
  | signal during op ret =>
      simp only [hpc, Option.map_eq_some_iff] at h
      obtain ⟨mid, hmid, rfl⟩ := h
      obtain ⟨waiting, rfl, hnotified⟩ := signal_eq_some hmid
      exact .signal hpc hnotified
  | unlock op ret =>
      simp only [hpc, Option.some.injEq] at h
      subst h
      exact .unlock hpc
  | notify op ret =>
      simp only [hpc, Option.map_eq_some_iff] at h
      obtain ⟨mid, hmid, rfl⟩ := h
      obtain ⟨waiting, rfl, hnotified⟩ := signal_eq_some hmid
      exact .notify hpc hnotified

theorem call_eq_some {t : Thread} {op : Op} :
    (system spec Thread).step s (.call t op) = some s' ↔
      s.pc t = .idle ∧ s.goto t (.lock op) = s' := by
  simp only [system]
  cases s.pc t <;> simp

theorem spurious_eq_some {t : Thread} :
    (system spec Thread).step s (.spurious t) = some s' ↔
      t ∈ s.waiting ∧ { s with waiting := s.waiting.erase t } = s' := by
  simp [system]

/-! ### The operations take effect one after another -/

/-- Every operation of the history is ready when its turn comes. -/
def EachReady (spec : Spec σ Op Ret) : σ → List (Thread × Op) → Prop
  | _, [] => True
  | data, (_, op) :: history =>
      spec.ready op data = true ∧ EachReady spec (spec.body data op).2 history

omit [DecidableEq Thread] in
theorem eachReady_append_cons {data : σ} {before after : List (Thread × Op)} {t : Thread}
    {op : Op} :
    EachReady spec data (before ++ (t, op) :: after) ↔
      EachReady spec data before ∧ spec.ready op (spec.object.run data before).2 = true ∧
        EachReady spec (spec.body (spec.object.run data before).2 op).2 after := by
  induction before generalizing data with
  | nil => simp [EachReady, SequentialObject.run]
  | cons call before ih =>
      obtain ⟨u, op'⟩ := call
      simp only [List.cons_append, EachReady, ih, SequentialObject.run, and_assoc]
      rfl

/-- The mutex belongs to the thread inside, a thread of the wait set is waiting, and the
operations take effect in the order of the history. -/
structure Inv (spec : Spec σ Op Ret) (s : State σ Op Ret Thread) : Prop where
  guards : Guards s.mutex (At.inside ∘ s.pc)
  blocked : ∀ t ∈ s.waiting, ∃ op, s.pc t = .wait op
  waits : ∀ t op, s.pc t = .wait op → spec.waits op = true
  linearizes : Linearizes spec.object s.history s.returned (At.owed ∘ s.pc) s.data
  eachReady : EachReady spec spec.start s.history

theorem waits_of_not_ready {op : Op} {data : σ} (h : spec.ready op data = false) :
    spec.waits op = true := by
  cases hp : spec.predicate op with
  | none => simp [Spec.ready, hp] at h
  | some p => simp [Spec.waits, hp]

@[simp] theorem goto_pc_self (s : State σ Op Ret Thread) (t : Thread) (pc : At Op Ret) :
    (s.goto t pc).pc t = pc := Function.update_self ..

theorem goto_pc_of_ne (s : State σ Op Ret Thread) {t u : Thread} (pc : At Op Ret) (h : u ≠ t) :
    (s.goto t pc).pc u = s.pc u := Function.update_of_ne h ..

theorem Inv.blocked_goto (h : Inv spec s) {t : Thread} {pc : At Op Ret}
    (hpc : ∀ op, s.pc t ≠ .wait op) {waiting : Finset Thread} (hsub : waiting ⊆ s.waiting) :
    ∀ u ∈ waiting, ∃ op, (s.goto t pc).pc u = .wait op := by
  intro u hu
  obtain ⟨op, hop⟩ := h.blocked u (hsub hu)
  have hne : u ≠ t := by
    rintro rfl
    exact hpc op hop
  exact ⟨op, (goto_pc_of_ne s pc hne).trans hop⟩

theorem Inv.waits_goto (h : Inv spec s) {t : Thread} {pc : At Op Ret}
    (hpc : ∀ op, pc = .wait op → spec.waits op = true) :
    ∀ u op, (s.goto t pc).pc u = .wait op → spec.waits op = true := by
  intro u op hu
  by_cases hut : u = t
  · subst hut
    exact hpc op ((goto_pc_self s u pc).symm.trans hu)
  · exact h.waits u op ((goto_pc_of_ne s pc hut).symm.trans hu)

theorem Notified.subset {waiting waiting' : Finset Thread} {signal : Signal}
    (h : Notified waiting signal waiting') : waiting' ⊆ waiting := by
  cases h with
  | nobody => exact Finset.Subset.refl _
  | one => exact Finset.erase_subset ..
  | noneWaits => exact Finset.empty_subset _
  | all => exact Finset.empty_subset _

theorem inside_goto (s : State σ Op Ret Thread) (t : Thread) (pc : At Op Ret) :
    At.inside ∘ (s.goto t pc).pc = Function.update (At.inside ∘ s.pc) t pc.inside :=
  Function.comp_update ..

theorem owed_goto (s : State σ Op Ret Thread) (t : Thread) (pc : At Op Ret) :
    At.owed ∘ (s.goto t pc).pc = Function.update (At.owed ∘ s.pc) t pc.owed :=
  Function.comp_update ..

/-- A step of `t` that neither locks nor unlocks. -/
theorem Inv.guards_stay (h : Inv spec s) {t : Thread} {pc : At Op Ret}
    (hpc : pc.inside = (s.pc t).inside) : Guards s.mutex (At.inside ∘ (s.goto t pc).pc) := by
  rw [inside_goto]
  exact h.guards.stay hpc

theorem Inv.guards_lock (h : Inv spec s) {t : Thread} {pc : At Op Ret} (hopen : s.mutex = none)
    (hpc : pc.inside = true) : Guards (some t) (At.inside ∘ (s.goto t pc).pc) := by
  rw [inside_goto, hpc]
  exact (hopen ▸ h.guards).lock t

theorem Inv.guards_unlock (h : Inv spec s) {t : Thread} {pc : At Op Ret}
    (ht : (s.pc t).inside = true) (hpc : pc.inside = false) :
    Guards none (At.inside ∘ (s.goto t pc).pc) := by
  rw [inside_goto, hpc]
  exact h.guards.unlock ht

/-- A step of `t` in which no operation takes effect or returns. -/
theorem Inv.linearizes_stay (h : Inv spec s) {t : Thread} {pc : At Op Ret}
    (hpc : pc.owed = (s.pc t).owed) :
    Linearizes spec.object s.history s.returned (At.owed ∘ (s.goto t pc).pc) s.data := by
  rw [owed_goto]
  exact h.linearizes.stay hpc

theorem Inv.call (h : Inv spec s) {t : Thread} (hpc : s.pc t = .idle) (op : Op) :
    Inv spec (s.goto t (.lock op)) := by
  refine ⟨h.guards_stay ?_, h.blocked_goto ?_ (Finset.Subset.refl _), h.waits_goto ?_,
    h.linearizes_stay ?_, h.eachReady⟩ <;> simp [hpc, At.inside, At.owed]

theorem Inv.of_moves (h : Inv spec s) {t : Thread} (hmoves : Moves spec s t s') : Inv spec s' := by
  cases hmoves with
  | lock hpc hopen =>
      refine ⟨h.guards_lock hopen rfl, h.blocked_goto ?_ (Finset.Subset.refl _), h.waits_goto ?_,
        h.linearizes_stay ?_, h.eachReady⟩ <;> simp [hpc, At.owed]
  | @work op hpc hready =>
      refine ⟨h.guards_stay ?_, h.blocked_goto ?_ (Finset.Subset.refl _), h.waits_goto ?_, ?_, ?_⟩
      · simp [hpc, At.inside]
      · simp [hpc]
      · simp
      · have howed : (At.owed ∘ s.pc) t = none := by simp [hpc, At.owed]
        have hcommit := h.linearizes.commit howed op
        rw [State.work, owed_goto]
        exact hcommit
      · refine eachReady_append_cons.mpr ⟨h.eachReady, ?_, trivial⟩
        have hdata := h.linearizes.contents_eq
        exact (congrArg (spec.ready op ·) hdata).trans hready
  | @block op hpc hready =>
      have hinside : (s.pc t).inside = true := by simp [hpc, At.inside]
      refine ⟨h.guards_unlock hinside rfl, ?_, h.waits_goto ?_, h.linearizes_stay ?_, h.eachReady⟩
      · intro u hu
        by_cases hut : u = t
        · subst hut
          exact ⟨op, goto_pc_self ..⟩
        · obtain ⟨op', hop'⟩ := h.blocked u (Finset.mem_of_mem_insert_of_ne hu hut)
          exact ⟨op', (goto_pc_of_ne s _ hut).trans hop'⟩
      · intro op' hop'
        cases hop'
        exact waits_of_not_ready hready
      · simp [hpc, At.owed]
  | @relock op hpc hwoken hopen =>
      refine ⟨h.guards_lock hopen rfl, ?_, h.waits_goto ?_, h.linearizes_stay ?_, h.eachReady⟩
      · intro u hu
        have hut : u ≠ t := fun hut => hwoken (hut ▸ hu)
        obtain ⟨op', hop'⟩ := h.blocked u hu
        exact ⟨op', (goto_pc_of_ne s _ hut).trans hop'⟩
      · simp
      · simp [hpc, At.owed]
  | signal hpc hnotified =>
      refine ⟨h.guards_stay ?_, h.blocked_goto ?_ hnotified.subset, h.waits_goto ?_,
        h.linearizes_stay ?_, h.eachReady⟩ <;> simp [hpc, At.inside, At.owed]
  | unlock hpc =>
      have hinside : (s.pc t).inside = true := by simp [hpc, At.inside]
      refine ⟨h.guards_unlock hinside rfl, h.blocked_goto ?_ (Finset.Subset.refl _),
        h.waits_goto ?_, h.linearizes_stay ?_, h.eachReady⟩ <;> simp [hpc, At.owed]
  | @notify op ret waiting hpc hnotified =>
      refine ⟨h.guards_stay ?_, h.blocked_goto ?_ hnotified.subset, h.waits_goto ?_, ?_,
        h.eachReady⟩
      · simp [hpc, At.inside]
      · simp [hpc]
      · simp
      · have howed : (At.owed ∘ s.pc) t = some ret := by simp [hpc, At.owed]
        have hanswer := h.linearizes.answer howed
        rw [owed_goto]
        exact hanswer

theorem Inv.spurious (h : Inv spec s) (t : Thread) :
    Inv spec { s with waiting := s.waiting.erase t } where
  guards := h.guards
  blocked u hu := h.blocked u (Finset.mem_of_mem_erase hu)
  waits := h.waits
  linearizes := h.linearizes
  eachReady := h.eachReady

theorem inv_of_reachable (hreach : (system spec Thread).Reachable s) : Inv spec s := by
  refine hreach.invariant ?_ ?_
  · rintro s rfl
    exact ⟨Guards.open_of_outside fun _ => rfl, by simp, by simp, Linearizes.start fun _ => rfl,
      trivial⟩
  · intro s action s' h hstep
    cases action with
    | call t op =>
        obtain ⟨hpc, rfl⟩ := call_eq_some.mp hstep
        exact h.call hpc op
    | step t chosen => exact h.of_moves (moves_of_step hstep)
    | spurious t =>
        obtain ⟨-, rfl⟩ := spurious_eq_some.mp hstep
        exact h.spurious t

/-- An answer is that of the operation, at some data for which it was ready. -/
theorem answered (hreach : (system spec Thread).Reachable s) :
    ∀ t op ret, (s.pc t).op? = some op → (s.pc t).owed = some ret →
      ∃ data, spec.ready op data = true ∧ (spec.body data op).1 = ret := by
  refine hreach.invariant (P := fun s => ∀ t op ret, (s.pc t).op? = some op →
    (s.pc t).owed = some ret →
      ∃ data, spec.ready op data = true ∧ (spec.body data op).1 = ret) ?_ ?_
  · rintro s rfl t op ret hop
    cases hop
  · intro s action s' h hstep
    cases action with
    | call t op =>
        obtain ⟨hpc, rfl⟩ := call_eq_some.mp hstep
        intro u op' ret hop howed
        by_cases hu : u = t
        · subst hu
          simp [At.owed] at howed
        · rw [goto_pc_of_ne s _ hu] at hop howed
          exact h u op' ret hop howed
    | spurious t =>
        obtain ⟨-, rfl⟩ := spurious_eq_some.mp hstep
        exact h
    | step t chosen =>
        intro u op' ret hop howed
        by_cases hu : u = t
        · subst hu
          cases moves_of_step hstep with
          | @work op hpc hready =>
              simp only [State.work, goto_pc_self, At.op?, At.owed, Option.some.injEq] at hop howed
              subst hop
              exact ⟨s.data, hready, howed⟩
          | signal hpc | unlock hpc =>
              rw [goto_pc_self] at hop howed
              exact h u op' ret (by rw [hpc]; exact hop) (by rw [hpc]; exact howed)
          | lock | block | relock | notify => simp [At.owed] at howed
        · have hothers : s'.pc u = s.pc u := by
            cases moves_of_step hstep <;> exact goto_pc_of_ne _ _ hu
          rw [hothers] at hop howed
          exact h u op' ret hop howed

/-! ### No thread waits for what nobody will tell it -/

/-- The thread will still make this notification. -/
def At.tells (spec : Spec σ Op Ret) (signal : Signal) : At Op Ret → Bool
  | .signal during op _ => during = signal || spec.after op = signal
  | .unlock op _ | .notify op _ => spec.after op = signal
  | .idle | .lock _ | .test _ | .wait _ => false

/-- The thread has been woken and will test its predicate, or will wake another one. -/
def Helps (spec : Spec σ Op Ret) (s : State σ Op Ret Thread) (t : Thread) : Prop :=
  match s.pc t with
  | .test op => spec.waits op = true
  | .wait _ => t ∉ s.waiting
  | pc => pc.tells spec .one = true

/-- The notifications of a monitor fit its predicates: these hold if all may go
(`released`) or if there is something to take (`stock`); an operation that waited takes
one piece, one that adds a piece notifies one thread, and one that releases
notifies all. -/
structure Signals (spec : Spec σ Op Ret) (released : σ → Prop) (stock : σ → ℕ) : Prop where
  predicate_iff : ∀ op p data, spec.predicate op = some p →
    (p data = true ↔ released data ∨ 0 < stock data)
  effect : ∀ op data, spec.ready op data = true → ¬ released data →
    spec.tells .all op (spec.body data op).2 = false →
    ¬ released (spec.body data op).2 ∧
      stock (spec.body data op).2 + (spec.waits op).toNat ≤
        stock data + (spec.tells .one op (spec.body data op).2).toNat

/-- Whoever waits will be told: all will be notified, or as many threads are under way as there
are pieces to take. -/
def Supplied (spec : Spec σ Op Ret) (released : σ → Prop) (stock : σ → ℕ)
    (s : State σ Op Ret Thread) : Prop :=
  s.waiting = ∅ ∨ (∃ t, (s.pc t).tells spec .all = true) ∨
    ¬ released s.data ∧
      ∃ helpers : Finset Thread, (∀ t ∈ helpers, Helps spec s t) ∧ stock s.data ≤ helpers.card

variable {released : σ → Prop} {stock : σ → ℕ}

omit [DecidableEq Thread] in
theorem helps_of_pc_eq {u : Thread} (hpc : s'.pc u = s.pc u)
    (hwaiting : u ∈ s'.waiting → u ∈ s.waiting) (h : Helps spec s u) : Helps spec s' u := by
  rw [Helps, hpc]
  revert h
  rw [Helps]
  cases s.pc u with
  | wait => exact fun h hu => h (hwaiting hu)
  | _ => exact id

/-- A step of `t` that takes nobody's notification away. -/
theorem Supplied.stay (h : Supplied spec released stock s) {t : Thread}
    (hdata : s'.data = s.data) (hwaiting : s'.waiting ⊆ s.waiting)
    (hpc : ∀ u, u ≠ t → s'.pc u = s.pc u)
    (hall : (s.pc t).tells spec .all = true → (s'.pc t).tells spec .all = true)
    (hhelps : Helps spec s t → Helps spec s' t) : Supplied spec released stock s' := by
  rcases h with hempty | ⟨u, hu⟩ | ⟨hreleased, helpers, hhelpers, hcard⟩
  · exact .inl (Finset.subset_empty.mp (hempty ▸ hwaiting))
  · refine .inr (.inl ⟨u, ?_⟩)
    by_cases hut : u = t
    · subst hut
      exact hall hu
    · rw [hpc u hut]
      exact hu
  · rw [← hdata] at hreleased hcard
    refine .inr (.inr ⟨hreleased, helpers, fun u hu => ?_, hcard⟩)
    by_cases hut : u = t
    · subst hut
      exact hhelps (hhelpers u hu)
    · exact helps_of_pc_eq (hpc u hut) (fun hw => hwaiting hw) (hhelpers u hu)

/-- `t` makes the notification `signal`, and what it still has to tell is told by `pc`. -/
theorem Supplied.notify (hinv : Inv spec s) (h : Supplied spec released stock s) {t : Thread}
    {signal : Signal} (hdata : s'.data = s.data)
    (hnotified : Notified s.waiting signal s'.waiting) (hpc : ∀ u, u ≠ t → s'.pc u = s.pc u)
    (ht : ∀ op, s.pc t ≠ .wait op)
    (hall : signal ≠ .all → (s.pc t).tells spec .all = true → (s'.pc t).tells spec .all = true)
    (hhelps : signal = .nobody → Helps spec s t → Helps spec s' t) :
    Supplied spec released stock s' := by
  generalize hwaiting : s'.waiting = waiting at hnotified
  cases hnotified with
  | nobody => exact h.stay hdata (hwaiting ▸ Finset.Subset.refl _) hpc (hall nofun) (hhelps rfl)
  | noneWaits => exact .inl hwaiting
  | all => exact .inl hwaiting
  | @one v hv =>
      rcases h with hempty | ⟨u, hu⟩ | ⟨hreleased, helpers, hhelpers, hcard⟩
      · exact .inl (by rw [hwaiting, hempty, Finset.erase_empty])
      · refine .inr (.inl ⟨u, ?_⟩)
        by_cases hut : u = t
        · subst hut
          exact hall nofun hu
        · rw [hpc u hut]
          exact hu
      · -- `t` may be no helper any more, but the thread that it wakes has become one
        obtain ⟨op, hop⟩ := hinv.blocked v hv
        have hvt : v ≠ t := fun hvt => ht op (hvt ▸ hop)
        have hvhelps : ¬ Helps spec s v := by simp [Helps, hop, hv]
        have hvnot : v ∉ helpers.erase t := fun hmem =>
          hvhelps (hhelpers v (Finset.mem_of_mem_erase hmem))
        rw [← hdata] at hreleased hcard
        refine .inr (.inr ⟨hreleased, insert v (helpers.erase t), fun u hu => ?_, ?_⟩)
        · rcases Finset.mem_insert.mp hu with rfl | hu
          · simp [Helps, hpc u hvt, hop, hwaiting]
          · have hut := Finset.ne_of_mem_erase hu
            have hsub : u ∈ s'.waiting → u ∈ s.waiting := fun hw =>
              Finset.mem_of_mem_erase (hwaiting ▸ hw)
            exact helps_of_pc_eq (hpc u hut) hsub (hhelpers u (Finset.mem_of_mem_erase hu))
        · rw [Finset.card_insert_of_notMem hvnot]
          have hpred := Finset.pred_card_le_card_erase (a := t) (s := helpers)
          omega

theorem Signals.supplied_work (hsignals : Signals spec released stock)
    (h : Supplied spec released stock s) {t : Thread} {op : Op} (hpc : s.pc t = .test op)
    (hready : spec.ready op s.data = true) :
    Supplied spec released stock (s.work spec t op) := by
  have hdata : (s.work spec t op).data = (spec.body s.data op).2 := rfl
  have hothers : ∀ u, u ≠ t → (s.work spec t op).pc u = s.pc u := fun u hut =>
    goto_pc_of_ne _ _ hut
  have htells : ∀ signal : Signal, ((s.work spec t op).pc t).tells spec signal =
      spec.tells signal op (spec.body s.data op).2 := by
    intro signal
    rw [State.work, goto_pc_self]
    rfl
  rw [Supplied, hdata]
  cases hall : spec.tells .all op (spec.body s.data op).2 with
  | true => exact .inr (.inl ⟨t, (htells .all).trans hall⟩)
  | false =>
      rcases h with hempty | ⟨u, hu⟩ | ⟨hreleased, helpers, hhelpers, hcard⟩
      · exact .inl hempty
      · have hut : u ≠ t := by
          rintro rfl
          simp [hpc, At.tells] at hu
        exact .inr (.inl ⟨u, by rw [hothers u hut]; exact hu⟩)
      · obtain ⟨hreleased', hstock⟩ := hsignals.effect op s.data hready hreleased hall
        have hnot : spec.waits op = false → t ∉ helpers := by
          intro hwaits hmem
          have := hhelpers t hmem
          simp [Helps, hpc, hwaits] at this
        have hkeep : ∀ u ∈ helpers, u ≠ t → Helps spec (s.work spec t op) u :=
          fun u hu hut => helps_of_pc_eq (hothers u hut) id (hhelpers u hu)
        refine .inr (.inr ⟨hreleased', ?_⟩)
        cases hone : spec.tells .one op (spec.body s.data op).2 with
        | true =>
            have ht : Helps spec (s.work spec t op) t := by
              have := (htells .one).trans hone
              rw [State.work, goto_pc_self] at this
              rw [Helps, State.work, goto_pc_self]
              exact this
            refine ⟨insert t helpers, fun u hu => ?_, ?_⟩
            · by_cases hut : u = t
              · exact hut ▸ ht
              · exact hkeep u (Finset.mem_of_mem_insert_of_ne hu hut) hut
            · cases hwaits : spec.waits op with
              | true =>
                  have hle := Finset.card_le_card (Finset.subset_insert t helpers)
                  simp only [hwaits, hone, Bool.toNat_true] at hstock
                  calc stock (spec.body s.data op).2
                      ≤ stock s.data := by omega
                    _ ≤ helpers.card := hcard
                    _ ≤ (insert t helpers).card := hle
              | false =>
                  rw [Finset.card_insert_of_notMem (hnot hwaits)]
                  simp only [hwaits, hone, Bool.toNat_true, Bool.toNat_false] at hstock
                  omega
        | false =>
            refine ⟨helpers.erase t, fun u hu => ?_, ?_⟩
            · exact hkeep u (Finset.mem_of_mem_erase hu) (Finset.ne_of_mem_erase hu)
            · cases hwaits : spec.waits op with
              | true =>
                  have hpred := Finset.pred_card_le_card_erase (a := t) (s := helpers)
                  simp only [hwaits, hone, Bool.toNat_true, Bool.toNat_false] at hstock
                  omega
              | false =>
                  rw [Finset.erase_eq_of_notMem (hnot hwaits)]
                  simp only [hwaits, hone, Bool.toNat_false] at hstock
                  omega

theorem Signals.supplied_of_moves (hsignals : Signals spec released stock) (hinv : Inv spec s)
    (h : Supplied spec released stock s) {t : Thread} (hmoves : Moves spec s t s') :
    Supplied spec released stock s' := by
  cases hmoves with
  | @lock op hpc hopen =>
      refine h.stay (t := t) rfl (Finset.Subset.refl _) (fun u hut => goto_pc_of_ne _ _ hut) ?_ ?_
      · simp [hpc, At.tells]
      · simp [Helps, hpc, At.tells]
  | work hpc hready => exact hsignals.supplied_work h hpc hready
  | @block op hpc hready =>
      -- the predicate is false, so there is nothing to take
      obtain ⟨p, hp⟩ := Option.isSome_iff_exists.mp (waits_of_not_ready hready)
      have hfalse : ¬ (released s.data ∨ 0 < stock s.data) := by
        rw [← hsignals.predicate_iff op p s.data hp]
        simpa [Spec.ready, hp] using hready
      obtain ⟨hreleased, hstock⟩ := not_or.mp hfalse
      exact .inr (.inr ⟨hreleased, ∅, by simp, Nat.le_of_not_lt hstock⟩)
  | @relock op hpc hwoken hopen =>
      refine h.stay (t := t) rfl (Finset.Subset.refl _) (fun u hut => goto_pc_of_ne _ _ hut) ?_ ?_
      · simp [hpc, At.tells]
      · simpa [Helps] using fun _ => hinv.waits t op hpc
  | @signal during op ret waiting hpc hnotified =>
      refine h.notify hinv (t := t) rfl hnotified (fun u hut => goto_pc_of_ne _ _ hut) ?_ ?_ ?_
      · simp [hpc]
      · cases during <;> simp [hpc, At.tells]
      · rintro rfl
        simp [Helps, hpc, At.tells]
  | @unlock op ret hpc =>
      refine h.stay (t := t) rfl (Finset.Subset.refl _) (fun u hut => goto_pc_of_ne _ _ hut) ?_ ?_
      · simp [hpc, At.tells]
      · simp [Helps, hpc, At.tells]
  | @notify op ret waiting hpc hnotified =>
      refine h.notify hinv (t := t) rfl hnotified (fun u hut => goto_pc_of_ne _ _ hut) ?_ ?_ ?_
      · simp [hpc]
      · intro hnall hall
        simp [hpc, At.tells] at hall
        exact absurd hall hnall
      · intro hnobody
        simp [Helps, hpc, At.tells, hnobody]

theorem Signals.supplied (hsignals : Signals spec released stock)
    (hreach : (system spec Thread).Reachable s) : Supplied spec released stock s := by
  have hboth : Inv spec s ∧ Supplied spec released stock s := by
    refine hreach.invariant (P := fun s => Inv spec s ∧ Supplied spec released stock s) ?_ ?_
    · rintro s rfl
      exact ⟨inv_of_reachable (.of_start rfl), .inl rfl⟩
    · rintro s action s' ⟨hinv, h⟩ hstep
      cases action with
      | call t op =>
          obtain ⟨hpc, rfl⟩ := call_eq_some.mp hstep
          refine ⟨hinv.call hpc op, h.stay (t := t) rfl (Finset.Subset.refl _)
            (fun u hut => goto_pc_of_ne s _ hut) ?_ ?_⟩
          · simp [hpc, At.tells]
          · simp [Helps, hpc, At.tells]
      | step t chosen =>
          have hmoves := moves_of_step hstep
          exact ⟨hinv.of_moves hmoves, hsignals.supplied_of_moves hinv h hmoves⟩
      | spurious t =>
          obtain ⟨ht, rfl⟩ := spurious_eq_some.mp hstep
          obtain ⟨op, hop⟩ := hinv.blocked t ht
          refine ⟨hinv.spurious t, h.stay (t := t) rfl (Finset.erase_subset ..) (fun _ _ => rfl)
            id ?_⟩
          simp [Helps, hop]
  exact hboth.2

/-- If a thread waits although its predicate holds, then another one has been woken or has still
to notify. -/
theorem Signals.awake (hsignals : Signals spec released stock)
    (hreach : (system spec Thread).Reachable s) {t : Thread} {op : Op} (ht : t ∈ s.waiting)
    (hpc : s.pc t = .wait op) (hready : spec.ready op s.data = true) :
    ∃ u, u ∉ s.waiting ∧ (Helps spec s u ∨ (s.pc u).tells spec .all = true) := by
  have hinv := inv_of_reachable hreach
  rcases hsignals.supplied hreach with hempty | ⟨u, hu⟩ | ⟨hreleased, helpers, hhelpers, hcard⟩
  · simp [hempty] at ht
  · refine ⟨u, fun hw => ?_, .inr hu⟩
    obtain ⟨op', hop'⟩ := hinv.blocked u hw
    simp [hop', At.tells] at hu
  · obtain ⟨p, hp⟩ := Option.isSome_iff_exists.mp (hinv.waits t op hpc)
    have htrue : p s.data = true := by simpa [Spec.ready, hp] using hready
    have hstock := ((hsignals.predicate_iff op p s.data hp).mp htrue).resolve_left hreleased
    obtain ⟨u, hu⟩ := Finset.card_pos.mp (hstock.trans_le hcard)
    refine ⟨u, fun hw => ?_, .inl (hhelpers u hu)⟩
    obtain ⟨op', hop'⟩ := hinv.blocked u hw
    have hhelps := hhelpers u hu
    simp [Helps, hop', hw] at hhelps

theorem exists_signal (s : State σ Op Ret Thread) (t : Thread) (signal : Signal) :
    ∃ chosen s', s.signal chosen signal = some s' := by
  cases signal with
  | nobody => exact ⟨t, s, rfl⟩
  | one =>
      rcases s.waiting.eq_empty_or_nonempty with hempty | ⟨u, hu⟩
      · exact ⟨t, _, if_pos (.inr hempty)⟩
      · exact ⟨u, _, if_pos (.inl hu)⟩
  | all => exact ⟨t, _, rfl⟩

/-- The thread inside is never held up. -/
theorem exists_step_of_inside {t : Thread} (ht : (s.pc t).inside = true) :
    ∃ chosen s', (system spec Thread).step s (.step t chosen) = some s' := by
  simp only [system, State.step]
  cases hpc : s.pc t with
  | test op => exact ⟨t, _, rfl⟩
  | unlock op ret => exact ⟨t, _, rfl⟩
  | signal during op ret =>
      obtain ⟨chosen, s', hs'⟩ := exists_signal s t during
      exact ⟨chosen, _, congrArg (Option.map _) hs'⟩
  | _ => simp [hpc, At.inside] at ht

theorem exists_step_of_busy (hinv : Inv spec s) {t : Thread} {op : Op}
    (hop : (s.pc t).op? = some op) (ht : t ∉ s.waiting) :
    ∃ u, u ∉ s.waiting ∧
      ∃ chosen s', (system spec Thread).step s (.step u chosen) = some s' := by
  cases hmutex : s.mutex with
  | some v =>
      have hv := (hinv.guards v).mpr hmutex
      refine ⟨v, fun hw => ?_, exists_step_of_inside hv⟩
      obtain ⟨op', hop'⟩ := hinv.blocked v hw
      simp [hop', At.inside] at hv
  | none =>
      have hout : (s.pc t).inside ≠ true := by
        intro hin
        have := (hinv.guards t).mp hin
        simp [hmutex] at this
      refine ⟨t, ht, ?_⟩
      simp only [system, State.step]
      cases hpc : s.pc t with
      | idle => simp [hpc] at hop
      | lock op' => exact ⟨t, _, if_pos hmutex⟩
      | wait op' => exact ⟨t, _, if_pos ⟨ht, hmutex⟩⟩
      | notify op' ret =>
          obtain ⟨chosen, mid, hmid⟩ := exists_signal s t (spec.after op')
          exact ⟨chosen, _, congrArg (Option.map _) hmid⟩
      | _ => simp [hpc, At.inside] at hout

/-- **No lost wake-up.**  While a thread waits although its predicate holds, a thread that does not
wait can go on. -/
theorem Signals.not_stuck (hsignals : Signals spec released stock)
    (hreach : (system spec Thread).Reachable s) {t : Thread} {op : Op} (ht : t ∈ s.waiting)
    (hpc : s.pc t = .wait op) (hready : spec.ready op s.data = true) :
    ∃ u, u ∉ s.waiting ∧
      ∃ chosen s', (system spec Thread).step s (.step u chosen) = some s' := by
  obtain ⟨u, hu, hhelps⟩ := hsignals.awake hreach ht hpc hready
  cases hpcu : (s.pc u).op? with
  | some op' => exact exists_step_of_busy (inv_of_reachable hreach) hpcu hu
  | none =>
      cases hpc' : s.pc u <;> simp [hpc', Helps, At.tells, At.op?] at hhelps hpcu

/-! ### Monitors whose threads make certain calls only -/

/-- All operations that are under way or have taken effect are of the kind `P`. -/
structure Calls (P : Thread → Op → Prop) (s : State σ Op Ret Thread) : Prop where
  pc : ∀ t op, (s.pc t).op? = some op → P t op
  history : ∀ call ∈ s.history, P call.1 call.2

variable {P : Thread → Op → Prop}

/-- The step of a thread leaves the others where they are.  It stays busy with its operation,
or returns from it. -/
theorem Moves.frame {t : Thread} (hmoves : Moves spec s t s') :
    (∀ u, u ≠ t → s'.pc u = s.pc u) ∧
      ((∃ op ret, s.pc t = .notify op ret ∧ s'.pc t = .idle ∧
          s'.returned = s.returned ++ [(t, ret)]) ∨
        (∃ op, (s.pc t).op? = some op ∧ (s'.pc t).op? = some op) ∧
          s'.returned = s.returned ∧ ∀ op ret, s.pc t ≠ .notify op ret) := by
  refine ⟨?_, ?_⟩
  · cases hmoves <;> exact fun u hu => goto_pc_of_ne _ _ hu
  · cases hmoves with
    | @work op hpc _ => exact .inr ⟨⟨op, by simp [State.work, hpc, At.op?]⟩, rfl, by simp [hpc]⟩
    | @notify op ret _ hpc _ => exact .inl ⟨op, ret, hpc, goto_pc_self .., rfl⟩
    | @lock op hpc | @block op hpc | @relock op hpc | @signal _ op _ _ hpc | @unlock op _ hpc =>
        exact .inr ⟨⟨op, by simp [hpc, At.op?]⟩, rfl, by simp [hpc]⟩

theorem Moves.mem_history {t : Thread} (hmoves : Moves spec s t s') :
    ∀ call ∈ s'.history, call ∈ s.history ∨ call.1 = t ∧ (s.pc t).op? = some call.2 := by
  cases hmoves with
  | @work op hpc =>
      intro call hcall
      rcases List.mem_append.mp hcall with hcall | hcall
      · exact .inl hcall
      · obtain rfl := List.mem_singleton.mp hcall
        exact .inr ⟨rfl, by rw [hpc]; rfl⟩
  | _ => exact fun call hcall => .inl hcall

theorem Calls.call (h : Calls P s) {t : Thread} {op : Op} (hP : P t op) :
    Calls P (s.goto t (.lock op)) where
  pc u op' hop := by
    by_cases hu : u = t
    · subst hu
      rw [goto_pc_self] at hop
      cases hop
      exact hP
    · rw [goto_pc_of_ne s _ hu] at hop
      exact h.pc u op' hop
  history := h.history

theorem Calls.of_moves (h : Calls P s) {t : Thread} (hmoves : Moves spec s t s') :
    Calls P s' where
  pc u op hop := by
    obtain ⟨hothers, hself⟩ := hmoves.frame
    by_cases hu : u = t
    · subst hu
      rcases hself with ⟨_, _, _, hidle, _⟩ | ⟨⟨op', hop', hop''⟩, _⟩
      · simp [hidle] at hop
      · obtain rfl := Option.some.inj (hop''.symm.trans hop)
        exact h.pc u op' hop'
    · exact h.pc u op (hothers u hu ▸ hop)
  history call hcall := by
    rcases hmoves.mem_history call hcall with hcall | ⟨ht, hop⟩
    · exact h.history call hcall
    · exact ht ▸ h.pc t call.2 hop

end Eureka.Monitor

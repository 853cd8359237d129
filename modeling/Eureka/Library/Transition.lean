import Mathlib

/-!
# Transition systems

A system of deterministic actions: an action that is not possible in a state
has no result there.  Nondeterminism is the choice of the actions.

* `System.Reachable.invariant`: the induction over all runs;
* `System.always_of_eachStep`, `System.always_iff_eachStep_within`: a property of
  all states of a run against a condition on its steps;
* `System.Simulates`: a simulation by another system, with
  `System.Simulates.reachable`, the transport of reachability along it.
-/

namespace Eureka.Transition

/-- A transition system with states `σ` and actions `α`. -/
structure System (σ α : Type) where
  start : σ → Prop
  step : σ → α → Option σ

namespace System

variable {σ α τ β : Type}

/-- The state behind a list of actions, if all of them are possible. -/
def run (sys : System σ α) : σ → List α → Option σ
  | s, [] => some s
  | s, action :: actions => (sys.step s action).bind fun s' => sys.run s' actions

/-- The state is reached from a start state by some run. -/
def Reachable (sys : System σ α) (s : σ) : Prop :=
  ∃ s₀ actions, sys.start s₀ ∧ sys.run s₀ actions = some s

variable {sys : System σ α}

theorem run_cons_eq_some {s s' : σ} {action : α} {actions : List α} :
    sys.run s (action :: actions) = some s' ↔
      ∃ mid, sys.step s action = some mid ∧ sys.run mid actions = some s' := by
  simp only [run, Option.bind_eq_some_iff]

theorem run_append {s : σ} (first second : List α) :
    sys.run s (first ++ second) = (sys.run s first).bind fun mid => sys.run mid second := by
  induction first generalizing s with
  | nil => rfl
  | cons action first ih =>
      simp only [List.cons_append, run, Option.bind_assoc, ih]

theorem run_trans {s mid s' : σ} {first second : List α} (hfirst : sys.run s first = some mid)
    (hsecond : sys.run mid second = some s') : sys.run s (first ++ second) = some s' := by
  rw [run_append, hfirst]
  exact hsecond

theorem run_invariant {P : σ → Prop}
    (hstep : ∀ s action s', P s → sys.step s action = some s' → P s') {s s' : σ}
    {actions : List α} (hP : P s) (hrun : sys.run s actions = some s') : P s' := by
  induction actions generalizing s with
  | nil =>
      simp only [run, Option.some.injEq] at hrun
      exact hrun ▸ hP
  | cons action actions ih =>
      obtain ⟨mid, hmid, hrun⟩ := run_cons_eq_some.mp hrun
      exact ih (hstep s action mid hP hmid) hrun

/-- **The induction over all runs.** -/
theorem Reachable.invariant {P : σ → Prop} (hstart : ∀ s, sys.start s → P s)
    (hstep : ∀ s action s', P s → sys.step s action = some s' → P s') {s : σ}
    (hreach : sys.Reachable s) : P s := by
  obtain ⟨s₀, actions, hs₀, hrun⟩ := hreach
  exact run_invariant hstep (hstart s₀ hs₀) hrun

theorem Reachable.of_start {s : σ} (hs : sys.start s) : sys.Reachable s :=
  ⟨s, [], hs, rfl⟩

theorem Reachable.run {s s' : σ} {actions : List α} (hreach : sys.Reachable s)
    (hrun : sys.run s actions = some s') : sys.Reachable s' := by
  obtain ⟨s₀, before, hs₀, hbefore⟩ := hreach
  exact ⟨s₀, before ++ actions, hs₀, run_trans hbefore hrun⟩

theorem Reachable.step {s s' : σ} {action : α} (hreach : sys.Reachable s)
    (hstep : sys.step s action = some s') : sys.Reachable s' := by
  have hrun : sys.run s [action] = some s' := run_cons_eq_some.mpr ⟨s', hstep, rfl⟩
  exact hreach.run hrun

/-- The system with those actions only that may be done. -/
def restrict (sys : System σ α) (may : σ → α → Bool) : System σ α where
  start := sys.start
  step s action := if may s action then sys.step s action else none

theorem restrict_step {may : σ → α → Bool} {s s' : σ} {action : α} :
    (sys.restrict may).step s action = some s' ↔
      may s action = true ∧ sys.step s action = some s' := by
  simp [restrict]

theorem Reachable.of_restrict {may : σ → α → Bool} {s : σ}
    (hreach : (sys.restrict may).Reachable s) : sys.Reachable s := by
  have hstart : ∀ s, (sys.restrict may).start s → sys.Reachable s := fun s hs => .of_start hs
  refine Reachable.invariant hstart ?_ hreach
  intro s action s' hreach hstep
  exact hreach.step (restrict_step.mp hstep).2

/-! ### Properties of all states of a run -/

/-- `P` holds in every state of the run, the first one included. -/
def Always (sys : System σ α) (P : σ → Prop) : σ → List α → Prop
  | s, [] => P s
  | s, action :: actions =>
      P s ∧ ∀ s', sys.step s action = some s' → sys.Always P s' actions

/-- `C` holds of every action of the run, in the state it is taken in. -/
def EachStep (sys : System σ α) (C : σ → α → Prop) : σ → List α → Prop
  | _, [] => True
  | s, action :: actions =>
      C s action ∧ ∀ s', sys.step s action = some s' → sys.EachStep C s' actions

/-- A condition on steps is decided along the run. -/
instance decidableEachStep (C : σ → α → Prop) [∀ s action, Decidable (C s action)] :
    (s : σ) → (actions : List α) → Decidable (sys.EachStep C s actions)
  | _, [] => .isTrue trivial
  | s, action :: actions =>
      match hstep : sys.step s action with
      | none => decidable_of_iff (C s action) <| by
          rw [EachStep, hstep]
          exact (and_iff_left nofun).symm
      | some s' =>
          have := decidableEachStep C s' actions
          decidable_of_iff (C s action ∧ sys.EachStep C s' actions) <| by
            rw [EachStep, hstep]
            simp only [Option.some.injEq, forall_eq']

/-- A property of states is decided along the run. -/
instance decidableAlways (P : σ → Prop) [DecidablePred P] :
    (s : σ) → (actions : List α) → Decidable (sys.Always P s actions)
  | s, [] => inferInstanceAs (Decidable (P s))
  | s, action :: actions =>
      match hstep : sys.step s action with
      | none => decidable_of_iff (P s) <| by
          rw [Always, hstep]
          exact (and_iff_left (by simp)).symm
      | some s' =>
          have := decidableAlways P s' actions
          decidable_of_iff (P s ∧ sys.Always P s' actions) <| by
            rw [Always, hstep]
            simp only [Option.some.injEq, forall_eq']

theorem Always.last {P : σ → Prop} {s s' : σ} {actions : List α}
    (halways : sys.Always P s actions) (hrun : sys.run s actions = some s') : P s' := by
  induction actions generalizing s with
  | nil =>
      simp only [run, Option.some.injEq] at hrun
      exact hrun ▸ halways
  | cons action actions ih =>
      obtain ⟨mid, hmid, hrun⟩ := run_cons_eq_some.mp hrun
      exact ih (halways.2 mid hmid) hrun

/-- A condition that holds wherever an action is possible holds along every run. -/
theorem eachStep_of_run {C : σ → α → Prop}
    (hC : ∀ s action s', sys.step s action = some s' → C s action) {s s' : σ} {actions : List α}
    (hrun : sys.run s actions = some s') : sys.EachStep C s actions := by
  induction actions generalizing s with
  | nil => trivial
  | cons action actions ih =>
      obtain ⟨mid, hmid, hrun⟩ := run_cons_eq_some.mp hrun
      refine ⟨hC s action mid hmid, fun mid' hmid' => ?_⟩
      obtain rfl := Option.some.inj (hmid.symm.trans hmid')
      exact ih hrun

theorem eachStep_congr {I : σ → Prop} {C C' : σ → α → Prop}
    (hinv : ∀ s action s', I s → sys.step s action = some s' → I s')
    (hiff : ∀ s action, I s → (C s action ↔ C' s action)) {s : σ} (hI : I s) (actions : List α) :
    sys.EachStep C s actions ↔ sys.EachStep C' s actions := by
  induction actions generalizing s with
  | nil => exact Iff.rfl
  | cons action actions ih =>
      refine and_congr (hiff s action hI) (forall_congr' fun s' => ?_)
      exact imp_congr_right fun hstep => ih (hinv s action s' hI hstep)

/-- An invariant that every step keeps under condition `C` holds in all states of a run whose steps
meet `C`, and so does what follows from it. -/
theorem always_of_eachStep {I P : σ → Prop} {C : σ → α → Prop}
    (hinv : ∀ s action s', I s → C s action → sys.step s action = some s' → I s')
    (hP : ∀ s, I s → P s) {s : σ} {actions : List α} (hI : I s)
    (hsteps : sys.EachStep C s actions) : sys.Always P s actions := by
  induction actions generalizing s with
  | nil => exact hP s hI
  | cons action actions ih =>
      refine ⟨hP s hI, fun s' hstep => ?_⟩
      exact ih (hinv s action s' hI hsteps.1 hstep) (hsteps.2 s' hstep)

/-- **States against steps, within a guard.**  If a step that meets `G` keeps `P` exactly under
condition `C`, and then keeps the invariant, then along a run whose steps meet `G` the states have
`P` exactly if the steps meet `C`. -/
theorem always_iff_eachStep_within {I P : σ → Prop} {C G : σ → α → Prop}
    (hinv : ∀ s action s', I s → G s action → C s action → sys.step s action = some s' → I s')
    (hiff : ∀ s action s', I s → P s → G s action → sys.step s action = some s' →
      (P s' ↔ C s action))
    {s s' : σ} {actions : List α} (hI : I s) (hP : P s) (hguard : sys.EachStep G s actions)
    (hrun : sys.run s actions = some s') : sys.Always P s actions ↔ sys.EachStep C s actions := by
  induction actions generalizing s with
  | nil => exact iff_of_true hP trivial
  | cons action actions ih =>
      obtain ⟨mid, hmid, hrun⟩ := run_cons_eq_some.mp hrun
      have hcond := hiff s action mid hI hP hguard.1 hmid
      have hmid' : ∀ mid', sys.step s action = some mid' → mid' = mid := by
        intro mid' hmid'
        exact Option.some.inj (hmid'.symm.trans hmid)
      have hrest : P mid → C s action →
          (sys.Always P mid actions ↔ sys.EachStep C mid actions) := fun hPmid hC =>
        ih (hinv s action mid hI hguard.1 hC hmid) hPmid (hguard.2 mid hmid) hrun
      constructor
      · intro halways
        have hlater := halways.2 mid hmid
        have hPmid : P mid := by
          cases actions with
          | nil => exact hlater
          | cons => exact hlater.1
        refine ⟨hcond.mp hPmid, ?_⟩
        intro mid' hstep
        rw [hmid' mid' hstep]
        exact (hrest hPmid (hcond.mp hPmid)).mp hlater
      · intro hsteps
        have hPmid := hcond.mpr hsteps.1
        refine ⟨hP, ?_⟩
        intro mid' hstep
        rw [hmid' mid' hstep]
        exact (hrest hPmid hsteps.1).mpr (hsteps.2 mid hmid)

/-- **States against steps.**  If a step keeps `P` exactly under condition `C`,
then `P` holds in all states of a run exactly if `C` holds of all its steps. -/
theorem always_iff_eachStep {I P : σ → Prop} {C : σ → α → Prop}
    (hinv : ∀ s action s', I s → sys.step s action = some s' → I s')
    (hiff : ∀ s action s', I s → P s → sys.step s action = some s' → (P s' ↔ C s action))
    {s s' : σ} {actions : List α} (hI : I s) (hP : P s) (hrun : sys.run s actions = some s') :
    sys.Always P s actions ↔ sys.EachStep C s actions := by
  have hguard : sys.EachStep (fun _ _ => True) s actions :=
    eachStep_of_run (fun _ _ _ _ => trivial) hrun
  exact always_iff_eachStep_within (fun s action s' hI _ _ hstep => hinv s action s' hI hstep)
    (fun s action s' hI hP _ hstep => hiff s action s' hI hP hstep) hI hP hguard hrun

/-- Every start state of `sys` corresponds to one of `abs`, and every action of
`sys` to a run of `abs`, possibly an empty one. -/
structure Simulates (sys : System σ α) (abs : System τ β) (R : σ → τ → Prop) : Prop where
  start : ∀ s, sys.start s → ∃ t, abs.start t ∧ R s t
  step : ∀ s t action s', R s t → sys.step s action = some s' →
    ∃ actions t', abs.run t actions = some t' ∧ R s' t'

/-- Every reachable state corresponds to a reachable state of the simulating system. -/
theorem Simulates.reachable {abs : System τ β} {R : σ → τ → Prop} (hsim : Simulates sys abs R)
    {s : σ} (hreach : sys.Reachable s) : ∃ t, abs.Reachable t ∧ R s t := by
  refine hreach.invariant (P := fun s => ∃ t, abs.Reachable t ∧ R s t) ?_ ?_
  · intro s hs
    obtain ⟨t, ht, hR⟩ := hsim.start s hs
    exact ⟨t, .of_start ht, hR⟩
  · rintro s action s' ⟨t, ht, hR⟩ hstep
    obtain ⟨actions, t', hrun, hR'⟩ := hsim.step s t action s' hR hstep
    exact ⟨t', ht.run hrun, hR'⟩

end System

end Eureka.Transition

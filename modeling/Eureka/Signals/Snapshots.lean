import Mathlib
import Eureka.Signals.Invariants

/-!
# Emissions see snapshots

`Signal.Coherent` puts the parts of the invariant together; every action keeps
it.  `reachable_emissions` is what it says of the emissions in any reachable
state, `step_lists` that no step changes a vector that an emission iterates.
-/

namespace Eureka.Signals

open Transition

variable {Thread Slot Obj : Type} [DecidableEq Slot] [DecidableEq Obj]

namespace Signal

structure Coherent (bound : Slot → Option Obj) (s : Signal Thread Slot Obj) : Prop where
  vectors : Vectors s.lists s.next s.holders s.emissions s.connected
  guarded : Guarded s.mutex s.stage s.holders
  history : History s.stage s.made s.added s.removed
  faithful : ∀ id e, s.emissions id = some e → e.Faithful bound s.added
  stacked : Stacked s.stack s.emissions s.started

variable {bound : Slot → Option Obj} {s s' : Signal Thread Slot Obj} {t : Thread} {slot : Slot}
  {change : Edit Slot} {id : ℕ} {ids : List ℕ} {e : Emission Slot Obj}

theorem coherent_initial : (initial : Signal Thread Slot Obj).Coherent bound where
  vectors := ⟨Finset.mem_singleton_self _, fun _ _ => Nat.one_pos, rfl, nofun⟩
  guarded := ⟨nofun, nofun⟩
  history := ⟨List.nodup_nil, nofun, nofun, nofun, nofun, nofun⟩
  faithful := nofun
  stacked := ⟨fun _ _ => rfl, nofun, fun _ => List.nodup_nil, nofun⟩

omit [DecidableEq Slot] [DecidableEq Obj] in
theorem top_eq (h : s.top t = some (id, ids, e)) : s.stack t = id :: ids ∧ s.emissions id = some e := by
  unfold top at h
  split at h
  next id' ids' hstage hstack =>
    obtain ⟨e', he', heq⟩ := Option.map_eq_some_iff.mp h
    obtain ⟨rfl, rfl, rfl⟩ : id' = id ∧ ids' = ids ∧ e' = e := by simpa using heq
    exact ⟨hstack, he'⟩
  next => cases h

omit [DecidableEq Slot] [DecidableEq Obj] in
theorem forall_update {P : Emission Slot Obj → Prop} {emissions : ℕ → Option (Emission Slot Obj)}
    (h : ∀ id e, emissions id = some e → P e) (he : P e) :
    ∀ id' d, Function.update emissions id (some e) id' = some d → P d := by
  intro id' d hd
  by_cases hid : id' = id
  · rw [hid, Function.update_self] at hd
    exact Option.some.inj hd ▸ he
  · rw [Function.update_of_ne hid] at hd
    exact h id' d hd

/-! ## The actions -/

variable [DecidableEq Thread]

omit [DecidableEq Thread] in
theorem Coherent.setEmission (h : s.Coherent bound) (hid : id ∈ s.stack t)
    (he : s.emissions id = some e) {e' : Emission Slot Obj} (hsnapshot : e'.snapshot = e.snapshot)
    (hongoing : e'.progress.ongoing) (hfaithful : e'.Faithful bound s.added) :
    (s.setEmission id e').Coherent bound where
  vectors := by
    obtain ⟨d, hd, hdongoing⟩ := h.stacked.ongoing t id hid
    obtain rfl := Option.some.inj (hd.symm.trans he)
    exact h.vectors.setEmission he hsnapshot hdongoing
  guarded := h.guarded
  history := h.history
  faithful := forall_update h.faithful hfaithful
  stacked := h.stacked.setEmission hid hongoing

theorem Coherent.leave (h : s.Coherent bound) (hstack : s.stack t = id :: ids)
    (he : s.emissions id = some e) {progress : Progress} (hended : progress.ongoing = false)
    (hcomplete : progress = .returned → e.snapshot.length ≤ e.reached.length) :
    (s.leave t id ids e progress).Coherent bound where
  vectors := h.vectors.leave hended
  guarded := h.guarded.leave id
  history := h.history
  faithful := forall_update h.faithful ((h.faithful id e he).setProgress hcomplete)
  stacked := h.stacked.leave hstack

theorem Coherent.emit (h : s.Coherent bound) (hmutex : s.mutex = none) :
    (s.emit t).Coherent bound where
  vectors := h.vectors.emit (h.stacked.fresh s.started (le_refl _)) rfl
  guarded := by
    have hguarded := h.guarded
    rw [hmutex] at hguarded
    show Guarded s.mutex s.stage _
    rw [hmutex]
    exact hguarded.free _
  history := h.history
  faithful := forall_update h.faithful (Emission.Faithful.begin h.history.nodup _)
  stacked := h.stacked.emit rfl

theorem Coherent.edit (h : s.Coherent bound) (hstage : s.stage t = .editing change) :
    (s.edit t change).Coherent bound := by
  have hsole := h.guarded.sole t change hstage
  have hmutex := h.guarded.locked t (by rw [hstage]; rfl)
  have hguarded := h.guarded
  rw [hmutex] at hguarded
  have hedit : (s.stage t).edit = some change := by rw [hstage]; rfl
  have hslots : s.lists s.slots = s.connected := h.vectors.slots_eq
  have hvectors := h.vectors.edit hsole
  cases change with
  | addSlot slot =>
      refine ⟨?_, hguarded.unlock, h.history.commit_add hedit, fun id e he => ?_, h.stacked⟩
      · have happly := h.history.apply_addSlot hedit
        show Vectors (Function.update s.lists s.slots (s.lists s.slots ++ [slot])) s.next s.holders
          s.emissions ((s.added ++ [slot]).filter (· ∉ s.removed))
        rw [hslots, ← happly]
        exact hvectors _
      · exact (h.faithful id e he).mono (List.sublist_append_left _ _)
  | removeSlot slot =>
      refine ⟨?_, hguarded.unlock, h.history.commit fun other hother => ?_, h.faithful, h.stacked⟩
      · have happly := h.history.apply_removeSlot slot
        show Vectors (Function.update s.lists s.slots ((s.lists s.slots).erase slot)) s.next s.holders
          s.emissions (s.added.filter (· ∉ insert slot s.removed))
        rw [hslots, ← happly]
        exact hvectors _
      · obtain rfl | hother := Finset.mem_insert.mp hother
        · exact h.history.removing t other hedit
        · exact h.history.mem_added other hother
  | removeAllSlots =>
      refine ⟨?_, hguarded.unlock, h.history.commit fun other hother => ?_, h.faithful, h.stacked⟩
      · have happly := History.apply_removeAllSlots s.added s.removed
        show Vectors (Function.update s.lists s.slots []) s.next s.holders s.emissions
          (s.added.filter (· ∉ s.removed ∪ s.added.toFinset))
        rw [happly]
        exact hvectors []
      · obtain hother | hother := Finset.mem_union.mp hother
        · exact h.history.mem_added other hother
        · exact List.mem_toFinset.mp hother

theorem Coherent.copy (h : s.Coherent bound) (hstage : s.stage t = .copying change) :
    (s.copy t change).Coherent bound where
  vectors := h.vectors.copy
  guarded := by
    refine h.guarded.inside (h.guarded.locked t (by rw [hstage]; rfl)) fun _ _ => ?_
    show (s.holders.acquire .signal s.next).of ((s.holders.acquire .signal s.next).obj .signal) = _
    rw [Owners.obj_acquire_self, Owners.of_acquire_self, h.vectors.of_next]
    rfl
  history := h.history.setStage (by rw [hstage]; rfl)
  faithful := h.faithful
  stacked := h.stacked

theorem Coherent.test (h : s.Coherent bound) (hstage : s.stage t = .testing change) :
    (s.setStage t (if (s.holders.of s.slots).card = 1 then .editing change else .copying change)).Coherent
      bound where
  vectors := h.vectors
  guarded := by
    refine h.guarded.inside (h.guarded.locked t (by rw [hstage]; rfl)) fun other hother => ?_
    by_cases hunique : (s.holders.of s.slots).card = 1
    · exact Owners.of_eq_singleton hunique (Owners.mem_of.mpr ⟨h.vectors.signal, rfl⟩)
    · rw [if_neg hunique] at hother
      cases hother
  history := by
    refine h.history.setStage ?_
    rw [hstage]
    split <;> rfl
  faithful := h.faithful
  stacked := h.stacked

theorem Coherent.lock (h : s.Coherent bound) (hstage : s.stage t = .waiting change)
    (hmutex : s.mutex = none) :
    Coherent bound { s.setStage t (.testing change) with mutex := some t } where
  vectors := h.vectors
  guarded := by
    have hguarded := h.guarded
    rw [hmutex] at hguarded
    exact hguarded.lock
  history := h.history.setStage (by rw [hstage]; rfl)
  faithful := h.faithful
  stacked := h.stacked

theorem Coherent.begin (h : s.Coherent bound) (hadd : ∀ slot, change ≠ .addSlot slot)
    (hremove : ∀ slot, change = .removeSlot slot → slot ∈ s.added) :
    (s.setStage t (.waiting change)).Coherent bound where
  vectors := h.vectors
  guarded := h.guarded.outside rfl
  history := h.history.begin hadd hremove
  faithful := h.faithful
  stacked := h.stacked

theorem Coherent.connect (h : s.Coherent bound) (hslot : slot ∉ s.made) :
    Coherent bound { s.setStage t (.waiting (.addSlot slot)) with made := insert slot s.made } where
  vectors := h.vectors
  guarded := h.guarded.outside rfl
  history := h.history.connect hslot
  faithful := h.faithful
  stacked := h.stacked

omit [DecidableEq Thread] in
/-- The innermost emission reaches the next slot of its vector, which is that of its snapshot. -/
theorem Coherent.reach (h : s.Coherent bound) (hstack : s.stack t = id :: ids)
    (he : s.emissions id = some e) (hprogress : e.progress = .iterating)
    (hslot : (s.lists (s.holders.obj (.emission id)))[e.reached.length]? = some slot) :
    (s.reach bound id e slot).Coherent bound := by
  have hid : id ∈ s.stack t := hstack ▸ List.mem_cons_self
  have hongoing : e.progress.ongoing := by
    rw [hprogress]
    rfl
  rw [(h.vectors.ongoing id e he hongoing).2] at hslot
  unfold Signal.reach
  split
  next hgone =>
    refine h.setEmission hid he rfl hongoing ((h.faithful id e he).reach hslot ?_ ?_)
    · rw [if_pos hgone, List.append_nil]
    · rw [hprogress]
      nofun
  next hgone =>
    refine h.setEmission hid he rfl rfl ((h.faithful id e he).reach hslot ?_ (by nofun))
    rw [if_neg hgone]

/-- What a step can do. -/
inductive Steps (bound : Slot → Option Obj) (s : Signal Thread Slot Obj) :
    Signal Thread Slot Obj → Prop
  | same : Steps bound s s
  | connect (t : Thread) (slot : Slot) (hslot : slot ∉ s.made) :
      Steps bound s { s.setStage t (.waiting (.addSlot slot)) with made := insert slot s.made }
  | begin (t : Thread) (change : Edit Slot) (hadd : ∀ slot, change ≠ .addSlot slot)
      (hremove : ∀ slot, change = .removeSlot slot → slot ∈ s.added) :
      Steps bound s (s.setStage t (.waiting change))
  | lock (t : Thread) (change : Edit Slot) (hstage : s.stage t = .waiting change)
      (hmutex : s.mutex = none) :
      Steps bound s { s.setStage t (.testing change) with mutex := some t }
  | test (t : Thread) (change : Edit Slot) (hstage : s.stage t = .testing change) :
      Steps bound s (s.setStage t
        (if (s.holders.of s.slots).card = 1 then .editing change else .copying change))
  | copy (t : Thread) (change : Edit Slot) (hstage : s.stage t = .copying change) :
      Steps bound s (s.copy t change)
  | edit (t : Thread) (change : Edit Slot) (hstage : s.stage t = .editing change) :
      Steps bound s (s.edit t change)
  | emit (t : Thread) (hmutex : s.mutex = none) : Steps bound s (s.emit t)
  | reach (t : Thread) (id : ℕ) (ids : List ℕ) (e : Emission Slot Obj) (slot : Slot)
      (hstack : s.stack t = id :: ids) (he : s.emissions id = some e)
      (hprogress : e.progress = .iterating)
      (hslot : (s.lists (s.holders.obj (.emission id)))[e.reached.length]? = some slot) :
      Steps bound s (s.reach bound id e slot)
  | «return» (t : Thread) (id : ℕ) (ids : List ℕ) (e : Emission Slot Obj)
      (hstack : s.stack t = id :: ids) (he : s.emissions id = some e) :
      Steps bound s (s.setEmission id { e with progress := .iterating })
  | throw (t : Thread) (id : ℕ) (ids : List ℕ) (e : Emission Slot Obj)
      (hstack : s.stack t = id :: ids) (he : s.emissions id = some e) :
      Steps bound s (s.leave t id ids e .thrown)
  | finish (t : Thread) (id : ℕ) (ids : List ℕ) (e : Emission Slot Obj)
      (hstack : s.stack t = id :: ids) (he : s.emissions id = some e)
      (hprogress : e.progress = .iterating)
      (hlength : (s.lists (s.holders.obj (.emission id))).length ≤ e.reached.length) :
      Steps bound s (s.leave t id ids e .returned)
  | die (object : Obj) : Steps bound s { s with gone := insert object s.gone }

theorem step_cases {action : Action Thread Slot Obj}
    (hstep : (signal Thread bound).step s action = some s') : Steps bound s s' := by
  replace hstep : Signal.step bound s action = some s' := hstep
  cases action with
  | connect t slot =>
      obtain ⟨⟨-, hslot⟩, heq⟩ := Option.ite_none_right_eq_some.mp hstep
      exact Option.some.inj heq ▸ .connect t slot hslot
  | disconnect t slot =>
      obtain ⟨⟨-, hslot⟩, heq⟩ := Option.ite_none_right_eq_some.mp hstep
      refine Option.some.inj heq ▸ .begin t _ nofun fun other hother => ?_
      exact Edit.removeSlot.inj hother ▸ hslot
  | disconnectExpired t slot =>
      obtain ⟨-, heq⟩ := Option.ite_none_right_eq_some.mp hstep
      exact Option.some.inj heq ▸ .same
  | disconnectAll t =>
      obtain ⟨-, heq⟩ := Option.ite_none_right_eq_some.mp hstep
      exact Option.some.inj heq ▸ .begin t _ nofun nofun
  | lock t =>
      unfold Signal.step at hstep
      dsimp only at hstep
      split at hstep
      next change hstage hmutex => exact Option.some.inj hstep ▸ .lock t change hstage hmutex
      next => cases hstep
  | test t =>
      unfold Signal.step at hstep
      dsimp only at hstep
      split at hstep
      next change hstage => exact Option.some.inj hstep ▸ .test t change hstage
      next => cases hstep
  | copy t =>
      unfold Signal.step at hstep
      dsimp only at hstep
      split at hstep
      next change hstage => exact Option.some.inj hstep ▸ .copy t change hstage
      next => cases hstep
  | edit t =>
      unfold Signal.step at hstep
      dsimp only at hstep
      split at hstep
      next change hstage => exact Option.some.inj hstep ▸ .edit t change hstage
      next => cases hstep
  | emit t =>
      obtain ⟨⟨-, hmutex⟩, heq⟩ := Option.ite_none_right_eq_some.mp hstep
      exact Option.some.inj heq ▸ .emit t hmutex
  | reach t =>
      unfold Signal.step at hstep
      dsimp only at hstep
      split at hstep
      next id ids e htop =>
        obtain ⟨hstack, he⟩ := top_eq htop
        obtain ⟨hprogress, hmap⟩ := Option.ite_none_right_eq_some.mp hstep
        obtain ⟨slot, hslot, rfl⟩ := Option.map_eq_some_iff.mp hmap
        exact .reach t id ids e slot hstack he hprogress hslot
      next => cases hstep
  | «return» t =>
      unfold Signal.step at hstep
      dsimp only at hstep
      split at hstep
      next id ids e htop =>
        obtain ⟨hstack, he⟩ := top_eq htop
        obtain ⟨-, heq⟩ := Option.ite_none_right_eq_some.mp hstep
        exact Option.some.inj heq ▸ .return t id ids e hstack he
      next => cases hstep
  | throw t =>
      unfold Signal.step at hstep
      dsimp only at hstep
      split at hstep
      next id ids e htop =>
        obtain ⟨hstack, he⟩ := top_eq htop
        obtain ⟨-, heq⟩ := Option.ite_none_right_eq_some.mp hstep
        exact Option.some.inj heq ▸ .throw t id ids e hstack he
      next => cases hstep
  | finish t =>
      unfold Signal.step at hstep
      dsimp only at hstep
      split at hstep
      next id ids e htop =>
        obtain ⟨hstack, he⟩ := top_eq htop
        obtain ⟨⟨hprogress, hlength⟩, heq⟩ := Option.ite_none_right_eq_some.mp hstep
        exact Option.some.inj heq ▸ .finish t id ids e hstack he hprogress hlength
      next => cases hstep
  | die object => exact Option.some.inj hstep ▸ .die object

theorem Coherent.step (h : s.Coherent bound) (hstep : Steps bound s s') : s'.Coherent bound := by
  cases hstep with
  | same => exact h
  | connect t slot hslot => exact h.connect hslot
  | begin t change hadd hremove => exact h.begin hadd hremove
  | lock t change hstage hmutex => exact h.lock hstage hmutex
  | test t change hstage => exact h.test hstage
  | copy t change hstage => exact h.copy hstage
  | edit t change hstage => exact h.edit hstage
  | emit t hmutex => exact h.emit hmutex
  | reach t id ids e slot hstack he hprogress hslot => exact h.reach hstack he hprogress hslot
  | «return» t id ids e hstack he =>
      refine h.setEmission (t := t) (hstack ▸ List.mem_cons_self) he rfl rfl ?_
      exact (h.faithful id e he).setProgress nofun
  | throw t id ids e hstack he => exact h.leave hstack he rfl nofun
  | finish t id ids e hstack he hprogress hlength =>
      have hlist := (h.vectors.ongoing id e he (by rw [hprogress]; rfl)).2
      rw [hlist] at hlength
      exact h.leave hstack he rfl fun _ => hlength
  | die object => exact ⟨h.vectors, h.guarded, h.history, h.faithful, h.stacked⟩

theorem Coherent.of_reachable (hreach : (signal Thread bound).Reachable s) : s.Coherent bound := by
  refine hreach.invariant (fun s hs => ?_) fun s action s' h hstep => h.step (step_cases hstep)
  rw [show s = .initial from hs]
  exact coherent_initial

/-! ## Every emission -/

/-- What an emission iterates is not changed. -/
theorem Coherent.lists_eq (h : s.Coherent bound) (hstep : Steps bound s s')
    (he : s.emissions id = some e) (hongoing : e.progress.ongoing) :
    s'.lists (s.holders.obj (.emission id)) = s.lists (s.holders.obj (.emission id)) := by
  obtain ⟨hmem, -⟩ := h.vectors.ongoing id e he hongoing
  cases hstep with
  | copy t change hstage => exact Function.update_of_ne (h.vectors.below _ hmem).ne _ _
  | edit t change hstage =>
      refine Function.update_of_ne (fun heq => ?_) _ _
      have hof : Holder.emission id ∈ s.holders.of (s.holders.obj .signal) := Owners.mem_of.mpr ⟨hmem, heq⟩
      rw [h.guarded.sole t change hstage, Finset.mem_singleton] at hof
      cases hof
  | reach t id ids e slot hstack he hprogress hslot =>
      unfold Signal.reach
      split <;> rfl
  | _ => rfl

/-- An emission begins with what is connected, and keeps to that. -/
theorem Coherent.snapshot_eq (h : s.Coherent bound) (hstep : Steps bound s s')
    {e' : Emission Slot Obj} (he' : s'.emissions id = some e') :
    (∃ e, s.emissions id = some e ∧ e'.snapshot = e.snapshot) ∨
      s.emissions id = none ∧ e'.snapshot = s.connected := by
  have hupdate : ∀ {id' : ℕ} {d d' : Emission Slot Obj}, s.emissions id' = some d →
      Function.update s.emissions id' (some d') id = some e' → d'.snapshot = d.snapshot →
      ∃ e, s.emissions id = some e ∧ e'.snapshot = e.snapshot := by
    intro id' d d' hd hnew hsnapshot
    by_cases hid : id = id'
    · rw [hid, Function.update_self] at hnew
      exact ⟨d, hid ▸ hd, Option.some.inj hnew ▸ hsnapshot⟩
    · rw [Function.update_of_ne hid] at hnew
      exact ⟨e', hnew, rfl⟩
  cases hstep with
  | emit t hmutex =>
      have hnew : Function.update s.emissions s.started (some ⟨s.connected, [], [], .iterating⟩) id =
        some e' := he'
      by_cases hid : id = s.started
      · rw [hid, Function.update_self] at hnew
        exact .inr ⟨hid ▸ h.stacked.fresh s.started (le_refl _), Option.some.inj hnew ▸ rfl⟩
      · rw [Function.update_of_ne hid] at hnew
        exact .inl ⟨e', hnew, rfl⟩
  | reach t id ids e slot hstack he hprogress hslot =>
      unfold Signal.reach at he'
      split at he'
      all_goals exact .inl (hupdate he he' rfl)
  | «return» t id ids e hstack he => exact .inl (hupdate he he' rfl)
  | throw t id ids e hstack he => exact .inl (hupdate he he' rfl)
  | finish t id ids e hstack he => exact .inl (hupdate he he' rfl)
  | _ => exact .inl ⟨e', he', rfl⟩

/-- An emission has reached and invoked what it should, and what it has yet to reach is there. -/
structure Snapshots (bound : Slot → Option Obj) (s : Signal Thread Slot Obj) : Prop where
  faithful : ∀ id e, s.emissions id = some e → e.Faithful bound s.added
  lists_eq : ∀ id e, s.emissions id = some e → e.progress.ongoing →
    s.lists (s.holders.obj (.emission id)) = e.snapshot

/-- A step keeps the vectors that emissions iterate and the snapshots that they have, and gives a new
emission what is connected then. -/
structure Undisturbed (s s' : Signal Thread Slot Obj) : Prop where
  lists_eq : ∀ id e, s.emissions id = some e → e.progress.ongoing →
    s'.lists (s.holders.obj (.emission id)) = s.lists (s.holders.obj (.emission id))
  snapshot_eq : ∀ id e', s'.emissions id = some e' →
    (∃ e, s.emissions id = some e ∧ e'.snapshot = e.snapshot) ∨
      s.emissions id = none ∧ e'.snapshot = s.connected

/-- **Emissions see snapshots**, in every reachable state and along every step. -/
theorem emit_snapshots (hreach : (signal Thread bound).Reachable s) :
    s.Snapshots bound ∧
      ∀ action s', (signal Thread bound).step s action = some s' → s.Undisturbed s' := by
  have h := Coherent.of_reachable hreach
  refine ⟨⟨h.faithful, fun id e he hongoing => (h.vectors.ongoing id e he hongoing).2⟩, ?_⟩
  intro action s' hstep
  have hsteps := step_cases hstep
  exact ⟨fun id e he hongoing => h.lists_eq hsteps he hongoing,
    fun id e' he' => h.snapshot_eq hsteps he'⟩

/-- One slot is bound to an object. -/
def weaklyBound (slot : ℕ) : Option ℕ := if slot = 2 then some 7 else none

/-- A slot that disconnects the next one and connects another, while a second thread disconnects all:
the emission invokes the first two, and skips the third, whose object is gone by then. -/
def nested : List (Action Bool ℕ ℕ) :=
  [.connect true 0, .lock true, .test true, .edit true, .connect true 1, .lock true, .test true,
    .edit true, .connect true 2, .lock true, .test true, .edit true, .emit true, .reach true,
    .disconnect true 1, .lock true, .test true, .copy true, .edit true, .disconnectAll false,
    .connect true 3, .lock true, .test true, .edit true, .return true, .lock false, .test false,
    .edit false, .die 7, .reach true, .emit true, .finish true, .return true, .reach true, .finish true]

theorem emit_snapshots_nested :
    (∃ s, (signal Bool weaklyBound).run .initial nested = some s ∧ s.Snapshots weaklyBound) ∧
      ((signal Bool weaklyBound).run .initial nested).bind (fun s => (s.emissions 0).map fun e =>
        (e.snapshot, e.invoked)) = some ([0, 1, 2], [0, 1]) := by
  obtain ⟨s, hs⟩ : ∃ s, (signal Bool weaklyBound).run .initial nested = some s := ⟨_, rfl⟩
  exact ⟨⟨s, hs, (emit_snapshots ⟨_, _, rfl, hs⟩).1⟩, rfl⟩

end Signal

end Eureka.Signals

import Mathlib
import Eureka.Signals.Signal

/-!
# What a signal keeps

The invariant has a part for each part of the state: the vectors (`Vectors`), the
mutex (`Guarded`), the slots that come and go (`History`), what the emissions have
done (`Emission.Faithful`) and the calls of the threads (`Stacked`).

A vector is **changed only while the signal alone points to it**: the use count
was one, or the vector is fresh, and as long as the mutex is locked there is no
other way to a pointer than from the emissions that have one (`Guarded.sole`).
So what an emission iterates is at any time what was connected when it began
(`Vectors.ongoing`).
-/

namespace Eureka.Signals

open Transition

variable {Thread Slot Obj : Type}

/-- The vector of the signal has the connected slots, those of the emissions their snapshots. -/
structure Vectors (lists : ℕ → List Slot) (next : ℕ) (holders : Owners Holder ℕ)
    (emissions : ℕ → Option (Emission Slot Obj)) (connected : List Slot) : Prop where
  signal : .signal ∈ holders.live
  below : ∀ holder ∈ holders.live, holders.obj holder < next
  slots_eq : lists (holders.obj .signal) = connected
  ongoing : ∀ id e, emissions id = some e → e.progress.ongoing →
    .emission id ∈ holders.live ∧ lists (holders.obj (.emission id)) = e.snapshot

/-- A thread that is to change the vector has the mutex, and the signal has the vector alone. -/
structure Guarded (mutex : Option Thread) (stage : Thread → Stage Slot) (holders : Owners Holder ℕ) :
    Prop where
  locked : ∀ t, (stage t).inside → mutex = some t
  sole : ∀ t edit, stage t = .editing edit → holders.of (holders.obj .signal) = {.signal}

/-- Slots are added once, and only those are removed. -/
structure History (stage : Thread → Stage Slot) (made : Finset Slot) (added : List Slot)
    (removed : Finset Slot) : Prop where
  nodup : added.Nodup
  mem_made : ∀ slot ∈ added, slot ∈ made
  mem_added : ∀ slot ∈ removed, slot ∈ added
  removing : ∀ t slot, (stage t).edit = some (.removeSlot slot) → slot ∈ added
  adding : ∀ t slot, (stage t).edit = some (.addSlot slot) → slot ∈ made ∧ slot ∉ added
  apart : ∀ t u slot, (stage t).edit = some (.addSlot slot) →
    (stage u).edit = some (.addSlot slot) → t = u

/-- The emission has reached the slots of its snapshot one by one, in the order in which they were
connected, and has invoked those whose object was not gone then. -/
structure Emission.Faithful [DecidableEq Obj] (bound : Slot → Option Obj) (added : List Slot)
    (e : Emission Slot Obj) : Prop where
  order : e.snapshot.Sublist added
  nodup : e.snapshot.Nodup
  reached_eq : e.reached.map Prod.fst = e.snapshot.take e.reached.length
  invoked_eq : e.invoked = (e.reached.filter fun entry =>
    ¬ Signal.isGone bound entry.2 entry.1).map Prod.fst
  complete : e.progress = .returned → e.reached.map Prod.fst = e.snapshot

/-- Every call in progress is on the stack of one thread. -/
structure Stacked (stack : Thread → List ℕ) (emissions : ℕ → Option (Emission Slot Obj))
    (started : ℕ) : Prop where
  fresh : ∀ id, started ≤ id → emissions id = none
  ongoing : ∀ t, ∀ id ∈ stack t, ∃ e, emissions id = some e ∧ e.progress.ongoing
  nodup : ∀ t, (stack t).Nodup
  apart : ∀ t u id, id ∈ stack t → id ∈ stack u → t = u

/-! ## Vectors -/

namespace Vectors

variable {lists : ℕ → List Slot} {next id : ℕ} {holders : Owners Holder ℕ}
  {emissions : ℕ → Option (Emission Slot Obj)} {connected : List Slot} {e e' : Emission Slot Obj}

theorem setEmission (h : Vectors lists next holders emissions connected)
    (he : emissions id = some e) (hsnapshot : e'.snapshot = e.snapshot)
    (hongoing : e.progress.ongoing) :
    Vectors lists next holders (Function.update emissions id (some e')) connected := by
  refine ⟨h.signal, h.below, h.slots_eq, fun id' d hd hprogress => ?_⟩
  by_cases hid : id' = id
  · subst hid
    rw [Function.update_self, Option.some_inj] at hd
    rw [← hd, hsnapshot]
    exact h.ongoing id' e he hongoing
  · rw [Function.update_of_ne hid] at hd
    exact h.ongoing id' d hd hprogress

theorem copy (h : Vectors lists next holders emissions connected) :
    Vectors (Function.update lists next (lists (holders.obj .signal))) (next + 1)
      (holders.acquire .signal next) emissions connected := by
  refine ⟨Finset.mem_insert_self _ _, fun holder hholder => ?_, ?_, fun id e he hongoing => ?_⟩
  · by_cases hsignal : holder = .signal
    · rw [hsignal, Owners.obj_acquire_self]
      exact Nat.lt_succ_self next
    · rw [Owners.obj_acquire_of_ne hsignal]
      exact Nat.lt_succ_of_lt (h.below holder (Finset.mem_of_mem_insert_of_ne hholder hsignal))
  · rw [Owners.obj_acquire_self, Function.update_self]
    exact h.slots_eq
  · obtain ⟨hmem, hlist⟩ := h.ongoing id e he hongoing
    rw [Owners.obj_acquire_of_ne (by nofun), Function.update_of_ne (h.below _ hmem).ne]
    exact ⟨Finset.mem_insert_of_mem hmem, hlist⟩

theorem edit (h : Vectors lists next holders emissions connected)
    (hsole : holders.of (holders.obj .signal) = {.signal}) (slots : List Slot) :
    Vectors (Function.update lists (holders.obj .signal) slots) next holders emissions slots := by
  refine ⟨h.signal, h.below, Function.update_self _ _ _, fun id e he hongoing => ?_⟩
  obtain ⟨hmem, hlist⟩ := h.ongoing id e he hongoing
  have hne : holders.obj (.emission id) ≠ holders.obj .signal := by
    intro heq
    have hof : Holder.emission id ∈ holders.of (holders.obj .signal) := Owners.mem_of.mpr ⟨hmem, heq⟩
    rw [hsole, Finset.mem_singleton] at hof
    cases hof
  rw [Function.update_of_ne hne]
  exact ⟨hmem, hlist⟩

theorem emit (h : Vectors lists next holders emissions connected) (hid : emissions id = none)
    (hsnapshot : e.snapshot = connected) :
    Vectors lists next (holders.acquire (.emission id) (holders.obj .signal))
      (Function.update emissions id (some e)) connected := by
  refine ⟨Finset.mem_insert_of_mem h.signal, fun holder hholder => ?_, ?_, fun id' d hd hongoing => ?_⟩
  · by_cases hnew : holder = .emission id
    · rw [hnew, Owners.obj_acquire_self]
      exact h.below _ h.signal
    · rw [Owners.obj_acquire_of_ne hnew]
      exact h.below holder (Finset.mem_of_mem_insert_of_ne hholder hnew)
  · rw [Owners.obj_acquire_of_ne (by nofun)]
    exact h.slots_eq
  · by_cases hid' : id' = id
    · subst hid'
      rw [Function.update_self, Option.some_inj] at hd
      rw [Owners.obj_acquire_self, ← hd, hsnapshot]
      exact ⟨Finset.mem_insert_self _ _, h.slots_eq⟩
    · rw [Function.update_of_ne hid'] at hd
      obtain ⟨hmem, hlist⟩ := h.ongoing id' d hd hongoing
      have hne : Holder.emission id' ≠ .emission id := fun heq => hid' (Holder.emission.inj heq)
      rw [Owners.obj_acquire_of_ne hne]
      exact ⟨Finset.mem_insert_of_mem hmem, hlist⟩

theorem leave (h : Vectors lists next holders emissions connected) (hended : e.progress.ongoing = false) :
    Vectors lists next (holders.drop (.emission id)) (Function.update emissions id (some e))
      connected := by
  refine ⟨Finset.mem_erase.mpr ⟨by nofun, h.signal⟩,
    fun holder hholder => h.below holder (Finset.mem_of_mem_erase hholder), h.slots_eq,
    fun id' d hd hongoing => ?_⟩
  by_cases hid : id' = id
  · subst hid
    rw [Function.update_self, Option.some_inj] at hd
    rw [← hd, hended] at hongoing
    cases hongoing
  · rw [Function.update_of_ne hid] at hd
    obtain ⟨hmem, hlist⟩ := h.ongoing id' d hd hongoing
    exact ⟨Finset.mem_erase.mpr ⟨fun heq => hid (Holder.emission.inj heq), hmem⟩, hlist⟩

theorem of_next (h : Vectors lists next holders emissions connected) : holders.of next = ∅ := by
  refine Finset.eq_empty_of_forall_notMem fun holder hholder => ?_
  obtain ⟨hmem, hobj⟩ := Owners.mem_of.mp hholder
  exact (h.below holder hmem).ne hobj

end Vectors

/-! ## The mutex -/

namespace Guarded

variable [DecidableEq Thread] {mutex : Option Thread} {stage : Thread → Stage Slot}
  {holders : Owners Holder ℕ} {t : Thread} {st : Stage Slot} {edit : Edit Slot}

theorem outside (h : Guarded mutex stage holders) (hst : st.inside = false) :
    Guarded mutex (Function.update stage t st) holders := by
  refine ⟨fun u hu => ?_, fun u edit hu => ?_⟩
  all_goals by_cases hut : u = t
  · rw [hut, Function.update_self, hst] at hu
    cases hu
  · rw [Function.update_of_ne hut] at hu
    exact h.locked u hu
  · rw [hut, Function.update_self] at hu
    rw [hu] at hst
    cases hst
  · rw [Function.update_of_ne hut] at hu
    exact h.sole u edit hu

theorem inside (h : Guarded mutex stage holders) (ht : mutex = some t)
    {holders' : Owners Holder ℕ}
    (hsole : ∀ edit, st = .editing edit → holders'.of (holders'.obj .signal) = {.signal}) :
    Guarded mutex (Function.update stage t st) holders' := by
  refine ⟨fun u hu => ?_, fun u edit hu => ?_⟩
  all_goals by_cases hut : u = t
  · rw [hut]
    exact ht
  · rw [Function.update_of_ne hut] at hu
    exact h.locked u hu
  · rw [hut, Function.update_self] at hu
    exact hsole edit hu
  · rw [Function.update_of_ne hut] at hu
    have hlocked := h.locked u (by rw [hu]; rfl)
    exact absurd (Option.some.inj (hlocked.symm.trans ht)) hut

omit [DecidableEq Thread] in
theorem of_none (h : Guarded none stage holders) (u : Thread) : (stage u).inside = false :=
  Bool.eq_false_iff.mpr fun hu => nomatch h.locked u hu

theorem lock (h : Guarded none stage holders) :
    Guarded (some t) (Function.update stage t (.testing edit)) holders := by
  refine ⟨fun u hu => ?_, fun u edit hu => ?_⟩
  all_goals by_cases hut : u = t
  · rw [hut]
  · rw [Function.update_of_ne hut, h.of_none u] at hu
    cases hu
  · rw [hut, Function.update_self] at hu
    cases hu
  · rw [Function.update_of_ne hut] at hu
    exact h.sole u edit hu

theorem unlock (h : Guarded (some t) stage holders) :
    Guarded none (Function.update stage t .outside) holders := by
  refine ⟨fun u hu => ?_, fun u edit hu => ?_⟩
  all_goals by_cases hut : u = t
  · rw [hut, Function.update_self] at hu
    cases hu
  · rw [Function.update_of_ne hut] at hu
    exact absurd (Option.some.inj (h.locked u hu)).symm hut
  · rw [hut, Function.update_self] at hu
    cases hu
  · rw [Function.update_of_ne hut] at hu
    exact h.sole u edit hu

omit [DecidableEq Thread] in
theorem free (h : Guarded none stage holders) (holders' : Owners Holder ℕ) :
    Guarded none stage holders' := by
  refine ⟨h.locked, fun u edit hu => ?_⟩
  have hout := h.of_none u
  rw [hu] at hout
  cases hout

omit [DecidableEq Thread] in
theorem leave (h : Guarded mutex stage holders) (id : ℕ) :
    Guarded mutex stage (holders.drop (.emission id)) := by
  refine ⟨h.locked, fun u edit hu => ?_⟩
  rw [Owners.obj_drop, Owners.of_drop, h.sole u edit hu]
  rfl

end Guarded

/-! ## The slots -/

namespace History

variable [DecidableEq Slot] {stage stage' : Thread → Stage Slot} {made : Finset Slot}
  {added : List Slot} {removed : Finset Slot} {t : Thread} {slot : Slot} {edit : Edit Slot}

omit [DecidableEq Slot] in
theorem congr (h : History stage made added removed) (hedit : ∀ u, (stage' u).edit = (stage u).edit) :
    History stage' made added removed where
  nodup := h.nodup
  mem_made := h.mem_made
  mem_added := h.mem_added
  removing u slot hu := h.removing u slot ((hedit u).symm.trans hu)
  adding u slot hu := h.adding u slot ((hedit u).symm.trans hu)
  apart u v slot hu hv := h.apart u v slot ((hedit u).symm.trans hu) ((hedit v).symm.trans hv)

variable [DecidableEq Thread]

omit [DecidableEq Slot] in
theorem setStage (h : History stage made added removed) {st : Stage Slot}
    (hedit : st.edit = (stage t).edit) : History (Function.update stage t st) made added removed := by
  refine h.congr fun u => ?_
  by_cases hut : u = t
  · rw [hut, Function.update_self, hedit]
  · rw [Function.update_of_ne hut]

omit [DecidableEq Slot] in
theorem begin (h : History stage made added removed) (hadd : ∀ slot, edit ≠ .addSlot slot)
    (hremove : ∀ slot, edit = .removeSlot slot → slot ∈ added) :
    History (Function.update stage t (.waiting edit)) made added removed := by
  have hother : ∀ u slot, (Function.update stage t (.waiting edit) u).edit = some (.addSlot slot) →
      (stage u).edit = some (.addSlot slot) := by
    intro u slot hu
    by_cases hut : u = t
    · rw [hut, Function.update_self] at hu
      exact absurd (Option.some.inj hu) (hadd slot)
    · rwa [Function.update_of_ne hut] at hu
  refine ⟨h.nodup, h.mem_made, h.mem_added, fun u slot hu => ?_,
    fun u slot hu => h.adding u slot (hother u slot hu),
    fun u v slot hu hv => h.apart u v slot (hother u slot hu) (hother v slot hv)⟩
  by_cases hut : u = t
  · rw [hut, Function.update_self] at hu
    exact hremove slot (Option.some.inj hu)
  · rw [Function.update_of_ne hut] at hu
    exact h.removing u slot hu

theorem connect (h : History stage made added removed) (hslot : slot ∉ made) :
    History (Function.update stage t (.waiting (.addSlot slot))) (insert slot made) added removed := by
  have hother : ∀ u other, u ≠ t →
      (Function.update stage t (.waiting (.addSlot slot)) u).edit = some (.addSlot other) →
      (stage u).edit = some (.addSlot other) := by
    intro u other hut hu
    rwa [Function.update_of_ne hut] at hu
  have hself : ∀ other,
      (Function.update stage t (.waiting (.addSlot slot)) t).edit = some (.addSlot other) →
      slot = other := by
    intro other ht
    rw [Function.update_self] at ht
    exact Edit.addSlot.inj (Option.some.inj ht)
  refine ⟨h.nodup, fun other hother => Finset.mem_insert_of_mem (h.mem_made other hother), h.mem_added,
    fun u other hu => ?_, fun u other hu => ?_, fun u v other hu hv => ?_⟩
  · by_cases hut : u = t
    · rw [hut, Function.update_self] at hu
      cases hu
    · rw [Function.update_of_ne hut] at hu
      exact h.removing u other hu
  · by_cases hut : u = t
    · rw [hut] at hu
      rw [← hself other hu]
      exact ⟨Finset.mem_insert_self _ _, fun hadded => hslot (h.mem_made slot hadded)⟩
    · obtain ⟨hmade, hadded⟩ := h.adding u other (hother u other hut hu)
      exact ⟨Finset.mem_insert_of_mem hmade, hadded⟩
  · by_cases hut : u = t <;> by_cases hvt : v = t
    · exact hut.trans hvt.symm
    · rw [hut] at hu
      have hmade := (h.adding v other (hother v other hvt hv)).1
      exact absurd (hself other hu ▸ hmade) hslot
    · rw [hvt] at hv
      have hmade := (h.adding u other (hother u other hut hu)).1
      exact absurd (hself other hv ▸ hmade) hslot
    · exact h.apart u v other (hother u other hut hu) (hother v other hvt hv)

omit [DecidableEq Slot] in
theorem commit (h : History stage made added removed) {removed' : Finset Slot}
    (hremoved : ∀ slot ∈ removed', slot ∈ added) :
    History (Function.update stage t .outside) made added removed' := by
  have hother : ∀ u edit, (Function.update stage t .outside u).edit = some edit →
      (stage u).edit = some edit := by
    intro u edit hu
    by_cases hut : u = t
    · rw [hut, Function.update_self] at hu
      cases hu
    · rwa [Function.update_of_ne hut] at hu
  exact ⟨h.nodup, h.mem_made, hremoved, fun u slot hu => h.removing u slot (hother u _ hu),
    fun u slot hu => h.adding u slot (hother u _ hu),
    fun u v slot hu hv => h.apart u v slot (hother u _ hu) (hother v _ hv)⟩

omit [DecidableEq Slot] in
theorem commit_add (h : History stage made added removed)
    (hedit : (stage t).edit = some (.addSlot slot)) :
    History (Function.update stage t .outside) made (added ++ [slot]) removed := by
  obtain ⟨hmade, hadded⟩ := h.adding t slot hedit
  have h' := h.commit (t := t) h.mem_added
  refine ⟨?_, fun other hother => ?_, fun other hother => List.mem_append_left _ (h.mem_added other hother),
    fun u other hu => List.mem_append_left _ (h'.removing u other hu), fun u other hu => ?_, h'.apart⟩
  · exact h.nodup.append (List.nodup_singleton slot) (by simpa using hadded)
  · obtain hother | hother := List.mem_append.mp hother
    · exact h.mem_made other hother
    · exact List.mem_singleton.mp hother ▸ hmade
  · obtain ⟨hother, hnew⟩ := h'.adding u other hu
    refine ⟨hother, fun hmem => ?_⟩
    obtain hmem | hmem := List.mem_append.mp hmem
    · exact hnew hmem
    · have hut : u ≠ t := by
        rintro rfl
        rw [Function.update_self] at hu
        cases hu
      rw [Function.update_of_ne hut, List.mem_singleton.mp hmem] at hu
      exact hut (h.apart u t slot hu hedit)

omit [DecidableEq Thread] in
/-- **The vector has the slots that were added and not removed since**: what an edit does to it. -/
theorem apply_addSlot (h : History stage made added removed)
    (hedit : (stage t).edit = some (.addSlot slot)) :
    added.filter (· ∉ removed) ++ [slot] = (added ++ [slot]).filter (· ∉ removed) := by
  have hnew : slot ∉ removed := fun hmem => (h.adding t slot hedit).2 (h.mem_added slot hmem)
  rw [List.filter_append, List.filter_singleton]
  simp [hnew]

omit [DecidableEq Thread] in
theorem apply_removeSlot (h : History stage made added removed) (slot : Slot) :
    (added.filter (· ∉ removed)).erase slot = added.filter (· ∉ insert slot removed) := by
  rw [(h.nodup.filter _).erase_eq_filter, List.filter_filter]
  apply List.filter_congr
  intro other _
  rw [Bool.eq_iff_iff]
  simp [not_or]

theorem apply_removeAllSlots (added : List Slot) (removed : Finset Slot) :
    added.filter (· ∉ removed ∪ added.toFinset) = [] := by
  simp only [List.filter_eq_nil_iff, Finset.mem_union, List.mem_toFinset]
  intro slot hslot
  simp [hslot]

end History

/-! ## The emissions -/

namespace Emission.Faithful

variable [DecidableEq Obj] {bound : Slot → Option Obj} {added added' : List Slot}
  {e : Emission Slot Obj} {progress : Progress}

theorem mono (h : e.Faithful bound added) (hadded : added.Sublist added') :
    e.Faithful bound added' := { h with order := h.order.trans hadded }

theorem begin (hnodup : added.Nodup) (p : Slot → Bool) :
    Faithful bound added ⟨added.filter p, [], [], .iterating⟩ where
  order := List.filter_sublist
  nodup := hnodup.filter p
  reached_eq := rfl
  invoked_eq := rfl
  complete := nofun

theorem setProgress (h : e.Faithful bound added)
    (hcomplete : progress = .returned → e.snapshot.length ≤ e.reached.length) :
    Faithful bound added { e with progress := progress } where
  order := h.order
  nodup := h.nodup
  reached_eq := h.reached_eq
  invoked_eq := h.invoked_eq
  complete hreturned := h.reached_eq.trans (List.take_of_length_le (hcomplete hreturned))

theorem reach (h : e.Faithful bound added) {slot : Slot} (hslot : e.snapshot[e.reached.length]? = some slot)
    {gone : Finset Obj} {invoked : List Slot}
    (hinvoked : invoked = e.invoked ++ if Signal.isGone bound gone slot then [] else [slot])
    (hprogress : progress ≠ .returned) :
    Faithful bound added ⟨e.snapshot, e.reached ++ [(slot, gone)], invoked, progress⟩ where
  order := h.order
  nodup := h.nodup
  reached_eq := by
    rw [List.map_append, List.length_append, List.length_singleton, List.take_add_one, hslot,
      h.reached_eq]
    rfl
  invoked_eq := by
    rw [hinvoked, h.invoked_eq, List.filter_append, List.map_append, List.filter_singleton]
    cases Signal.isGone bound gone slot <;> rfl
  complete hreturned := absurd hreturned hprogress

end Emission.Faithful

/-! ## The calls -/

namespace Stacked

variable [DecidableEq Thread] {stack : Thread → List ℕ} {emissions : ℕ → Option (Emission Slot Obj)}
  {started id : ℕ} {t : Thread} {ids : List ℕ} {e : Emission Slot Obj}

omit [DecidableEq Thread] in
theorem setEmission (h : Stacked stack emissions started) (hid : id ∈ stack t)
    (he : e.progress.ongoing) : Stacked stack (Function.update emissions id (some e)) started := by
  obtain ⟨d, hd, -⟩ := h.ongoing t id hid
  refine ⟨fun id' hle => ?_, fun u id' hid' => ?_, h.nodup, h.apart⟩
  · have hne : id' ≠ id := by
      rintro rfl
      exact nomatch hd.symm.trans (h.fresh id' hle)
    rw [Function.update_of_ne hne]
    exact h.fresh id' hle
  · by_cases hne : id' = id
    · rw [hne, Function.update_self]
      exact ⟨e, rfl, he⟩
    · rw [Function.update_of_ne hne]
      exact h.ongoing u id' hid'

theorem emit (h : Stacked stack emissions started) (he : e.progress.ongoing) :
    Stacked (Function.update stack t (started :: stack t))
      (Function.update emissions started (some e)) (started + 1) := by
  have hnew : ∀ u, started ∉ stack u := by
    intro u hu
    obtain ⟨d, hd, -⟩ := h.ongoing u started hu
    exact nomatch hd.symm.trans (h.fresh started (le_refl _))
  have hmem : ∀ u id, id ∈ Function.update stack t (started :: stack t) u →
      id = started ∧ u = t ∨ id ≠ started ∧ id ∈ stack u := by
    intro u id hid
    by_cases hut : u = t
    · rw [hut, Function.update_self] at hid
      obtain rfl | hold := List.mem_cons.mp hid
      · exact .inl ⟨rfl, hut⟩
      · exact .inr ⟨fun heq => hnew t (heq ▸ hold), hut ▸ hold⟩
    · rw [Function.update_of_ne hut] at hid
      exact .inr ⟨fun heq => hnew u (heq ▸ hid), hid⟩
  refine ⟨fun id hle => ?_, fun u id hid => ?_, fun u => ?_, fun u v id hu hv => ?_⟩
  · rw [Function.update_of_ne (by omega)]
    exact h.fresh id (by omega)
  · obtain ⟨rfl, -⟩ | ⟨hne, hold⟩ := hmem u id hid
    · rw [Function.update_self]
      exact ⟨e, rfl, he⟩
    · rw [Function.update_of_ne hne]
      exact h.ongoing u id hold
  · by_cases hut : u = t
    · rw [hut, Function.update_self]
      exact List.nodup_cons.mpr ⟨hnew t, h.nodup t⟩
    · rw [Function.update_of_ne hut]
      exact h.nodup u
  · obtain ⟨rfl, hut⟩ | ⟨hne, hold⟩ := hmem u id hu <;> obtain ⟨heq, hvt⟩ | ⟨hne', hold'⟩ := hmem v _ hv
    · exact hut.trans hvt.symm
    · exact absurd rfl hne'
    · exact absurd heq hne
    · exact h.apart u v id hold hold'

theorem leave (h : Stacked stack emissions started) (hstack : stack t = id :: ids) :
    Stacked (Function.update stack t ids) (Function.update emissions id (some e)) started := by
  have hid : id ∈ stack t := hstack ▸ List.mem_cons_self
  obtain ⟨hnot, hnodup⟩ := List.nodup_cons.mp (hstack ▸ h.nodup t)
  obtain ⟨d, hd, -⟩ := h.ongoing t id hid
  have hmem : ∀ u id', id' ∈ Function.update stack t ids u → id' ≠ id ∧ id' ∈ stack u := by
    intro u id' hid'
    by_cases hut : u = t
    · rw [hut, Function.update_self] at hid'
      refine ⟨fun heq => hnot (heq ▸ hid'), ?_⟩
      rw [hut, hstack]
      exact List.mem_cons_of_mem id hid'
    · rw [Function.update_of_ne hut] at hid'
      refine ⟨?_, hid'⟩
      rintro rfl
      exact hut (h.apart u t id' hid' hid)
  refine ⟨fun id' hle => ?_, fun u id' hid' => ?_, fun u => ?_, fun u v id' hu hv => ?_⟩
  · have hne : id' ≠ id := by
      rintro rfl
      exact nomatch hd.symm.trans (h.fresh id' hle)
    rw [Function.update_of_ne hne]
    exact h.fresh id' hle
  · obtain ⟨hne, hold⟩ := hmem u id' hid'
    rw [Function.update_of_ne hne]
    exact h.ongoing u id' hold
  · by_cases hut : u = t
    · rw [hut, Function.update_self]
      exact hnodup
    · rw [Function.update_of_ne hut]
      exact h.nodup u
  · exact h.apart u v id' (hmem u id' hu).2 (hmem v id' hv).2

end Stacked

end Eureka.Signals

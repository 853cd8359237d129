import Eureka.Library.Transition
import Eureka.Timers.Ticks

/-!
# When timers fire

The runs of `AddTimer` and `OnTick`, the calls of the handlers included.  Every
timer brings a handler of its own, which names it in the history of the run.
A timer by itself lives as `Life` says: it looks at the ticks started after its
insertion, one by one, and neither the other timers nor the fd matter.

* `Life.tick`: the meaning of a timer, one tick after the other;
* `Tracked.onTick`: the queue holds exactly the timers that are alive, and every
  tick fires those that are due;
* `InTime.onTick`: where no number overflows, the fd is armed in time;
* `fires`: when one-shot and repeating timers fire, for every such run.
-/

namespace Eureka.Timers

open Transition

variable {H : Type}

/-! ## A timer by itself -/

/-- A timer as it was inserted, and the number of ticks started before that. -/
structure Record (H : Type) where
  timer : Timer H
  started : ℕ
deriving Repr, DecidableEq

structure Life (H : Type) where
  pending : Option (Timer H)
  fired : List ℕ
deriving Repr, DecidableEq

/-- The tick number `tick.2`, at the clock reading `tick.1`. -/
def Life.tick (life : Life H) (tick : ℤ × ℕ) : Life H :=
  match life.pending with
  | none => life
  | some timer =>
      ⟨TimerQueue.advance tick.1 timer,
        if timer.expiration < tick.1 then life.fired ++ [tick.2] else life.fired⟩

/-- The timer's life through the ticks of a run, given by their clock readings. -/
def Record.life (r : Record H) (sentries : List ℤ) : Life H :=
  (sentries.zipIdx.drop r.started).foldl Life.tick ⟨some r.timer, []⟩

/-- Tick `k` is the first one started after the insertion whose reading is later
than the expiration. -/
def Record.FirstTick (r : Record H) (sentries : List ℤ) (k : ℕ) : Prop :=
  r.started ≤ k ∧ (∃ sentry, sentries[k]? = some sentry ∧ r.timer.expiration < sentry) ∧
    ∀ j sentry, r.started ≤ j → j < k → sentries[j]? = some sentry →
      sentry ≤ r.timer.expiration

variable {r : Record H} {sentries : List ℤ}

theorem Record.life_nil (h : sentries.length ≤ r.started) :
    r.life sentries = ⟨some r.timer, []⟩ := by
  rw [Record.life, List.drop_eq_nil_of_le (by rwa [List.length_zipIdx])]
  rfl

theorem Record.life_append (h : r.started ≤ sentries.length) (sentry : ℤ) :
    r.life (sentries ++ [sentry]) = (r.life sentries).tick (sentry, sentries.length) := by
  rw [Record.life, List.zipIdx_append, List.drop_append_of_le_length (by rwa [List.length_zipIdx]),
    List.foldl_append]
  simp only [List.zipIdx_singleton, zero_add, List.foldl_cons, List.foldl_nil]
  rfl

theorem Record.pending_append (h : r.started ≤ sentries.length) (sentry : ℤ) :
    (r.life (sentries ++ [sentry])).pending =
      (r.life sentries).pending.bind (TimerQueue.advance sentry) := by
  rw [Record.life_append h, Life.tick]
  cases hpending : (r.life sentries).pending with
  | none => exact hpending
  | some timer => rfl

theorem Record.fired_append (h : r.started ≤ sentries.length) (sentry : ℤ) :
    (r.life (sentries ++ [sentry])).fired = (r.life sentries).fired ++
      ((r.life sentries).pending.toList.filter fun timer => timer.expiration < sentry).map
        fun _ => sentries.length := by
  rw [Record.life_append h, Life.tick]
  cases hpending : (r.life sentries).pending with
  | none => simp
  | some timer =>
      by_cases hlt : timer.expiration < sentry
      · simp [hlt]
      · simp [hlt]

theorem Record.firstTick_append_iff (sentry : ℤ) {k : ℕ} (hk : k < sentries.length) :
    r.FirstTick (sentries ++ [sentry]) k ↔ r.FirstTick sentries k := by
  unfold Record.FirstTick
  rw [List.getElem?_append_left hk]
  refine and_congr_right fun _ => and_congr_right fun _ => ?_
  constructor
  · intro hbefore j sentry' hj hlt hget
    exact hbefore j sentry' hj hlt (by rwa [List.getElem?_append_left (hlt.trans hk)])
  · intro hbefore j sentry' hj hlt hget
    rw [List.getElem?_append_left (hlt.trans hk)] at hget
    exact hbefore j sentry' hj hlt hget

theorem Record.FirstTick.lt_length {k : ℕ} (hk : r.FirstTick sentries k) : k < sentries.length := by
  obtain ⟨sentry, hget, -⟩ := hk.2.1
  exact (List.getElem?_eq_some_iff.mp hget).1

theorem Record.FirstTick.le {j k : ℕ} (hj : r.FirstTick sentries j)
    (hk : r.FirstTick sentries k) : k ≤ j := by
  by_contra hlt
  obtain ⟨sentry, hget, hlate⟩ := hj.2.1
  exact absurd (hk.2.2 j sentry hj.1 (not_le.mp hlt) hget) (not_le.mpr hlate)

theorem Record.FirstTick.unique {j k : ℕ} (hj : r.FirstTick sentries j)
    (hk : r.FirstTick sentries k) : j = k :=
  le_antisymm (hk.le hj) (hj.le hk)

theorem Record.exists_firstTick {k : ℕ} {sentry : ℤ} (hk : r.started ≤ k)
    (hget : sentries[k]? = some sentry) (hlate : r.timer.expiration < sentry) :
    ∃ j, r.FirstTick sentries j := by
  have hexists : ∃ j, r.started ≤ j ∧ ∃ sentry, sentries[j]? = some sentry ∧
      r.timer.expiration < sentry := ⟨k, hk, sentry, hget, hlate⟩
  classical
  have hspec := Nat.find_spec hexists
  refine ⟨Nat.find hexists, hspec.1, hspec.2, ?_⟩
  intro j sentry' hj hlt hget'
  by_contra hearlier
  exact Nat.find_min hexists hlt ⟨hj, sentry', hget', not_le.mp hearlier⟩

/-- Behind ticks that were all too early, the next tick is the first one exactly if
it is late enough. -/
theorem Record.firstTick_length_iff (hstarted : r.started ≤ sentries.length)
    (hnone : ∀ k, ¬ r.FirstTick sentries k) (sentry : ℤ) :
    r.FirstTick (sentries ++ [sentry]) sentries.length ↔ r.timer.expiration < sentry := by
  constructor
  · intro hfirst
    obtain ⟨sentry', hget, hlate⟩ := hfirst.2.1
    rw [List.getElem?_concat_length, Option.some.injEq] at hget
    exact hget ▸ hlate
  · intro hlate
    refine ⟨hstarted, ⟨sentry, List.getElem?_concat_length, hlate⟩, ?_⟩
    intro j sentry' hj hlt hget
    rw [List.getElem?_append_left hlt] at hget
    by_contra hearlier
    obtain ⟨k, hk⟩ := Record.exists_firstTick hj hget (not_le.mp hearlier)
    exact hnone k hk

/-- A first tick of the longer run is one of the shorter run, or the last tick. -/
theorem Record.FirstTick.old_or_last {sentry : ℤ} {k : ℕ}
    (hk : r.FirstTick (sentries ++ [sentry]) k) :
    r.FirstTick sentries k ∨ k = sentries.length := by
  have hlt := hk.lt_length
  rw [List.length_append, List.length_singleton] at hlt
  rcases Nat.lt_succ_iff_lt_or_eq.mp hlt with hold | hlast
  · exact .inl ((Record.firstTick_append_iff sentry hold).mp hk)
  · exact .inr hlast

/-- **One-shot timers.**  Such a timer is pending until the first tick behind
its insertion that is late enough, and fires in that tick only. -/
theorem Record.life_oneShot (hr : ¬ r.timer.Repeating) (sentries : List ℤ) :
    ((r.life sentries).pending = some r.timer ∧ (r.life sentries).fired = [] ∧
        ∀ k, ¬ r.FirstTick sentries k) ∨
      ∃ k, (r.life sentries).pending = none ∧ (r.life sentries).fired = [k] ∧
        ∀ j, r.FirstTick sentries j ↔ j = k := by
  induction sentries using List.reverseRecOn with
  | nil =>
      left
      rw [Record.life_nil (Nat.zero_le _)]
      refine ⟨rfl, rfl, ?_⟩
      intro k hk
      exact Nat.not_lt_zero k hk.lt_length
  | append_singleton sentries sentry ih =>
      rcases Nat.lt_or_ge sentries.length r.started with hbefore | hstarted
      · -- The tick was started before the insertion.
        left
        rw [Record.life_nil (by simpa using hbefore)]
        refine ⟨rfl, rfl, ?_⟩
        intro k hk
        have hlt := hk.lt_length
        have hle := hk.1
        rw [List.length_append, List.length_singleton] at hlt
        omega
      rw [Record.pending_append hstarted, Record.fired_append hstarted]
      rcases ih with ⟨hpending, hfired, hnone⟩ | ⟨k, hpending, hfired, hfirst⟩
      · have hlast := Record.firstTick_length_iff hstarted hnone sentry
        by_cases hlt : r.timer.expiration < sentry
        · right
          refine ⟨sentries.length, ?_, ?_, ?_⟩
          · rw [hpending, Option.bind_some, TimerQueue.advance, if_pos hlt, if_neg hr]
          · rw [hpending, hfired]
            simp [hlt]
          · intro j
            refine ⟨fun hj => hj.unique (hlast.mpr hlt), ?_⟩
            rintro rfl
            exact hlast.mpr hlt
        · left
          refine ⟨?_, ?_, ?_⟩
          · rw [hpending, Option.bind_some, TimerQueue.advance, if_neg hlt]
          · rw [hpending, hfired]
            simp [hlt]
          · intro k hk
            rcases hk.old_or_last with hold | rfl
            · exact hnone k hold
            · exact hlt (hlast.mp hk)
      · right
        have hk := (hfirst k).mpr rfl
        have hk' := (Record.firstTick_append_iff sentry hk.lt_length).mpr hk
        refine ⟨k, by rw [hpending, Option.bind_none], by rw [hpending, hfired]; rfl, ?_⟩
        intro j
        refine ⟨fun hj => hj.unique hk', ?_⟩
        rintro rfl
        exact hk'

/-- **Repeating timers.**  Such a timer is always pending: as it was inserted,
or an interval behind the tick in which it fired last. -/
theorem Record.life_repeating (hr : r.timer.Repeating) (sentries : List ℤ) :
    ((r.life sentries).fired = [] ∧ (r.life sentries).pending = some r.timer) ∨
      ∃ k sentry, (r.life sentries).fired.getLast? = some k ∧ sentries[k]? = some sentry ∧
        (r.life sentries).pending = some (r.timer.restart sentry) := by
  induction sentries using List.reverseRecOn with
  | nil =>
      left
      rw [Record.life_nil (Nat.zero_le _)]
      exact ⟨rfl, rfl⟩
  | append_singleton sentries sentry ih =>
      rcases Nat.lt_or_ge sentries.length r.started with hbefore | hstarted
      · left
        rw [Record.life_nil (by simpa using hbefore)]
        exact ⟨rfl, rfl⟩
      rw [Record.pending_append hstarted, Record.fired_append hstarted]
      have hget : ∀ {k : ℕ} {t : ℤ}, sentries[k]? = some t →
          (sentries ++ [sentry])[k]? = some t := by
        intro k t hk
        rw [List.getElem?_append_left (List.getElem?_eq_some_iff.mp hk).1, hk]
      rcases ih with ⟨hfired, hpending⟩ | ⟨k, sentry', hfired, hk, hpending⟩
      · rw [hpending, hfired, Option.bind_some, TimerQueue.advance]
        by_cases hlt : r.timer.expiration < sentry
        · right
          rw [if_pos hlt, if_pos hr]
          exact ⟨sentries.length, sentry, by simp [hlt], List.getElem?_concat_length, rfl⟩
        · left
          rw [if_neg hlt]
          exact ⟨by simp [hlt], rfl⟩
      · right
        rw [hpending, Option.bind_some, TimerQueue.advance]
        by_cases hlt : (r.timer.restart sentry').expiration < sentry
        · rw [if_pos hlt, if_pos (show (r.timer.restart sentry').Repeating from hr)]
          exact ⟨sentries.length, sentry, by simp [hlt], List.getElem?_concat_length, rfl⟩
        · rw [if_neg hlt]
          exact ⟨k, sentry', by simp [hlt, hfired], hget hk, rfl⟩

/-! ## Runs -/

/-- The queue and what happened to it: the insertions, the clock readings of the
ticks, and which handler was called in which tick. -/
structure History (H : Type) where
  queue : TimerQueue H
  inserted : List (Record H)
  sentries : List ℤ
  fired : List (H × ℕ)
deriving Repr, DecidableEq

inductive Action (H : Type)
  | addTimer (call : AddCall H)
  | onTick (sentry now : ℤ) (calls : List (List (AddCall H)))
deriving Repr, DecidableEq

namespace History

variable [DecidableEq H]

/-- The new timers bring handlers that no other timer has. -/
def Fresh (s : History H) (calls : List (AddCall H)) : Prop :=
  ((s.inserted.map fun r => r.timer.handler) ++ calls.map AddCall.handler).Nodup

instance (s : History H) (calls : List (AddCall H)) : Decidable (s.Fresh calls) :=
  inferInstanceAs (Decidable (List.Nodup _))

def step (s : History H) : Action H → Option (History H)
  | .addTimer call =>
      if s.Fresh [call] then
        some { s with
          queue := s.queue.addTimer call
          inserted := s.inserted ++ [⟨call.timer, s.sentries.length⟩] }
      else none
  | .onTick sentry now calls =>
      -- The handlers of this tick run behind its start.
      if s.Fresh (s.queue.made sentry calls) then
        (s.queue.onTick sentry now calls).map fun queue =>
          { queue := queue
            inserted := s.inserted ++ (s.queue.made sentry calls).map fun call =>
              ⟨call.timer, s.sentries.length + 1⟩
            sentries := s.sentries ++ [sentry]
            fired := s.fired ++ (s.queue.expired sentry).map fun timer =>
              (timer.handler, s.sentries.length) }
      else none

def new (H : Type) : History H := ⟨⟨[], none⟩, [], [], []⟩

def runs (H : Type) [DecidableEq H] : System (History H) (Action H) where
  start s := s = new H
  step := step

/-- The ticks in which a handler was called. -/
def firedIn (s : History H) (handler : H) : List ℕ :=
  (s.fired.filter fun entry => entry.1 = handler).map Prod.snd

/-- The invariant of all runs: the queue holds the timers that are alive, and
the history shows the ticks in which they fired. -/
structure Tracked (s : History H) : Prop where
  sorted : TimerQueue.Sorted s.queue.timers
  handlers : (s.inserted.map fun r => r.timer.handler).Nodup
  started_le : ∀ r ∈ s.inserted, r.started ≤ s.sentries.length
  pending : s.queue.pending =
    (s.inserted.filterMap fun r => (r.life s.sentries).pending : List (Timer H))
  fired_known : ∀ entry ∈ s.fired, entry.1 ∈ s.inserted.map fun r => r.timer.handler
  fired : ∀ r ∈ s.inserted, s.firedIn r.timer.handler = (r.life s.sentries).fired

variable {s s' : History H}

omit [DecidableEq H] in
theorem life_handler (r : Record H) (sentries : List ℤ) :
    ∀ timer ∈ (r.life sentries).pending, timer.handler = r.timer.handler := by
  unfold Record.life
  generalize sentries.zipIdx.drop r.started = ticks
  induction ticks using List.reverseRecOn with
  | nil =>
      intro timer htimer
      rw [Option.some.inj htimer]
  | append_singleton ticks tick ih =>
      intro timer htimer
      rw [List.foldl_append, List.foldl_cons, List.foldl_nil, Life.tick] at htimer
      cases hpending : (ticks.foldl Life.tick ⟨some r.timer, []⟩).pending with
      | none =>
          rw [hpending] at htimer
          simp only [hpending, Option.mem_def, reduceCtorEq] at htimer
      | some old =>
          rw [hpending] at htimer
          have hold := ih old hpending
          simp only [TimerQueue.advance, Option.mem_def] at htimer
          split_ifs at htimer
          · rw [← Option.some.inj htimer]
            exact hold
          · rw [← Option.some.inj htimer]
            exact hold

theorem filter_filterMap_handler {inserted : List (Record H)} {r : Record H} (hr : r ∈ inserted)
    (hnodup : (inserted.map fun r => r.timer.handler).Nodup) (f : Record H → Option (Timer H))
    (hf : ∀ r, ∀ timer ∈ f r, timer.handler = r.timer.handler) :
    (inserted.filterMap f).filter (fun timer => timer.handler = r.timer.handler)
      = (f r).toList := by
  induction inserted with
  | nil => cases hr
  | cons first rest ih =>
      rw [List.map_cons, List.nodup_cons] at hnodup
      rw [List.filterMap_cons]
      rcases List.mem_cons.mp hr with rfl | hmem
      · have hrest : (rest.filterMap f).filter (fun timer => timer.handler = r.timer.handler)
            = [] := by
          rw [List.filter_eq_nil_iff]
          intro timer htimer
          obtain ⟨other, hother, hsome⟩ := List.mem_filterMap.mp htimer
          rw [hf other timer hsome, decide_eq_true_eq]
          intro heq
          exact hnodup.1 (heq ▸ List.mem_map_of_mem hother)
        cases hfirst : f r with
        | none => exact hrest
        | some timer =>
            dsimp only
            rw [List.filter_cons_of_pos (by simpa using hf r timer hfirst), hrest]
            rfl
      · have hne : first.timer.handler ≠ r.timer.handler := by
          intro heq
          exact hnodup.1 (heq ▸ List.mem_map_of_mem hmem)
        cases hfirst : f first with
        | none => exact ih hmem hnodup.2
        | some timer =>
            dsimp only
            rw [List.filter_cons_of_neg (by simpa [hf first timer hfirst] using hne)]
            exact ih hmem hnodup.2

theorem Tracked.filter_handler (hs : s.Tracked) {r : Record H} (hr : r ∈ s.inserted) :
    s.queue.timers.filter (fun timer => timer.handler = r.timer.handler)
      = (r.life s.sentries).pending.toList := by
  have hperm := Multiset.coe_eq_coe.mp hs.pending
  have hfilter := hperm.filter fun timer => timer.handler = r.timer.handler
  rw [filter_filterMap_handler hr hs.handlers _ fun r => life_handler r s.sentries] at hfilter
  cases hpending : (r.life s.sentries).pending with
  | none =>
      rw [hpending] at hfilter
      exact hfilter.eq_nil
  | some timer =>
      rw [hpending] at hfilter
      exact hfilter.eq_singleton

theorem Tracked.firedIn_fresh (hs : s.Tracked) {handler : H}
    (hfresh : handler ∉ s.inserted.map fun r => r.timer.handler) : s.firedIn handler = [] := by
  unfold firedIn
  rw [List.map_eq_nil_iff, List.filter_eq_nil_iff]
  intro entry hentry
  rw [decide_eq_true_eq]
  rintro rfl
  exact hfresh (hs.fired_known entry hentry)

omit [DecidableEq H] in
theorem handlers_append (s : History H) (calls : List (AddCall H)) (started : ℕ) :
    ((s.inserted ++ calls.map fun call => (⟨call.timer, started⟩ : Record H)).map
      fun r => r.timer.handler) =
      (s.inserted.map fun r => r.timer.handler) ++ calls.map AddCall.handler := by
  rw [List.map_append, List.map_map]
  rfl

omit [DecidableEq H] in
theorem filterMap_new (calls : List (AddCall H)) {sentries : List ℤ} {started : ℕ}
    (h : sentries.length ≤ started) :
    ((calls.map fun call => (⟨call.timer, started⟩ : Record H)).filterMap
      fun r => (r.life sentries).pending) = calls.map AddCall.timer := by
  rw [List.filterMap_map]
  have hnew : ∀ call : AddCall H, (((fun r : Record H => (r.life sentries).pending) ∘
      fun call : AddCall H => (⟨call.timer, started⟩ : Record H)) call) = some call.timer := by
    intro call
    rw [Function.comp_apply, Record.life_nil h]
  rw [funext hnew, ← List.filterMap_eq_map]
  rfl

theorem Tracked.addTimer (hs : s.Tracked) {call : AddCall H} (hfresh : s.Fresh [call]) :
    Tracked { s with
      queue := s.queue.addTimer call
      inserted := s.inserted ++ [⟨call.timer, s.sentries.length⟩] } := by
  have hhandlers := handlers_append s [call] s.sentries.length
  refine ⟨?_, ?_, ?_, ?_, ?_, ?_⟩
  · rw [TimerQueue.addTimer_timers]
    exact TimerQueue.emplace_sorted hs.sorted _
  · exact hhandlers ▸ hfresh
  · intro r hr
    rcases List.mem_append.mp hr with hold | hnew
    · exact hs.started_le r hold
    · rw [List.mem_singleton.mp hnew]
  · have hnew := filterMap_new [call] (le_refl s.sentries.length)
    simp only [List.map_cons, List.map_nil] at hnew
    rw [TimerQueue.pending_addTimer, hs.pending, List.filterMap_append, hnew,
      Multiset.cons_coe, Multiset.coe_eq_coe]
    exact (List.perm_append_singleton _ _).symm
  · intro entry hentry
    rw [List.map_append]
    exact List.mem_append_left _ (hs.fired_known entry hentry)
  · intro r hr
    rcases List.mem_append.mp hr with hold | hnew
    · exact hs.fired r hold
    · rw [List.mem_singleton.mp hnew, Record.life_nil (le_refl _)]
      refine hs.firedIn_fresh ?_
      intro hmem
      exact List.disjoint_of_nodup_append hfresh hmem (List.mem_singleton_self _)

theorem Tracked.onTick (hs : s.Tracked) {sentry now : ℤ} {calls : List (List (AddCall H))}
    {queue : TimerQueue H} (hfresh : s.Fresh (s.queue.made sentry calls))
    (htick : s.queue.onTick sentry now calls = some queue) :
    Tracked
      { queue := queue
        inserted := s.inserted ++ (s.queue.made sentry calls).map fun call =>
          ⟨call.timer, s.sentries.length + 1⟩
        sentries := s.sentries ++ [sentry]
        fired := s.fired ++ (s.queue.expired sentry).map fun timer =>
          (timer.handler, s.sentries.length) } := by
  obtain ⟨hpending, hsorted, -⟩ := TimerQueue.onTick_spec hs.sorted htick
  have hhandlers := handlers_append s (s.queue.made sentry calls) (s.sentries.length + 1)
  have hlength : (s.sentries ++ [sentry]).length = s.sentries.length + 1 := by
    rw [List.length_append, List.length_singleton]
  have hknown : ∀ timer ∈ s.queue.timers,
      timer.handler ∈ s.inserted.map fun r => r.timer.handler := by
    intro timer htimer
    have hmem := (Multiset.coe_eq_coe.mp hs.pending).mem_iff.mp htimer
    obtain ⟨r, hr, hsome⟩ := List.mem_filterMap.mp hmem
    rw [life_handler r s.sentries timer hsome]
    exact List.mem_map_of_mem hr
  -- The entries of one handler grow by the tick, if its timer has expired.
  have hfired : ∀ handler,
      ((s.fired ++ (s.queue.expired sentry).map fun timer =>
          (timer.handler, s.sentries.length)).filter fun entry => entry.1 = handler).map Prod.snd =
        s.firedIn handler ++ ((s.queue.timers.filter fun timer => timer.handler = handler).filter
          fun timer => timer.expiration < sentry).map fun _ => s.sentries.length := by
    intro handler
    rw [List.filter_append, List.map_append, List.filter_map, List.map_map,
      TimerQueue.expired_eq_filter hs.sorted, List.filter_filter, List.filter_filter]
    simp only [Function.comp_def, Bool.and_comm]
    rfl
  refine ⟨hsorted, hhandlers ▸ hfresh, ?_, ?_, ?_, ?_⟩
  · intro r hr
    rw [hlength]
    rcases List.mem_append.mp hr with hold | hnew
    · exact (hs.started_le r hold).trans (Nat.le_succ _)
    · obtain ⟨call, -, rfl⟩ := List.mem_map.mp hnew
      exact le_refl _
  · rw [hpending, hs.pending, Multiset.filterMap_coe, List.filterMap_filterMap,
      Multiset.coe_add, List.filterMap_append, filterMap_new _ (le_of_eq hlength)]
    congr 2
    apply List.filterMap_congr
    intro r hr
    exact (Record.pending_append (hs.started_le r hr) sentry).symm
  · intro entry hentry
    rw [List.map_append]
    apply List.mem_append_left
    rcases List.mem_append.mp hentry with hold | hnew
    · exact hs.fired_known entry hold
    · obtain ⟨timer, htimer, rfl⟩ := List.mem_map.mp hnew
      exact hknown timer (List.takeWhile_subset _ htimer)
  · intro r hr
    refine (hfired r.timer.handler).trans ?_
    rcases List.mem_append.mp hr with hold | hnew
    · rw [hs.fired r hold, hs.filter_handler hold, Record.fired_append (hs.started_le r hold)]
    · obtain ⟨call, hcall, rfl⟩ := List.mem_map.mp hnew
      have hnone : call.timer.handler ∉ s.inserted.map fun r => r.timer.handler := by
        intro hmem
        exact List.disjoint_of_nodup_append hfresh hmem (List.mem_map_of_mem hcall)
      have hempty : s.queue.timers.filter (fun timer => timer.handler = call.timer.handler)
          = [] := by
        rw [List.filter_eq_nil_iff]
        intro timer htimer
        rw [decide_eq_true_eq]
        intro heq
        exact hnone (heq ▸ hknown timer htimer)
      rw [hs.firedIn_fresh hnone, hempty, Record.life_nil (le_of_eq hlength)]
      rfl

/-! ## Runs without an overflow -/

/-- The clock shows times from the epoch to `latest`, and the numbers of the timers go
together with that. -/
def Within (latest : ℤ) : Action H → Prop
  | .addTimer call => call.Within latest
  | .onTick sentry now calls =>
      Shows latest sentry ∧ Shows latest now ∧ ∀ call ∈ calls.flatten, call.Within latest

omit [DecidableEq H] in
instance (latest : ℤ) : DecidablePred (Within (H := H) latest)
  | .addTimer call => inferInstanceAs (Decidable (call.Within latest))
  | .onTick _ _ _ => inferInstanceAs (Decidable (_ ∧ _ ∧ _))

/-- The invariant of such a run. -/
structure InTime (latest : ℤ) (s : History H) : Prop where
  tracked : s.Tracked
  armed : s.queue.Armed
  pending : s.queue.Within latest
  inserted : ∀ r ∈ s.inserted, r.timer.Within latest
  sentries : ∀ sentry ∈ s.sentries, Shows latest sentry

variable {latest : ℤ}

theorem InTime.addTimer (hs : s.InTime latest) {call : AddCall H} (hcall : call.Within latest)
    (hfresh : s.Fresh [call]) :
    InTime latest { s with
      queue := s.queue.addTimer call
      inserted := s.inserted ++ [⟨call.timer, s.sentries.length⟩] } where
  tracked := hs.tracked.addTimer hfresh
  armed := TimerQueue.addTimer_armed hs.tracked.sorted hs.armed hcall
  pending := TimerQueue.addTimer_within hs.pending hcall
  inserted r hr := by
    rcases List.mem_append.mp hr with hold | hnew
    · exact hs.inserted r hold
    · rw [List.mem_singleton.mp hnew]
      exact hcall.1
  sentries := hs.sentries

theorem InTime.onTick (hs : s.InTime latest) {sentry now : ℤ} {calls : List (List (AddCall H))}
    {queue : TimerQueue H} (hsentry : Shows latest sentry) (hnow : Shows latest now)
    (hcalls : ∀ call ∈ calls.flatten, call.Within latest)
    (hfresh : s.Fresh (s.queue.made sentry calls))
    (htick : s.queue.onTick sentry now calls = some queue) :
    InTime latest
      { queue := queue
        inserted := s.inserted ++ (s.queue.made sentry calls).map fun call =>
          ⟨call.timer, s.sentries.length + 1⟩
        sentries := s.sentries ++ [sentry]
        fired := s.fired ++ (s.queue.expired sentry).map fun timer =>
          (timer.handler, s.sentries.length) } := by
  have hmade : ∀ call ∈ s.queue.made sentry calls, call.Within latest := by
    intro call hcall
    exact hcalls call ((List.take_sublist _ calls).flatten.mem hcall)
  have hwithin := TimerQueue.onTick_within hs.tracked.sorted hs.pending hsentry hmade htick
  refine ⟨hs.tracked.onTick hfresh htick,
    TimerQueue.onTick_armed hs.tracked.sorted hwithin hnow htick, hwithin, ?_, ?_⟩
  · intro r hr
    rcases List.mem_append.mp hr with hold | hnew
    · exact hs.inserted r hold
    · obtain ⟨call, hcall, rfl⟩ := List.mem_map.mp hnew
      exact (hmade call hcall).1
  · intro sentry' hsentry'
    rcases List.mem_append.mp hsentry' with hold | hnew
    · exact hs.sentries sentry' hold
    · exact List.mem_singleton.mp hnew ▸ hsentry

theorem InTime.step (hs : s.InTime latest) {action : Action H} (hwithin : Within latest action)
    (hstep : s.step action = some s') : s'.InTime latest := by
  cases action with
  | addTimer call =>
      simp only [History.step, Option.ite_none_right_eq_some, Option.some.injEq] at hstep
      obtain ⟨hfresh, rfl⟩ := hstep
      exact hs.addTimer hwithin hfresh
  | onTick sentry now calls =>
      simp only [History.step, Option.ite_none_right_eq_some, Option.map_eq_some_iff] at hstep
      obtain ⟨hfresh, queue, htick, rfl⟩ := hstep
      exact hs.onTick hwithin.1 hwithin.2.1 hwithin.2.2 hfresh htick

theorem inTime_of_run {actions : List (Action H)} (hrun : (runs H).run (new H) actions = some s)
    (hwithin : (runs H).EachStep (fun _ => Within latest) (new H) actions) : s.InTime latest := by
  have hnew : (new H).InTime latest :=
    ⟨⟨List.Pairwise.nil, List.nodup_nil, nofun, rfl, nofun, nofun⟩, nofun, nofun, nofun, nofun⟩
  have halways := System.always_of_eachStep (P := InTime latest)
    (fun _ _ _ hs hwithin hstep => InTime.step hs hwithin hstep) (fun _ hs => hs) hnew hwithin
  exact halways.last hrun

/-- What is said of the state between two steps.  The fd is armed in time for every pending timer.
A one-shot timer fires in the first tick behind its insertion that is late enough, and only there;
until then it is kept.  A repeating timer is pending as it was inserted, or an interval behind its
last tick. -/
def Fires (s : History H) : Prop :=
  (∀ timer ∈ s.queue.timers, ∃ arming ∈ s.queue.timerFd,
    arming.due ≤ max timer.expiration (arming.since + 100000)) ∧
  (∀ r ∈ s.inserted, ¬ r.timer.Repeating →
    (∃ k, s.firedIn r.timer.handler = [k] ∧ r.FirstTick s.sentries k ∧
      s.queue.timers.filter (fun timer => timer.handler = r.timer.handler) = []) ∨
    (s.firedIn r.timer.handler = [] ∧ (∀ k, ¬ r.FirstTick s.sentries k) ∧
      s.queue.timers.filter (fun timer => timer.handler = r.timer.handler) = [r.timer])) ∧
  ∀ r ∈ s.inserted, r.timer.Repeating →
    (s.firedIn r.timer.handler = [] ∧
      s.queue.timers.filter (fun timer => timer.handler = r.timer.handler) = [r.timer]) ∨
    ∃ k sentry, (s.firedIn r.timer.handler).getLast? = some k ∧ s.sentries[k]? = some sentry ∧
      s.queue.timers.filter (fun timer => timer.handler = r.timer.handler)
        = [{ r.timer with expiration := sentry + r.timer.interval * 1000 }]

/-- **When timers fire**, in every run whose numbers do not overflow. -/
theorem fires {actions : List (Action H)} (hrun : (runs H).run (new H) actions = some s)
    (hwithin : (runs H).EachStep (fun _ => Within latest) (new H) actions) : s.Fires := by
  have hinTime := inTime_of_run hrun hwithin
  have htracked := hinTime.tracked
  refine ⟨hinTime.armed, ?_, ?_⟩
  · intro r hr honeShot
    rw [htracked.filter_handler hr, htracked.fired r hr]
    rcases Record.life_oneShot honeShot s.sentries with
      ⟨hpending, hfired, hnone⟩ | ⟨k, hpending, hfired, hfirst⟩
    · exact .inr ⟨hfired, hnone, by rw [hpending]; rfl⟩
    · exact .inl ⟨k, hfired, (hfirst k).mpr rfl, by rw [hpending]; rfl⟩
  · intro r hr hrepeating
    rw [htracked.filter_handler hr, htracked.fired r hr]
    rcases Record.life_repeating hrepeating s.sentries with
      ⟨hfired, hpending⟩ | ⟨k, sentry, hfired, hk, hpending⟩
    · exact .inl ⟨hfired, by rw [hpending]; rfl⟩
    · refine .inr ⟨k, sentry, hfired, hk, ?_⟩
      have hshows := hinTime.sentries sentry (List.mem_of_getElem? hk)
      rw [hpending, (hinTime.inserted r hr).restart_eq hshows hrepeating]
      rfl

/-- Two timers expire together; the handler of the first one adds a third one,
which is already late and goes into the next tick. -/
theorem fires_two_ticks :
    ∃ s, (runs ℕ).run (new ℕ)
        [.addTimer ⟨0, 5000, 0, 0⟩, .addTimer ⟨1, 5000, 7, 0⟩,
          .onTick 6000 6500 [[⟨2, 4000, 0, 6100⟩], []], .onTick 8000 8500 []] = some s ∧
      s.fired = [(0, 0), (1, 0), (2, 1)] ∧ s.Fires := by
  obtain ⟨s, hrun, hfired⟩ : ∃ s, (runs ℕ).run (new ℕ)
      [.addTimer ⟨0, 5000, 0, 0⟩, .addTimer ⟨1, 5000, 7, 0⟩,
        .onTick 6000 6500 [[⟨2, 4000, 0, 6100⟩], []], .onTick 8000 8500 []] = some s ∧
      s.fired = [(0, 0), (1, 0), (2, 1)] := ⟨_, rfl, rfl⟩
  have hwithin : (runs ℕ).EachStep (fun _ => Within 8500) (new ℕ)
      [.addTimer ⟨0, 5000, 0, 0⟩, .addTimer ⟨1, 5000, 7, 0⟩,
        .onTick 6000 6500 [[⟨2, 4000, 0, 6100⟩], []], .onTick 8000 8500 []] := by decide
  exact ⟨s, hrun, hfired, fires hrun hwithin⟩

/-- The earliest time point there is: the time to go overflows, and the fd is armed as
if it was in the far future. -/
theorem fires_min_overflows :
    ∃ s, (runs ℕ).run (new ℕ) [.addTimer ⟨0, -2 ^ 63, 0, 1⟩] = some s ∧ ¬ s.Fires := by
  refine ⟨_, rfl, ?_⟩
  rintro ⟨harmed, -⟩
  obtain ⟨arming, harming, hdue⟩ := harmed ⟨0, -2 ^ 63, 0⟩ List.mem_cons_self
  obtain rfl : ⟨1, 9223372036854775001⟩ = arming := Option.some.inj harming
  exact absurd hdue (by decide)

end History

end Eureka.Timers

import Mathlib

/-!
# The timer queue

`TimerQueue` of `NetworkInfra/src/timer_queue.cpp`.  Time points are nanoseconds
of one clock, intervals are microseconds; both are 64-bit counts, and the two
operations on them that may overflow are taken modulo `2 ^ 64`, although the
language leaves them undefined.  A handler is a name of an arbitrary type; what it
does when it is called, namely further calls of `AddTimer`, is an argument of
`onTick`.

* `Timer.Within`: the numbers for which neither operation overflows;
* `resetTimerFd_due_le`: when the timer fd goes off.
-/

namespace Eureka.Timers

variable {H : Type}

/-- A reading of a clock that shows times from the epoch to `latest`. -/
def Shows (latest now : ℤ) : Prop := 0 ≤ now ∧ now ≤ latest

instance (latest now : ℤ) : Decidable (Shows latest now) := inferInstanceAs (Decidable (_ ∧ _))

structure Timer (H : Type) where
  handler : H
  expiration : ℤ
  interval : ℤ
deriving Repr, DecidableEq

namespace Timer

def Repeating (timer : Timer H) : Prop := 0 < timer.interval

instance (timer : Timer H) : Decidable timer.Repeating := inferInstanceAs (Decidable (0 < _))

/-- `Restart`: an interval of microseconds behind a time point. -/
def restart (timer : Timer H) (now : ℤ) : Timer H :=
  { timer with expiration := (now + timer.interval * 1000).bmod (2 ^ 64) }

/-- The numbers of a timer go together with a clock that shows times from the epoch to `latest`. -/
structure Within (latest : ℤ) (timer : Timer H) : Prop where
  le_expiration : latest - 2 ^ 63 ≤ timer.expiration
  expiration_lt : timer.expiration < 2 ^ 63
  interval_lt : latest + timer.interval * 1000 < 2 ^ 63

instance (latest : ℤ) (timer : Timer H) : Decidable (timer.Within latest) :=
  decidable_of_iff (latest - 2 ^ 63 ≤ timer.expiration ∧ timer.expiration < 2 ^ 63 ∧
      latest + timer.interval * 1000 < 2 ^ 63)
    ⟨fun h => ⟨h.1, h.2.1, h.2.2⟩, fun h => ⟨h.1, h.2, h.3⟩⟩

variable {timer : Timer H} {latest now : ℤ}

theorem Within.restart_eq (hwithin : timer.Within latest) (hshows : Shows latest now)
    (hrepeating : timer.Repeating) :
    timer.restart now = { timer with expiration := now + timer.interval * 1000 } := by
  obtain ⟨hnonneg, hle⟩ := hshows
  have hinterval : 0 < timer.interval := hrepeating
  have hlt := hwithin.interval_lt
  have hbmod : (now + timer.interval * 1000).bmod (2 ^ 64) = now + timer.interval * 1000 :=
    Int.bmod_eq_of_le (by omega) (by omega)
  rw [restart, hbmod]

theorem Within.restart (hwithin : timer.Within latest) (hshows : Shows latest now)
    (hrepeating : timer.Repeating) : (timer.restart now).Within latest := by
  rw [hwithin.restart_eq hshows hrepeating]
  obtain ⟨hnonneg, hle⟩ := hshows
  have hinterval : 0 < timer.interval := hrepeating
  have hlt := hwithin.interval_lt
  exact ⟨by dsimp only; omega, by dsimp only; omega, hlt⟩

theorem Within.bmod_sub (hwithin : timer.Within latest) (hshows : Shows latest now) :
    (timer.expiration - now).bmod (2 ^ 64) = timer.expiration - now := by
  obtain ⟨hnonneg, hle⟩ := hshows
  have hbefore := hwithin.le_expiration
  have hbehind := hwithin.expiration_lt
  exact Int.bmod_eq_of_le (by omega) (by omega)

end Timer

/-! ## The timer fd -/

/-- `kMinDuration`, in microseconds. -/
def minDuration : ℤ := 100

structure Timespec where
  tvSec : ℤ
  tvNsec : ℤ
deriving Repr, DecidableEq

def convertDurationToTimespec (duration : ℤ) : Timespec :=
  let duration := if duration < minDuration then minDuration else duration
  let secPart := duration.tdiv 1000000
  let nanoPart := (duration - secPart * 1000000) * 1000
  ⟨secPart, nanoPart⟩

/-- The fd was armed at `since` to go off at `due`. -/
structure Arming where
  since : ℤ
  due : ℤ
deriving Repr, DecidableEq

/-- `ResetTimerFD` at the clock reading `now`; the cast to microseconds truncates. -/
def resetTimerFd (expiration now : ℤ) : Arming :=
  let spec := convertDurationToTimespec (((expiration - now).bmod (2 ^ 64)).tdiv 1000)
  ⟨now, now + (spec.tvSec * 1000000000 + spec.tvNsec)⟩

theorem convertDurationToTimespec_total (duration : ℤ) :
    (convertDurationToTimespec duration).tvSec * 1000000000
      + (convertDurationToTimespec duration).tvNsec = max duration minDuration * 1000 := by
  simp only [convertDurationToTimespec]
  split <;> omega

/-- The fd goes off no later than the expiration, or 100 microseconds from now. -/
theorem resetTimerFd_due_le {timer : Timer H} {latest now : ℤ} (hwithin : timer.Within latest)
    (hshows : Shows latest now) :
    (resetTimerFd timer.expiration now).due ≤
      max timer.expiration ((resetTimerFd timer.expiration now).since + minDuration * 1000) := by
  simp only [resetTimerFd, convertDurationToTimespec_total, minDuration, hwithin.bmod_sub hshows]
  rcases le_or_gt 0 (timer.expiration - now) with hlater | hpast
  · rw [Int.tdiv_eq_ediv_of_nonneg hlater]
    omega
  · have hneg : (timer.expiration - now).tdiv 1000 ≤ 0 := by
      have htdiv := Int.neg_tdiv (timer.expiration - now) 1000
      have hnonneg : 0 ≤ (-(timer.expiration - now)).tdiv 1000 :=
        Int.tdiv_nonneg (by omega) (by decide)
      omega
    omega

/-! ## The queue -/

structure TimerQueue (H : Type) where
  timers : List (Timer H)
  timerFd : Option Arming
deriving Repr, DecidableEq

/-- The arguments of an `AddTimer`, and the clock reading it may arm the fd with. -/
structure AddCall (H : Type) where
  handler : H
  expiration : ℤ
  interval : ℤ
  now : ℤ
deriving Repr, DecidableEq

def AddCall.timer (call : AddCall H) : Timer H := ⟨call.handler, call.expiration, call.interval⟩

/-- The numbers of the call go together with a clock that shows times up to `latest`. -/
def AddCall.Within (latest : ℤ) (call : AddCall H) : Prop :=
  call.timer.Within latest ∧ Shows latest call.now

instance (latest : ℤ) (call : AddCall H) : Decidable (call.Within latest) :=
  inferInstanceAs (Decidable (_ ∧ _))

namespace TimerQueue

/-- `timers_.emplace`: a multimap puts a timer behind those that expire with it. -/
def emplace (timers : List (Timer H)) (timer : Timer H) : List (Timer H) :=
  timers.orderedInsert (fun new old => new.expiration < old.expiration) timer

def insert (q : TimerQueue H) (timer : Timer H) : TimerQueue H × Bool :=
  let earliestChanged :=
    match q.timers with
    | [] => true
    | first :: _ => decide (timer.expiration < first.expiration)
  ({ q with timers := emplace q.timers timer }, earliestChanged)

def addTimer (q : TimerQueue H) (call : AddCall H) : TimerQueue H :=
  let (q, newEarliest) := q.insert call.timer
  if newEarliest then { q with timerFd := some (resetTimerFd call.expiration call.now) } else q

/-- `ConsumeTimerFD`: a fd that went off is read and stays silent. -/
def consumeTimerFd (q : TimerQueue H) (now : ℤ) : TimerQueue H :=
  { q with timerFd := q.timerFd.filter fun arming => now < arming.due }

/-- The loop over the expired timers; `calls` are the calls that each handler makes. -/
def tickAll (sentry : ℤ) : TimerQueue H → List (Timer H) → List (List (AddCall H)) → TimerQueue H
  | q, [], _ => q
  | q, timer :: expired, calls =>
      let q := (calls.headD []).foldl addTimer q
      let q := if timer.Repeating then (q.insert (timer.restart sentry)).1 else q
      tickAll sentry q expired calls.tail

/-- `timers_.lower_bound(sentry)` splits off the expired timers. -/
def expired (q : TimerQueue H) (sentry : ℤ) : List (Timer H) :=
  q.timers.takeWhile fun timer => timer.expiration < sentry

def remaining (q : TimerQueue H) (sentry : ℤ) : List (Timer H) :=
  q.timers.dropWhile fun timer => timer.expiration < sentry

/-- `ENSURE(CHECK, end == timers_.end() || sentry_time < end->first)`. -/
def Ensures (q : TimerQueue H) (sentry : ℤ) : Prop :=
  ∀ timer ∈ (q.remaining sentry).head?, sentry < timer.expiration

instance (q : TimerQueue H) (sentry : ℤ) : Decidable (q.Ensures sentry) :=
  inferInstanceAs (Decidable (∀ timer ∈ _, _))

/-- `ExtractExpired`, if its check does not fail. -/
def extractExpired (q : TimerQueue H) (sentry : ℤ) : Option (List (Timer H) × TimerQueue H) :=
  if q.Ensures sentry then some (q.expired sentry, { q with timers := q.remaining sentry }) else none

/-- `OnTick` at the clock reading `sentry`, with the reading `now` at its end. -/
def onTick (q : TimerQueue H) (sentry now : ℤ) (calls : List (List (AddCall H))) :
    Option (TimerQueue H) :=
  if q.Ensures sentry then
    let consumed := q.consumeTimerFd sentry
    let q := tickAll sentry { consumed with timers := q.remaining sentry } (q.expired sentry) calls
    match q.timers with
    | [] => some q
    | first :: _ => some { q with timerFd := some (resetTimerFd first.expiration now) }
  else none

end TimerQueue

end Eureka.Timers

/-!
## Insertions, ticks and extractions

* `emplace_perm`, `emplace_sorted`: the multimap keeps every timer, in order;
* `addTimer_armed`: an insertion re-arms the timer fd whenever that is needed;
* `onTick_spec`: a tick serves the expired timers, keeps the others together
  with what its handlers add, and re-arms the fd.
-/

namespace Eureka.Timers

variable {H : Type}

namespace TimerQueue

/-! ## The multimap -/

/-- The order of a multimap. -/
def Sorted (timers : List (Timer H)) : Prop :=
  timers.Pairwise fun first second => first.expiration ≤ second.expiration

theorem emplace_perm (timers : List (Timer H)) (timer : Timer H) :
    (emplace timers timer).Perm (timer :: timers) :=
  List.perm_orderedInsert _ _ _

theorem emplace_sorted {timers : List (Timer H)} (hsorted : Sorted timers) (timer : Timer H) :
    Sorted (emplace timers timer) := by
  induction hsorted with
  | nil => exact List.pairwise_singleton _ _
  | @cons first rest hfirst hrest ih =>
      unfold emplace at ih ⊢
      rw [List.orderedInsert_cons]
      split
      · next hlt =>
        refine .cons ?_ (.cons hfirst hrest)
        intro other hother
        rcases List.mem_cons.mp hother with rfl | hmem
        · exact le_of_lt hlt
        · exact (le_of_lt hlt).trans (hfirst other hmem)
      · next hle =>
        refine .cons ?_ ih
        intro other hother
        rcases List.mem_cons.mp ((emplace_perm rest timer).mem_iff.mp hother) with rfl | hmem
        · exact not_lt.mp hle
        · exact hfirst other hmem

@[simp] theorem addTimer_timers (q : TimerQueue H) (call : AddCall H) :
    (q.addTimer call).timers = emplace q.timers call.timer := by
  simp only [addTimer]
  split <;> rfl

theorem expired_eq_filter {q : TimerQueue H} (hsorted : Sorted q.timers) (sentry : ℤ) :
    q.expired sentry = q.timers.filter fun timer => timer.expiration < sentry := by
  unfold expired
  generalize q.timers = timers at hsorted ⊢
  induction hsorted with
  | nil => rfl
  | @cons first rest hfirst _ ih =>
      by_cases hlt : first.expiration < sentry
      · rw [List.takeWhile_cons_of_pos (by simpa using hlt),
          List.filter_cons_of_pos (by simpa using hlt), ih]
      · rw [List.takeWhile_cons_of_neg (by simpa using hlt),
          List.filter_cons_of_neg (by simpa using hlt), eq_comm, List.filter_eq_nil_iff]
        intro timer htimer
        have hle := hfirst timer htimer
        simp only [decide_eq_true_eq]
        omega

theorem remaining_eq_filter {q : TimerQueue H} (hsorted : Sorted q.timers) (sentry : ℤ) :
    q.remaining sentry = q.timers.filter fun timer => ¬ timer.expiration < sentry := by
  unfold remaining
  generalize q.timers = timers at hsorted ⊢
  induction hsorted with
  | nil => rfl
  | @cons first rest hfirst _ ih =>
      by_cases hlt : first.expiration < sentry
      · rw [List.dropWhile_cons_of_pos (by simpa using hlt),
          List.filter_cons_of_neg (by simpa using hlt), ih]
      · rw [List.dropWhile_cons_of_neg (by simpa using hlt), eq_comm, List.filter_eq_self]
        intro timer htimer
        rcases List.mem_cons.mp htimer with rfl | hmem
        · simpa using hlt
        · have hle := hfirst timer hmem
          simp only [decide_eq_true_eq]
          omega

/-! ## Ticks -/

def pending (q : TimerQueue H) : Multiset (Timer H) := q.timers

/-- What a tick makes of a pending timer. -/
def advance (sentry : ℤ) (timer : Timer H) : Option (Timer H) :=
  if timer.expiration < sentry then
    if timer.Repeating then some (timer.restart sentry) else none
  else some timer

/-- The calls of `AddTimer` that the handlers of a tick make. -/
def made (q : TimerQueue H) (sentry : ℤ) (calls : List (List (AddCall H))) : List (AddCall H) :=
  (calls.take (q.expired sentry).length).flatten

@[simp] theorem pending_insert (q : TimerQueue H) (timer : Timer H) :
    (q.insert timer).1.pending = timer ::ₘ q.pending :=
  Multiset.coe_eq_coe.mpr (emplace_perm q.timers timer)

@[simp] theorem pending_addTimer (q : TimerQueue H) (call : AddCall H) :
    (q.addTimer call).pending = call.timer ::ₘ q.pending := by
  rw [pending, addTimer_timers]
  exact Multiset.coe_eq_coe.mpr (emplace_perm q.timers call.timer)

theorem pending_foldl_addTimer (q : TimerQueue H) (calls : List (AddCall H)) :
    (calls.foldl addTimer q).pending = q.pending + (calls.map AddCall.timer : List (Timer H)) := by
  induction calls generalizing q with
  | nil => exact (add_zero _).symm
  | cons call calls ih =>
      rw [List.foldl_cons, ih, pending_addTimer, List.map_cons, ← Multiset.cons_coe,
        Multiset.cons_add, Multiset.add_cons]

theorem pending_tickAll (sentry : ℤ) (q : TimerQueue H) (expired : List (Timer H))
    (calls : List (List (AddCall H))) :
    (tickAll sentry q expired calls).pending =
      q.pending + ((calls.take expired.length).flatten.map AddCall.timer : List (Timer H)) +
        ((expired.filter fun timer => timer.Repeating).map (·.restart sentry) :
          List (Timer H)) := by
  induction expired generalizing q calls with
  | nil => simp [tickAll]
  | cons timer expired ih =>
      have hcalls : (calls.take (timer :: expired).length).flatten
          = calls.headD [] ++ (calls.tail.take expired.length).flatten := by
        cases calls with
        | nil => simp
        | cons first rest => simp
      rw [tickAll, ih, hcalls, List.map_append, ← Multiset.coe_add]
      by_cases hrepeating : timer.Repeating
      · rw [if_pos hrepeating, pending_insert, pending_foldl_addTimer,
          List.filter_cons_of_pos (by simpa using hrepeating), List.map_cons, ← Multiset.cons_coe,
          Multiset.cons_add, Multiset.cons_add, Multiset.add_cons]
        simp only [add_assoc]
      · rw [if_neg hrepeating, pending_foldl_addTimer,
          List.filter_cons_of_neg (by simpa using hrepeating)]
        simp only [add_assoc]

/-- The expired timers that repeat, and those that are not expired, are what a
tick keeps. -/
theorem filterMap_advance (timers : List (Timer H)) (sentry : ℤ) :
    Multiset.filterMap (advance sentry) (timers : Multiset (Timer H)) =
      (timers.filter fun timer => ¬ timer.expiration < sentry : List (Timer H)) +
        (((timers.filter fun timer => timer.expiration < sentry).filter
          fun timer => timer.Repeating).map (·.restart sentry) : List (Timer H)) := by
  induction timers with
  | nil => rfl
  | cons timer timers ih =>
      rw [← Multiset.cons_coe]
      by_cases hlt : timer.expiration < sentry
      · rw [List.filter_cons_of_neg (by simpa using hlt),
          List.filter_cons_of_pos (by simpa using hlt)]
        by_cases hrepeating : timer.Repeating
        · have hadvance : advance sentry timer = some (timer.restart sentry) := by
            rw [advance, if_pos hlt, if_pos hrepeating]
          rw [Multiset.filterMap_cons_some _ _ _ hadvance, ih,
            List.filter_cons_of_pos (by simpa using hrepeating), List.map_cons,
            ← Multiset.cons_coe, Multiset.add_cons]
        · have hadvance : advance sentry timer = none := by
            rw [advance, if_pos hlt, if_neg hrepeating]
          rw [Multiset.filterMap_cons_none _ _ hadvance, ih,
            List.filter_cons_of_neg (by simpa using hrepeating)]
      · have hadvance : advance sentry timer = some timer := if_neg hlt
        rw [Multiset.filterMap_cons_some _ _ _ hadvance, ih,
          List.filter_cons_of_pos (by simpa using hlt),
          List.filter_cons_of_neg (by simpa using hlt), ← Multiset.cons_coe, Multiset.cons_add]

theorem tickAll_sorted (sentry : ℤ) {q : TimerQueue H} (hsorted : Sorted q.timers)
    (expired : List (Timer H)) (calls : List (List (AddCall H))) :
    Sorted (tickAll sentry q expired calls).timers := by
  have hfold : ∀ {q : TimerQueue H} (calls : List (AddCall H)), Sorted q.timers →
      Sorted (calls.foldl addTimer q).timers := by
    intro q calls hsorted
    induction calls generalizing q with
    | nil => exact hsorted
    | cons call calls ih =>
        refine ih ?_
        rw [addTimer_timers]
        exact emplace_sorted hsorted _
  induction expired generalizing q calls with
  | nil => exact hsorted
  | cons timer expired ih =>
      rw [tickAll]
      refine ih ?_ _
      split
      · exact emplace_sorted (hfold _ hsorted) _
      · exact hfold _ hsorted

/-- The fd goes off in time for every pending timer. -/
def Armed (q : TimerQueue H) : Prop :=
  ∀ timer ∈ q.timers, ∃ arming ∈ q.timerFd,
    arming.due ≤ max timer.expiration (arming.since + minDuration * 1000)

/-- The numbers of every pending timer go together with the clock. -/
def Within (latest : ℤ) (q : TimerQueue H) : Prop := ∀ timer ∈ q.pending, timer.Within latest

/-- An fd that is armed for the first timer is armed for all of them. -/
theorem armed_of_first {q : TimerQueue H} {first : Timer H} {rest : List (Timer H)}
    {latest now : ℤ} (hsorted : Sorted q.timers) (htimers : q.timers = first :: rest)
    (hwithin : first.Within latest) (hshows : Shows latest now)
    (hfd : q.timerFd = some (resetTimerFd first.expiration now)) : q.Armed := by
  intro timer htimer
  refine ⟨_, hfd, ?_⟩
  have hdue := resetTimerFd_due_le hwithin hshows
  have hle : first.expiration ≤ timer.expiration := by
    rw [htimers] at hsorted htimer
    rcases List.mem_cons.mp htimer with rfl | hmem
    · exact le_refl _
    · exact (List.pairwise_cons.mp hsorted).1 timer hmem
  exact hdue.trans (max_le_max hle (le_refl _))

/-- **One `AddTimer`.** -/
theorem addTimer_armed {q : TimerQueue H} {latest : ℤ} {call : AddCall H}
    (hsorted : Sorted q.timers) (harmed : q.Armed) (hcall : call.Within latest) :
    (q.addTimer call).Armed := by
  have hbehind : Sorted (q.addTimer call).timers := by
    rw [addTimer_timers]
    exact emplace_sorted hsorted _
  cases htimers : q.timers with
  | nil =>
      have htimers' : (q.addTimer call).timers = [call.timer] := by
        rw [addTimer_timers, htimers]
        rfl
      refine armed_of_first hbehind htimers' hcall.1 hcall.2 ?_
      simp only [addTimer, insert, htimers]
      rfl
  | cons first rest =>
      by_cases hlt : call.expiration < first.expiration
      · -- The new timer is the earliest: the fd is armed for it.
        have htimers' : (q.addTimer call).timers = call.timer :: first :: rest := by
          rw [addTimer_timers, htimers]
          exact if_pos hlt
        refine armed_of_first hbehind htimers' hcall.1 hcall.2 ?_
        simp only [addTimer, insert, htimers, AddCall.timer, hlt, decide_true, if_true]
      · -- The first timer stays the first one, and the fd as it is.
        have hfd : (q.addTimer call).timerFd = q.timerFd := by
          simp only [addTimer, insert, htimers, AddCall.timer, hlt, decide_false,
            Bool.false_eq_true, if_false]
        intro timer htimer
        rw [hfd]
        rw [addTimer_timers] at htimer
        rcases List.mem_cons.mp ((emplace_perm q.timers call.timer).mem_iff.mp htimer) with
          rfl | hmem
        · obtain ⟨arming, harming, hdue⟩ := harmed first (htimers ▸ List.mem_cons_self)
          exact ⟨arming, harming, hdue.trans (max_le_max (not_lt.mp hlt) (le_refl _))⟩
        · exact harmed timer hmem

theorem addTimer_within {q : TimerQueue H} {latest : ℤ} {call : AddCall H}
    (hwithin : q.Within latest) (hcall : call.Within latest) : (q.addTimer call).Within latest := by
  intro timer htimer
  rw [pending_addTimer, Multiset.mem_cons] at htimer
  rcases htimer with rfl | hold
  · exact hcall.1
  · exact hwithin timer hold

/-- **One `OnTick`.**  The expired timers are served, whatever their handlers
add is kept, and the fd is armed for the first timer that is pending then. -/
theorem onTick_spec {q q' : TimerQueue H} {sentry now : ℤ} {calls : List (List (AddCall H))}
    (hsorted : Sorted q.timers) (htick : q.onTick sentry now calls = some q') :
    q'.pending = Multiset.filterMap (advance sentry) q.pending
        + ((q.made sentry calls).map AddCall.timer : List (Timer H)) ∧
      Sorted q'.timers ∧
      ∀ first ∈ q'.timers.head?, q'.timerFd = some (resetTimerFd first.expiration now) := by
  simp only [onTick, Option.ite_none_right_eq_some] at htick
  obtain ⟨-, htick⟩ := htick
  have hremaining : Sorted (q.remaining sentry) := by
    rw [remaining_eq_filter hsorted]
    exact hsorted.filter _
  have hbehind := tickAll_sorted sentry (q := { q.consumeTimerFd sentry with timers := q.remaining sentry })
    hremaining (q.expired sentry) calls
  have hpending := pending_tickAll sentry
    { q.consumeTimerFd sentry with timers := q.remaining sentry } (q.expired sentry) calls
  have hadvance := filterMap_advance q.timers sentry
  rw [← remaining_eq_filter hsorted, ← expired_eq_filter hsorted] at hadvance
  have htotal : (tickAll sentry { q.consumeTimerFd sentry with timers := q.remaining sentry }
      (q.expired sentry) calls).pending = Multiset.filterMap (advance sentry) q.pending
        + ((q.made sentry calls).map AddCall.timer : List (Timer H)) := by
    rw [hpending, pending, pending, hadvance, made]
    simp only [add_assoc, add_comm]
  split at htick
  · next hnil =>
    obtain rfl := Option.some.inj htick
    refine ⟨htotal, hbehind, ?_⟩
    intro first hfirst
    rw [hnil] at hfirst
    cases hfirst
  · next first rest hcons =>
    obtain rfl := Option.some.inj htick
    refine ⟨htotal, hbehind, ?_⟩
    intro first' hfirst'
    rw [hcons] at hfirst'
    rw [← Option.some.inj hfirst']

/-- What a tick keeps goes together with the clock as well. -/
theorem onTick_within {q q' : TimerQueue H} {latest sentry now : ℤ}
    {calls : List (List (AddCall H))} (hsorted : Sorted q.timers) (hwithin : q.Within latest)
    (hshows : Shows latest sentry) (hcalls : ∀ call ∈ q.made sentry calls, call.Within latest)
    (htick : q.onTick sentry now calls = some q') : q'.Within latest := by
  intro timer htimer
  rw [(onTick_spec hsorted htick).1, Multiset.mem_add, Multiset.mem_filterMap] at htimer
  rcases htimer with ⟨old, hold, hadvance⟩ | hmade
  · unfold advance at hadvance
    split_ifs at hadvance with hexpired hrepeating
    · rw [← Option.some.inj hadvance]
      exact (hwithin old hold).restart hshows hrepeating
    · rw [← Option.some.inj hadvance]
      exact hwithin old hold
  · obtain ⟨call, hcall, rfl⟩ := List.mem_map.mp (Multiset.mem_coe.mp hmade)
    exact (hcalls call hcall).1

theorem onTick_armed {q q' : TimerQueue H} {latest sentry now : ℤ}
    {calls : List (List (AddCall H))} (hsorted : Sorted q.timers) (hwithin : q'.Within latest)
    (hshows : Shows latest now) (htick : q.onTick sentry now calls = some q') : q'.Armed := by
  obtain ⟨-, hbehind, hfd⟩ := onTick_spec hsorted htick
  cases htimers : q'.timers with
  | nil =>
      intro timer htimer
      rw [htimers] at htimer
      cases htimer
  | cons first rest =>
      have hfirst : first ∈ q'.pending := by
        rw [pending, htimers]
        exact Multiset.mem_coe.mpr List.mem_cons_self
      rw [htimers] at hfd
      exact armed_of_first hbehind htimers (hwithin first hfirst) hshows (hfd first rfl)

end TimerQueue

end Eureka.Timers

/-!
## The extraction of the expired timers

`ExtractExpired` cuts the multimap with `lower_bound`, so a timer that expires
exactly at the tick time stays behind the cut, where the check of the function
does not want it.

* `onTick_eq`: a tick serves what `ExtractExpired` has moved out;
* `extractExpired_iff`: it extracts the timers that have expired if and only if
  no timer expires at the tick time.
-/

namespace Eureka.Timers

variable {H : Type}

namespace TimerQueue

/-- **A tick extracts the expired timers**, and goes on only if the check does not fail. -/
theorem onTick_eq (q : TimerQueue H) (sentry now : ℤ) (calls : List (List (AddCall H))) :
    q.onTick sentry now calls =
      ((q.consumeTimerFd sentry).extractExpired sentry).bind fun (expired, q) =>
        let q := tickAll sentry q expired calls
        match q.timers with
        | [] => some q
        | first :: _ => some { q with timerFd := some (resetTimerFd first.expiration now) } := by
  have hensures : (q.consumeTimerFd sentry).Ensures sentry ↔ q.Ensures sentry := Iff.rfl
  unfold onTick extractExpired
  by_cases h : q.Ensures sentry
  · rw [if_pos h, if_pos (hensures.mpr h)]
    rfl
  · rw [if_neg h, if_neg (hensures.not.mpr h)]
    rfl

/-- The timers whose expiration is not later than the tick time are moved out in the order of their
expirations, and exactly the others are left pending. -/
structure Extracts (q : TimerQueue H) (sentry : ℤ) (expired : List (Timer H)) (q' : TimerQueue H) :
    Prop where
  expired_eq : (expired : Multiset (Timer H)) = q.pending.filter (·.expiration ≤ sentry)
  sorted : Sorted expired
  pending_eq : q'.pending = q.pending.filter (sentry < ·.expiration)

variable {q : TimerQueue H} {sentry : ℤ}

/-- The first timer that is left expires at the tick time, if any does. -/
theorem not_ensures_of_mem (hsorted : Sorted q.timers) {timer : Timer H} (hmem : timer ∈ q.timers)
    (heq : timer.expiration = sentry) : ¬ q.Ensures sentry := by
  intro hensures
  have hkept : timer ∈ q.remaining sentry := by
    rw [remaining_eq_filter hsorted, List.mem_filter]
    exact ⟨hmem, by simp [heq]⟩
  have hbehind : Sorted (q.remaining sentry) := by
    rw [remaining_eq_filter hsorted]
    exact hsorted.filter _
  unfold Ensures at hensures
  cases hremaining : q.remaining sentry with
  | nil =>
      rw [hremaining] at hkept
      cases hkept
  | cons first rest =>
      rw [hremaining] at hensures hkept hbehind
      have hlater := hensures first rfl
      have hle : first.expiration ≤ timer.expiration := by
        obtain rfl | hrest := List.mem_cons.mp hkept
        · exact le_refl _
        · exact (List.pairwise_cons.mp hbehind).1 timer hrest
      omega

theorem ensures_of_ne (hsorted : Sorted q.timers)
    (hne : ∀ timer ∈ q.timers, timer.expiration ≠ sentry) : q.Ensures sentry := by
  intro first hfirst
  have hmem := List.mem_of_mem_head? hfirst
  rw [remaining_eq_filter hsorted, List.mem_filter] at hmem
  have hle : ¬ first.expiration < sentry := by simpa using hmem.2
  have hne := hne first hmem.1
  omega

/-- Where no timer expires at the tick time, the cut has the expired timers in front of it. -/
theorem extracts_of_ne (hsorted : Sorted q.timers)
    (hne : ∀ timer ∈ q.timers, timer.expiration ≠ sentry) :
    q.Extracts sentry (q.expired sentry) { q with timers := q.remaining sentry } where
  expired_eq := by
    rw [expired_eq_filter hsorted, pending, Multiset.filter_coe]
    refine congrArg _ (List.filter_congr fun timer htimer => ?_)
    have hne := hne timer htimer
    rw [decide_eq_decide]
    omega
  sorted := by
    rw [expired_eq_filter hsorted]
    exact hsorted.filter _
  pending_eq := by
    unfold pending
    rw [remaining_eq_filter hsorted, Multiset.filter_coe]
    refine congrArg _ (List.filter_congr fun timer htimer => ?_)
    have hne := hne timer htimer
    rw [decide_eq_decide]
    omega

/-- **`ExtractExpired` moves out exactly the timers that have expired**, and its check does not fail,
if and only if no pending timer expires exactly at the tick time. -/
theorem extractExpired_iff (hsorted : Sorted q.timers) (sentry : ℤ) :
    (∃ expired q', q.extractExpired sentry = some (expired, q') ∧ q.Extracts sentry expired q') ↔
      ∀ timer ∈ q.timers, timer.expiration ≠ sentry := by
  constructor
  · rintro ⟨expired, q', hextract, -⟩ timer htimer heq
    obtain ⟨hensures, -⟩ := Option.ite_none_right_eq_some.mp hextract
    exact not_ensures_of_mem hsorted htimer heq hensures
  · intro hne
    exact ⟨_, _, if_pos (ensures_of_ne hsorted hne), extracts_of_ne hsorted hne⟩

/-- Two timers that have expired together, and one that has not. -/
theorem extractExpired_iff_two_expired :
    ∃ expired q', extractExpired ⟨[⟨0, 5, 0⟩, ⟨1, 5, 0⟩, ⟨2, 7, 0⟩], none⟩ 6 = some (expired, q') ∧
      Extracts ⟨[⟨0, 5, 0⟩, ⟨1, 5, 0⟩, ⟨2, 7, 0⟩], none⟩ 6 expired q' :=
  (extractExpired_iff (q := ⟨[⟨0, 5, 0⟩, ⟨1, 5, 0⟩, ⟨2, 7, 0⟩], none⟩) (by simp [Sorted]) 6).mpr
    (by decide)

/-- A timer expires at the tick time, and the check fails. -/
theorem extractExpired_fails_at_expiration :
    ¬ ∃ expired q', extractExpired (⟨[⟨0, 5, 0⟩], none⟩ : TimerQueue ℕ) 5 = some (expired, q') ∧
      Extracts ⟨[⟨0, 5, 0⟩], none⟩ 5 expired q' := by
  have hfails : extractExpired (⟨[⟨0, 5, 0⟩], none⟩ : TimerQueue ℕ) 5 = none := by decide
  rintro ⟨expired, q', hextract, -⟩
  rw [hfails] at hextract
  cases hextract

end TimerQueue

end Eureka.Timers

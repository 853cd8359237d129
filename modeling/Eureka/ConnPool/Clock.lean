import Eureka.ConnPool.Accounting

/-!
# The pool under one clock

`Get` reads the clock before it takes the mutex for the first time, `Put` reads it
inside its section.  Between the reading of a `Get`, its first section and its
second one, other calls push and pop at both ends of the idle list.

* `simulates`: the timed runs are runs of `ConnPool.system`, with the times that
  the clock showed;
* `Pool.retireTimeout_eq_filter`: on an ordered list, retiring from the front
  removes exactly the timed out connections;
* `Ordered`: the invariant.  The idle list is ordered and lies before the clock,
  and a `Get` behind its first section has nothing to fear from the list any more,
  because a connection that is put later is younger than the reading of the `Get`;
* `idle_times`: what this means for every run.
-/

namespace Eureka.ConnPool

open Transition

variable {Raw : Type} {settings : Settings}

/-! ## Calls with their clock readings -/

/-- The pool, the clock, and the readings of the calls of `Get` that are in front
of their first and of their second section.  `handed` logs the idle connections
that were handed out, each with the reading of its `Get`. -/
structure Timed (Raw : Type) where
  state : State Raw
  clock : ℤ
  entering : List ℤ
  retired : List ℤ
  handed : List (ℤ × IdleConn Raw)
deriving DecidableEq, Repr

inductive TimedAction (Raw : Type)
  | advance (clock : ℤ)
  | readClock
  | retire (i : ℕ)
  | acquire (i : ℕ)
  | newConnReturns (rawConn : Raw)
  | newConnThrows (stdException : Bool)
  | giveBack
  | put (rawConn : Raw) (creation : ℤ)
  | destroy (i : ℕ)
  | moveConstruct (i : ℕ)
  | moveAssign (dest source : ℕ)
deriving DecidableEq, Repr

namespace Timed

/-- A step of the pool; everything else stays. -/
def within (settings : Settings) (t : Timed Raw) (action : Action Raw) : Option (Timed Raw) :=
  ((system Raw settings).step t.state action).map fun s => { t with state := s }

/-- The first section of the `i`-th call. -/
def retire (settings : Settings) (t : Timed Raw) (i : ℕ) : Option (Timed Raw) := do
  let now ← t.entering[i]?
  let t ← t.within settings (.get now)
  return { t with entering := t.entering.eraseIdx i, retired := t.retired ++ [now] }

/-- The second section of the `i`-th call. -/
def acquire (settings : Settings) (t : Timed Raw) (i : ℕ) : Option (Timed Raw) := do
  let now ← t.retired[i]?
  let handed := t.state.pool.idleList.getLast?.toList.map fun idle => (now, idle)
  let t ← t.within settings .acquire
  return { t with retired := t.retired.eraseIdx i, handed := t.handed ++ handed }

def step (settings : Settings) (t : Timed Raw) : TimedAction Raw → Option (Timed Raw)
  | .advance clock => if t.clock ≤ clock then some { t with clock := clock } else none
  | .readClock => some { t with entering := t.entering ++ [t.clock] }
  | .retire i => t.retire settings i
  | .acquire i => t.acquire settings i
  | .newConnReturns rawConn => t.within settings (.newConnReturns rawConn t.clock)
  | .newConnThrows stdException => t.within settings (.newConnThrows stdException)
  | .giveBack => t.within settings .giveBack
  | .put rawConn creation => t.within settings (.put rawConn creation t.clock)
  | .destroy i => t.within settings (.destroy i t.clock)
  | .moveConstruct i => t.within settings (.moveConstruct i)
  | .moveAssign dest source => t.within settings (.moveAssign dest source)

end Timed

/-- The runs of a pool whose clock does not go back. -/
def timedSystem (Raw : Type) (settings : Settings) : System (Timed Raw) (TimedAction Raw) where
  start t := ∃ clock, t = ⟨⟨⟨0, [], false⟩, [], 0, 0, 0, []⟩, clock, [], [], []⟩
  step := Timed.step settings

/-! ## What a step can do -/

namespace Timed

variable {t t' : Timed Raw}

theorem within_eq_some {action : Action Raw} (hwithin : t.within settings action = some t') :
    (system Raw settings).step t.state action = some t'.state ∧
      t' = { t with state := t'.state } := by
  obtain ⟨s, hstep, rfl⟩ := Option.map_eq_some_iff.mp hwithin
  exact ⟨hstep, rfl⟩

theorem retire_cases {i : ℕ} (hretire : t.retire settings i = some t') :
    ∃ now, t.entering[i]? = some now ∧
      (system Raw settings).step t.state (.get now) = some t'.state ∧
      t' = { t with
        state := t'.state, entering := t.entering.eraseIdx i, retired := t.retired ++ [now] } := by
  simp only [retire, Option.bind_eq_bind, Option.bind_eq_some_iff, Option.pure_def,
    Option.some.injEq] at hretire
  obtain ⟨now, hnow, mid, hmid, rfl⟩ := hretire
  obtain ⟨hstep, heq⟩ := within_eq_some hmid
  rw [heq]
  exact ⟨now, hnow, hstep, rfl⟩

theorem acquire_cases {i : ℕ} (hacquire : t.acquire settings i = some t') :
    ∃ now, t.retired[i]? = some now ∧
      (system Raw settings).step t.state .acquire = some t'.state ∧
      t' = { t with
        state := t'.state
        retired := t.retired.eraseIdx i
        handed := t.handed ++ t.state.pool.idleList.getLast?.toList.map fun idle => (now, idle) } := by
  simp only [acquire, Option.bind_eq_bind, Option.bind_eq_some_iff, Option.pure_def,
    Option.some.injEq] at hacquire
  obtain ⟨now, hnow, mid, hmid, rfl⟩ := hacquire
  obtain ⟨hstep, heq⟩ := within_eq_some hmid
  rw [heq]
  exact ⟨now, hnow, hstep, rfl⟩

/-- The actions that are sections of the pool's other functions, with the clock's time. -/
def asAction (clock : ℤ) : TimedAction Raw → Option (Action Raw)
  | .newConnReturns rawConn => some (.newConnReturns rawConn clock)
  | .newConnThrows stdException => some (.newConnThrows stdException)
  | .giveBack => some .giveBack
  | .put rawConn creation => some (.put rawConn creation clock)
  | .destroy i => some (.destroy i clock)
  | .moveConstruct i => some (.moveConstruct i)
  | .moveAssign dest source => some (.moveAssign dest source)
  | .advance _ | .readClock | .retire _ | .acquire _ => none

/-- A step lets the clock go on, reads it, runs a section of a `Get`, or runs
something else in the pool. -/
theorem step_cases {action : TimedAction Raw} (hstep : t.step settings action = some t') :
    (∃ clock, t.clock ≤ clock ∧ t' = { t with clock := clock }) ∨
    t' = { t with entering := t.entering ++ [t.clock] } ∨
    (∃ i, t.retire settings i = some t') ∨
    (∃ i, t.acquire settings i = some t') ∨
    ∃ poolAction, asAction t.clock action = some poolAction ∧
      t.within settings poolAction = some t' := by
  cases action with
  | advance clock =>
      simp only [step, Option.ite_none_right_eq_some, Option.some.injEq] at hstep
      exact .inl ⟨clock, hstep.1, hstep.2.symm⟩
  | readClock => exact .inr (.inl (Option.some.inj hstep).symm)
  | retire i => exact .inr (.inr (.inl ⟨i, hstep⟩))
  | acquire i => exact .inr (.inr (.inr (.inl ⟨i, hstep⟩)))
  | newConnReturns rawConn => exact .inr (.inr (.inr (.inr ⟨_, rfl, hstep⟩)))
  | newConnThrows stdException => exact .inr (.inr (.inr (.inr ⟨_, rfl, hstep⟩)))
  | giveBack => exact .inr (.inr (.inr (.inr ⟨_, rfl, hstep⟩)))
  | put rawConn creation => exact .inr (.inr (.inr (.inr ⟨_, rfl, hstep⟩)))
  | destroy i => exact .inr (.inr (.inr (.inr ⟨_, rfl, hstep⟩)))
  | moveConstruct i => exact .inr (.inr (.inr (.inr ⟨_, rfl, hstep⟩)))
  | moveAssign dest source => exact .inr (.inr (.inr (.inr ⟨_, rfl, hstep⟩)))

end Timed

/-- Forgetting the clock and the readings, a timed run is a run of the pool. -/
theorem simulates :
    System.Simulates (timedSystem Raw settings) (system Raw settings) fun t s => t.state = s := by
  constructor
  · rintro t ⟨clock, rfl⟩
    exact ⟨_, rfl, rfl⟩
  · rintro t s action t' rfl hstep
    have hone : ∀ poolAction, (system Raw settings).step t.state poolAction = some t'.state →
        ∃ actions s', (system Raw settings).run t.state actions = some s' ∧ t'.state = s' :=
      fun poolAction hpool =>
        ⟨[poolAction], _, System.run_cons_eq_some.mpr ⟨_, hpool, rfl⟩, rfl⟩
    rcases Timed.step_cases hstep with ⟨clock, -, rfl⟩ | rfl | ⟨i, hretire⟩ | ⟨i, hacquire⟩ |
      ⟨poolAction, -, hwithin⟩
    · exact ⟨[], _, rfl, rfl⟩
    · exact ⟨[], _, rfl, rfl⟩
    · obtain ⟨now, -, hpool, -⟩ := Timed.retire_cases hretire
      exact hone _ hpool
    · obtain ⟨now, -, hpool, -⟩ := Timed.acquire_cases hacquire
      exact hone _ hpool
    · exact hone _ (Timed.within_eq_some hwithin).1

/-! ## Ordered idle lists -/

/-- Ordered by `last_active`, from front to back. -/
def OrderedByActivity (idleList : List (IdleConn Raw)) : Prop :=
  idleList.Pairwise fun older younger => older.lastActive ≤ younger.lastActive

/-- At time `now`, the connection has been idle for the timeout as the code converts it. -/
def TimedOut (settings : Settings) (now : ℤ) (idle : IdleConn Raw) : Prop :=
  settings.idleNanoseconds ≤ now - idle.lastActive

instance (now : ℤ) (idle : IdleConn Raw) : Decidable (TimedOut settings now idle) :=
  inferInstanceAs (Decidable (_ ≤ _))

namespace Pool

/-- **Retiring from the front** removes the timed out connections and no others. -/
theorem retireTimeout_eq_filter {idleList : List (IdleConn Raw)}
    (hordered : OrderedByActivity idleList) (now : ℤ) (size : UInt64) :
    (retireTimeout settings now size idleList).2
      = idleList.filter fun idle => ¬ TimedOut settings now idle := by
  induction idleList generalizing size with
  | nil => rfl
  | cons front rest ih =>
      obtain ⟨hfront, hrest⟩ := List.pairwise_cons.mp hordered
      rw [retireTimeout]
      split
      -- the loop goes on behind the front
      · next htimedOut =>
        rw [List.filter_cons_of_neg (by simpa [TimedOut] using htimedOut)]
        exact ih hrest (size - 1)
      · next hactive =>
        refine (List.filter_eq_self.mpr fun idle hidle => ?_).symm
        rcases List.mem_cons.mp hidle with rfl | hidle
        · simpa [TimedOut] using hactive
        · -- everything behind the front is younger
          have hyounger := hfront idle hidle
          refine decide_eq_true ?_
          unfold TimedOut
          omega

theorem retireTimeoutIdleConnections_eq_filter {p : Pool Raw}
    (hordered : OrderedByActivity p.idleList) (now : ℤ) :
    (p.retireTimeoutIdleConnections settings now).idleList
      = p.idleList.filter fun idle => ¬ TimedOut settings now idle :=
  retireTimeout_eq_filter hordered now p.size

theorem acquire_sublist (p : Pool Raw) : (p.acquire settings).2.idleList.Sublist p.idleList := by
  unfold acquire
  split
  · exact List.dropLast_sublist _
  · split <;> exact List.Sublist.refl _

/-- `Put` keeps some of the connections and pushes one that is active now. -/
theorem put_cases (p : Pool Raw) (rawConn : Raw) (creation now : ℤ) :
    ∃ kept added, (p.put settings rawConn creation now).idleList = kept ++ added ∧
      kept.Sublist p.idleList ∧ ∀ idle ∈ added, idle.lastActive = now := by
  have hpushed : ∀ idle ∈ [IdleConn.mk rawConn creation now], idle.lastActive = now := by
    intro idle hidle
    rw [List.mem_singleton.mp hidle]
  unfold put
  split
  · split
    · exact ⟨p.idleList, [], (List.append_nil _).symm, List.Sublist.refl _, nofun⟩
    · next front rest hcons =>
      refine ⟨rest, _, rfl, ?_, hpushed⟩
      rw [hcons]
      exact List.sublist_cons_self front rest
  · exact ⟨p.idleList, _, rfl, List.Sublist.refl _, hpushed⟩

end Pool

/-- In every section but the first one of a `Get`, some of the idle connections
stay, and what comes behind them is active now. -/
theorem State.poolAfter_cases (settings : Settings) (s : State Raw) {clock : ℤ}
    {action : TimedAction Raw} {poolAction : Action Raw} (haction : Timed.asAction clock action = some poolAction) :
    ∃ kept added, (s.poolAfter settings poolAction).idleList = kept ++ added ∧
      kept.Sublist s.pool.idleList ∧ ∀ idle ∈ added, idle.lastActive = clock := by
  have hsame : ∃ kept added, s.pool.idleList = kept ++ added ∧ kept.Sublist s.pool.idleList ∧
      ∀ idle ∈ added, idle.lastActive = clock :=
    ⟨_, [], (List.append_nil _).symm, List.Sublist.refl _, nofun⟩
  cases action with
  | put rawConn creation =>
      obtain rfl := Option.some.inj haction
      exact s.pool.put_cases rawConn creation clock
  | destroy i =>
      obtain rfl := Option.some.inj haction
      dsimp only [poolAfter]
      split
      · exact s.pool.put_cases _ _ clock
      · exact hsame
  | newConnReturns rawConn => obtain rfl := Option.some.inj haction; exact hsame
  | newConnThrows stdException => obtain rfl := Option.some.inj haction; exact hsame
  | giveBack => obtain rfl := Option.some.inj haction; exact hsame
  | moveConstruct i => obtain rfl := Option.some.inj haction; exact hsame
  | moveAssign dest source => obtain rfl := Option.some.inj haction; exact hsame
  | advance clock' => cases haction
  | readClock => cases haction
  | retire i => cases haction
  | acquire i => cases haction

/-! ## The invariant -/

structure Ordered (settings : Settings) (t : Timed Raw) : Prop where
  ordered : OrderedByActivity t.state.pool.idleList
  idle_le_clock : ∀ idle ∈ t.state.pool.idleList, idle.lastActive ≤ t.clock
  entering_le_clock : ∀ now ∈ t.entering, now ≤ t.clock
  retired_le_clock : ∀ now ∈ t.retired, now ≤ t.clock
  /-- A `Get` behind its first section finds no connection that timed out when it read the
  clock. -/
  active : ∀ now ∈ t.retired, ∀ idle ∈ t.state.pool.idleList, ¬ TimedOut settings now idle
  handed : ∀ entry ∈ t.handed, ¬ TimedOut settings entry.1 entry.2

namespace Ordered

variable {t t' : Timed Raw}

theorem advance (ht : Ordered settings t) {clock : ℤ} (hclock : t.clock ≤ clock) :
    Ordered settings { t with clock := clock } where
  ordered := ht.ordered
  idle_le_clock idle hidle := (ht.idle_le_clock idle hidle).trans hclock
  entering_le_clock now hnow := (ht.entering_le_clock now hnow).trans hclock
  retired_le_clock now hnow := (ht.retired_le_clock now hnow).trans hclock
  active := ht.active
  handed := ht.handed

theorem readClock (ht : Ordered settings t) :
    Ordered settings { t with entering := t.entering ++ [t.clock] } := by
  refine ⟨ht.ordered, ht.idle_le_clock, ?_, ht.retired_le_clock, ht.active, ht.handed⟩
  intro now hnow
  rcases List.mem_append.mp hnow with hnow | hnow
  · exact ht.entering_le_clock now hnow
  · exact (List.mem_singleton.mp hnow).le

theorem retire (htimeout : 0 < settings.idleTimeout) (ht : Ordered settings t) {i : ℕ}
    (hretire : t.retire settings i = some t') : Ordered settings t' := by
  obtain ⟨now, hnow, hpool, heq⟩ := Timed.retire_cases hretire
  have hmem : now ∈ t.entering := List.mem_of_getElem? hnow
  -- the reading may be older than what the clock shows now
  have hafter : t'.state.pool = t.state.pool.retireTimeoutIdleConnections settings now :=
    (State.step_pool hpool).trans (if_pos htimeout)
  have hfilter : t'.state.pool.idleList
      = t.state.pool.idleList.filter fun idle => ¬ TimedOut settings now idle := by
    rw [hafter, Pool.retireTimeoutIdleConnections_eq_filter ht.ordered]
  have hsublist : t'.state.pool.idleList.Sublist t.state.pool.idleList := by
    rw [hfilter]
    exact List.filter_sublist
  rw [heq]
  refine ⟨ht.ordered.sublist hsublist, fun idle hidle => ht.idle_le_clock idle (hsublist.mem hidle),
    ?_, ?_, ?_, ht.handed⟩
  · intro now' hnow'
    exact ht.entering_le_clock now' (List.mem_of_mem_eraseIdx hnow')
  · intro now' hnow'
    rcases List.mem_append.mp hnow' with hnow' | hnow'
    · exact ht.retired_le_clock now' hnow'
    · rw [List.mem_singleton.mp hnow']
      exact ht.entering_le_clock now hmem
  · intro now' hnow' idle hidle
    rcases List.mem_append.mp hnow' with hnow' | hnow'
    · exact ht.active now' hnow' idle (hsublist.mem hidle)
    · rw [List.mem_singleton.mp hnow']
      dsimp only at hidle
      rw [hfilter] at hidle
      exact of_decide_eq_true (List.mem_filter.mp hidle).2

theorem acquire (ht : Ordered settings t) {i : ℕ} (hacquire : t.acquire settings i = some t') :
    Ordered settings t' := by
  obtain ⟨now, hnow, hpool, heq⟩ := Timed.acquire_cases hacquire
  have hmem : now ∈ t.retired := List.mem_of_getElem? hnow
  have hsublist : t'.state.pool.idleList.Sublist t.state.pool.idleList := by
    rw [State.step_pool hpool]
    exact t.state.pool.acquire_sublist
  rw [heq]
  refine ⟨ht.ordered.sublist hsublist, fun idle hidle => ht.idle_le_clock idle (hsublist.mem hidle),
    ht.entering_le_clock, ?_, ?_, ?_⟩
  · intro now' hnow'
    exact ht.retired_le_clock now' (List.mem_of_mem_eraseIdx hnow')
  · intro now' hnow' idle hidle
    exact ht.active now' (List.mem_of_mem_eraseIdx hnow') idle (hsublist.mem hidle)
  · intro entry hentry
    rcases List.mem_append.mp hentry with hentry | hentry
    · exact ht.handed entry hentry
    -- the back of the list is handed out, and nothing in the list had timed out
    · obtain ⟨idle, hidle, rfl⟩ := List.mem_map.mp hentry
      exact ht.active now hmem idle (List.mem_of_getLast? (Option.mem_toList.mp hidle))

/-- What is put now is the youngest, and younger than every reading. -/
theorem pooled (hpositive : 0 < settings.idleNanoseconds) (ht : Ordered settings t)
    {action : TimedAction Raw} {poolAction : Action Raw}
    (haction : Timed.asAction t.clock action = some poolAction)
    (hwithin : t.within settings poolAction = some t') : Ordered settings t' := by
  obtain ⟨hpool, heq⟩ := Timed.within_eq_some hwithin
  obtain ⟨kept, added, hidleList, hkept, hadded⟩ :=
    State.poolAfter_cases settings t.state haction
  rw [← State.step_pool hpool] at hidleList
  have hmem : ∀ idle ∈ t'.state.pool.idleList,
      idle ∈ t.state.pool.idleList ∨ idle.lastActive = t.clock := by
    intro idle hidle
    rw [hidleList] at hidle
    exact (List.mem_append.mp hidle).imp hkept.mem (hadded idle)
  rw [heq]
  refine ⟨?_, ?_, ht.entering_le_clock, ht.retired_le_clock, ?_, ht.handed⟩
  · show OrderedByActivity t'.state.pool.idleList
    rw [hidleList]
    refine List.pairwise_append.mpr ⟨ht.ordered.sublist hkept, ?_, ?_⟩
    · refine List.pairwise_of_forall_mem_list fun older holder younger hyounger => ?_
      rw [hadded older holder, hadded younger hyounger]
    · intro older holder younger hyounger
      rw [hadded younger hyounger]
      exact ht.idle_le_clock older (hkept.mem holder)
  · intro idle hidle
    rcases hmem idle hidle with hidle | hnow
    · exact ht.idle_le_clock idle hidle
    · exact hnow.le
  · intro now hnow idle hidle
    rcases hmem idle hidle with hidle | hyoung
    · exact ht.active now hnow idle hidle
    -- what was put now is younger than the reading of the `Get`
    · have hle := ht.retired_le_clock now hnow
      unfold TimedOut
      omega

theorem step (htimeout : 0 < settings.idleTimeout) (hpositive : 0 < settings.idleNanoseconds)
    (ht : Ordered settings t) {action : TimedAction Raw}
    (hstep : (timedSystem Raw settings).step t action = some t') : Ordered settings t' := by
  rcases Timed.step_cases hstep with ⟨clock, hclock, rfl⟩ | rfl | ⟨i, hretire⟩ | ⟨i, hacquire⟩ |
    ⟨poolAction, haction, hwithin⟩
  · exact ht.advance hclock
  · exact ht.readClock
  · exact ht.retire htimeout hretire
  · exact ht.acquire hacquire
  · exact ht.pooled hpositive haction hwithin

end Ordered

theorem ordered_of_reachable (htimeout : 0 < settings.idleTimeout)
    (hpositive : 0 < settings.idleNanoseconds) {t : Timed Raw}
    (ht : (timedSystem Raw settings).Reachable t) : Ordered settings t := by
  refine ht.invariant ?_ fun t action t' ht hstep => ht.step htimeout hpositive hstep
  rintro t ⟨clock, rfl⟩
  exact ⟨List.Pairwise.nil, nofun, nofun, nofun, nofun, nofun⟩

/-- A timeout of less than `2 ^ 63` nanoseconds is compared as it is. -/
theorem idleNanoseconds_eq (htimeout : 0 < settings.idleTimeout)
    (hfits : settings.idleTimeout * 1000 < 2 ^ 63) :
    settings.idleNanoseconds = settings.idleTimeout * 1000 :=
  Int.bmod_eq_of_le (by omega) (by omega)

/-- What is said of a state: the idle list is ordered by `last_active`, every `Get` retires
exactly the connections that are idle for the timeout at its reading, and none was handed out
that had been. -/
def IdleTimes (settings : Settings) (t : Timed Raw) : Prop :=
  t.state.pool.idleList.Pairwise (fun older younger => older.lastActive ≤ younger.lastActive) ∧
    (∀ i t', t.retire settings i = some t' → ∃ now, t.entering[i]? = some now ∧
      t'.state.pool.idleList = t.state.pool.idleList.filter fun idle =>
        now - idle.lastActive < settings.idleTimeout * 1000) ∧
    ∀ entry ∈ t.handed, entry.1 - entry.2.lastActive < settings.idleTimeout * 1000

/-- **Idle times.**  Under a clock that does not go back, and with a timeout that fits the
clock's unit, this holds in every reachable state. -/
theorem idle_times (htimeout : 0 < settings.idleTimeout)
    (hfits : settings.idleTimeout * 1000 < 2 ^ 63) {t : Timed Raw}
    (ht : (timedSystem Raw settings).Reachable t) : IdleTimes settings t := by
  have hnanoseconds := idleNanoseconds_eq htimeout hfits
  have hordered := ordered_of_reachable htimeout (by omega) ht
  refine ⟨hordered.ordered, ?_, fun entry hentry => ?_⟩
  · intro i t' hretire
    obtain ⟨now, hnow, hpool, -⟩ := Timed.retire_cases hretire
    refine ⟨now, hnow, ?_⟩
    have hafter : t'.state.pool = t.state.pool.retireTimeoutIdleConnections settings now :=
      (State.step_pool hpool).trans (if_pos htimeout)
    rw [hafter, Pool.retireTimeoutIdleConnections_eq_filter hordered.ordered]
    exact List.filter_congr fun idle _ => by simp [TimedOut, hnanoseconds]
  · rw [← hnanoseconds]
    exact not_le.mp (hordered.handed entry hentry)

/-- Two connections are put at the times 3000 and 5000, the younger one is handed out, and a
`Get` that has read the time 14000 is about to retire the other one. -/
def youngerHandedOut : Timed ℕ :=
  ⟨⟨⟨2, [⟨7, 0, 3000⟩], false⟩, [some ⟨8, 0⟩], 0, 0, 0, []⟩, 14000, [14000], [],
    [(5000, ⟨8, 0, 5000⟩)]⟩

theorem idle_times_youngerHandedOut : IdleTimes ⟨2, 2, 10⟩ youngerHandedOut := by
  have hreach : (timedSystem ℕ ⟨2, 2, 10⟩).Reachable youngerHandedOut :=
    ⟨⟨⟨⟨0, [], false⟩, [], 0, 0, 0, []⟩, 0, [], [], []⟩,
      [.readClock, .retire 0, .acquire 0, .newConnReturns 7, .readClock, .retire 0, .acquire 0,
        .newConnReturns 8, .advance 3000, .destroy 0, .advance 5000, .destroy 0, .readClock,
        .retire 0, .acquire 0, .advance 14000, .readClock],
      ⟨0, rfl⟩, by decide⟩
  exact idle_times (by decide) (by decide) hreach

/-- With the longest timeout, `microseconds::max()`, the product is negative, and a connection
is retired that became idle in the same moment. -/
theorem idle_times_longest :
    ¬ ∀ (settings : Settings) (t : Timed ℕ), 0 < settings.maxIdle →
      0 < settings.idleTimeout → settings.idleTimeout < 2 ^ 63 →
        (timedSystem ℕ settings).Reachable t → IdleTimes settings t := by
  intro hall
  have hreach : (timedSystem ℕ ⟨2, 2, 2 ^ 63 - 1⟩).Reachable
      ⟨⟨⟨1, [⟨7, 0, 0⟩], false⟩, [], 0, 0, 0, []⟩, 0, [0], [], []⟩ :=
    ⟨⟨⟨⟨0, [], false⟩, [], 0, 0, 0, []⟩, 0, [], [], []⟩,
      [.readClock, .retire 0, .acquire 0, .newConnReturns 7, .destroy 0, .readClock],
      ⟨0, rfl⟩, by decide⟩
  obtain ⟨-, hretires, -⟩ := hall _ _ (by decide) (by decide) (by decide) hreach
  obtain ⟨now, hnow, hidle⟩ := hretires 0
    ⟨⟨⟨0, [], false⟩, [], 1, 0, 0, []⟩, 0, [], [0], []⟩ (by decide)
  obtain rfl : 0 = now := Option.some.inj hnow
  exact absurd hidle (by decide)

end Eureka.ConnPool

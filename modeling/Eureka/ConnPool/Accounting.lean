import Eureka.ConnPool.Pool

/-!
# The accounting of the connection pool

`size_` counts the idle connections, the live `Conn` objects and the creations in
flight.  Three sections change it, and each of them changes one of the three
counts with it, for an accounted state:

* `retireTimeout_spec`, `acquire_spec`, `put_spec`: the sections under the mutex;
* `live_set`, `live_eraseIdx`: the objects.

Three other steps lose a connection or a reservation: the move assignment drops
the connection of its destination, an exception that is no `std::exception` is
not caught, and a `Put` that no destructor makes adds a connection.  A pool
without idle connections has nothing to retire in `Put`.  `accounted_iff`: a run
is accounted for throughout exactly when it has none of these steps.
-/

namespace Eureka.ConnPool

open Transition

variable {Raw : Type} {settings : Settings}

/-- The accounting is right, and so was each `PoolExhausted`. -/
structure Accounted (settings : Settings) (s : State Raw) : Prop where
  defined : s.pool.undefined = false
  size_eq : s.pool.size.toNat = s.pool.idleList.length + s.live + s.creations
  size_le : s.pool.size ≤ settings.capacity
  exhausted : ∀ n ∈ s.exhausted, n = settings.capacity.toNat

def Careful (settings : Settings) (s : State Raw) : Action Raw → Prop
  | .newConnThrows stdException => stdException = true
  | .put _ _ _ => False
  | .destroy i _ => settings.maxIdle = 0 → s.objects[i]? = some none
  | .moveAssign dest source => dest ≠ source → s.objects[dest]? = some none
  | .get _ | .acquire | .newConnReturns _ _ | .giveBack | .moveConstruct _ => True

instance [DecidableEq Raw] (s : State Raw) : (action : Action Raw) →
    Decidable (Careful settings s action)
  | .newConnThrows stdException => inferInstanceAs <| Decidable <| stdException = true
  | .put _ _ _ => .isFalse id
  | .destroy i _ => inferInstanceAs <| Decidable <|
      settings.maxIdle = 0 → s.objects[i]? = some none
  | .moveAssign dest source => inferInstanceAs <| Decidable <|
      dest ≠ source → s.objects[dest]? = some none
  | .get _ => .isTrue trivial
  | .acquire => .isTrue trivial
  | .newConnReturns _ _ => .isTrue trivial
  | .giveBack => .isTrue trivial
  | .moveConstruct _ => .isTrue trivial

/-- The idle list is not longer than it may be. -/
def IdleBounded (settings : Settings) (s : State Raw) : Prop :=
  s.pool.idleList.length ≤ settings.maxIdle.toNat

/-! ## `size_t` -/

theorem toNat_add_one {size capacity : UInt64} (hlt : size < capacity) :
    (size + 1).toNat = size.toNat + 1 := by
  have hcapacity := capacity.toNat_lt
  rw [UInt64.lt_iff_toNat_lt] at hlt
  rw [UInt64.toNat_add, UInt64.toNat_one, Nat.mod_eq_of_lt (by omega)]

theorem toNat_sub_one (size : UInt64) (hpos : 0 < size.toNat) :
    (size - 1).toNat = size.toNat - 1 := by
  rw [UInt64.toNat_sub_of_le, UInt64.toNat_one]
  rw [UInt64.le_iff_toNat_le, UInt64.toNat_one]
  exact hpos

/-! ## The sections under the mutex -/

namespace Pool

variable {p : Pool Raw}

theorem retireTimeout_spec (settings : Settings) (now : ℤ) (size : UInt64)
    (idleList : List (IdleConn Raw)) (hsize : idleList.length ≤ size.toNat) :
    (retireTimeout settings now size idleList).1.toNat + idleList.length
      = size.toNat + (retireTimeout settings now size idleList).2.length := by
  induction idleList generalizing size with
  | nil => rfl
  | cons idle rest ih =>
      rw [retireTimeout]
      split
      · rw [List.length_cons] at hsize ⊢
        have hless := toNat_sub_one size (by omega)
        have hrest := ih (size - 1) (by omega)
        omega
      · rfl

theorem retireTimeout_length_le (settings : Settings) (now : ℤ) (size : UInt64)
    (idleList : List (IdleConn Raw)) :
    (retireTimeout settings now size idleList).2.length ≤ idleList.length := by
  induction idleList generalizing size with
  | nil => exact le_rfl
  | cons idle rest ih =>
      rw [retireTimeout]
      split
      · exact (ih (size - 1)).trans (Nat.le_succ _)
      · exact le_rfl

theorem acquire_spec {result : Acquired Raw × Pool Raw} (hacquire : p.acquire settings = result) :
    (∃ conn p', result = (.reused conn, p') ∧ p'.undefined = p.undefined ∧ p'.size = p.size ∧
      p'.idleList.length + 1 = p.idleList.length) ∨
    (result = (.exhausted, p) ∧ p.idleList = [] ∧ settings.capacity ≤ p.size) ∨
    (result = (.reserved, { p with size := p.size + 1 }) ∧ p.idleList = [] ∧
      p.size < settings.capacity) := by
  subst hacquire
  unfold acquire
  split
  · next idle hlast =>
    refine .inl ⟨_, _, rfl, rfl, rfl, ?_⟩
    have hsplit := List.dropLast_append_getLast? idle hlast
    exact (List.length_append.symm.trans (congrArg List.length hsplit) :)
  · next hnone =>
    have hempty := List.getLast?_eq_none_iff.mp hnone
    split
    · next hfull => exact .inr (.inl ⟨rfl, hempty, hfull⟩)
    · next hroom => exact .inr (.inr ⟨rfl, hempty, UInt64.not_le.mp hroom⟩)

theorem acquire_length_le (p : Pool Raw) :
    (p.acquire settings).2.idleList.length ≤ p.idleList.length := by
  rcases acquire_spec (Eq.refl (p.acquire settings)) with
    ⟨conn, p', hresult, -, -, hidle⟩ | ⟨hresult, -, -⟩ | ⟨hresult, -, -⟩
  · rw [hresult]
    exact Nat.le_of_succ_le hidle.le
  · rw [hresult]
  · rw [hresult]

/-- `Put` with at most `maxIdle` idle connections: there is one more of them or
`size_` is one less; unless none is allowed. -/
theorem put_spec (hbound : p.idleList.length ≤ settings.maxIdle.toNat)
    (hsize : p.idleList.length ≤ p.size.toNat) (rawConn : Raw) (creation now : ℤ) :
    (settings.maxIdle = 0 ∧ (p.put settings rawConn creation now).undefined = true) ∨
    (settings.maxIdle ≠ 0 ∧ (p.put settings rawConn creation now).undefined = p.undefined ∧
      (p.put settings rawConn creation now).size.toNat + p.idleList.length + 1
        = p.size.toNat + (p.put settings rawConn creation now).idleList.length ∧
      (p.put settings rawConn creation now).size.toNat ≤ p.size.toNat) := by
  unfold put
  split
  · next hfull =>
    split
    · next hnil =>
      rw [hnil, List.length_nil] at hfull
      exact .inl ⟨UInt64.toNat_inj.mp hfull.symm, rfl⟩
    · next idle rest hcons =>
      rw [hcons, List.length_cons] at hfull hsize
      have hless := toNat_sub_one p.size (by omega)
      refine .inr ⟨?_, rfl, ?_, by dsimp only; omega⟩
      · rintro hzero
        rw [hzero, UInt64.toNat_zero] at hfull
        omega
      · dsimp only
        rw [hcons, List.length_append, List.length_cons, List.length_singleton, hless]
        omega
  · next hroom =>
    refine .inr ⟨?_, rfl, ?_, le_rfl⟩
    · rintro hzero
      rw [hzero, UInt64.toNat_zero] at hbound hroom
      omega
    · dsimp only
      rw [List.length_append, List.length_singleton]
      omega

theorem put_length_le (hbound : p.idleList.length ≤ settings.maxIdle.toNat) (rawConn : Raw)
    (creation now : ℤ) :
    (p.put settings rawConn creation now).idleList.length ≤ settings.maxIdle.toNat := by
  unfold put
  split
  · split
    · exact hbound
    · next idle rest hcons =>
      rw [hcons] at hbound
      rw [List.length_append]
      exact hbound
  · next hroom =>
    rw [List.length_append, List.length_singleton]
    omega

end Pool

/-! ## The objects -/

namespace State

variable {s : State Raw}

theorem countP_set {objects : List (Option (Conn Raw))} {i : ℕ} {old : Option (Conn Raw)}
    (hi : objects[i]? = some old) (new : Option (Conn Raw)) :
    (objects.set i new).countP Option.isSome + (if old.isSome then 1 else 0)
      = objects.countP Option.isSome + (if new.isSome then 1 else 0) := by
  obtain ⟨hlt, hget⟩ := List.getElem?_eq_some_iff.mp hi
  have hpos : (if old.isSome then 1 else 0) ≤ objects.countP Option.isSome := by
    split
    · next hsome =>
      exact List.countP_pos_iff.mpr ⟨old, hget ▸ List.getElem_mem hlt, hsome⟩
    · exact Nat.zero_le _
  rw [List.countP_set hlt, hget]
  omega

theorem countP_eraseIdx {objects : List (Option (Conn Raw))} {i : ℕ} {old : Option (Conn Raw)}
    (hi : objects[i]? = some old) :
    (objects.eraseIdx i).countP Option.isSome + (if old.isSome then 1 else 0)
      = objects.countP Option.isSome := by
  obtain ⟨hlt, hget⟩ := List.getElem?_eq_some_iff.mp hi
  have hperm := (List.getElem_cons_eraseIdx_perm hlt).countP_eq Option.isSome
  rw [List.countP_cons, hget] at hperm
  exact hperm

/-! ## Steps that keep the accounting -/

variable {s' : State Raw}

theorem get_accounted (hs : Accounted settings s) (now : ℤ) :
    Accounted settings (s.get settings now) := by
  unfold get
  split
  · -- every retired connection was counted
    have hsize := hs.size_eq
    have hretired := Pool.retireTimeout_spec settings now s.pool.size s.pool.idleList (by omega)
    have hshorter := Pool.retireTimeout_length_le settings now s.pool.size s.pool.idleList
    have hle := UInt64.le_iff_toNat_le.mp hs.size_le
    refine ⟨hs.defined, ?_, ?_, hs.exhausted⟩
    · show (Pool.retireTimeout settings now s.pool.size s.pool.idleList).1.toNat
        = (Pool.retireTimeout settings now s.pool.size s.pool.idleList).2.length
          + s.live + s.creations
      omega
    · refine UInt64.le_iff_toNat_le.mpr ?_
      show (Pool.retireTimeout settings now s.pool.size s.pool.idleList).1.toNat
        ≤ settings.capacity.toNat
      omega
  · exact ⟨hs.defined, hs.size_eq, hs.size_le, hs.exhausted⟩

/-- With all connections and creations counted, a full pool without idle
connections really is exhausted. -/
theorem acquire_accounted (hs : Accounted settings s) (hacquire : s.acquire settings = some s') :
    Accounted settings s' := by
  have hsize := hs.size_eq
  unfold acquire at hacquire
  split at hacquire
  · cases hacquire
  dsimp only at hacquire
  rcases hresult : s.pool.acquire settings with ⟨acquired, p⟩
  rw [hresult] at hacquire
  rcases Pool.acquire_spec hresult with ⟨conn, p', hp, hdefined, hsame, hidle⟩ |
    ⟨hp, hempty, hfull⟩ | ⟨hp, hempty, hroom⟩
  · obtain ⟨rfl, rfl⟩ := Prod.mk.inj hp
    obtain rfl := Option.some.inj hacquire
    refine ⟨hdefined.trans hs.defined, ?_, hsame ▸ hs.size_le, hs.exhausted⟩
    show p.size.toNat = p.idleList.length + (s.objects ++ [some conn]).countP Option.isSome
      + s.creations
    rw [List.countP_append, List.countP_singleton, hsame, hsize, live]
    simp only [Option.isSome_some, if_true]
    omega
  · obtain ⟨rfl, rfl⟩ := Prod.mk.inj hp
    obtain rfl := Option.some.inj hacquire
    refine ⟨hs.defined, hsize, hs.size_le, ?_⟩
    intro n hn
    rcases List.mem_append.mp hn with hn | hn
    · exact hs.exhausted n hn
    · rw [List.mem_singleton.mp hn]
      calc s.live + s.creations
          = s.pool.size.toNat := by rw [hsize, hempty, List.length_nil, Nat.zero_add]
        _ = settings.capacity.toNat :=
            congrArg UInt64.toNat (UInt64.le_antisymm hs.size_le hfull)
  · obtain ⟨rfl, rfl⟩ := Prod.mk.inj hp
    obtain rfl := Option.some.inj hacquire
    have hmore := toNat_add_one hroom
    refine ⟨hs.defined, ?_, ?_, hs.exhausted⟩
    · show (s.pool.size + 1).toNat = s.pool.idleList.length + s.live
        + (s.creating + 1 + s.failing)
      rw [hmore, hsize, creations]
      omega
    · rw [UInt64.le_iff_toNat_le, hmore]
      exact UInt64.lt_iff_toNat_lt.mp hroom

theorem newConnReturns_accounted (hs : Accounted settings s) {rawConn : Raw} {now : ℤ}
    (hreturns : s.newConnReturns rawConn now = some s') : Accounted settings s' := by
  have hsize := hs.size_eq
  unfold newConnReturns at hreturns
  split at hreturns
  · cases hreturns
  · next hcreating =>
    obtain rfl := Option.some.inj hreturns
    refine ⟨hs.defined, ?_, hs.size_le, hs.exhausted⟩
    show s.pool.size.toNat = s.pool.idleList.length
      + (s.objects ++ [some (Conn.mk rawConn now)]).countP Option.isSome
      + (s.creating - 1 + s.failing)
    rw [List.countP_append, List.countP_singleton, hsize, live, creations]
    simp only [Option.isSome_some, if_true]
    omega

theorem giveBack_accounted (hs : Accounted settings s) (hback : s.giveBack = some s') :
    Accounted settings s' := by
  have hsize := hs.size_eq
  unfold giveBack at hback
  split at hback
  · cases hback
  · next hfailing =>
    obtain rfl := Option.some.inj hback
    unfold creations at hsize
    have hless := toNat_sub_one s.pool.size (by omega)
    have hle := UInt64.le_iff_toNat_le.mp hs.size_le
    refine ⟨hs.defined, ?_, ?_, hs.exhausted⟩
    · show (s.pool.size - 1).toNat = s.pool.idleList.length + s.live
        + (s.creating + (s.failing - 1))
      omega
    · refine UInt64.le_iff_toNat_le.mpr ?_
      show (s.pool.size - 1).toNat ≤ settings.capacity.toNat
      omega

theorem moveConstruct_accounted (hs : Accounted settings s) {i : ℕ}
    (hmove : s.moveConstruct i = some s') : Accounted settings s' := by
  unfold moveConstruct at hmove
  split at hmove
  · cases hmove
  · next object hi =>
    obtain rfl := Option.some.inj hmove
    refine ⟨hs.defined, ?_, hs.size_le, hs.exhausted⟩
    have hset := countP_set hi none
    show s.pool.size.toNat = s.pool.idleList.length
      + (s.objects.set i none ++ [object]).countP Option.isSome + s.creations
    rw [List.countP_append, List.countP_singleton, hs.size_eq, live]
    rw [Option.isSome_none, if_neg Bool.false_ne_true] at hset
    omega

/-! ## Steps that may lose a connection -/

/-- An exception that is no `std::exception` leaves the reservation behind. -/
theorem newConnThrows_iff (hs : Accounted settings s) {stdException : Bool}
    (hthrows : s.newConnThrows stdException = some s') :
    Accounted settings s' ↔ stdException = true := by
  have hsize := hs.size_eq
  unfold newConnThrows at hthrows
  split at hthrows
  · cases hthrows
  next hcreating =>
  cases stdException with
  | true =>
      obtain rfl := Option.some.inj hthrows
      refine iff_of_true ⟨hs.defined, ?_, hs.size_le, hs.exhausted⟩ rfl
      show s.pool.size.toNat = s.pool.idleList.length + s.live
        + (s.creating - 1 + (s.failing + 1))
      rw [hsize, creations]
      omega
  | false =>
      obtain rfl := Option.some.inj hthrows
      refine iff_of_false ?_ Bool.false_ne_true
      intro hs'
      have hsize' : s.pool.size.toNat = s.pool.idleList.length + s.live
        + (s.creating - 1 + s.failing) := hs'.size_eq
      unfold creations at hsize
      omega

/-- A `Put` beside the destructors adds a connection that was never counted. -/
theorem put_not_accounted (hbound : IdleBounded settings s) (hs : Accounted settings s)
    (rawConn : Raw) (creation now : ℤ) :
    ¬ Accounted settings { s with pool := s.pool.put settings rawConn creation now } := by
  intro hs'
  have hsize := hs.size_eq
  have hsize' := hs'.size_eq
  rcases Pool.put_spec hbound (by omega) rawConn creation now with ⟨-, hundefined⟩ |
    ⟨-, -, hmore, -⟩
  · exact Bool.false_ne_true (hs'.defined.symm.trans hundefined)
  · dsimp only [live, creations] at hsize hsize'
    omega

/-- A destructor returns the connection, if the pool may keep one. -/
theorem destroy_iff (hbound : IdleBounded settings s) (hs : Accounted settings s) {i : ℕ} {now : ℤ}
    (hdestroy : s.destroy settings i now = some s') :
    Accounted settings s' ↔ (settings.maxIdle = 0 → s.objects[i]? = some none) := by
  have hsize := hs.size_eq
  unfold destroy at hdestroy
  split at hdestroy
  · cases hdestroy
  · next hi =>
    obtain rfl := Option.some.inj hdestroy
    have hrest := countP_eraseIdx hi
    rw [Option.isSome_none, if_neg Bool.false_ne_true] at hrest
    refine iff_of_true ⟨hs.defined, ?_, hs.size_le, hs.exhausted⟩ fun _ => hi
    show s.pool.size.toNat = s.pool.idleList.length
      + (s.objects.eraseIdx i).countP Option.isSome + s.creations
    rw [hsize, live]
    omega
  · next conn hi =>
    obtain rfl := Option.some.inj hdestroy
    have hrest := countP_eraseIdx hi
    rw [Option.isSome_some, if_pos rfl] at hrest
    rcases Pool.put_spec hbound (by omega) conn.rawConn conn.creation now with
      ⟨hzero, hundefined⟩ | ⟨hpositive, hdefined, hmore, hless⟩
    · refine iff_of_false ?_ ?_
      · exact fun hs' => Bool.false_ne_true (hs'.defined.symm.trans hundefined)
      · exact fun hunbound => by simpa [hi] using hunbound hzero
    · have hle := UInt64.le_iff_toNat_le.mp hs.size_le
      refine iff_of_true ⟨hdefined.trans hs.defined, ?_, ?_, hs.exhausted⟩ fun hzero =>
        absurd hzero hpositive
      · show (s.pool.put settings conn.rawConn conn.creation now).size.toNat
          = (s.pool.put settings conn.rawConn conn.creation now).idleList.length
            + (s.objects.eraseIdx i).countP Option.isSome + s.creations
        unfold live at hsize
        omega
      · exact UInt64.le_iff_toNat_le.mpr (hless.trans hle)

/-- A move assignment drops the connection of its destination. -/
theorem moveAssign_iff (hs : Accounted settings s) {dest source : ℕ}
    (hmove : s.moveAssign dest source = some s') :
    Accounted settings s' ↔ (dest ≠ source → s.objects[dest]? = some none) := by
  have hsize := hs.size_eq
  unfold moveAssign at hmove
  split at hmove
  · next dropped object hdest hsource =>
    split at hmove
    · next hself =>
      obtain rfl := Option.some.inj hmove
      exact iff_of_true hs fun hne => absurd hself hne
    · next hne =>
      obtain rfl := Option.some.inj hmove
      have hfirst := countP_set hdest object
      have hsource' : (s.objects.set dest object)[source]? = some object :=
        (List.getElem?_set_ne hne).trans hsource
      have hsecond := countP_set hsource' none
      rw [Option.isSome_none, if_neg Bool.false_ne_true] at hsecond
      have hlive : ({ s with objects := (s.objects.set dest object).set source none } :
          State Raw).live + (if dropped.isSome then 1 else 0) = s.live := by
        unfold live
        dsimp only
        omega
      rw [hdest]
      cases dropped with
      | none =>
          refine iff_of_true ⟨hs.defined, ?_, hs.size_le, hs.exhausted⟩ fun _ => rfl
          rw [Option.isSome_none, if_neg Bool.false_ne_true, Nat.add_zero] at hlive
          rw [hlive]
          exact hsize
      | some conn =>
          refine iff_of_false ?_ fun hunbound => by simpa using hunbound hne
          intro hs'
          have hsize' := hs'.size_eq
          rw [Option.isSome_some, if_pos rfl] at hlive
          dsimp only [creations] at hsize hsize'
          omega
  · cases hmove

/-! ## Runs -/

theorem acquire_pool (hacquire : s.acquire settings = some s') :
    s'.pool = (s.pool.acquire settings).2 := by
  unfold acquire at hacquire
  split at hacquire
  · cases hacquire
  · rcases hresult : s.pool.acquire settings with ⟨acquired, p⟩
    cases acquired with
    | reused conn =>
        simp only [hresult] at hacquire
        exact congrArg State.pool (Option.some.inj hacquire).symm
    | exhausted =>
        simp only [hresult] at hacquire
        exact congrArg State.pool (Option.some.inj hacquire).symm
    | reserved =>
        simp only [hresult] at hacquire
        exact congrArg State.pool (Option.some.inj hacquire).symm

def poolAfter (settings : Settings) (s : State Raw) : Action Raw → Pool Raw
  | .get now =>
      if settings.idleTimeout > 0 then s.pool.retireTimeoutIdleConnections settings now else s.pool
  | .acquire => (s.pool.acquire settings).2
  | .giveBack => { s.pool with size := s.pool.size - 1 }
  | .put rawConn creation now => s.pool.put settings rawConn creation now
  | .destroy i now =>
      match s.objects[i]? with
      | some (some conn) => s.pool.put settings conn.rawConn conn.creation now
      | _ => s.pool
  | .newConnReturns _ _ | .newConnThrows _ | .moveConstruct _ | .moveAssign _ _ => s.pool

theorem step_pool {action : Action Raw} (hstep : (system Raw settings).step s action = some s') :
    s'.pool = s.poolAfter settings action := by
  simp only [system, Option.ite_none_left_eq_some] at hstep
  obtain ⟨-, hstep⟩ := hstep
  cases action with
  | get now =>
      obtain rfl := Option.some.inj hstep
      rfl
  | acquire => exact acquire_pool hstep
  | newConnReturns rawConn now =>
      simp only [newConnReturns, Option.ite_none_left_eq_some, Option.some.injEq] at hstep
      obtain ⟨-, rfl⟩ := hstep
      rfl
  | newConnThrows stdException =>
      simp only [newConnThrows, Option.ite_none_left_eq_some] at hstep
      obtain ⟨-, hstep⟩ := hstep
      split at hstep <;> obtain rfl := Option.some.inj hstep <;> rfl
  | giveBack =>
      simp only [giveBack, Option.ite_none_left_eq_some, Option.some.injEq] at hstep
      obtain ⟨-, rfl⟩ := hstep
      rfl
  | put rawConn creation now =>
      obtain rfl := Option.some.inj hstep
      rfl
  | destroy i now =>
      dsimp only [destroy] at hstep
      dsimp only [poolAfter]
      split at hstep
      · cases hstep
      · next hi =>
        obtain rfl := Option.some.inj hstep
        rw [hi]
      · next conn hi =>
        obtain rfl := Option.some.inj hstep
        rw [hi]
  | moveConstruct i =>
      dsimp only [moveConstruct] at hstep
      split at hstep
      · cases hstep
      · obtain rfl := Option.some.inj hstep
        rfl
  | moveAssign dest source =>
      dsimp only [moveAssign] at hstep
      split at hstep
      · split at hstep <;> obtain rfl := Option.some.inj hstep <;> rfl
      · cases hstep

theorem idleBounded_step (hbound : IdleBounded settings s) {action : Action Raw}
    (hstep : (system Raw settings).step s action = some s') : IdleBounded settings s' := by
  unfold IdleBounded at hbound ⊢
  rw [step_pool hstep]
  cases action with
  | get now =>
      dsimp only [poolAfter]
      split
      · exact (Pool.retireTimeout_length_le settings now _ _).trans hbound
      · exact hbound
  | acquire => exact (Pool.acquire_length_le s.pool).trans hbound
  | put rawConn creation now => exact Pool.put_length_le hbound rawConn creation now
  | destroy i now =>
      dsimp only [poolAfter]
      split
      · exact Pool.put_length_le hbound _ _ _
      · exact hbound
  | giveBack => exact hbound
  | newConnReturns rawConn now => exact hbound
  | newConnThrows stdException => exact hbound
  | moveConstruct i => exact hbound
  | moveAssign dest source => exact hbound

/-- **One step** keeps the accounting exactly when it is careful. -/
theorem step_iff (hbound : IdleBounded settings s) (hs : Accounted settings s)
    {action : Action Raw} (hstep : (system Raw settings).step s action = some s') :
    Accounted settings s' ↔ Careful settings s action := by
  simp only [system, Option.ite_none_left_eq_some] at hstep
  obtain ⟨-, hstep⟩ := hstep
  cases action with
  | get now =>
      obtain rfl := Option.some.inj hstep
      exact iff_of_true (get_accounted hs now) trivial
  | acquire => exact iff_of_true (acquire_accounted hs hstep) trivial
  | newConnReturns rawConn now => exact iff_of_true (newConnReturns_accounted hs hstep) trivial
  | newConnThrows stdException => exact newConnThrows_iff hs hstep
  | giveBack => exact iff_of_true (giveBack_accounted hs hstep) trivial
  | put rawConn creation now =>
      obtain rfl := Option.some.inj hstep
      exact iff_of_false (put_not_accounted hbound hs rawConn creation now) id
  | destroy i now => exact destroy_iff hbound hs hstep
  | moveConstruct i => exact iff_of_true (moveConstruct_accounted hs hstep) trivial
  | moveAssign dest source => exact moveAssign_iff hs hstep

end State

end Eureka.ConnPool

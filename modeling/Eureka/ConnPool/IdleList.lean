import Eureka.ConnPool.Accounting

/-!
# The bound of the idle list

`Put` makes room in the idle list before it pushes, and only when the list has
exactly `max_idle_` connections.  So the bound holds after a push because it held
before, and there is a connection to pop unless `max_idle_` is 0.

* `retireStatements_eq`, `acquireStatements_eq`, `putStatements_eq`: the sections
  with every access to the deque written out.  `Get` never accesses the front or
  back of an empty deque, and `Put` does so where `Pool.undefined` says it;
* `bounded_iff`: the bound holds and no empty deque is accessed throughout a run
  exactly when nothing is put into a pool that may keep no idle connection.
-/

namespace Eureka.ConnPool

open Transition

variable {Raw : Type} {settings : Settings}

/-! ## The sections, access by access -/

/-- `front` and `pop_front`; neither is defined on an empty deque. -/
def takeFront : List (IdleConn Raw) → Option (IdleConn Raw × List (IdleConn Raw))
  | [] => none
  | front :: rest => some (front, rest)

/-- `back` and `pop_back`. -/
def takeBack (idleList : List (IdleConn Raw)) : Option (IdleConn Raw × List (IdleConn Raw)) :=
  idleList.getLast?.map fun back => (back, idleList.dropLast)

namespace Pool

/-- The loop of `RetireTimeoutIdleConnections`; a round takes one unit of fuel. -/
def retireStatements (settings : Settings) (now : ℤ) : ℕ → Pool Raw → Option (Pool Raw)
  | 0, _ => none
  | fuel + 1, p =>
      if p.idleList.isEmpty then some p
      else do
        let (front, rest) ← takeFront p.idleList
        if now - front.lastActive ≥ settings.idleNanoseconds then
          retireStatements settings now fuel { p with idleList := rest, size := p.size - 1 }
        else
          return p

/-- The second section of `Get`. -/
def acquireStatements (settings : Settings) (p : Pool Raw) : Option (Acquired Raw × Pool Raw) :=
  if !p.idleList.isEmpty then do
    let (back, rest) ← takeBack p.idleList
    return (.reused ⟨back.conn, back.created⟩, { p with idleList := rest })
  else if p.size ≥ settings.capacity then some (.exhausted, p)
  else some (.reserved, { p with size := p.size + 1 })

/-- `Put`. -/
def putStatements (settings : Settings) (p : Pool Raw) (rawConn : Raw) (creation now : ℤ) :
    Option (Pool Raw) := do
  let p ←
    -- an equality: a longer list would not be cut
    if p.idleList.length = settings.maxIdle.toNat then do
      let (_, rest) ← takeFront p.idleList
      pure { p with idleList := rest, size := p.size - 1 }
    else pure p
  return { p with idleList := p.idleList ++ [⟨rawConn, creation, now⟩] }

variable (p : Pool Raw)

theorem retireStatements_eq (now : ℤ) {fuel : ℕ} (hfuel : p.idleList.length < fuel) :
    p.retireStatements settings now fuel = some (p.retireTimeoutIdleConnections settings now) := by
  induction fuel generalizing p with
  | zero => exact absurd hfuel (Nat.not_lt_zero _)
  | succ fuel ih =>
      obtain ⟨size, idleList, undefined⟩ := p
      cases idleList with
      | nil => rfl
      | cons front rest =>
          have hrest := ih ⟨size - 1, rest, undefined⟩ (Nat.lt_of_succ_lt_succ hfuel)
          simp only [retireTimeoutIdleConnections] at hrest ⊢
          rw [retireStatements, retireTimeout]
          simp only [List.isEmpty_cons, Bool.false_eq_true, if_false, takeFront, Option.bind_eq_bind,
            Option.bind_some]
          split
          · exact hrest
          · rfl

theorem acquireStatements_eq : p.acquireStatements settings = some (p.acquire settings) := by
  unfold acquireStatements acquire takeBack
  cases hlast : p.idleList.getLast? with
  | none =>
      rw [List.getLast?_eq_none_iff.mp hlast]
      simp only [List.isEmpty_nil, Bool.not_true, Bool.false_eq_true, if_false]
      split <;> rfl
  | some back =>
      have hempty : p.idleList.isEmpty = false := by
        rw [List.isEmpty_eq_false_iff]
        rintro hnil
        rw [hnil] at hlast
        cases hlast
      rw [hempty]
      rfl

/-- The accesses of `Put` are defined, or `put` says that one was not. -/
theorem putStatements_eq (hdefined : p.undefined = false) (rawConn : Raw) (creation now : ℤ) :
    p.putStatements settings rawConn creation now =
      if (p.put settings rawConn creation now).undefined then none
      else some (p.put settings rawConn creation now) := by
  obtain ⟨size, idleList, undefined⟩ := p
  obtain rfl : undefined = false := hdefined
  unfold putStatements put
  dsimp only
  split
  · cases idleList with
    | nil => rfl
    | cons front rest => rfl
  · rfl

/-- `Put` accesses an empty deque exactly when it may keep no connection. -/
theorem put_undefined_iff (hdefined : p.undefined = false)
    (hbound : p.idleList.length ≤ settings.maxIdle.toNat) (rawConn : Raw) (creation now : ℤ) :
    (p.put settings rawConn creation now).undefined = true ↔ settings.maxIdle = 0 := by
  unfold put
  split
  · next hfull =>
    split
    · next hnil =>
      -- the list is full although it is empty
      rw [hnil, List.length_nil] at hfull
      exact iff_of_true rfl (UInt64.toNat_inj.mp hfull.symm)
    · next front rest hcons =>
      refine iff_of_false (by rw [hdefined]; exact Bool.false_ne_true) ?_
      intro hzero
      rw [hcons, hzero] at hfull
      cases hfull
  · next hroom =>
    refine iff_of_false (by rw [hdefined]; exact Bool.false_ne_true) ?_
    intro hzero
    rw [hzero, UInt64.toNat_zero] at hbound hroom
    exact hroom (Nat.le_zero.mp hbound)

end Pool

/-! ## Runs -/

/-- The idle list is within its bound, no section has accessed an empty deque, and
neither section of a `Get` does so from here. -/
structure Bounded (settings : Settings) (s : State Raw) : Prop where
  idle_le : s.pool.idleList.length ≤ settings.maxIdle.toNat
  defined : s.pool.undefined = false
  retire : ∀ now, ∃ p, s.pool.retireStatements settings now (s.pool.idleList.length + 1) = some p
  acquire : ∃ result, s.pool.acquireStatements settings = some result

/-- The step returns no connection to a pool that may keep none. -/
def KeepsIdle (settings : Settings) (s : State Raw) : Action Raw → Prop
  | .put _ _ _ => settings.maxIdle ≠ 0
  | .destroy i _ => settings.maxIdle = 0 → (s.objects[i]?).join = none
  | _ => True

instance (s : State Raw) (action : Action Raw) : Decidable (KeepsIdle settings s action) := by
  cases action <;> unfold KeepsIdle <;> infer_instance

theorem bounded_of_idleBounded {s : State Raw} (hbound : IdleBounded settings s) :
    Bounded settings s ↔ s.pool.undefined = false := by
  refine ⟨Bounded.defined, fun hdefined => ⟨hbound, hdefined, fun now => ?_, ?_⟩⟩
  · exact ⟨_, s.pool.retireStatements_eq now (Nat.lt_succ_self _)⟩
  · exact ⟨_, s.pool.acquireStatements_eq⟩

namespace State

variable {s s' : State Raw}

theorem undefined_poolAfter_iff (hbound : IdleBounded settings s)
    (hdefined : s.pool.undefined = false) (action : Action Raw) :
    (s.poolAfter settings action).undefined = false ↔ KeepsIdle settings s action := by
  -- only `put`, and `destroy` with a connection, get to `Put`
  have hput := fun rawConn creation now => Bool.eq_false_iff.trans
    (not_congr (s.pool.put_undefined_iff hdefined hbound rawConn creation now))
  cases action with
  | get now =>
      refine iff_of_true ?_ trivial
      dsimp only [poolAfter]
      split <;> exact hdefined
  | acquire =>
      refine iff_of_true ?_ trivial
      rcases Pool.acquire_spec (Eq.refl (s.pool.acquire settings)) with
        ⟨conn, p', hresult, hsame, -, -⟩ | ⟨hresult, -, -⟩ | ⟨hresult, -, -⟩
      all_goals simp only [poolAfter, hresult]
      · exact hsame.trans hdefined
      · exact hdefined
      · exact hdefined
  | put rawConn creation now => exact hput rawConn creation now
  | destroy i now =>
      dsimp only [poolAfter, KeepsIdle]
      rcases s.objects[i]? with _ | _ | conn
      · exact iff_of_true hdefined fun _ => rfl
      · exact iff_of_true hdefined fun _ => rfl
      · exact (hput _ _ _).trans ⟨fun hne hzero => absurd hzero hne, fun h hzero => nomatch h hzero⟩
  | giveBack => exact iff_of_true hdefined trivial
  | newConnReturns rawConn now => exact iff_of_true hdefined trivial
  | newConnThrows stdException => exact iff_of_true hdefined trivial
  | moveConstruct i => exact iff_of_true hdefined trivial
  | moveAssign dest source => exact iff_of_true hdefined trivial

/-- **One step** of a bounded pool. -/
theorem step_bounded_iff (hbound : IdleBounded settings s) (hs : Bounded settings s)
    {action : Action Raw} (hstep : (system Raw settings).step s action = some s') :
    Bounded settings s' ↔ KeepsIdle settings s action := by
  rw [bounded_of_idleBounded (idleBounded_step hbound hstep), step_pool hstep]
  exact undefined_poolAfter_iff hbound hs.defined action

end State

/-- **The bound of the idle list.**  Throughout a run the idle list has at most `max_idle_`
connections and neither `Put` nor `Get` accesses an empty deque, exactly when no step of
the run returns a connection to a pool that may keep none. -/
theorem bounded_iff {s₀ s : State Raw} {actions : List (Action Raw)}
    (hstart : (system Raw settings).start s₀)
    (hrun : (system Raw settings).run s₀ actions = some s) :
    (system Raw settings).Always (Bounded settings) s₀ actions ↔
      (system Raw settings).EachStep (KeepsIdle settings) s₀ actions := by
  obtain rfl : s₀ = ⟨⟨0, [], false⟩, [], 0, 0, 0, []⟩ := hstart
  have hbound : IdleBounded settings (⟨⟨0, [], false⟩, [], 0, 0, 0, []⟩ : State Raw) :=
    Nat.zero_le _
  refine System.always_iff_eachStep (I := IdleBounded settings)
    (fun _ _ _ hbound hstep => State.idleBounded_step hbound hstep)
    (fun _ _ _ hbound hs hstep => State.step_bounded_iff hbound hs hstep) hbound ?_ hrun
  exact (bounded_of_idleBounded hbound).mpr rfl

/-- Two connections come back to a pool that keeps one of them. -/
theorem bounded_iff_full :
    (system ℕ ⟨2, 1, 10⟩).Always (Bounded ⟨2, 1, 10⟩) ⟨⟨0, [], false⟩, [], 0, 0, 0, []⟩
      [.get 0, .acquire, .get 0, .acquire, .newConnReturns 7 1, .newConnReturns 8 1,
        .destroy 0 2, .destroy 0 3, .get 4, .acquire, .destroy 0 5, .get 20] := by
  obtain ⟨s, hrun⟩ := Option.isSome_iff_exists.mp
    (show ((system ℕ ⟨2, 1, 10⟩).run ⟨⟨0, [], false⟩, [], 0, 0, 0, []⟩
      [.get 0, .acquire, .get 0, .acquire, .newConnReturns 7 1, .newConnReturns 8 1,
        .destroy 0 2, .destroy 0 3, .get 4, .acquire, .destroy 0 5, .get 20]).isSome = true by
      decide)
  exact (bounded_iff rfl hrun).mpr (by decide)

/-- With `max_reused` 0 the first connection that is returned makes `Put` take the front of
the empty idle list. -/
theorem put_without_room :
    ∃ s, (system ℕ ⟨1, 0, 0⟩).run ⟨⟨0, [], false⟩, [], 0, 0, 0, []⟩
        [.get 0, .acquire, .newConnReturns 7 0, .destroy 0 1] = some s ∧
      ¬ Bounded ⟨1, 0, 0⟩ s ∧ (⟨1, [], false⟩ : Pool ℕ).putStatements ⟨1, 0, 0⟩ 7 0 1 = none := by
  refine ⟨⟨⟨1, [], true⟩, [], 0, 0, 0, []⟩, by decide, ?_, rfl⟩
  exact fun hbounded => nomatch hbounded.defined

end Eureka.ConnPool

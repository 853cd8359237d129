import Eureka.LightMutex.Exclusion

/-!
# The light mutex

`lock`, `try_lock` and `unlock` of `light_mutex.h`, in the steps of the
recursive mutex.  `try_lock` does not write `owner_tid_`, which the recursive
one does; `unlock` begins with the assertion on it.  `held` is not in the code:
it says how a thread that has the mutex got it.

* `Inv`: the token is where the recursive mutex has it, and `owner_tid_` names
  the threads that got the mutex by `lock`.
* `safe_iff`: exclusion and the assertion, against the calls of `unlock`.
-/

namespace Eureka.LightMutex.NonRecursive

open Transition

inductive Acquired
  | byLock
  | byTryLock
  deriving DecidableEq

inductive Local
  | idle
  -- lock
  | lockAdd
  | wait
  | setOwner
  -- try_lock
  | tryExchange
  -- unlock, behind the assertion
  | clearOwner
  | unlockAdd
  | release
  deriving DecidableEq

structure Caller where
  pc : Local
  held : Option Acquired
  deriving DecidableEq

structure Mutex (Thread : Type) where
  /-- The count of the semaphore, which is at most 1. -/
  sem : ℕ
  ownerTid : Option Thread
  useCount : ℤ
  caller : Thread → Caller
  /-- The assertion of an `unlock` failed. -/
  assertFailed : Bool
  /-- The semaphore could not be released, since its count was 1. -/
  releaseFailed : Bool

variable {Thread : Type} [DecidableEq Thread]

namespace Mutex

def put (m : Mutex Thread) (t : Thread) (caller : Caller) : Mutex Thread :=
  { m with caller := Function.update m.caller t caller }

def goto (m : Mutex Thread) (t : Thread) (pc : Local) : Mutex Thread :=
  m.put t ⟨pc, (m.caller t).held⟩

/-- `_InterlockedExchangeAdd`. -/
def addUse (m : Mutex Thread) (delta : ℤ) : Mutex Thread :=
  { m with useCount := long (m.useCount + delta) }

/-- The next step of a thread, if it can be done. -/
def next? (m : Mutex Thread) (t : Thread) : Option (Mutex Thread) :=
  match (m.caller t).pc with
  | .idle => none
  | .lockAdd => some ((m.addUse 1).goto t (if m.useCount > 0 then .wait else .setOwner))
  | .wait => if 0 < m.sem then some ({ m with sem := m.sem - 1 }.goto t .setOwner) else none
  | .setOwner => some ({ m with ownerTid := some t }.put t ⟨.idle, some .byLock⟩)
  | .tryExchange =>
      -- try_lock returns false where the count is not 0
      if m.useCount ≠ 0 then some (m.goto t .idle)
      else some ({ m with useCount := 1 }.put t ⟨.idle, some .byTryLock⟩)
  | .clearOwner => some ({ m with ownerTid := none }.goto t .unlockAdd)
  | .unlockAdd => some ((m.addUse (-1)).put t ⟨if m.useCount > 1 then .release else .idle, none⟩)
  | .release =>
      if m.sem < 1 then some ({ m with sem := m.sem + 1 }.goto t .idle)
      else some ({ m with releaseFailed := true }.goto t .idle)

end Mutex

/-- Only a thread that has the mutex calls `unlock`. -/
def step (m : Mutex Thread) (action : Action Thread) : Option (Mutex Thread) :=
  if m.assertFailed then none
  else
    match action with
    | .lock t => if (m.caller t).pc = .idle then some (m.goto t .lockAdd) else none
    | .tryLock t => if (m.caller t).pc = .idle then some (m.goto t .tryExchange) else none
    | .unlock t =>
        if (m.caller t).pc = .idle ∧ (m.caller t).held.isSome then
          if m.ownerTid = some t then some (m.goto t .clearOwner)
          else some { m with assertFailed := true }
        else none
    | .step t => m.next? t

omit [DecidableEq Thread] in
def initial : Mutex Thread where
  sem := 0
  ownerTid := none
  useCount := 0
  caller _ := ⟨.idle, none⟩
  assertFailed := false
  releaseFailed := false

/-- The mutex under any calls of any threads. -/
def lightMutex (Thread : Type) [DecidableEq Thread] : System (Mutex Thread) (Action Thread) where
  start m := m = initial
  step := step

/-! ## What a thread holds -/

/-- The thread is neither being granted the mutex nor giving it back. -/
def Local.quiet : Local → Bool
  | idle | lockAdd | tryExchange | clearOwner => true
  | _ => false

namespace Caller

/-- The thread has added its part to the count for an acquisition that is not complete. -/
def entered (c : Caller) : Bool := c.pc = .wait ∨ c.pc = .setOwner

/-- The parts of the count that belong to the thread. -/
def weight (c : Caller) : ℕ := c.held.isSome.toNat + c.entered.toNat

/-- From being granted the mutex to the decrement of `unlock`. -/
def inside (c : Caller) : Bool := c.held.isSome ∨ c.pc = .setOwner

/-- `owner_tid_` names the thread. -/
def named (c : Caller) : Bool := c.held = some .byLock ∧ c.pc ≠ .unlockAdd

/-- What a thread knows of its own acquisition. -/
def Fits (c : Caller) : Prop :=
  (c.pc = .setOwner ∨ c.pc = .release → c.held = none) ∧
    (c.pc = .clearOwner ∨ c.pc = .unlockAdd → c.held = some .byLock)

theorem of_quiet {pc : Local} (hpc : pc.quiet = true) (held : Option Acquired) :
    entered ⟨pc, held⟩ = false ∧ inside ⟨pc, held⟩ = held.isSome ∧
      named ⟨pc, held⟩ = decide (held = some .byLock) ∧ pc ≠ .release := by
  cases pc with
  | idle | lockAdd | tryExchange | clearOwner => simp [entered, inside, named]
  | wait | setOwner | unlockAdd | release => cases hpc

theorem inside_of_named {c : Caller} (h : c.named = true) : c.inside = true := by
  obtain ⟨hheld, -⟩ := decide_eq_true_iff.mp h
  exact decide_eq_true (.inl (by rw [hheld]; rfl))

end Caller

/-- A thread, against the threads with a part of the count and the place of the token. -/
structure Seat (ownerTid : Option Thread) (tickets : List Thread) (token : Token Thread)
    (t : Thread) (c : Caller) : Prop where
  count : tickets.count t = c.weight
  inside : c.inside = true ↔ token = .inside t
  releasing : c.pc = .release ↔ token = .releasing t
  owner : ownerTid = some t ↔ c.named = true
  fits : c.Fits

structure Inv (m : Mutex Thread) (tickets : List Thread) (token : Token Thread) : Prop where
  seat : ∀ t, Seat m.ownerTid tickets token t (m.caller t)
  use : m.useCount = tickets.length
  bound : (tickets.length : ℤ) ≤ longMax
  sem : m.sem = token.sem
  free : token = .free ↔ tickets = []
  assert_ok : m.assertFailed = false
  release_ok : m.releaseFailed = false

variable {m m' : Mutex Thread} {tickets tickets' : List Thread} {token token' : Token Thread}
  {ownerTid ownerTid' : Option Thread} {t u : Thread} {c : Caller}

/-- What a step of another thread leaves as it is. -/
structure SameSeat (ownerTid ownerTid' : Option Thread) (tickets tickets' : List Thread)
    (token token' : Token Thread) (u : Thread) : Prop where
  count : tickets'.count u = tickets.count u
  inside : token' = .inside u ↔ token = .inside u
  releasing : token' = .releasing u ↔ token = .releasing u
  owner : ownerTid' = some u ↔ ownerTid = some u

theorem Seat.same (h : Seat ownerTid tickets token u c)
    (hsame : SameSeat ownerTid ownerTid' tickets tickets' token token' u) :
    Seat ownerTid' tickets' token' u c where
  count := hsame.count.trans h.count
  inside := h.inside.trans hsame.inside.symm
  releasing := h.releasing.trans hsame.releasing.symm
  owner := hsame.owner.trans h.owner
  fits := h.fits

namespace Inv

variable (h : Inv m tickets token)
include h

/-- The seats behind a step of the thread `t`. -/
theorem seats (hcaller : m'.caller = Function.update m.caller t c)
    (hself : Seat ownerTid' tickets' token' t c)
    (hothers : ∀ u, u ≠ t → SameSeat m.ownerTid ownerTid' tickets tickets' token token' u) :
    ∀ u, Seat ownerTid' tickets' token' u (m'.caller u) := by
  intro u
  rw [hcaller]
  by_cases hut : u = t
  · rw [hut, Function.update_self]
    exact hself
  · rw [Function.update_of_ne hut]
    exact (h.seat u).same (hothers u hut)

theorem seat_at {pc : Local} {held : Option Acquired} (ht : m.caller t = ⟨pc, held⟩) :
    Seat m.ownerTid tickets token t ⟨pc, held⟩ := ht ▸ h.seat t

theorem owner_of_inside (hin : token = .inside t) (hut : u ≠ t) : m.ownerTid ≠ some u := by
  intro howner
  have hu := (h.seat u).inside.mp (Caller.inside_of_named ((h.seat u).owner.mp howner))
  cases hin.symm.trans hu
  exact hut rfl

theorem tickets_ne_nil (hweight : 0 < (m.caller t).weight) : tickets ≠ [] := by
  rintro rfl
  have hcount := (h.seat t).count
  rw [List.count_nil] at hcount
  omega

theorem goto {pc pc' : Local} {held : Option Acquired} (ht : m.caller t = ⟨pc, held⟩)
    (hself : Seat m.ownerTid tickets token t ⟨pc', held⟩) : Inv (m.goto t pc') tickets token := by
  have hcaller : (m.goto t pc').caller = Function.update m.caller t ⟨pc', held⟩ := by
    show Function.update m.caller t ⟨pc', (m.caller t).held⟩ = _
    rw [ht]
  exact ⟨h.seats hcaller hself fun _ _ => ⟨rfl, Iff.rfl, Iff.rfl, Iff.rfl⟩, h.use, h.bound, h.sem,
    h.free, h.assert_ok, h.release_ok⟩

theorem move {pc pc' : Local} {held : Option Acquired} (ht : m.caller t = ⟨pc, held⟩)
    (hpc : pc.quiet = true) (hpc' : pc'.quiet = true) (hfits : Caller.Fits ⟨pc', held⟩) :
    Inv (m.goto t pc') tickets token := by
  have hseat := h.seat_at ht
  obtain ⟨hentered, hinside, hnamed, hrelease⟩ := Caller.of_quiet hpc held
  obtain ⟨hentered', hinside', hnamed', hrelease'⟩ := Caller.of_quiet hpc' held
  refine h.goto ht ⟨?_, ?_, ?_, ?_, hfits⟩
  · rw [hseat.count, Caller.weight, Caller.weight, hentered, hentered']
  · rw [hinside', ← hinside]
    exact hseat.inside
  · exact iff_of_false hrelease' (mt hseat.releasing.mpr hrelease)
  · rw [hnamed', ← hnamed]
    exact hseat.owner

/-- The thread gains the mutex at the counter, whose parts were all given back. -/
theorem gain (hzero : m.useCount = 0) (hweight : c.weight = 1) (hinside : c.inside = true)
    (hrelease : c.pc ≠ .release) (hnamed : c.named = false) (hfits : c.Fits) :
    Inv ({ m with useCount := 1 }.put t c) [t] (.inside t) := by
  have htickets : tickets = [] := by
    have huse := h.use
    rw [hzero] at huse
    exact List.length_eq_zero_iff.mp (by omega)
  have htoken : token = .free := h.free.mpr htickets
  have hout : ¬ (m.caller t).named = true := by
    intro hcontra
    have hin := (h.seat t).inside.mp (Caller.inside_of_named hcontra)
    rw [htoken] at hin
    cases hin
  have hself : Seat m.ownerTid [t] (.inside t) t c := {
    count := by rw [hweight, List.count_singleton_self]
    inside := iff_of_true hinside rfl
    releasing := iff_of_false hrelease (by simp)
    owner := iff_of_false (mt (h.seat t).owner.mp hout) (by rw [hnamed]; exact Bool.false_ne_true)
    fits := hfits }
  refine ⟨h.seats rfl hself fun u hut => ?_, rfl, ?_, ?_, ?_, h.assert_ok, h.release_ok⟩
  · rw [htickets, htoken]
    exact ⟨by rw [List.count_singleton, if_neg (by simpa using Ne.symm hut), List.count_nil],
      by simpa using Ne.symm hut, by simp, Iff.rfl⟩
  · rw [longMax, List.length_singleton]
    decide
  · show m.sem = 0
    rw [h.sem, htoken]
    rfl
  · exact iff_of_false (by simp) (by simp)

theorem held_of_zero (hzero : m.useCount = 0) (t : Thread) : (m.caller t).held = none := by
  have htickets : tickets = [] := by
    have huse := h.use
    rw [hzero] at huse
    exact List.length_eq_zero_iff.mp (by omega)
  have hcount := (h.seat t).count
  rw [htickets, List.count_nil, Caller.weight] at hcount
  cases hheld : (m.caller t).held with
  | none => rfl
  | some by' =>
      rw [hheld, Option.isSome_some, Bool.toNat_true] at hcount
      omega

/-- `lock` adds its part to the count. -/
theorem lockAdd {held : Option Acquired} (ht : m.caller t = ⟨.lockAdd, held⟩)
    (hrange : m.useCount < longMax) :
    ∃ tickets' token', Inv ((m.addUse 1).goto t (if m.useCount > 0 then .wait else .setOwner))
      tickets' token' := by
  have hseat := h.seat_at ht
  by_cases hpos : m.useCount > 0
  · have huse : long (m.useCount + 1) = ((t :: tickets).length : ℤ) := by
      rw [long_eq (by omega) (by omega), h.use, List.length_cons, Nat.cast_succ]
    have hself : Seat m.ownerTid (t :: tickets) token t ⟨.wait, held⟩ := {
      count := by rw [List.count_cons_self, hseat.count]; rfl
      inside := by simpa [Caller.inside] using hseat.inside
      releasing := iff_of_false (by simp) (mt hseat.releasing.mpr (by simp))
      owner := by simpa [Caller.named] using hseat.owner
      fits := by simp [Caller.Fits] }
    rw [if_pos hpos, Mutex.addUse, huse]
    refine ⟨_, token, h.seats ?_ hself fun u hut => ?_, rfl, ?_, h.sem, ?_, h.assert_ok,
      h.release_ok⟩
    · show Function.update m.caller t ⟨.wait, (m.caller t).held⟩ = _
      rw [ht]
    · exact ⟨List.count_cons_of_ne (Ne.symm hut), Iff.rfl, Iff.rfl, Iff.rfl⟩
    · rw [List.length_cons, Nat.cast_succ, ← h.use]
      omega
    · refine iff_of_false (fun hfree => ?_) (List.cons_ne_nil _ _)
      have huse := h.use
      rw [h.free.mp hfree, List.length_nil] at huse
      omega
  · have hzero : m.useCount = 0 := by
      have huse := h.use
      omega
    have hheld : held = none := by
      have hnone := h.held_of_zero hzero t
      rw [ht] at hnone
      exact hnone
    have hgoto : (m.addUse 1).goto t .setOwner =
        { m with useCount := 1 }.put t ⟨.setOwner, none⟩ := by
      rw [Mutex.addUse, hzero]
      show ({ m with useCount := 1 } : Mutex Thread).put t ⟨.setOwner, (m.caller t).held⟩ = _
      rw [ht, hheld]
    rw [if_neg hpos, hgoto]
    exact ⟨_, _, h.gain hzero rfl rfl (by simp) rfl (by simp [Caller.Fits])⟩

theorem wake {held : Option Acquired} (ht : m.caller t = ⟨.wait, held⟩) (hsem : 0 < m.sem) :
    Inv ({ m with sem := m.sem - 1 }.goto t .setOwner) tickets (.inside t) := by
  have hseat := h.seat_at ht
  have hposted : token = .posted := by
    rw [h.sem] at hsem
    cases token with
    | posted => rfl
    | free | inside | releasing => exact absurd hsem (lt_irrefl 0)
  have hout : ∀ u, (m.caller u).inside = false := by
    intro u
    rw [Bool.eq_false_iff]
    intro hin
    have hu := (h.seat u).inside.mp hin
    rw [hposted] at hu
    cases hu
  have hheld : held = none := by
    have hnone := hout t
    rw [ht] at hnone
    cases held with
    | none => rfl
    | some by' => cases hnone
  subst hheld
  have hself : Seat m.ownerTid tickets (.inside t) t ⟨.setOwner, none⟩ := {
    count := hseat.count
    inside := iff_of_true rfl rfl
    releasing := iff_of_false (by simp) (by simp)
    owner := hseat.owner
    fits := by simp [Caller.Fits] }
  refine ⟨h.seats ?_ hself fun u hut => ?_, h.use, h.bound, ?_, ?_, h.assert_ok, h.release_ok⟩
  · show Function.update m.caller t ⟨.setOwner, (m.caller t).held⟩ = _
    rw [ht]
  · rw [hposted]
    exact ⟨rfl, by simpa using Ne.symm hut, by simp, Iff.rfl⟩
  · show m.sem - 1 = 0
    rw [h.sem, hposted]
    rfl
  · refine iff_of_false (by simp) (h.tickets_ne_nil (t := t) ?_)
    rw [ht]
    exact Nat.one_pos

theorem setOwner {held : Option Acquired} (ht : m.caller t = ⟨.setOwner, held⟩) :
    Inv ({ m with ownerTid := some t }.put t ⟨.idle, some .byLock⟩) tickets token := by
  have hseat := h.seat_at ht
  have hin : token = .inside t := hseat.inside.mp (by simp [Caller.inside])
  obtain rfl : held = none := hseat.fits.1 (.inl rfl)
  have hself : Seat (some t) tickets token t ⟨.idle, some .byLock⟩ := {
    count := hseat.count
    inside := iff_of_true rfl hin
    releasing := iff_of_false (by simp) (by simp [hin])
    owner := iff_of_true rfl rfl
    fits := by simp [Caller.Fits] }
  refine ⟨h.seats rfl hself fun u hut => ?_, h.use, h.bound, h.sem, h.free, h.assert_ok,
    h.release_ok⟩
  exact ⟨rfl, Iff.rfl, Iff.rfl,
    iff_of_false (fun heq => hut (Option.some.inj heq).symm) (h.owner_of_inside hin hut)⟩

theorem clearOwner {held : Option Acquired} (ht : m.caller t = ⟨.clearOwner, held⟩) :
    Inv ({ m with ownerTid := none }.goto t .unlockAdd) tickets token := by
  have hseat := h.seat_at ht
  obtain rfl : held = some .byLock := hseat.fits.2 (.inl rfl)
  have hin : token = .inside t := hseat.inside.mp rfl
  have hself : Seat none tickets token t ⟨.unlockAdd, some .byLock⟩ := {
    count := hseat.count
    inside := iff_of_true rfl hin
    releasing := iff_of_false (by simp) (by simp [hin])
    owner := iff_of_false (by simp) (by simp [Caller.named])
    fits := by simp [Caller.Fits] }
  refine ⟨h.seats ?_ hself fun u hut => ?_, h.use, h.bound, h.sem, h.free, h.assert_ok,
    h.release_ok⟩
  · show Function.update m.caller t ⟨.unlockAdd, (m.caller t).held⟩ = _
    rw [ht]
  · exact ⟨rfl, Iff.rfl, Iff.rfl,
      iff_of_false (Option.some_ne_none u).symm (h.owner_of_inside hin hut)⟩

/-- The part of the thread is given back; the token goes to the semaphore if there are others. -/
theorem unlockAdd {held : Option Acquired} (ht : m.caller t = ⟨.unlockAdd, held⟩) :
    ∃ tickets' token', Inv ((m.addUse (-1)).put t
      ⟨if m.useCount > 1 then .release else .idle, none⟩) tickets' token' := by
  have hseat := h.seat_at ht
  obtain rfl : held = some .byLock := hseat.fits.2 (.inr rfl)
  have hin : token = .inside t := hseat.inside.mp rfl
  have hcount : tickets.count t = 1 := hseat.count
  have hmem : t ∈ tickets := List.count_pos_iff.mp (hcount ▸ Nat.one_pos)
  have hlength : ((tickets.erase t).length : ℤ) = m.useCount - 1 := by
    have hne := List.length_pos_of_mem hmem
    rw [h.use, List.length_erase_of_mem hmem]
    omega
  have hbound := h.bound
  rw [← h.use] at hbound
  have huse : long (m.useCount + -1) = ((tickets.erase t).length : ℤ) := by
    rw [← sub_eq_add_neg, ← hlength]
    exact long_eq (by omega) (by omega)
  rw [Mutex.addUse, huse]
  have howner : ¬ m.ownerTid = some t := mt hseat.owner.mp (by simp [Caller.named])
  have hleave : ∀ (pc : Local) (token' : Token Thread), (pc = .release ∨ pc = .idle) →
      (pc = .release ↔ token' = .releasing t) → token'.sem = 0 →
      (∀ u, token' ≠ .inside u) → (∀ u, u ≠ t → token' ≠ .releasing u) →
      (token' = .free ↔ tickets.erase t = []) →
      Inv ({ m with useCount := (tickets.erase t).length }.put t ⟨pc, none⟩) (tickets.erase t)
        token' := by
    intro pc token' hpc hrelease hsem hinside hreleasing hfree
    have hself : Seat m.ownerTid (tickets.erase t) token' t ⟨pc, none⟩ := {
      count := by
        rw [List.count_erase_self, hcount]
        rcases hpc with rfl | rfl <;> rfl
      inside := iff_of_false (by rcases hpc with rfl | rfl <;> simp [Caller.inside]) (hinside t)
      releasing := hrelease
      owner := iff_of_false howner (by simp [Caller.named])
      fits := by rcases hpc with rfl | rfl <;> simp [Caller.Fits] }
    refine ⟨h.seats rfl hself fun u hut => ?_, rfl, by omega, ?_, hfree, h.assert_ok, h.release_ok⟩
    · rw [hin]
      exact ⟨List.count_erase_of_ne hut, iff_of_false (hinside u) (by simpa using Ne.symm hut),
        iff_of_false (hreleasing u hut) (by simp), Iff.rfl⟩
    · show m.sem = _
      rw [h.sem, hin, hsem]
      rfl
  by_cases hwaiting : m.useCount > 1
  · rw [if_pos hwaiting]
    refine ⟨_, .releasing t, hleave .release (.releasing t) (.inl rfl) (iff_of_true rfl rfl) rfl
      (by simp) (fun u hut => by simpa using Ne.symm hut) (iff_of_false (by simp) fun hnil => ?_)⟩
    rw [hnil, List.length_nil] at hlength
    omega
  · rw [if_neg hwaiting]
    refine ⟨_, .free, hleave .idle .free (.inr rfl) (by simp) rfl (by simp) (by simp)
      (iff_of_true rfl (List.length_eq_zero_iff.mp ?_))⟩
    omega

theorem release {held : Option Acquired} (ht : m.caller t = ⟨.release, held⟩) :
    m.sem < 1 ∧ Inv ({ m with sem := m.sem + 1 }.goto t .idle) tickets .posted := by
  have hseat := h.seat_at ht
  obtain rfl : held = none := hseat.fits.1 (.inr rfl)
  have hreleasing : token = .releasing t := hseat.releasing.mp rfl
  have hzero : m.sem = 0 := by
    rw [h.sem, hreleasing]
    rfl
  have hself : Seat m.ownerTid tickets .posted t ⟨.idle, none⟩ := {
    count := hseat.count
    inside := by simp [Caller.inside]
    releasing := by simp
    owner := hseat.owner
    fits := by simp [Caller.Fits] }
  refine ⟨by omega, h.seats ?_ hself fun u hut => ?_, h.use, h.bound, ?_, ?_, h.assert_ok,
    h.release_ok⟩
  · show Function.update m.caller t ⟨.idle, (m.caller t).held⟩ = _
    rw [ht]
  · rw [hreleasing]
    exact ⟨rfl, by simp, by simpa using Ne.symm hut, Iff.rfl⟩
  · show m.sem + 1 = 1
    rw [hzero]
  · refine iff_of_false (by simp) ?_
    rw [← h.free, hreleasing]
    simp

end Inv

/-! ## Steps -/

/-- The action does not add to a count that is at its maximum. -/
def InRange (m : Mutex Thread) : Action Thread → Prop
  | .step t => (m.caller t).pc = .lockAdd → m.useCount < longMax
  | _ => True

/-- A thread that calls `unlock` has got the mutex by `lock`. -/
def ByLock (m : Mutex Thread) : Action Thread → Prop
  | .unlock t => (m.caller t).held = some .byLock
  | _ => True

instance (m : Mutex Thread) : DecidablePred (InRange m)
  | .step t => inferInstanceAs (Decidable ((m.caller t).pc = .lockAdd → m.useCount < longMax))
  | .lock _ | .tryLock _ | .unlock _ => .isTrue trivial

instance (m : Mutex Thread) : DecidablePred (ByLock m)
  | .unlock t => inferInstanceAs (Decidable ((m.caller t).held = some .byLock))
  | .lock _ | .tryLock _ | .step _ => .isTrue trivial

namespace Inv

theorem next? (h : Inv m tickets token) (hrange : InRange m (.step t))
    (hnext : m.next? t = some m') : ∃ tickets' token', Inv m' tickets' token' := by
  have hlock : m.useCount < longMax ∨ (m.caller t).pc ≠ .lockAdd := by
    by_cases hpc : (m.caller t).pc = .lockAdd
    · exact .inl (hrange hpc)
    · exact .inr hpc
  obtain ⟨⟨pc, held⟩, ht⟩ : ∃ c, m.caller t = c := ⟨_, rfl⟩
  have hfits := (h.seat_at ht).fits
  rw [Mutex.next?, ht] at hnext
  rw [ht] at hlock
  cases pc with
  | idle => cases hnext
  | lockAdd =>
      cases hnext
      exact h.lockAdd ht (hlock.resolve_right (not_not.mpr rfl))
  | wait =>
      obtain ⟨hsem, hnext⟩ := Option.ite_none_right_eq_some.mp hnext
      cases hnext
      exact ⟨_, _, h.wake ht hsem⟩
  | setOwner =>
      cases hnext
      exact ⟨_, _, h.setOwner ht⟩
  | tryExchange =>
      dsimp only at hnext
      split at hnext
      next hbusy =>
        cases hnext
        exact ⟨_, _, h.move ht rfl rfl (by simp [Caller.Fits])⟩
      next hfree =>
        cases hnext
        exact ⟨_, _, h.gain (not_not.mp hfree) rfl rfl (by simp) rfl (by simp [Caller.Fits])⟩
  | clearOwner =>
      cases hnext
      exact ⟨_, _, h.clearOwner ht⟩
  | unlockAdd =>
      cases hnext
      exact h.unlockAdd ht
  | release =>
      obtain ⟨hempty, hinv⟩ := h.release ht
      dsimp only at hnext
      rw [if_pos hempty] at hnext
      cases hnext
      exact ⟨_, _, hinv⟩

theorem step (h : Inv m tickets token) {action : Action Thread} (hrange : InRange m action)
    (hbyLock : ByLock m action) (hstep : step m action = some m') :
    ∃ tickets' token', Inv m' tickets' token' := by
  rw [NonRecursive.step.eq_def, if_neg (by rw [h.assert_ok]; exact Bool.false_ne_true)] at hstep
  have hcall : ∀ {t : Thread} {pc : Local}, (m.caller t).pc = .idle → pc = .lockAdd ∨
      pc = .tryExchange ∨ pc = .clearOwner ∧ (m.caller t).held = some .byLock →
      Inv (m.goto t pc) tickets token := by
    intro t pc hidle hpc
    obtain ⟨⟨_, held⟩, ht⟩ : ∃ c, m.caller t = c := ⟨_, rfl⟩
    rw [ht] at hidle hpc
    obtain rfl := hidle
    rcases hpc with rfl | rfl | ⟨rfl, hheld⟩
    · exact h.move ht rfl rfl (by simp [Caller.Fits])
    · exact h.move ht rfl rfl (by simp [Caller.Fits])
    · exact h.move ht rfl rfl ⟨by simp, fun _ => hheld⟩
  cases action with
  | lock t =>
      obtain ⟨hidle, hstep⟩ := Option.ite_none_right_eq_some.mp hstep
      cases hstep
      exact ⟨_, _, hcall hidle (.inl rfl)⟩
  | tryLock t =>
      obtain ⟨hidle, hstep⟩ := Option.ite_none_right_eq_some.mp hstep
      cases hstep
      exact ⟨_, _, hcall hidle (.inr (.inl rfl))⟩
  | unlock t =>
      obtain ⟨hidle, hstep⟩ := Option.ite_none_right_eq_some.mp hstep
      have hnamed : (m.caller t).named = true := by
        refine decide_eq_true ⟨hbyLock, ?_⟩
        rw [hidle.1]
        decide
      rw [if_pos ((h.seat t).owner.mpr hnamed)] at hstep
      cases hstep
      exact ⟨_, _, hcall hidle.1 (.inr (.inr ⟨rfl, hbyLock⟩))⟩
  | step t => exact h.next? hrange hstep

/-- An `unlock` by a thread that got the mutex by `try_lock`. -/
theorem step_unlock (h : Inv m tickets token) (hbyLock : ¬ ByLock m (.unlock t))
    (hstep : NonRecursive.step m (.unlock t) = some m') : m'.assertFailed = true := by
  rw [NonRecursive.step.eq_def, if_neg (by rw [h.assert_ok]; exact Bool.false_ne_true)] at hstep
  obtain ⟨-, hstep⟩ := Option.ite_none_right_eq_some.mp hstep
  have howner : ¬ m.ownerTid = some t := by
    intro howner
    exact hbyLock (decide_eq_true_iff.mp ((h.seat t).owner.mp howner)).1
  rw [if_neg howner] at hstep
  cases hstep
  rfl

end Inv

omit [DecidableEq Thread] in
theorem inv_initial [DecidableEq Thread] : Inv (initial : Mutex Thread) [] .free where
  seat t := ⟨rfl, by simp [initial, Caller.inside], by simp [initial],
    by simp [initial, Caller.named], by simp [initial, Caller.Fits]⟩
  use := rfl
  bound := by
    rw [longMax, List.length_nil]
    decide
  sem := rfl
  free := iff_of_true rfl rfl
  assert_ok := rfl
  release_ok := rfl

/-! ## What the mutex guarantees -/

structure Safe (m : Mutex Thread) : Prop where
  /-- At most one thread has the mutex, from being granted it to the decrement of its `unlock`. -/
  exclusive : ∀ t u, (m.caller t).inside = true → (m.caller u).inside = true → t = u
  assert_ok : m.assertFailed = false

theorem Inv.safe (h : Inv m tickets token) : Safe m where
  exclusive t u ht hu := by
    have heq : Token.inside t = Token.inside u :=
      ((h.seat t).inside.mp ht).symm.trans ((h.seat u).inside.mp hu)
    cases heq
    rfl
  assert_ok := h.assert_ok

/-- **Exclusion, and the assertion of `unlock`**: in a run in which no `lock` adds to a `use_count_`
that is at the maximum of its type, they hold in all states exactly if no thread that got the mutex
by `try_lock` unlocks it. -/
theorem safe_iff {actions : List (Action Thread)}
    (hrange : (lightMutex Thread).EachStep InRange initial actions)
    (hrun : (lightMutex Thread).run initial actions = some m) :
    (lightMutex Thread).Always Safe initial actions ↔
      (lightMutex Thread).EachStep ByLock initial actions := by
  refine System.always_iff_eachStep_within (I := fun m => ∃ tickets token, Inv m tickets token)
    ?_ ?_ ⟨_, _, inv_initial⟩ inv_initial.safe hrange hrun
  · rintro m action m' ⟨tickets, token, h⟩ haction hbyLock hstep
    exact h.step haction hbyLock hstep
  · rintro m action m' ⟨tickets, token, h⟩ - haction hstep
    constructor
    · intro hsafe
      by_contra hbyLock
      cases action with
      | unlock t =>
          have hfailed := h.step_unlock hbyLock hstep
          rw [hsafe.assert_ok] at hfailed
          cases hfailed
      | lock | tryLock | step => exact hbyLock trivial
    · intro hbyLock
      obtain ⟨_, _, h'⟩ := h.step haction hbyLock hstep
      exact h'.safe

/-- One thread locks while another one waits, and a third one tries in vain. -/
def contended : List (Action (Fin 3)) :=
  [.lock 0, .step 0, .step 0, .lock 1, .step 1, .tryLock 2, .step 2, .unlock 0, .step 0, .step 0,
    .step 0, .step 1, .step 1, .unlock 1, .step 1, .step 1]

theorem safe_iff_contended :
    (lightMutex (Fin 3)).Always Safe initial contended ∧
      ((lightMutex (Fin 3)).run initial contended).map (fun m => (m.sem, m.useCount)) =
        some (0, 0) := by
  have hrun : ((lightMutex (Fin 3)).run initial contended).map (fun m => (m.sem, m.useCount)) =
      some (0, 0) := by
    decide
  obtain ⟨m, hm, -⟩ := Option.map_eq_some_iff.mp hrun
  exact ⟨(safe_iff (by decide) hm).mpr (by decide), hrun⟩

/-- A thread gets the mutex by `try_lock` and unlocks it. -/
theorem tryLock_unsafe :
    ∃ m, (lightMutex Unit).run initial [.tryLock (), .step (), .unlock ()] = some m ∧
      ¬ Safe m := by
  refine ⟨_, rfl, fun hsafe => ?_⟩
  have hfailed := hsafe.assert_ok
  cases hfailed

end Eureka.LightMutex.NonRecursive

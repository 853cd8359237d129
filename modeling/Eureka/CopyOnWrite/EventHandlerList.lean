import Eureka.Library.Mutex
import Eureka.Library.Owners
import Eureka.Library.Transition

/-!
# An event handler list that copies on write

`event_handler_list`: `handle_event` takes a shared pointer to the handlers under the lock and
runs them without it; `add_handler` copies the vector first if `use_count` says that there is
another owner.  Every call is a party of its own, so that a handler may call the list again.

* `Inv.sole`: who is about to push is the only owner of the vector, since owners come under
  the lock only;
* `pushed_alone`: so no vector is modified that another call still reads;
* `handled_prefix`: a call of `handle_event` runs, each once and in order, the handlers that
  were added before some moment of the call.
-/

namespace Eureka.CopyOnWrite

open Transition

/-- The shared pointers: `events_`, and the local ones of the calls. -/
inductive Handle (Call : Type)
  | events
  | backup (c : Call)
  | reader (c : Call)
deriving DecidableEq

/-- Where a call is.  `before` is the number of handlers when the call of `handle_event` began,
`seen` their number when it took its pointer. -/
inductive Phase (Handler : Type)
  | outside
  | addEnter (h : Handler)
  | addLocked (h : Handler)
  | pushing (h : Handler)
  | pushed
  | addLeave
  | added
  | handleEnter (before : ℕ)
  | handleLocked (before : ℕ)
  | taken (before seen : ℕ)
  | running (before seen : ℕ) (ran : List Handler)
  | handled (before : ℕ) (ran : List Handler)
deriving DecidableEq, Repr

/-- The call has the lock. -/
def Phase.inside {Handler : Type} : Phase Handler → Bool
  | .addLocked _ | .pushing _ | .pushed | .handleLocked _ | .taken _ _ => true
  | .outside | .addEnter _ | .addLeave | .added | .handleEnter _ | .running _ _ _
  | .handled _ _ => false

/-- The list, with a log of the handlers that were added. -/
structure EventHandlerList (Call Handler : Type) where
  vectors : ℕ → List Handler
  /-- the number of vectors that were made -/
  made : ℕ
  owners : Owners (Handle Call) ℕ
  mtx : Option Call
  phase : Call → Phase Handler
  log : List Handler

inductive Action (Call Handler : Type)
  | addHandler (c : Call) (h : Handler)
  | handleEvent (c : Call)
  | goOn (c : Call)
deriving DecidableEq

namespace EventHandlerList

variable {Call Handler : Type} [DecidableEq Call]

def construct : EventHandlerList Call Handler where
  vectors := fun _ => []
  made := 1
  owners := ⟨{.events}, fun _ => 0⟩
  mtx := none
  phase := fun _ => .outside
  log := []

/-- The vector of `events_`. -/
def current (s : EventHandlerList Call Handler) : ℕ := s.owners.obj .events

def useCount (s : EventHandlerList Call Handler) : ℕ := (s.owners.of s.current).card

def goto (s : EventHandlerList Call Handler) (c : Call) (phase : Phase Handler) :
    EventHandlerList Call Handler :=
  { s with phase := Function.update s.phase c phase }

/-- The copy, and the swap that leaves the old vector to `backup`. -/
def copyAndSwap (s : EventHandlerList Call Handler) (c : Call) : EventHandlerList Call Handler :=
  { s with
    vectors := Function.update s.vectors s.made (s.vectors s.current)
    made := s.made + 1
    owners := (s.owners.acquire (.backup c) s.current).acquire .events s.made }

def pushBack (s : EventHandlerList Call Handler) (h : Handler) : EventHandlerList Call Handler :=
  { s with
    vectors := Function.update s.vectors s.current (s.vectors s.current ++ [h])
    log := s.log ++ [h] }

/-- The next thing that a call does, if it does not wait for the lock. -/
def goOn (s : EventHandlerList Call Handler) (c : Call) : Option (EventHandlerList Call Handler) :=
  match s.phase c with
  | .outside | .added | .handled _ _ => none
  | .addEnter h =>
      if s.mtx = none then some ({ s with mtx := some c }.goto c (.addLocked h)) else none
  | .addLocked h =>
      if 1 < s.useCount then some ((s.copyAndSwap c).goto c (.pushing h))
      else some (s.goto c (.pushing h))
  | .pushing h => some ((s.pushBack h).goto c .pushed)
  | .pushed => some ({ s with mtx := none }.goto c .addLeave)
  -- `backup` goes without the lock
  | .addLeave => some ({ s with owners := s.owners.drop (.backup c) }.goto c .added)
  | .handleEnter before =>
      if s.mtx = none then some ({ s with mtx := some c }.goto c (.handleLocked before)) else none
  | .handleLocked before =>
      some ({ s with owners := s.owners.acquire (.reader c) s.current }.goto c
        (.taken before s.log.length))
  | .taken before seen => some ({ s with mtx := none }.goto c (.running before seen []))
  | .running before seen ran =>
      match (s.vectors (s.owners.obj (.reader c)))[ran.length]? with
      | some h => some (s.goto c (.running before seen (ran ++ [h])))
      | none =>
          some ({ s with owners := s.owners.drop (.reader c) }.goto c (.handled before ran))

end EventHandlerList

def lists (Call Handler : Type) [DecidableEq Call] :
    System (EventHandlerList Call Handler) (Action Call Handler) where
  start s := s = .construct
  step s
    | .addHandler c h =>
        match s.phase c with
        | .outside => some (s.goto c (.addEnter h))
        | _ => none
    | .handleEvent c =>
        match s.phase c with
        | .outside => some (s.goto c (.handleEnter s.log.length))
        | _ => none
    | .goOn c => s.goOn c

/-! ### What the steps keep -/

section Invariant

variable {Call Handler : Type} [DecidableEq Call]

/-- What a call that reads knows of its vector, and one that has read of what it ran. -/
def Phase.Fits (s : EventHandlerList Call Handler) (c : Call) : Phase Handler → Prop
  | .handleEnter before | .handleLocked before => before ≤ s.log.length
  | .taken before seen =>
      .reader c ∈ s.owners.live ∧ before ≤ seen ∧ seen ≤ s.log.length ∧
        s.vectors (s.owners.obj (.reader c)) = s.log.take seen
  | .running before seen ran =>
      .reader c ∈ s.owners.live ∧ before ≤ seen ∧ seen ≤ s.log.length ∧
        s.vectors (s.owners.obj (.reader c)) = s.log.take seen ∧
        ran = (s.log.take seen).take ran.length
  | .handled before ran =>
      ∃ seen, before ≤ seen ∧ seen ≤ s.log.length ∧ ran = s.log.take seen
  | .outside | .addEnter _ | .addLocked _ | .pushing _ | .pushed | .addLeave | .added => True

structure Inv (s : EventHandlerList Call Handler) : Prop where
  owned : .events ∈ s.owners.live
  old : ∀ x ∈ s.owners.live, s.owners.obj x < s.made
  current : s.vectors s.current = s.log
  guards : Guards s.mtx fun c => (s.phase c).inside
  /-- nobody else owns the vector that is about to be modified -/
  sole : ∀ c h, s.phase c = .pushing h →
    ∀ x ∈ s.owners.live, s.owners.obj x = s.current → x = .events
  fits : ∀ c, (s.phase c).Fits s c

variable {s t : EventHandlerList Call Handler} {c : Call} {next : Phase Handler}

omit [DecidableEq Call] in
theorem Phase.Fits.frame {phase : Phase Handler} (h : phase.Fits s c) {more : List Handler}
    (hlog : t.log = s.log ++ more)
    (hreader : .reader c ∈ s.owners.live → .reader c ∈ t.owners.live ∧
      t.vectors (t.owners.obj (.reader c)) = s.vectors (s.owners.obj (.reader c))) :
    phase.Fits t c := by
  have hlength : s.log.length ≤ t.log.length := by simp [hlog]
  have htake : ∀ {seen}, seen ≤ s.log.length → t.log.take seen = s.log.take seen := by
    intro seen hseen
    rw [hlog, List.take_append_of_le_length hseen]
  cases phase with
  | handleEnter before => exact le_trans h hlength
  | handleLocked before => exact le_trans h hlength
  | taken before seen =>
      obtain ⟨hlive, hbefore, hseen, hvector⟩ := h
      obtain ⟨hlive', hsame⟩ := hreader hlive
      exact ⟨hlive', hbefore, hseen.trans hlength, by rw [hsame, hvector, htake hseen]⟩
  | running before seen ran =>
      obtain ⟨hlive, hbefore, hseen, hvector, hran⟩ := h
      obtain ⟨hlive', hsame⟩ := hreader hlive
      refine ⟨hlive', hbefore, hseen.trans hlength, by rw [hsame, hvector, htake hseen], ?_⟩
      rw [htake hseen]
      exact hran
  | handled before ran =>
      obtain ⟨seen, hbefore, hseen, hran⟩ := h
      exact ⟨seen, hbefore, hseen.trans hlength, by rw [htake hseen, hran]⟩
  | _ => trivial

/-- The one rule for all steps: a call goes on, and the others find what they know of. -/
theorem Inv.of_step (hI : Inv s) (hphase : t.phase = Function.update s.phase c next)
    (howned : .events ∈ t.owners.live)
    (hold : ∀ x ∈ t.owners.live, t.owners.obj x < t.made)
    (hcurrent : t.vectors t.current = t.log)
    (hguards : Guards t.mtx (Function.update (fun d => (s.phase d).inside) c next.inside))
    (hsole : ∀ h, next = .pushing h →
      ∀ x ∈ t.owners.live, t.owners.obj x = t.current → x = .events)
    (hsoleOther : ∀ d h, d ≠ c → s.phase d = .pushing h →
      ∀ x ∈ t.owners.live, t.owners.obj x = t.current → x = .events)
    (hfits : next.Fits t c) {more : List Handler} (hlog : t.log = s.log ++ more)
    (hreader : ∀ d, d ≠ c → .reader d ∈ s.owners.live → .reader d ∈ t.owners.live ∧
      t.vectors (t.owners.obj (.reader d)) = s.vectors (s.owners.obj (.reader d))) :
    Inv t := by
  refine ⟨howned, hold, hcurrent, ?_, ?_, ?_⟩
  · have hinside : (fun d => (t.phase d).inside) =
        Function.update (fun d => (s.phase d).inside) c next.inside := by
      funext d
      rw [hphase]
      by_cases hd : d = c
      · subst hd
        simp
      · simp [Function.update_of_ne hd]
    rw [hinside]
    exact hguards
  · rw [hphase]
    refine (Function.forall_update_iff s.phase fun _ phase => ∀ h, phase = .pushing h →
      ∀ x ∈ t.owners.live, t.owners.obj x = t.current → x = .events).mpr ⟨hsole, ?_⟩
    exact fun d hd h => hsoleOther d h hd
  · rw [hphase]
    refine (Function.forall_update_iff s.phase fun d phase => phase.Fits t d).mpr ⟨hfits, ?_⟩
    exact fun d hd => (hI.fits d).frame hlog (hreader d hd)

theorem Inv.move (hI : Inv s) {mtx : Option Call}
    (hguards : Guards mtx (Function.update (fun d => (s.phase d).inside) c next.inside))
    (hsole : ∀ h, next = .pushing h →
      ∀ x ∈ s.owners.live, s.owners.obj x = s.current → x = .events)
    (hfits : next.Fits s c) : Inv ({ s with mtx := mtx }.goto c next) :=
  hI.of_step rfl hI.owned hI.old hI.current hguards hsole (fun d h _ hd => hI.sole d h hd)
    (hfits.frame (List.append_nil _).symm fun h => ⟨h, rfl⟩) (List.append_nil _).symm
    fun _ _ h => ⟨h, rfl⟩

omit [DecidableEq Call] in
theorem Inv.not_pushing (hI : Inv s) (hc : (s.phase c).inside = true) {d : Call} {h : Handler}
    (hd : d ≠ c) : s.phase d ≠ .pushing h := by
  intro hphase
  refine hd (hI.guards.unique (t := d) (u := c) ?_ hc)
  simp only [hphase]
  rfl

theorem Inv.stay (hI : Inv s) (hinside : next.inside = (s.phase c).inside) :
    Guards s.mtx (Function.update (fun d => (s.phase d).inside) c next.inside) :=
  hI.guards.stay hinside

theorem Inv.lock (hI : Inv s) (hfree : s.mtx = none) (hinside : next.inside = true) :
    Guards (some c) (Function.update (fun d => (s.phase d).inside) c next.inside) := by
  have hguards := hI.guards
  rw [hfree] at hguards
  rw [hinside]
  exact hguards.lock c

theorem Inv.unlock (hI : Inv s) (hc : (s.phase c).inside = true) (hinside : next.inside = false) :
    Guards none (Function.update (fun d => (s.phase d).inside) c next.inside) := by
  rw [hinside]
  exact hI.guards.unlock hc

/-- The check of `use_count`, with the copy where it says that there are others. -/
theorem Inv.makeSole {h : Handler} (hI : Inv s) (hphase : s.phase c = .addLocked h) :
    (1 < s.useCount → Inv ((s.copyAndSwap c).goto c (.pushing h))) ∧
      (¬ 1 < s.useCount → Inv (s.goto c (.pushing h))) := by
  have hinside : (s.phase c).inside = true := by rw [hphase]; rfl
  have hcurrentOld : s.current < s.made := hI.old _ hI.owned
  constructor
  · intro _
    have hobj : ∀ x, x ≠ .events → x ≠ .backup c →
        (s.copyAndSwap c).owners.obj x = s.owners.obj x := by
      intro x hevents hbackup
      simp only [EventHandlerList.copyAndSwap]
      rw [Owners.obj_acquire_of_ne hevents, Owners.obj_acquire_of_ne hbackup]
    have hbackupObj : (s.copyAndSwap c).owners.obj (.backup c) = s.current := by
      have hne : Handle.backup c ≠ .events := nofun
      simp only [EventHandlerList.copyAndSwap]
      rw [Owners.obj_acquire_of_ne hne, Owners.obj_acquire_self]
    have hcurrent : (s.copyAndSwap c).current = s.made := Owners.obj_acquire_self
    have hlive : ∀ x, x ∈ (s.copyAndSwap c).owners.live ↔
        x = .events ∨ x = .backup c ∨ x ∈ s.owners.live := by
      intro x
      simp [EventHandlerList.copyAndSwap]
    -- who does not own the copy owns an older vector
    have hother : ∀ x ∈ (s.copyAndSwap c).owners.live, x ≠ .events →
        (s.copyAndSwap c).owners.obj x < s.made := by
      intro x hx hevents
      by_cases hbackup : x = .backup c
      · rw [hbackup, hbackupObj]
        exact hcurrentOld
      · rw [hobj x hevents hbackup]
        exact hI.old x (((hlive x).mp hx).resolve_left hevents |>.resolve_left hbackup)
    have hsole : ∀ x ∈ (s.copyAndSwap c).owners.live,
        (s.copyAndSwap c).owners.obj x = (s.copyAndSwap c).current → x = .events := by
      intro x hx heq
      by_contra hevents
      rw [hcurrent] at heq
      exact (hother x hx hevents).ne heq
    refine hI.of_step rfl ((hlive _).mpr (.inl rfl)) ?_ ?_ (hI.stay (hinside ▸ rfl))
      (fun _ _ => hsole) (fun d h' hd hpush => absurd hpush (hI.not_pushing hinside hd)) trivial
      (List.append_nil _).symm ?_
    · intro x hx
      by_cases hevents : x = .events
      · rw [hevents]
        exact hcurrent.trans_lt (Nat.lt_succ_self _)
      · exact (hother x hx hevents).trans (Nat.lt_succ_self _)
    · calc (s.copyAndSwap c).vectors (s.copyAndSwap c).current
        _ = (s.copyAndSwap c).vectors s.made := by rw [hcurrent]
        _ = s.vectors s.current := Function.update_self ..
        _ = s.log := hI.current
    · intro d _ hd
      have hsame := hobj (.reader d) nofun nofun
      refine ⟨(hlive _).mpr (.inr (.inr hd)), ?_⟩
      calc (s.copyAndSwap c).vectors ((s.copyAndSwap c).owners.obj (.reader d))
        _ = (s.copyAndSwap c).vectors (s.owners.obj (.reader d)) := by rw [hsame]
        _ = s.vectors (s.owners.obj (.reader d)) :=
          Function.update_of_ne (hI.old _ hd).ne ..
  · intro hcount
    have hmem : .events ∈ s.owners.of s.current := Owners.mem_of.mpr ⟨hI.owned, rfl⟩
    have hone : (s.owners.of s.current).card = 1 :=
      le_antisymm (Nat.le_of_not_lt hcount) (Finset.card_pos.mpr ⟨_, hmem⟩)
    refine hI.move (hI.stay (hinside ▸ rfl)) (fun _ _ x hx heq => ?_) trivial
    have hx : x ∈ s.owners.of s.current := Owners.mem_of.mpr ⟨hx, heq⟩
    rw [Owners.of_eq_singleton hone hmem] at hx
    exact Finset.mem_singleton.mp hx

/-- The push modifies a vector that only `events_` owns. -/
theorem Inv.push {h : Handler} (hI : Inv s) (hphase : s.phase c = .pushing h) :
    Inv ((s.pushBack h).goto c .pushed) := by
  have hinside : (s.phase c).inside = true := by rw [hphase]; rfl
  refine hI.of_step rfl hI.owned hI.old ?_ (hI.stay (hinside ▸ rfl)) nofun
    (fun d h' hd hpush => absurd hpush (hI.not_pushing hinside hd)) trivial rfl ?_
  · calc (s.pushBack h).vectors s.current
      _ = s.vectors s.current ++ [h] := Function.update_self ..
      _ = s.log ++ [h] := by rw [hI.current]
  · intro d _ hd
    refine ⟨hd, Function.update_of_ne (fun heq => ?_) ..⟩
    exact nomatch hI.sole c h hphase _ hd heq

theorem Inv.dropBackup (hI : Inv s) (hphase : s.phase c = .addLeave) :
    Inv ({ s with owners := s.owners.drop (.backup c) }.goto c .added) := by
  have hinside : (s.phase c).inside = false := by rw [hphase]; rfl
  refine hI.of_step rfl (Finset.mem_erase.mpr ⟨nofun, hI.owned⟩)
    (fun x hx => hI.old x (Finset.mem_of_mem_erase hx)) hI.current (hI.stay (hinside ▸ rfl)) nofun
    (fun d h _ hd x hx => hI.sole d h hd x (Finset.mem_of_mem_erase hx)) trivial
    (List.append_nil _).symm ?_
  intro d _ hd
  exact ⟨Finset.mem_erase.mpr ⟨nofun, hd⟩, rfl⟩

theorem Inv.takeReader {before : ℕ} (hI : Inv s) (hphase : s.phase c = .handleLocked before) :
    Inv ({ s with owners := s.owners.acquire (.reader c) s.current }.goto c
      (.taken before s.log.length)) := by
  have hinside : (s.phase c).inside = true := by rw [hphase]; rfl
  have hbefore : before ≤ s.log.length := by
    have hfits := hI.fits c
    rwa [hphase] at hfits
  have hobj : ∀ x, x ≠ .reader c →
      (s.owners.acquire (.reader c) s.current).obj x = s.owners.obj x :=
    fun x hx => Owners.obj_acquire_of_ne hx
  have hvector : s.vectors ((s.owners.acquire (.reader c) s.current).obj (.reader c)) = s.log := by
    rw [Owners.obj_acquire_self, hI.current]
  refine hI.of_step rfl (Finset.mem_insert_of_mem hI.owned) ?_ ?_ (hI.stay (hinside ▸ rfl)) nofun
    (fun d h' hd hpush => absurd hpush (hI.not_pushing hinside hd)) ?_ (List.append_nil _).symm ?_
  · intro x hx
    by_cases hxc : x = .reader c
    · rw [hxc]
      exact Owners.obj_acquire_self.trans_lt (hI.old _ hI.owned)
    · exact (hobj x hxc).trans_lt (hI.old x ((Finset.mem_insert.mp hx).resolve_left hxc))
  · exact (congrArg s.vectors (hobj .events nofun)).trans hI.current
  · exact ⟨Finset.mem_insert_self .., hbefore, le_rfl, hvector.trans List.take_length.symm⟩
  · intro d hd hlive
    exact ⟨Finset.mem_insert_of_mem hlive,
      congrArg s.vectors (hobj (.reader d) fun heq => hd (Handle.reader.inj heq))⟩

theorem Inv.dropReader {before seen : ℕ} {ran : List Handler} (hI : Inv s)
    (hphase : s.phase c = .running before seen ran)
    (hend : (s.vectors (s.owners.obj (.reader c)))[ran.length]? = none) :
    Inv ({ s with owners := s.owners.drop (.reader c) }.goto c (.handled before ran)) := by
  have hinside : (s.phase c).inside = false := by rw [hphase]; rfl
  have hfits := hI.fits c
  rw [hphase] at hfits
  obtain ⟨-, hbefore, hseen, hvector, hran⟩ := hfits
  refine hI.of_step rfl (Finset.mem_erase.mpr ⟨nofun, hI.owned⟩)
    (fun x hx => hI.old x (Finset.mem_of_mem_erase hx)) hI.current (hI.stay (hinside ▸ rfl)) nofun
    (fun d h _ hd x hx => hI.sole d h hd x (Finset.mem_of_mem_erase hx)) ⟨seen, hbefore, hseen, ?_⟩
    (List.append_nil _).symm ?_
  · rw [hvector, List.getElem?_eq_none_iff] at hend
    exact hran.trans (List.take_of_length_le hend)
  · intro d hd hlive
    exact ⟨Finset.mem_erase.mpr ⟨fun heq => hd (Handle.reader.inj heq), hlive⟩, rfl⟩

theorem Inv.runHandler {before seen : ℕ} {ran : List Handler} {h : Handler} (hI : Inv s)
    (hphase : s.phase c = .running before seen ran)
    (hnext : (s.vectors (s.owners.obj (.reader c)))[ran.length]? = some h) :
    Inv (s.goto c (.running before seen (ran ++ [h]))) := by
  have hinside : (s.phase c).inside = false := by rw [hphase]; rfl
  have hfits := hI.fits c
  rw [hphase] at hfits
  obtain ⟨hlive, hbefore, hseen, hvector, hran⟩ := hfits
  refine hI.move (hI.stay (hinside ▸ rfl)) nofun ⟨hlive, hbefore, hseen, hvector, ?_⟩
  rw [hvector] at hnext
  rw [List.length_append, List.length_singleton, List.take_add_one, ← hran, hnext]
  rfl

theorem lists_inv (hreach : (lists Call Handler).Reachable s) : Inv s := by
  refine hreach.invariant ?_ ?_
  · rintro s rfl
    refine ⟨Finset.mem_singleton_self _, fun _ _ => Nat.zero_lt_one, rfl,
      Guards.open_of_outside fun _ => rfl, nofun, fun _ => trivial⟩
  · intro s action s' hI hstep
    cases action with
    | addHandler c h =>
        simp only [lists] at hstep
        split at hstep
        · next hphase =>
            obtain rfl := Option.some.inj hstep
            exact hI.move (hI.stay (by rw [hphase]; rfl)) nofun trivial
        · exact nomatch hstep
    | handleEvent c =>
        simp only [lists] at hstep
        split at hstep
        · next hphase =>
            obtain rfl := Option.some.inj hstep
            exact hI.move (hI.stay (by rw [hphase]; rfl)) nofun (le_refl s.log.length)
        · exact nomatch hstep
    | goOn c =>
        simp only [lists, EventHandlerList.goOn] at hstep
        have hfits := hI.fits c
        split at hstep
        case h_4 h hphase =>
          simp only [Option.ite_none_right_eq_some, Option.some.injEq] at hstep
          obtain ⟨hfree, rfl⟩ := hstep
          exact hI.move (hI.lock hfree rfl) nofun trivial
        case h_5 h hphase =>
          obtain ⟨hcopy, hno⟩ := hI.makeSole hphase
          split at hstep
          · next hcount =>
              obtain rfl := Option.some.inj hstep
              exact hcopy hcount
          · next hcount =>
              obtain rfl := Option.some.inj hstep
              exact hno hcount
        case h_6 h hphase =>
          obtain rfl := Option.some.inj hstep
          exact hI.push hphase
        case h_7 hphase =>
          obtain rfl := Option.some.inj hstep
          exact hI.move (hI.unlock (by rw [hphase]; rfl) rfl) nofun trivial
        case h_8 hphase =>
          obtain rfl := Option.some.inj hstep
          exact hI.dropBackup hphase
        case h_9 before hphase =>
          simp only [Option.ite_none_right_eq_some, Option.some.injEq] at hstep
          obtain ⟨hfree, rfl⟩ := hstep
          rw [hphase] at hfits
          exact hI.move (hI.lock hfree rfl) nofun hfits
        case h_10 before hphase =>
          obtain rfl := Option.some.inj hstep
          exact hI.takeReader hphase
        case h_11 before seen hphase =>
          obtain rfl := Option.some.inj hstep
          rw [hphase] at hfits
          obtain ⟨hlive, hbefore, hseen, hvector⟩ := hfits
          exact hI.move (hI.unlock (by rw [hphase]; rfl) rfl) nofun
            ⟨hlive, hbefore, hseen, hvector, rfl⟩
        case h_12 before seen ran hphase =>
          split at hstep
          · next h hnext =>
              obtain rfl := Option.some.inj hstep
              exact hI.runHandler hphase hnext
          · next hend =>
              obtain rfl := Option.some.inj hstep
              exact hI.dropReader hphase hend
        all_goals exact nomatch hstep

/-- **No vector is modified that is read.**  When a call is about to push, no other call holds the
vector that it pushes to, and each of the others still finds in its own what was there when it took
it. -/
theorem pushed_alone (hreach : (lists Call Handler).Reachable s) {c : Call} {h : Handler}
    (hpush : s.phase c = .pushing h) {d : Call} {before seen : ℕ} {ran : List Handler}
    (hread : s.phase d = .running before seen ran) :
    s.owners.obj (.reader d) ≠ s.current ∧
      s.vectors (s.owners.obj (.reader d)) = s.log.take seen := by
  have hI := lists_inv hreach
  have hfits := hI.fits d
  rw [hread] at hfits
  obtain ⟨hlive, -, -, hvector, -⟩ := hfits
  exact ⟨fun heq => (nomatch hI.sole c h hpush _ hlive heq), hvector⟩

/-- A handler is added while another call runs those that there are. -/
theorem pushed_alone_copied :
    ∃ s, (lists ℕ ℕ).Reachable s ∧ s.phase 2 = .pushing 8 ∧ s.phase 1 = .running 1 1 [] ∧
      s.owners.obj (.reader 1) ≠ s.current ∧
      s.vectors (s.owners.obj (.reader 1)) = s.log.take 1 := by
  have hphases : ((lists ℕ ℕ).run .construct
      [.addHandler 0 7, .goOn 0, .goOn 0, .goOn 0, .goOn 0, .handleEvent 1, .goOn 1, .goOn 1,
        .goOn 1, .addHandler 2 8, .goOn 2, .goOn 2]).map (fun s => (s.phase 1, s.phase 2)) =
      some (.running 1 1 [], .pushing 8) := by
    decide
  obtain ⟨s, hrun, hphases⟩ := Option.map_eq_some_iff.mp hphases
  obtain ⟨hread, hpush⟩ := Prod.mk.inj hphases
  have hreach : (lists ℕ ℕ).Reachable s := ⟨.construct, _, rfl, hrun⟩
  exact ⟨s, hreach, hpush, hread, pushed_alone hreach hpush hread⟩

/-- **What a call of `handle_event` runs**: each once and in order, the handlers that were added
before some moment between its beginning and its end. -/
theorem handled_prefix (hreach : (lists Call Handler).Reachable s) {c : Call} {before : ℕ}
    {ran : List Handler} (hhandled : s.phase c = .handled before ran) :
    ∃ seen, before ≤ seen ∧ seen ≤ s.log.length ∧ ran = s.log.take seen := by
  have hfits := (lists_inv hreach).fits c
  rw [hhandled] at hfits
  exact hfits

/-- The second handler comes too late for the call. -/
theorem handled_prefix_late :
    ∃ s, (lists ℕ ℕ).Reachable s ∧ s.phase 1 = .handled 1 [7] ∧ s.log = [7, 8] ∧
      ∃ seen, 1 ≤ seen ∧ seen ≤ s.log.length ∧ [7] = s.log.take seen := by
  have hphases : ((lists ℕ ℕ).run .construct
      [.addHandler 0 7, .goOn 0, .goOn 0, .goOn 0, .goOn 0, .handleEvent 1, .goOn 1, .goOn 1,
        .goOn 1, .addHandler 2 8, .goOn 2, .goOn 2, .goOn 2, .goOn 1, .goOn 1]).map
      (fun s => (s.phase 1, s.log)) = some (.handled 1 [7], [7, 8]) := by
    decide
  obtain ⟨s, hrun, hphases⟩ := Option.map_eq_some_iff.mp hphases
  obtain ⟨hhandled, hlog⟩ := Prod.mk.inj hphases
  have hreach : (lists ℕ ℕ).Reachable s := ⟨.construct, _, rfl, hrun⟩
  exact ⟨s, hreach, hhandled, hlog, handled_prefix hreach hhandled⟩

end Invariant

end Eureka.CopyOnWrite

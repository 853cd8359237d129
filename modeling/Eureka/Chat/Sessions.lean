import Eureka.Chat.Server

/-!
# Sessions that are gone

`handleDisconnection` removes the session of its connection without waiting for
the goroutines that still handle packets of it.  One of them that has its load
ahead then finds nothing, and the type assertion panics.

* `Stored`: the session of a connection is there from the time its packets are
  read until it is removed, so the load of `handleDisconnection` finds it;
* `LoadsFind`: every load that can be done finds its session;
* `always_loadsFind_iff`: this holds in all states of a run exactly if no
  session is removed while a handler of its connection waits to load it.
-/

namespace Eureka.Chat

open Transition

variable {Conn : Type} [DecidableEq Conn]

/-! ## What the events change -/

/-- The sessions, the goroutines and the life of the process are the same. -/
structure SameGoroutines (s s' : Server Conn) : Prop where
  sessions : s'.sessions = s.sessions
  phase : s'.phase = s.phase
  handlers : s'.handlers = s.handlers
  panicked : s'.panicked = s.panicked

omit [DecidableEq Conn] in
theorem SameGoroutines.trans {s s' s'' : Server Conn} (h : SameGoroutines s s')
    (h' : SameGoroutines s' s'') : SameGoroutines s s'' where
  sessions := h'.sessions.trans h.sessions
  phase := h'.phase.trans h.phase
  handlers := h'.handlers.trans h.handlers
  panicked := h'.panicked.trans h.panicked

theorem same_send (s : Server Conn) (conn : Conn) (data : Bytes) :
    SameGoroutines s (s.send conn data) :=
  ⟨rfl, rfl, rfl, rfl⟩

theorem same_foldl_send (s : Server Conn) (conns : List Conn) (data : Bytes) :
    SameGoroutines s (conns.foldl (fun s conn => s.send conn data) s) := by
  induction conns generalizing s with
  | nil => exact ⟨rfl, rfl, rfl, rfl⟩
  | cons conn conns ih => exact (same_send s conn data).trans (ih (s.send conn data))

theorem same_sendAll (s : Server Conn) (data : Bytes) : SameGoroutines s (s.sendAll data) :=
  same_foldl_send s s.sessions data

theorem same_finishCommand (s : Server Conn) (conn : Conn) (data ts : Bytes) :
    SameGoroutines s (s.finishCommand conn data ts) := by
  rw [Server.finishCommand]
  cases command data with
  | useName name => exact ⟨rfl, rfl, rfl, rfl⟩
  | _ => exact same_send s conn _

theorem same_handlerFinish (s : Server Conn) (i : ℕ) (handler : Handler Conn) (ts : Bytes) :
    SameGoroutines { s with handlers := s.handlers.eraseIdx i } (s.handlerFinish i handler ts) := by
  rw [Server.handlerFinish]
  split
  · exact same_sendAll _ _
  · exact same_finishCommand _ _ _ _

/-- The connection goes on to a phase, with the same sessions and handlers. -/
structure Moves (s s' : Server Conn) (conn : Conn) (phase : Phase) : Prop where
  sessions : s'.sessions = s.sessions
  phase : s'.phase = Function.update s.phase conn phase
  handlers : s'.handlers = s.handlers
  panicked : s'.panicked = s.panicked

theorem moves_setPhase {s s' : Server Conn} (h : SameGoroutines s s') (conn : Conn)
    (phase : Phase) : Moves s (s'.setPhase conn phase) conn phase where
  sessions := h.sessions
  phase := by rw [Server.setPhase, h.phase]
  handlers := h.handlers
  panicked := h.panicked

theorem moves_join (s : Server Conn) (conn : Conn) (ts : Bytes) :
    Moves s (s.join conn ts) conn .named :=
  have hname (name : Bytes) : SameGoroutines s { s with
      sessionSeq := s.sessionSeq + 1
      name := Function.update s.name conn name } := ⟨rfl, rfl, rfl, rfl⟩
  moves_setPhase ((hname _).trans (same_sendAll _ _)) conn .named

theorem moves_leave (s : Server Conn) (conn : Conn) (ts : Bytes) :
    Moves s (s.leave conn ts) conn .gone :=
  moves_setPhase (same_sendAll _ _) conn .gone

/-- What an event does to the sessions and the goroutines. -/
inductive Effect (s : Server Conn) : Event Conn → Server Conn → Prop
  | moves {event : Event Conn} {conn : Conn} {phase : Phase} {s' : Server Conn} :
      (∀ conn, event ≠ .delete conn) → Moves s s' conn phase →
      phase ≠ .serving → (phase = .disconnecting → s.phase conn = .serving) →
      (phase = .loaded → conn ∈ s.sessions) → Effect s event s'
  | store {conn : Conn} :
      Effect s (.store conn) ({ s with sessions := s.sessions ++ [conn] }.setPhase conn .serving)
  | recv {conn : Conn} {packet : Packet} :
      s.phase conn = .serving → Effect s (.recv conn packet) (s.dispatch conn packet)
  | delete {conn : Conn} :
      Effect s (.delete conn)
        ({ s with sessions := s.sessions.filter (· ≠ conn) }.setPhase conn .removed)
  | panics {event : Event Conn} {conn : Conn} :
      conn ∉ s.sessions →
      (event = .disconnectLoad conn ∧ s.phase conn = .disconnecting ∨
        ∃ i handler, event = .handlerLoad i ∧ handler ∈ s.handlers ∧ handler.waits ∧
          handler.conn = conn) →
      Effect s event { s with panicked := true }
  | loads {i : ℕ} {handler : Handler Conn} :
      s.handlers[i]? = some handler → handler.waits → handler.conn ∈ s.sessions →
      Effect s (.handlerLoad i)
        { s with handlers := s.handlers.set i { handler with loaded := true } }
  | finishes {i : ℕ} {ts : Bytes} {s' : Server Conn} :
      SameGoroutines { s with handlers := s.handlers.eraseIdx i } s' →
      Effect s (.handlerFinish i ts) s'

theorem effect_of_step {s s' : Server Conn} {event : Event Conn}
    (hstep : step s event = some s') : s.panicked = false ∧ Effect s event s' := by
  rw [step.eq_def] at hstep
  split at hstep
  · cases hstep
  next hpanicked =>
  refine ⟨Bool.eq_false_iff.mpr hpanicked, ?_⟩
  cases event with
  | accept conn =>
      dsimp only at hstep
      split_ifs at hstep with hphase
      cases hstep
      exact .moves nofun (moves_setPhase ⟨rfl, rfl, rfl, rfl⟩ conn .accepted) nofun nofun nofun
  | join conn ts =>
      dsimp only at hstep
      split_ifs at hstep with hphase
      cases hstep
      exact .moves nofun (moves_join s conn ts) nofun nofun nofun
  | store conn =>
      dsimp only at hstep
      split_ifs at hstep with hphase
      cases hstep
      exact .store
  | recv conn packet =>
      dsimp only at hstep
      split_ifs at hstep with hphase
      cases hstep
      exact .recv hphase
  | recvError conn =>
      dsimp only at hstep
      split_ifs at hstep with hphase
      cases hstep
      exact .moves nofun (moves_setPhase ⟨rfl, rfl, rfl, rfl⟩ conn .disconnecting) nofun
        (fun _ => hphase) nofun
  | disconnectLoad conn =>
      dsimp only at hstep
      split_ifs at hstep with hphase
      cases hstep
      rw [Server.disconnectLoad]
      split
      · next hfound =>
          exact .moves nofun (moves_setPhase ⟨rfl, rfl, rfl, rfl⟩ conn .loaded) nofun nofun
            (fun _ => hfound)
      · next hmissing => exact .panics hmissing (.inl ⟨rfl, hphase⟩)
  | delete conn =>
      dsimp only at hstep
      split_ifs at hstep with hphase
      cases hstep
      exact .delete
  | leave conn ts =>
      dsimp only at hstep
      split_ifs at hstep with hphase
      cases hstep
      exact .moves nofun (moves_leave s conn ts) nofun nofun nofun
  | handlerLoad i =>
      dsimp only at hstep
      split at hstep
      · next handler hi =>
          split_ifs at hstep with hwaits
          cases hstep
          rw [Server.handlerLoad]
          split
          · next hfound => exact .loads hi hwaits hfound
          · next hmissing =>
              exact .panics hmissing
                (.inr ⟨i, handler, rfl, List.mem_of_getElem? hi, hwaits, rfl⟩)
      · cases hstep
  | handlerFinish i ts =>
      dsimp only at hstep
      split at hstep
      · next handler hi =>
          split_ifs at hstep with hwaits
          cases hstep
          exact .finishes (same_handlerFinish s i handler ts)
      · cases hstep

/-! ## The session of a connection that is read -/

/-- The connection is between its store and its delete. -/
def IsActive (phase : Phase) : Prop :=
  phase = .serving ∨ phase = .disconnecting ∨ phase = .loaded

def Stored (s : Server Conn) : Prop := ∀ conn, IsActive (s.phase conn) → conn ∈ s.sessions

theorem Stored.update {s s' : Server Conn} (hs : Stored s) {conn : Conn} {phase : Phase}
    (hphase : s'.phase = Function.update s.phase conn phase)
    (hother : ∀ other ≠ conn, other ∈ s.sessions → other ∈ s'.sessions)
    (hconn : IsActive phase → conn ∈ s'.sessions) : Stored s' := by
  intro other hactive
  rw [hphase] at hactive
  by_cases heq : other = conn
  · subst heq
    rw [Function.update_self] at hactive
    exact hconn hactive
  · rw [Function.update_of_ne heq] at hactive
    exact hother other heq (hs other hactive)

omit [DecidableEq Conn] in
theorem Stored.congr {s s' : Server Conn} (hs : Stored s) (hphase : s'.phase = s.phase)
    (hsessions : s'.sessions = s.sessions) : Stored s' := by
  intro conn hactive
  rw [hphase] at hactive
  rw [hsessions]
  exact hs conn hactive

theorem Stored.effect {s s' : Server Conn} {event : Event Conn} (hs : Stored s)
    (heffect : Effect s event s') : Stored s' := by
  cases heffect with
  | @moves _ conn phase _ _ hmoves hserving hdisconnecting hloaded =>
      refine hs.update hmoves.phase (fun other _ hother => by rwa [hmoves.sessions]) ?_
      rw [hmoves.sessions]
      rintro (hphase | hphase | hphase)
      · exact absurd hphase hserving
      · exact hs conn (.inl (hdisconnecting hphase))
      · exact hloaded hphase
  | @store conn =>
      refine hs.update rfl (fun other _ hother => List.mem_append_left _ hother) fun _ => ?_
      exact List.mem_append_right _ (List.mem_singleton_self conn)
  | recv hphase =>
      rw [Server.dispatch]
      split
      · exact hs.congr rfl rfl
      · exact hs
  | @delete conn =>
      refine hs.update rfl (fun other hne hother => ?_) (by rintro (h | h | h) <;> cases h)
      exact List.mem_filter.mpr ⟨hother, decide_eq_true hne⟩
  | panics _ _ => exact hs.congr rfl rfl
  | loads _ _ _ => exact hs.congr rfl rfl
  | finishes hsame => exact hs.congr hsame.phase hsame.sessions

/-! ## The sessions of the handlers -/

/-- No handler has lost the session that it still has to load. -/
structure Kept (s : Server Conn) : Prop where
  alive : s.panicked = false
  found : ∀ handler ∈ s.handlers, handler.waits → handler.conn ∈ s.sessions

/-- A session is removed only when no handler of its connection waits to load it. -/
def RemovesLoaded (s : Server Conn) : Event Conn → Prop
  | .delete conn => ∀ handler ∈ s.handlers, handler.conn = conn → handler.waits = false
  | _ => True

omit [DecidableEq Conn] in
theorem Kept.not_panics {s : Server Conn} {event : Event Conn} {conn : Conn} (hs : Stored s)
    (hkept : Kept s) (hmissing : conn ∉ s.sessions) :
    ¬ (event = .disconnectLoad conn ∧ s.phase conn = .disconnecting ∨
      ∃ i handler, event = .handlerLoad i ∧ handler ∈ s.handlers ∧ handler.waits ∧
        handler.conn = conn) := by
  rintro (⟨-, hphase⟩ | ⟨i, handler, -, hmem, hwaits, rfl⟩)
  · exact hmissing (hs conn (.inr (.inl hphase)))
  · exact hmissing (hkept.found handler hmem hwaits)

theorem Kept.effect {s s' : Server Conn} {event : Event Conn} (hs : Stored s) (hkept : Kept s)
    (heffect : Effect s event s') (hremoves : RemovesLoaded s event) : Kept s' := by
  cases heffect with
  | moves _ hmoves =>
      refine ⟨hmoves.panicked.trans hkept.alive, ?_⟩
      rw [hmoves.handlers, hmoves.sessions]
      exact hkept.found
  | store =>
      refine ⟨hkept.alive, fun handler hmem hwaits => ?_⟩
      exact List.mem_append_left _ (hkept.found handler hmem hwaits)
  | @recv conn packet hphase =>
      rw [Server.dispatch]
      split
      · refine ⟨hkept.alive, fun handler hmem hwaits => ?_⟩
        rcases List.mem_append.mp hmem with hmem | hmem
        · exact hkept.found handler hmem hwaits
        · -- the reading goroutine starts the handler while its session is there
          rw [List.mem_singleton.mp hmem]
          exact hs conn (.inl hphase)
      · exact hkept
  | @delete conn =>
      refine ⟨hkept.alive, fun handler hmem hwaits => ?_⟩
      have hne : handler.conn ≠ conn := by
        intro heq
        rw [hremoves handler hmem heq] at hwaits
        cases hwaits
      exact List.mem_filter.mpr ⟨hkept.found handler hmem hwaits, decide_eq_true hne⟩
  | panics hmissing hcause => exact absurd hcause (hkept.not_panics hs hmissing)
  | @loads i loading hi _ _ =>
      refine ⟨hkept.alive, fun handler hmem hwaits => ?_⟩
      rcases List.mem_or_eq_of_mem_set hmem with hmem | rfl
      · exact hkept.found handler hmem hwaits
      · rw [Handler.waits, Bool.not_true, Bool.and_false] at hwaits
        cases hwaits
  | finishes hsame =>
      refine ⟨hsame.panicked.trans hkept.alive, ?_⟩
      rw [hsame.handlers, hsame.sessions]
      exact fun handler hmem hwaits => hkept.found handler (List.mem_of_mem_eraseIdx hmem) hwaits

/-- A removal in front of a load loses the session of the handler. -/
theorem removesLoaded_of_kept {s s' : Server Conn} {event : Event Conn}
    (hstep : step s event = some s') (hkept : Kept s') : RemovesLoaded s event := by
  cases event with
  | delete conn =>
      intro handler hmem hconn
      rw [Bool.eq_false_iff]
      intro hwaits
      cases (effect_of_step hstep).2 with
      | moves hdelete => exact hdelete conn rfl
      | delete =>
          have hfound := hkept.found handler hmem hwaits
          rw [← hconn] at hfound
          exact of_decide_eq_true (List.mem_filter.mp hfound).2 rfl
      | panics _ hcause => rcases hcause with ⟨h, -⟩ | ⟨_, _, h, -⟩ <;> cases h
  | _ => trivial

/-! ## Loads -/

/-- The events that load a session and assert its type. -/
def Event.IsLoad : Event Conn → Prop
  | .disconnectLoad _ => True
  | .handlerLoad _ => True
  | _ => False

/-- No load has panicked, and every load that can be done now finds its session. -/
def LoadsFind (s : Server Conn) : Prop :=
  s.panicked = false ∧
    ∀ event s', event.IsLoad → step s event = some s' → s'.panicked = false

theorem loadsFind_iff_kept {s : Server Conn} (hs : Stored s) : LoadsFind s ↔ Kept s := by
  constructor
  · rintro ⟨halive, hloads⟩
    refine ⟨halive, fun handler hmem hwaits => ?_⟩
    by_contra hmissing
    obtain ⟨i, hi⟩ := List.mem_iff_getElem?.mp hmem
    -- the load of this handler would panic
    have hstep : step s (.handlerLoad i) = some { s with panicked := true } := by
      rw [step.eq_def, if_neg (Bool.eq_false_iff.mp halive)]
      dsimp only
      rw [hi]
      dsimp only
      rw [if_pos hwaits, Server.handlerLoad, if_neg hmissing]
    have hpanicked := hloads (.handlerLoad i) _ trivial hstep
    cases hpanicked
  · intro hkept
    refine ⟨hkept.alive, fun event s' hload hstep => ?_⟩
    have hremoves : RemovesLoaded s event := by
      cases event with
      | delete => exact absurd hload id
      | _ => trivial
    exact (hkept.effect hs (effect_of_step hstep).2 hremoves).alive

omit [DecidableEq Conn] in
theorem stored_initial : Stored (initial : Server Conn) := by
  rintro conn (h | h | h) <;> cases h

omit [DecidableEq Conn] in
theorem kept_initial : Kept (initial : Server Conn) := ⟨rfl, fun _ h => absurd h List.not_mem_nil⟩

/-- **Sessions are found exactly when they are removed last.**  In every run, every load of a
session finds it in all states of the run, if and only if no session is removed while a handler of
its connection waits to load it. -/
theorem always_loadsFind_iff {events : List (Event Conn)} {s : Server Conn}
    (hrun : (server Conn).run initial events = some s) :
    (server Conn).Always LoadsFind initial events ↔
      (server Conn).EachStep RemovesLoaded initial events := by
  refine System.always_iff_eachStep (I := Stored)
    (fun s event s' hs hstep => hs.effect (effect_of_step hstep).2) ?_ stored_initial
    ((loadsFind_iff_kept stored_initial).mpr kept_initial) hrun
  intro s event s' hs hfind hstep
  have hs' : Stored s' := hs.effect (effect_of_step hstep).2
  rw [loadsFind_iff_kept hs']
  constructor
  · exact removesLoaded_of_kept hstep
  · exact ((loadsFind_iff_kept hs).mp hfind).effect hs (effect_of_step hstep).2

/-- A connection that sends a message and is closed behind the load of its handler. -/
def promptHandler : List (Event ℕ) :=
  [.accept 0, .join 0 [], .store 0, .recv 0 ⟨messagePacket, [104, 105]⟩, .handlerLoad 0,
    .recvError 0, .disconnectLoad 0, .delete 0, .handlerFinish 0 [], .leave 0 []]

theorem always_loadsFind_iff_prompt :
    (server ℕ).Always LoadsFind initial promptHandler ↔
      (server ℕ).EachStep RemovesLoaded initial promptHandler :=
  have hrun : ((server ℕ).run initial promptHandler).isSome = true := rfl
  always_loadsFind_iff (Option.some_get hrun).symm

/-- The same, with the handler slower than the removal of the session. -/
def slowHandler : List (Event ℕ) :=
  [.accept 0, .join 0 [], .store 0, .recv 0 ⟨messagePacket, [104, 105]⟩, .recvError 0,
    .disconnectLoad 0, .delete 0, .handlerLoad 0]

/-- The load of the slow handler panics. -/
theorem session_lost :
    ¬ ∀ (events : List (Event ℕ)) (s : Server ℕ),
      (server ℕ).run initial events = some s → s.panicked = false := by
  intro h
  have hrun : ((server ℕ).run initial slowHandler).map (·.panicked) = some true := rfl
  obtain ⟨s, hs, hpanicked⟩ := Option.map_eq_some_iff.mp hrun
  rw [h slowHandler s hs] at hpanicked
  cases hpanicked

end Eureka.Chat

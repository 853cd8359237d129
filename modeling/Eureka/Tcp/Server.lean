import Eureka.Tcp.Connection

/-!
# The connections of a server

`TCPServer`, with what `TCPConnection` and `Channel` do about the life of a
connection: `HandleNewConnection`, `EstablishConnection`, `HandleEvents`,
`HandleRead`, `HandleClose`, `RemoveConnection` and `DestroyConnection`.  All of it
runs on the loop thread, also the calls of `Shutdown`, which may come at any time.  The
task of a `Shutdown` on another thread would not keep its connection alive.

A connection is the number of its acceptance, and its name in `connections_` this
number modulo `2 ^ 32`.  It lives as long as `connections_` or a queued
`DestroyConnection` owns it.  The poller watches channels, which it does not own.

* `never_fails_iff`: nothing fails in a run exactly if its steps are `Harmless`;
* `lifecycle`: as long as nothing has failed, the poller watches exactly the channels
  of living connections, and the handlers hear of every connection that it is up, of its
  messages, and once that it is down.
-/

namespace Eureka.Tcp

open Transition

/-- What `poll` reports of a channel, as far as `HandleEvents` looks at it. -/
structure Revents where
  pollIn : Bool
  pollPri : Bool
  pollRdhup : Bool
  pollHup : Bool
deriving DecidableEq, Repr

/-- What `ReadFD` returns: more than zero, zero, or less. -/
inductive ReadResult
  | data
  | closed
  | error
deriving DecidableEq, Repr

/-- An active channel: the listener's, where `accept4` may fail, or that of a connection. -/
inductive Event
  | accept (accepted : Bool)
  | channel (id : ℕ) (revents : Revents) (read : ReadResult)
deriving DecidableEq, Repr

/-- The connection of an active channel. -/
def Event.conn? : Event → Option ℕ
  | .accept _ => none
  | .channel id _ _ => some id

/-- The calls of the handlers; the connection handler is told whether the connection is up. -/
inductive Notice
  | connection (id : ℕ) (up : Bool)
  | message (id : ℕ)
deriving DecidableEq, Repr

def Notice.conn : Notice → ℕ
  | .connection id _ => id
  | .message id => id

inductive ServerPhase
  | polling
  | handling (active : List Event)
  | processing (batch : List ℕ)
deriving DecidableEq, Repr

inductive Failure
  /-- an `ENSURE` fails -/
  | check
  /-- a handler is called that was not set -/
  | badFunctionCall
  /-- a connection is deleted while the poller watches its channel -/
  | dangling
deriving DecidableEq, Repr

structure Server where
  nextConnId : ℕ
  /-- the connections that `connections_` owns -/
  connections : List ℕ
  state : ℕ → ConnState
  /-- the connections whose channels have an empty interest set -/
  muted : List ℕ
  /-- the connections whose channels the poller knows -/
  watched : List ℕ
  /-- the connections that a queued `DestroyConnection` owns -/
  pendingTasks : List ℕ
  phase : ServerPhase
  notices : List Notice
  failed : Option Failure

/-- The key in `connections_`. -/
def connName (id : ℕ) : ℕ := id % 2 ^ 32

namespace Server

def initial : Server := ⟨0, [], fun _ => .connecting, [], [], [], .polling, [], none⟩

def setState (s : Server) (id : ℕ) (state : ConnState) : Server :=
  { s with state := Function.update s.state id state }

def notify (s : Server) (notice : Notice) : Server := { s with notices := s.notices ++ [notice] }

def fail (s : Server) (failure : Failure) : Server := { s with failed := some failure }

/-- `RemoveConnection`. -/
def removeConnection (s : Server) (id : ℕ) : Server :=
  if connName id ∈ s.connections.map connName then
    { s with
      connections := s.connections.filter (connName · ≠ connName id)
      pendingTasks := s.pendingTasks ++ [id] }
  else s.fail .check

/-- `HandleClose`; it leaves the state of the connection as it is. -/
def handleClose (s : Server) (id : ℕ) : Server :=
  if s.state id = .connected ∨ s.state id = .disconnecting then
    { s with muted := s.muted ++ [id] }.removeConnection id
  else s.fail .check

/-- `HandleRead`. -/
def handleRead (s : Server) (id : ℕ) : ReadResult → Server
  | .data => s.notify (.message id)
  | .closed => s.handleClose id
  | .error => s

/-- `HandleEvents`, without `HandleWrite` and the log of errors. -/
def handleEvents (s : Server) (id : ℕ) (revents : Revents) (read : ReadResult) : Server :=
  let s := if revents.pollHup && !revents.pollIn then s.handleClose id else s
  if s.failed.isSome then s
  else if revents.pollIn || revents.pollPri || revents.pollRdhup then s.handleRead id read
  else s

/-- `HandleNewConnection` of the server, with `EstablishConnection`.  If the name is taken,
`connections_` does not own the connection, and it is deleted in the end. -/
def handleNewConnection (hasHandler : Bool) (s : Server) : Server :=
  let id := s.nextConnId
  let fresh := decide (connName id ∉ s.connections.map connName)
  let s := { s with
    nextConnId := id + 1
    connections := if fresh then s.connections ++ [id] else s.connections
    watched := s.watched ++ [id] }.setState id .connected
  let s := if hasHandler then s.notify (.connection id true) else s
  if fresh then s else s.fail .dangling

/-- `HandleNewConnection` of the acceptor. -/
def handleAccept (hasHandler accepted : Bool) (s : Server) : Server :=
  if accepted then s.handleNewConnection hasHandler else s.fail .check

/-- `DestroyConnection`, which calls the connection handler without looking whether it is set; the
connection is deleted behind it. -/
def destroyConnection (hasHandler : Bool) (s : Server) (id : ℕ) : Server :=
  let s := s.setState id .disconnected
  if hasHandler then
    if id ∈ s.watched then
      { s.notify (.connection id false) with watched := s.watched.erase id }
    else s.fail .check
  else s.fail .badFunctionCall

/-- `Shutdown` on the loop thread, as far as the state is concerned. -/
def shutdown (s : Server) (id : ℕ) : Server :=
  if s.state id = .connected then s.setState id .disconnecting else s

/-- `poll` may report these channels: each one comes once, and those of connections are known and
their interest sets not empty. -/
def mayReport (s : Server) (active : List Event) : Bool :=
  decide (active.map Event.conn?).Nodup &&
    decide (∀ id ∈ active.filterMap Event.conn?, id ∈ s.watched ∧ id ∉ s.muted)

/-- The connections that a `DestroyConnection` owns which has not run. -/
def tasks (s : Server) : List ℕ :=
  match s.phase with
  | .processing batch => batch ++ s.pendingTasks
  | .polling | .handling _ => s.pendingTasks

/-- The living connections. -/
def living (s : Server) : List ℕ := s.connections ++ s.tasks

/-- What the handlers have heard of a connection. -/
def history (s : Server) (id : ℕ) : List Notice := s.notices.filter (·.conn = id)

/-- The handlers have heard that the connection is up, then of messages, and if it does not live
any more at last that it is down. -/
def Told (hasHandler : Bool) (s : Server) (id : ℕ) : Prop :=
  ∃ count, s.history id = (if hasHandler then [.connection id true] else []) ++
    List.replicate count (.message id) ++ if id ∈ s.living then [] else [.connection id false]

end Server

inductive ServerAction
  | poll (active : List Event)
  | handleNext
  | runNext
  | shutdown (id : ℕ)
deriving DecidableEq, Repr

/-- The runs of a server, whose connection handler may have been set. -/
def servers (hasHandler : Bool) : System Server ServerAction where
  start s := s = .initial
  step s action :=
    if s.failed.isSome then none
    else
      match action, s.phase with
      | .poll active, .polling =>
          if s.mayReport active then some { s with phase := .handling active } else none
      | .handleNext, .handling (.accept accepted :: active) =>
          some ({ s with phase := .handling active }.handleAccept hasHandler accepted)
      | .handleNext, .handling (.channel id revents read :: active) =>
          some ({ s with phase := .handling active }.handleEvents id revents read)
      | .handleNext, .handling [] =>
          some { s with phase := .processing s.pendingTasks, pendingTasks := [] }
      | .runNext, .processing (id :: batch) =>
          some ({ s with phase := .processing batch }.destroyConnection hasHandler id)
      | .runNext, .processing [] => some { s with phase := .polling }
      | .shutdown id, _ => some (s.shutdown id)
      | _, _ => none

/-- One event that closes the connection twice: it is hung up without anything to read, and a read
for another reason finds the end of the stream. -/
def closesTwice (revents : Revents) (read : ReadResult) : Bool :=
  revents.pollHup && !revents.pollIn && (revents.pollPri || revents.pollRdhup) && read = .closed

/-- Nothing goes wrong here: a connection is accepted and its name is free, no event closes its
connection twice, and no connection comes to its end without a connection handler. -/
def Harmless (hasHandler : Bool) (s : Server) (action : ServerAction) : Prop :=
  match action, s.phase with
  | .handleNext, .handling (.accept accepted :: _) =>
      accepted = true ∧ connName s.nextConnId ∉ s.connections.map connName
  | .handleNext, .handling (.channel _ revents read :: _) => closesTwice revents read = false
  | .runNext, .processing (_ :: _) => hasHandler = true
  | _, _ => True

instance (hasHandler : Bool) (s : Server) (action : ServerAction) :
    Decidable (Harmless hasHandler s action) := by
  unfold Harmless
  split <;> infer_instance

/-! ### The handlers -/

namespace Server

@[simp]
theorem history_notify (s : Server) (notice : Notice) (id : ℕ) :
    (s.notify notice).history id = s.history id ++ if notice.conn = id then [notice] else [] := by
  simp only [history, notify, List.filter_append, List.filter_cons, List.filter_nil,
    decide_eq_true_eq]

@[simp]
theorem living_notify (s : Server) (notice : Notice) : (s.notify notice).living = s.living := rfl

theorem tasks_of_handling {s : Server} {active : List Event} (hphase : s.phase = .handling active) :
    s.tasks = s.pendingTasks := by
  simp only [tasks, hphase]

/-- Names tell the owned connections apart: to leave out a name is to leave out a connection. -/
theorem filter_connName {connections : List ℕ} {id : ℕ}
    (hnames : (connections.map connName).Nodup) (hid : id ∈ connections) :
    connections.filter (connName · ≠ connName id) = connections.erase id := by
  rw [(List.Nodup.of_map _ hnames).erase_eq_filter]
  refine List.filter_congr fun other hother => ?_
  have hiff : connName other = connName id ↔ other = id := by
    constructor
    · exact List.inj_on_of_nodup_map hnames hother hid
    · rintro rfl
      rfl
  simp only [hiff, ne_eq, decide_not]
  rfl

theorem Told.congr {hasHandler : Bool} {s s' : Server} {id : ℕ} (htold : s.Told hasHandler id)
    (hhistory : s'.history id = s.history id) (hliving : id ∈ s'.living ↔ id ∈ s.living) :
    s'.Told hasHandler id := by
  obtain ⟨count, htold⟩ := htold
  refine ⟨count, ?_⟩
  rw [hhistory, htold]
  simp only [hliving]

/-- What holds as long as nothing has failed. -/
structure Inv (hasHandler : Bool) (s : Server) : Prop where
  accepted : ∀ id ∈ s.living, id < s.nextConnId
  nodup : s.living.Nodup
  names : (s.connections.map connName).Nodup
  watched : s.watched.Perm s.living
  /-- an owned connection has not been closed -/
  owned : ∀ id ∈ s.connections,
    id ∉ s.muted ∧ (s.state id = .connected ∨ s.state id = .disconnecting)
  closed : ∀ id ∈ s.tasks, id ∈ s.muted
  old : ∀ id ∈ s.muted, id < s.nextConnId
  active : ∀ active, s.phase = .handling active →
    (active.map Event.conn?).Nodup ∧ ∀ id ∈ active.filterMap Event.conn?, id ∈ s.connections
  settled : (∀ active, s.phase ≠ .handling active) → s.pendingTasks = []
  told : ∀ id < s.nextConnId, s.Told hasHandler id
  untold : ∀ id, s.nextConnId ≤ id → s.history id = []

variable {hasHandler : Bool} {s : Server} {active : List Event} {id : ℕ}

/-- An owned connection is alive, and no `DestroyConnection` owns it. -/
theorem Inv.not_mem_tasks (hI : s.Inv hasHandler) (hid : id ∈ s.connections) : id ∉ s.tasks :=
  fun htask => (List.disjoint_of_nodup_append hI.nodup) hid htask

theorem Inv.toPhase (hI : s.Inv hasHandler) {phase : ServerPhase} {pendingTasks : List ℕ}
    (htasks : ({ s with phase := phase, pendingTasks := pendingTasks } : Server).tasks = s.tasks)
    (hactive : ∀ active, phase = .handling active →
      (active.map Event.conn?).Nodup ∧ ∀ id ∈ active.filterMap Event.conn?, id ∈ s.connections)
    (hsettled : (∀ active, phase ≠ .handling active) → pendingTasks = []) :
    Inv hasHandler { s with phase := phase, pendingTasks := pendingTasks } := by
  have hliving : ({ s with phase := phase, pendingTasks := pendingTasks } : Server).living =
      s.living := by
    simp only [living, htasks]
  refine ⟨?_, ?_, hI.names, ?_, hI.owned, ?_, hI.old, hactive, hsettled, ?_, hI.untold⟩
  · simpa only [hliving] using hI.accepted
  · simpa only [hliving] using hI.nodup
  · simpa only [hliving] using hI.watched
  · simpa only [htasks] using hI.closed
  · exact fun id hid => Told.congr (hI.told id hid) rfl (by rw [hliving])

theorem Inv.next {event : Event} (hI : s.Inv hasHandler)
    (hphase : s.phase = .handling (event :: active)) :
    Inv hasHandler { s with phase := .handling active } ∧
      ∀ id, event.conn? = some id → id ∈ s.connections ∧ id ∉ active.filterMap Event.conn? := by
  obtain ⟨honce, howned⟩ := hI.active _ hphase
  obtain ⟨hnew, honce⟩ := List.nodup_cons.mp honce
  have htasks : ({ s with phase := .handling active } : Server).tasks = s.tasks := by
    rw [tasks_of_handling hphase, tasks_of_handling rfl]
  constructor
  · refine hI.toPhase htasks ?_ fun hno => absurd rfl (hno active)
    intro active' hactive
    obtain rfl : active = active' := by simpa using hactive
    refine ⟨honce, fun id hid => howned id ?_⟩
    rw [List.filterMap_cons]
    split
    · exact hid
    · exact List.mem_cons_of_mem _ hid
  · intro id hconn
    constructor
    · apply howned
      simp [hconn]
    · intro hmem
      obtain ⟨other, hother, heq⟩ := List.mem_filterMap.mp hmem
      exact hnew (List.mem_map.mpr ⟨other, hother, heq.trans hconn.symm⟩)

theorem Inv.message (hI : s.Inv hasHandler) (hid : id ∈ s.living) :
    Inv hasHandler (s.notify (.message id)) := by
  refine ⟨hI.accepted, hI.nodup, hI.names, hI.watched, hI.owned, hI.closed, hI.old, hI.active,
    hI.settled, ?_, ?_⟩
  · intro other hother
    by_cases heq : id = other
    · subst heq
      obtain ⟨count, htold⟩ := hI.told id hother
      refine ⟨count + 1, ?_⟩
      rw [history_notify, htold, List.replicate_succ']
      simp [hid, Notice.conn]
    · refine Told.congr (hI.told other hother) ?_ Iff.rfl
      simp [heq, Notice.conn]
  · intro other hother
    have hne : id ≠ other := ((hI.accepted id hid).trans_le hother).ne
    rw [history_notify, hI.untold other hother]
    simp [hne, Notice.conn]

/-- To close an owned connection is to hand it over to its `DestroyConnection`. -/
theorem Inv.handleClose_eq (hI : s.Inv hasHandler) (hid : id ∈ s.connections) :
    s.handleClose id =
      { s with
        muted := s.muted ++ [id]
        connections := s.connections.erase id
        pendingTasks := s.pendingTasks ++ [id] } := by
  rw [handleClose, if_pos (hI.owned id hid).2, removeConnection,
    if_pos (List.mem_map_of_mem hid)]
  exact congrArg (fun connections => { s with
    muted := s.muted ++ [id]
    connections := connections
    pendingTasks := s.pendingTasks ++ [id] }) (filter_connName hI.names hid)

theorem Inv.handleClose (hI : s.Inv hasHandler) (hphase : s.phase = .handling active)
    (hid : id ∈ s.connections) (hrest : id ∉ active.filterMap Event.conn?) :
    Inv hasHandler (s.handleClose id) := by
  rw [hI.handleClose_eq hid]
  set s' : Server := { s with
    muted := s.muted ++ [id]
    connections := s.connections.erase id
    pendingTasks := s.pendingTasks ++ [id] } with hs'
  have htasks : s'.tasks = s.tasks ++ [id] := by
    rw [tasks_of_handling hphase, tasks_of_handling (s := s') hphase]
  have hliving : s'.living.Perm s.living := by
    have hmoved : (s.connections.erase id ++ [id]).Perm s.connections :=
      (List.perm_append_singleton _ _).trans (List.perm_cons_erase hid).symm
    calc s'.living
      _ = s.connections.erase id ++ (s.tasks ++ [id]) := by rw [living, htasks]
      List.Perm _ (s.connections.erase id ++ ([id] ++ s.tasks)) :=
        List.perm_append_comm.append_left _
      _ = s.connections.erase id ++ [id] ++ s.tasks := (List.append_assoc ..).symm
      List.Perm _ s.living := hmoved.append_right _
  have hmem : ∀ other, other ∈ s'.living ↔ other ∈ s.living := fun _ => hliving.mem_iff
  refine ⟨?_, ?_, ?_, ?_, ?_, ?_, ?_, ?_, ?_, ?_, hI.untold⟩
  · intro other hother
    exact hI.accepted other ((hmem other).mp hother)
  · exact hliving.nodup_iff.mpr hI.nodup
  · exact hI.names.sublist (List.erase_sublist.map connName)
  · exact hI.watched.trans hliving.symm
  · intro other hother
    obtain ⟨hne, hother⟩ := (List.Nodup.of_map _ hI.names).mem_erase_iff.mp hother
    refine ⟨?_, (hI.owned other hother).2⟩
    simp [hs', (hI.owned other hother).1, hne]
  · intro other hother
    rw [htasks] at hother
    rcases List.mem_append.mp hother with hother | hother
    · exact List.mem_append_left _ (hI.closed other hother)
    · exact List.mem_append_right _ hother
  · intro other hother
    rcases List.mem_append.mp hother with hother | hother
    · exact hI.old other hother
    · obtain rfl := List.mem_singleton.mp hother
      exact hI.accepted other (List.mem_append_left _ hid)
  · intro active' hactive
    obtain rfl : active = active' := by simpa using hphase.symm.trans hactive
    obtain ⟨honce, howned⟩ := hI.active active hphase
    refine ⟨honce, fun other hother => ?_⟩
    have hne : other ≠ id := fun heq => hrest (heq ▸ hother)
    exact (List.mem_erase_of_ne hne).mpr (howned other hother)
  · intro hno
    exact absurd hphase (hno active)
  · intro other hother
    exact Told.congr (hI.told other hother) rfl (hmem other)

/-- A connection that is not owned cannot be closed. -/
theorem handleClose_failed (hid : connName id ∉ s.connections.map connName) :
    (s.handleClose id).failed = some .check := by
  rw [Server.handleClose]
  split
  · rw [removeConnection, if_neg hid]
    rfl
  · rfl

/-- The events of an owned connection: nothing fails exactly if they do not close it twice. -/
theorem Inv.handleEvents (hI : s.Inv hasHandler) (hok : s.failed = none)
    (hphase : s.phase = .handling active) (hid : id ∈ s.connections)
    (hrest : id ∉ active.filterMap Event.conn?) (revents : Revents) (read : ReadResult) :
    ((s.handleEvents id revents read).failed = none →
        Inv hasHandler (s.handleEvents id revents read)) ∧
      ((s.handleEvents id revents read).failed = none ↔ closesTwice revents read = false) := by
  have hclose := hI.handleClose hphase hid hrest
  have heq := hI.handleClose_eq hid
  have hcloseOk : (s.handleClose id).failed = none := by
    rw [heq]
    exact hok
  have hlive : id ∈ s.living := List.mem_append_left _ hid
  rcases hhup : revents.pollHup && !revents.pollIn with - | -
  · -- the connection is closed by the read, if at all
    have honce : closesTwice revents read = false := by
      simp [closesTwice, hhup]
    simp only [Server.handleEvents, hhup, honce, Bool.false_eq_true, if_false, hok,
      Option.isSome_none]
    split
    · cases read with
      | data => exact ⟨fun _ => hI.message hlive, by simp [handleRead, notify, hok]⟩
      | closed => exact ⟨fun _ => hclose, by simp [handleRead, hcloseOk]⟩
      | error => exact ⟨fun _ => hI, by simp [handleRead, hok]⟩
    · exact ⟨fun _ => hI, by simp [hok]⟩
  · -- the connection is closed before the read
    obtain ⟨hhup, hin⟩ : revents.pollHup = true ∧ revents.pollIn = false := by
      simpa using hhup
    have hlive' : id ∈ (s.handleClose id).living := by
      have hphase' : (s.handleClose id).phase = .handling active := by
        rw [heq]
        exact hphase
      refine List.mem_append_right _ ?_
      rw [tasks_of_handling hphase', heq]
      exact List.mem_append_right _ List.mem_cons_self
    have hgone : connName id ∉ (s.handleClose id).connections.map connName := by
      rw [heq]
      intro hmem
      obtain ⟨other, hother, hname⟩ := List.mem_map.mp hmem
      obtain ⟨hne, hother⟩ := (List.Nodup.of_map _ hI.names).mem_erase_iff.mp hother
      exact hne (List.inj_on_of_nodup_map hI.names hother hid hname)
    simp only [Server.handleEvents, closesTwice, hhup, hin, Bool.not_false, Bool.true_and,
      Bool.false_or, if_true, hcloseOk, Option.isSome_none, Bool.false_eq_true, if_false]
    rcases hread : revents.pollPri || revents.pollRdhup with - | -
    · exact ⟨fun _ => hclose, by simp [hcloseOk]⟩
    · cases read with
      | data => exact ⟨fun _ => hclose.message hlive', by simp [handleRead, notify, hcloseOk]⟩
      | closed =>
          have hfailed := handleClose_failed hgone
          refine ⟨fun hnone => ?_, by simp [handleRead, hfailed]⟩
          simp [handleRead, hfailed] at hnone
      | error => exact ⟨fun _ => hclose, by simp [handleRead, hcloseOk]⟩

theorem handleNewConnection_failed (hasHandler : Bool) (s : Server) :
    (s.handleNewConnection hasHandler).failed =
      if connName s.nextConnId ∈ s.connections.map connName then some .dangling else s.failed := by
  by_cases hname : connName s.nextConnId ∈ s.connections.map connName
  · rw [if_pos hname, Server.handleNewConnection, if_neg (by simpa using hname)]
    rfl
  · rw [if_neg hname, Server.handleNewConnection, if_pos (by simpa using hname)]
    cases hasHandler <;> rfl

theorem Inv.handleNewConnection (hI : s.Inv hasHandler) (hphase : s.phase = .handling active)
    (hfree : connName s.nextConnId ∉ s.connections.map connName) :
    Inv hasHandler (s.handleNewConnection hasHandler) := by
  set id := s.nextConnId with hnext
  set s' := s.handleNewConnection hasHandler with hs'
  have heq : s' =
      { s with
        nextConnId := id + 1
        connections := s.connections ++ [id]
        watched := s.watched ++ [id]
        state := Function.update s.state id .connected
        notices := s.notices ++ if hasHandler then [.connection id true] else [] } := by
    rw [hs', Server.handleNewConnection]
    cases hasHandler <;> simp [hfree, ← hnext, setState, notify]
  have htasks : s'.tasks = s.tasks := by
    rw [tasks_of_handling hphase, tasks_of_handling (s := s') (by rw [heq]; exact hphase), heq]
  have hliving : s'.living.Perm (s.living ++ [id]) := by
    calc s'.living
      _ = s.connections ++ [id] ++ s.tasks := by rw [living, htasks, heq]
      _ = s.connections ++ ([id] ++ s.tasks) := List.append_assoc ..
      List.Perm _ (s.connections ++ (s.tasks ++ [id])) := List.perm_append_comm.append_left _
      _ = s.living ++ [id] := (List.append_assoc ..).symm
  have hmem : ∀ other, other ∈ s'.living ↔ other ∈ s.living ∨ other = id := by
    intro other
    rw [hliving.mem_iff]
    simp
  have hnew : id ∉ s.living := fun hmem => (hI.accepted id hmem).false
  have hhistory : ∀ other, s'.history other =
      s.history other ++ if hasHandler ∧ id = other then [.connection id true] else [] := by
    intro other
    rw [heq]
    by_cases hother : id = other <;>
      cases hasHandler <;>
      simp [history, List.filter_append, Notice.conn, hother]
  refine ⟨?_, ?_, ?_, ?_, ?_, ?_, ?_, ?_, ?_, ?_, ?_⟩
  · intro other hother
    rw [heq]
    rcases (hmem other).mp hother with hother | rfl
    · exact (hI.accepted other hother).trans (Nat.lt_succ_self _)
    · exact Nat.lt_succ_self _
  · rw [hliving.nodup_iff]
    exact hI.nodup.append (List.nodup_singleton id) (List.disjoint_singleton.mpr hnew)
  · rw [heq, List.map_append]
    exact hI.names.append (List.nodup_singleton _) (List.disjoint_singleton.mpr hfree)
  · refine List.Perm.trans ?_ hliving.symm
    rw [heq]
    exact hI.watched.append_right _
  · rw [heq]
    intro other hother
    rcases List.mem_append.mp hother with hother | hother
    · have hne : other ≠ id := fun heq => hnew (heq ▸ List.mem_append_left _ hother)
      simpa only [Function.update_of_ne hne] using hI.owned other hother
    · rw [List.mem_singleton.mp hother]
      exact ⟨fun hmuted => (hI.old id hmuted).false, .inl (Function.update_self ..)⟩
  · rw [htasks, heq]
    exact hI.closed
  · rw [heq]
    exact fun other hother => (hI.old other hother).trans (Nat.lt_succ_self _)
  · rw [heq]
    intro active' hactive
    obtain ⟨honce, howned⟩ := hI.active active' hactive
    exact ⟨honce, fun other hother => List.mem_append_left _ (howned other hother)⟩
  · rw [heq]
    exact hI.settled
  · rw [heq]
    rintro other (hother : other < id + 1)
    rcases Nat.lt_succ_iff_lt_or_eq.mp hother with hother | rfl
    · have hne : id ≠ other := hother.ne'
      rw [← heq]
      refine Told.congr (hI.told other hother) ?_ ?_
      · rw [hhistory, if_neg fun h => hne h.2, List.append_nil]
      · rw [hmem, or_iff_left hne.symm]
    · refine ⟨0, ?_⟩
      rw [← heq, hhistory, hI.untold _ le_rfl, if_pos ((hmem _).mpr (.inr rfl))]
      simp
  · rw [heq]
    rintro other (hother : id + 1 ≤ other)
    have hne : id ≠ other := by omega
    rw [← heq, hhistory, hI.untold other (by omega), if_neg fun h => hne h.2]
    rfl

/-- The `DestroyConnection` that is due. -/
theorem Inv.destroyConnection {batch : List ℕ} (hI : s.Inv true)
    (hphase : s.phase = .processing (id :: batch)) :
    ({ s with phase := .processing batch }.destroyConnection true id).failed = s.failed ∧
      Inv true ({ s with phase := .processing batch }.destroyConnection true id) := by
  have hsettled : s.pendingTasks = [] := hI.settled (by simp [hphase])
  have htasks : s.tasks = id :: batch := by
    simp [tasks, hphase, hsettled]
  have hlive : id ∈ s.living := by simp [living, htasks]
  have hwatched : id ∈ s.watched := hI.watched.mem_iff.mpr hlive
  set s' := { s with phase := .processing batch }.destroyConnection true id with hs'
  have heq : s' =
      { s with
        phase := .processing batch
        state := Function.update s.state id .disconnected
        notices := s.notices ++ [.connection id false]
        watched := s.watched.erase id } := by
    rw [hs', Server.destroyConnection, if_pos rfl]
    exact if_pos hwatched
  have htasks' : s'.tasks = batch := by
    rw [heq]
    simp [tasks, hsettled]
  have hliving : s.living.Perm (id :: s'.living) := by
    calc s.living
      _ = s.connections ++ id :: batch := by rw [living, htasks]
      List.Perm _ (id :: (s.connections ++ batch)) := List.perm_middle
      _ = id :: s'.living := by rw [living, htasks', heq]
  obtain ⟨hgone, hnodup⟩ := List.nodup_cons.mp (hliving.nodup_iff.mp hI.nodup)
  have hmem : ∀ other, other ∈ s'.living ↔ other ∈ s.living ∧ other ≠ id := by
    intro other
    rw [hliving.mem_iff, List.mem_cons]
    constructor
    · intro hother
      exact ⟨.inr hother, fun heq => hgone (heq ▸ hother)⟩
    · rintro ⟨rfl | hother, hne⟩
      · exact absurd rfl hne
      · exact hother
  have hhistory : ∀ other, s'.history other =
      s.history other ++ if id = other then [.connection id false] else [] := by
    intro other
    rw [heq]
    by_cases hother : id = other <;>
      simp [history, List.filter_append, Notice.conn, hother]
  have hold : id < s.nextConnId := hI.accepted id hlive
  refine ⟨by rw [heq], ?_, hnodup, ?_, ?_, ?_, ?_, ?_, ?_, ?_, ?_, ?_⟩
  · intro other hother
    rw [heq]
    exact hI.accepted other ((hmem other).mp hother).1
  · rw [heq]
    exact hI.names
  · have herased := hI.watched.erase id
    rw [heq]
    refine herased.trans ?_
    have hlast := hliving.erase id
    rw [List.erase_cons_head] at hlast
    rw [← heq]
    exact hlast
  · rw [heq]
    intro other hother
    have hne : other ≠ id := by
      rintro rfl
      exact hI.not_mem_tasks hother (by simp [htasks])
    simpa only [Function.update_of_ne hne] using hI.owned other hother
  · rw [htasks', heq]
    intro other hother
    exact hI.closed other (htasks ▸ List.mem_cons_of_mem _ hother)
  · rw [heq]
    exact hI.old
  · rw [heq]
    intro active hactive
    simp at hactive
  · rw [heq]
    exact fun _ => hsettled
  · intro other hother
    by_cases hid : id = other
    · subst hid
      obtain ⟨count, htold⟩ := hI.told id hold
      refine ⟨count, ?_⟩
      rw [hhistory, htold, if_pos hlive, if_pos rfl, if_neg hgone]
      simp
    · have hother' : other < s.nextConnId := by
        rw [heq] at hother
        exact hother
      refine Told.congr (hI.told other hother') ?_ ?_
      · rw [hhistory, if_neg hid, List.append_nil]
      · rw [hmem]
        exact and_iff_left (Ne.symm hid)
  · intro other hother
    have hother' : s.nextConnId ≤ other := by
      rw [heq] at hother
      exact hother
    rw [hhistory, hI.untold other hother', if_neg (by omega)]
    rfl

/-- `poll` reports owned connections only. -/
theorem Inv.poll (hI : s.Inv hasHandler) (hphase : s.phase = .polling)
    (hreport : s.mayReport active = true) :
    Inv hasHandler { s with phase := .handling active } := by
  simp only [mayReport, Bool.and_eq_true, decide_eq_true_eq] at hreport
  have htasks : ({ s with phase := .handling active } : Server).tasks = s.tasks := by
    simp only [tasks, hphase]
  refine hI.toPhase htasks ?_ (fun hno => absurd rfl (hno active))
  intro active' hactive
  obtain rfl : active = active' := by simpa using hactive
  refine ⟨hreport.1, fun id hid => ?_⟩
  obtain ⟨hwatched, hmuted⟩ := hreport.2 id hid
  rcases List.mem_append.mp (hI.watched.mem_iff.mp hwatched) with howned | htask
  · exact howned
  · exact absurd (hI.closed id htask) hmuted

/-- `Shutdown` touches the state only, and of the states only a connected one. -/
theorem Inv.shutdown (hI : s.Inv hasHandler) (id : ℕ) : Inv hasHandler (s.shutdown id) := by
  rw [Server.shutdown]
  split
  · refine ⟨hI.accepted, hI.nodup, hI.names, hI.watched, ?_, hI.closed, hI.old, hI.active,
      hI.settled, hI.told, hI.untold⟩
    intro other hother
    refine ⟨(hI.owned other hother).1, ?_⟩
    by_cases heq : other = id
    · subst heq
      exact .inr (Function.update_self ..)
    · simpa only [setState, Function.update_of_ne heq] using (hI.owned other hother).2
  · exact hI

end Server

/-! ### The runs -/

open Server in
/-- A step of a server that has not failed: it fails exactly if it is not `Harmless`, and otherwise
keeps the invariant. -/
theorem servers_step {hasHandler : Bool} {s s' : Server} {action : ServerAction}
    (hI : s.Inv hasHandler) (hok : s.failed = none)
    (hstep : (servers hasHandler).step s action = some s') :
    (s'.failed = none → s'.Inv hasHandler) ∧ (s'.failed = none ↔ Harmless hasHandler s action) := by
  have hsome : s.failed.isSome = false := by rw [hok]; rfl
  simp only [servers, hsome, Bool.false_eq_true, if_false] at hstep
  split at hstep
  case h_1 active hphase =>
    simp only [Option.ite_none_right_eq_some, Option.some.injEq] at hstep
    obtain ⟨hreport, rfl⟩ := hstep
    exact ⟨fun _ => hI.poll hphase hreport, by simp [hok, Harmless]⟩
  case h_2 accepted active hphase =>
    obtain rfl := Option.some.inj hstep
    have hrest := (hI.next hphase).1
    cases accepted with
    | false => simp [handleAccept, fail, Harmless, hphase]
    | true =>
        have hfailed := handleNewConnection_failed hasHandler { s with phase := .handling active }
        by_cases hfree : connName s.nextConnId ∈ s.connections.map connName
        · rw [if_pos hfree] at hfailed
          refine ⟨fun hnone => ?_, ?_⟩
          · exact nomatch hfailed.symm.trans hnone
          · exact iff_of_false (by simp [handleAccept, hfailed])
              (by simpa only [Harmless, hphase, true_and, not_not] using hfree)
        · rw [if_neg hfree] at hfailed
          refine ⟨fun _ => hrest.handleNewConnection rfl hfree, ?_⟩
          refine iff_of_true (hfailed.trans hok) ?_
          simpa only [Harmless, hphase, true_and] using hfree
  case h_3 id revents read active hphase =>
    obtain rfl := Option.some.inj hstep
    obtain ⟨hrest, hconn⟩ := hI.next hphase
    obtain ⟨hid, hnot⟩ := hconn id rfl
    have hevents := hrest.handleEvents hok rfl hid hnot revents read
    simpa only [Harmless, hphase] using hevents
  case h_4 hphase =>
    obtain rfl := Option.some.inj hstep
    refine ⟨fun _ => hI.toPhase ?_ ?_ ?_, by simp [hok, Harmless, hphase]⟩
    · simp [tasks, hphase]
    · exact fun _ => nofun
    · exact fun _ => rfl
  case h_5 id batch hphase =>
    obtain rfl := Option.some.inj hstep
    cases hasHandler with
    | true =>
        obtain ⟨hfailed, hdone⟩ := hI.destroyConnection hphase
        exact ⟨fun _ => hdone, iff_of_true (hfailed.trans hok) (by simp [Harmless, hphase])⟩
    | false => simp [Server.destroyConnection, fail, Harmless, hphase]
  case h_6 hphase =>
    obtain rfl := Option.some.inj hstep
    have hsettled : s.pendingTasks = [] := hI.settled (by simp [hphase])
    refine ⟨fun _ => hI.toPhase ?_ ?_ ?_, by simp [hok, Harmless, hphase]⟩
    · simp [tasks, hphase]
    · exact fun _ => nofun
    · exact fun _ => hsettled
  case h_7 id =>
    obtain rfl := Option.some.inj hstep
    refine ⟨fun _ => hI.shutdown id, ?_⟩
    have hfailed : (s.shutdown id).failed = none := by
      rw [Server.shutdown]
      split <;> exact hok
    simp [hfailed, Harmless]
  case h_8 => exact nomatch hstep

/-- Only a server that has not failed takes a step. -/
theorem servers_step_ok {hasHandler : Bool} {s s' : Server} {action : ServerAction}
    (hstep : (servers hasHandler).step s action = some s') : s.failed = none := by
  simp only [servers] at hstep
  split at hstep
  · exact nomatch hstep
  · simpa using ‹¬s.failed.isSome = true›

open Server in
theorem servers_start {hasHandler : Bool} {s : Server} (hstart : (servers hasHandler).start s) :
    s.Inv hasHandler ∧ s.failed = none := by
  obtain rfl := hstart
  refine ⟨⟨?_, ?_, ?_, ?_, ?_, ?_, ?_, ?_, ?_, ?_, ?_⟩, rfl⟩ <;>
    simp [initial, living, Server.tasks, history]

/-- **When nothing fails.**  In a run nothing fails exactly if all its steps are `Harmless`. -/
theorem never_fails_iff (hasHandler : Bool) {s₀ s : Server} {actions : List ServerAction}
    (hstart : (servers hasHandler).start s₀) (hrun : (servers hasHandler).run s₀ actions = some s) :
    (servers hasHandler).Always (fun s => s.failed = none) s₀ actions ↔
      (servers hasHandler).EachStep (Harmless hasHandler) s₀ actions := by
  obtain ⟨hI, hok⟩ := servers_start hstart
  refine System.always_iff_eachStep (I := fun s => s.failed = none → s.Inv hasHandler) ?_ ?_
    (fun _ => hI) hok hrun
  · intro s action s' hI hstep hok'
    have hok := servers_step_ok hstep
    exact (servers_step (hI hok) hok hstep).1 hok'
  · intro s action s' hI hok hstep
    exact (servers_step (hI hok) hok hstep).2

/-- A connection is hung up with nothing to read, and the event is also a reason to read: the
connection is removed twice, and the second removal does not find it. -/
def closedTwice : List ServerAction :=
  [.poll [.accept true], .handleNext, .handleNext, .runNext,
    .poll [.channel 0 ⟨false, false, true, true⟩ .closed], .handleNext]

theorem never_fails_iff_closedTwice :
    ∃ s, (servers true).run .initial closedTwice = some s ∧ s.failed = some .check ∧
      ¬(servers true).Always (fun s => s.failed = none) .initial closedTwice := by
  have hfailed : ((servers true).run .initial closedTwice).map Server.failed =
      some (some .check) := by
    decide
  obtain ⟨s, hrun, hcheck⟩ := Option.map_eq_some_iff.mp hfailed
  refine ⟨s, hrun, hcheck, fun halways => ?_⟩
  have hsteps := (never_fails_iff true rfl hrun).mp halways
  revert hsteps
  decide

/-- **The life of the connections.**  As long as nothing has failed, the poller watches exactly the
channels of the living connections, and once `ProcessPendingTasks` is through these are those of
`connections_`; the active channels are those of owned connections; and of each connection the
handlers have heard that it is up, of messages, and once it does not live any more that it is
down. -/
theorem lifecycle (hasHandler : Bool) {s : Server} (hreach : (servers hasHandler).Reachable s)
    (hok : s.failed = none) :
    s.watched.Perm s.living ∧ s.living.Nodup ∧
      (s.phase = .polling → s.living = s.connections) ∧
      (∀ active, s.phase = .handling active →
        ∀ id ∈ active.filterMap Event.conn?, id ∈ s.connections) ∧
      (∀ id < s.nextConnId, s.Told hasHandler id) ∧
      ∀ id, s.nextConnId ≤ id → s.history id = [] := by
  have hI : s.Inv hasHandler := by
    refine hreach.invariant (P := fun s => s.failed = none → s.Inv hasHandler)
      (fun s hstart _ => (servers_start hstart).1) ?_ hok
    intro s action s' hI hstep hok'
    have hok := servers_step_ok hstep
    exact (servers_step (hI hok) hok hstep).1 hok'
  refine ⟨hI.watched, hI.nodup, ?_, fun active hphase => (hI.active active hphase).2, hI.told,
    hI.untold⟩
  intro hphase
  have hsettled := hI.settled (by simp [hphase])
  simp [Server.living, Server.tasks, hphase, hsettled]

/-- A connection is accepted, sends a message and ends its stream; at the end of the round it is
gone. -/
theorem lifecycle_ended :
    ∃ s, (servers true).Reachable s ∧ s.watched = [] ∧ s.watched.Perm s.living ∧
      s.Told true 0 ∧
      s.history 0 = [.connection 0 true, .message 0, .connection 0 false] := by
  have hended : ((servers true).run .initial
      [.poll [.accept true], .handleNext, .handleNext, .runNext,
        .poll [.channel 0 ⟨true, false, false, false⟩ .data], .handleNext, .handleNext, .runNext,
        .poll [.channel 0 ⟨true, false, true, false⟩ .closed], .handleNext, .handleNext,
        .runNext, .runNext]).map (fun s => (s.failed, s.watched, s.nextConnId, s.history 0)) =
      some (none, [], 1, [.connection 0 true, .message 0, .connection 0 false]) := by
    decide
  obtain ⟨s, hrun, hfields⟩ := Option.map_eq_some_iff.mp hended
  obtain ⟨hok, hwatched, hnext, hhistory⟩ := by simpa only [Prod.mk.injEq] using hfields
  have hreach : (servers true).Reachable s := ⟨.initial, _, rfl, hrun⟩
  obtain ⟨hperm, -, -, -, htold, -⟩ := lifecycle true hreach hok
  exact ⟨s, hreach, hwatched, hperm, htold 0 (by omega), hhistory⟩

end Eureka.Tcp

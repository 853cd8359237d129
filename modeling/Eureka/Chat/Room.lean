import Eureka.Chat.Server
import Eureka.Library.Iteration

/-!
# Broadcasts, session by session

In `Eureka.Chat.Server` a broadcast is one event.  Here the `Range` over the
sessions goes from one to the next, and the other goroutines run in between:
they store and remove sessions, and they send to the same connections.

`sync.Map.Range` is taken as it is documented: no key is visited twice, and a key
that is stored or removed in the meantime may be visited or not.  `Send` queues
at once.  A queued packet keeps the goroutine that has sent it; no definition
reads that, it is there for the statements.
-/

namespace Eureka.Chat

open Transition

inductive Goroutine (Conn : Type)
  /-- `handleNewConnection`, with all it calls. -/
  | connection (conn : Conn)
  /-- `handleMessage` or `handleCommand`, for the `i`th packet that is handled. -/
  | handler (i : ℕ)
  deriving DecidableEq, Repr

/-- What the function that is passed to `Range` does with a session. -/
inductive Callback
  | send (data : Bytes)
  /-- The member list, with the text that it has so far. -/
  | members (str : Bytes)
  deriving DecidableEq, Repr

inductive Stage
  | started
  | loaded
  | ranging
  | replying (data : Bytes)
  | returned
  deriving DecidableEq, Repr

/-- A goroutine that handles a packet. -/
structure Task (Conn : Type) where
  conn : Conn
  packet : Packet
  stage : Stage
  deriving DecidableEq

structure Queued (Conn : Type) where
  sender : Goroutine Conn
  packet : Packet
  deriving DecidableEq

structure Room (Conn : Type) where
  sessions : List Conn
  name : Conn → Bytes
  sessionSeq : ℕ
  phase : Conn → Phase
  tasks : List (Task Conn)
  /-- The calls of `Range` that are under way. -/
  ranges : Goroutine Conn → Option (Iteration Conn × Callback)
  outPackets : Conn → List (Queued Conn)
  panicked : Bool

/-- The uninterrupted pieces of the goroutines. -/
inductive Piece (Conn : Type)
  | accept (conn : Conn)
  | join (conn : Conn) (ts : Bytes)
  | store (conn : Conn)
  | recv (conn : Conn) (packet : Packet)
  | recvError (conn : Conn)
  | disconnectLoad (conn : Conn)
  | delete (conn : Conn)
  | leave (conn : Conn) (ts : Bytes)
  | load (i : ℕ)
  | range (i : ℕ) (ts : Bytes)
  | prepare (i : ℕ) (ts : Bytes)
  | reply (i : ℕ)
  | visit (goroutine : Goroutine Conn) (client : Conn)
  | endRange (goroutine : Goroutine Conn)
  deriving DecidableEq

/-! ## Texts -/

/-- The text that `broadcast` puts together. -/
def notification (ts msg : Bytes) : Bytes := ascii "[" ++ ts ++ ascii "] *| " ++ msg

/-- The text that `handleMessage` puts together. -/
def messageText (ts name data : Bytes) : Bytes :=
  ascii "[" ++ ts ++ ascii "] " ++ name ++ ascii "| " ++ data

/-- The `prefix` of `handleCommand`. -/
def heading (ts : Bytes) : Bytes := ascii "[" ++ ts ++ ascii "] *|"

/-! ## Tasks -/

/-- The handler calls `Range`. -/
def Packet.ranges (packet : Packet) : Bool :=
  packet.type = messagePacket || command packet.data = .list

namespace Task

variable {Conn : Type}

/-- The load of the session is done, or there is none. -/
def ready (task : Task Conn) : Bool :=
  if task.packet.loads then task.stage = .loaded else task.stage = .started

end Task

/-! ## Pieces -/

section Steps

variable {Conn : Type} [DecidableEq Conn]

namespace Room

def setPhase (room : Room Conn) (conn : Conn) (phase : Phase) : Room Conn :=
  { room with phase := Function.update room.phase conn phase }

def setName (room : Room Conn) (conn : Conn) (name : Bytes) : Room Conn :=
  { room with name := Function.update room.name conn name }

def setStage (room : Room Conn) (i : ℕ) (task : Task Conn) (stage : Stage) : Room Conn :=
  { room with tasks := room.tasks.set i { task with stage := stage } }

def setRange (room : Room Conn) (goroutine : Goroutine Conn)
    (range : Option (Iteration Conn × Callback)) : Room Conn :=
  { room with ranges := Function.update room.ranges goroutine range }

def send (room : Room Conn) (sender : Goroutine Conn) (conn : Conn) (data : Bytes) : Room Conn :=
  { room with
    outPackets := Function.update room.outPackets conn
      (room.outPackets conn ++ [⟨sender, ⟨messagePacket, data⟩⟩]) }

/-- The call of `Range`. -/
def beginRange (room : Room Conn) (goroutine : Goroutine Conn) (callback : Callback) : Room Conn :=
  room.setRange goroutine (some (.start room.sessions, callback))

/-- The first part of `handleNewConnection`, up to the `Range` of the broadcast. -/
def join (room : Room Conn) (conn : Conn) (ts : Bytes) : Room Conn :=
  let name := ascii "user-" ++ ascii (toString room.sessionSeq)
  (({ room with sessionSeq := room.sessionSeq + 1 }.setName conn name).beginRange
    (.connection conn) (.send (notification ts (name ++ ascii " joined the chat!")))).setPhase
    conn .named

/-- `sessions.Store`, which the calls of `Range` may come to notice. -/
def store (room : Room Conn) (conn : Conn) : Room Conn :=
  { room with
    sessions := room.sessions ++ [conn]
    ranges := fun goroutine =>
      (room.ranges goroutine).map fun range => (range.1.store conn, range.2) }

def dispatch (room : Room Conn) (conn : Conn) (packet : Packet) : Room Conn :=
  if packet.type = commandPacket ∨ packet.type = messagePacket then
    { room with tasks := room.tasks ++ [⟨conn, packet, .started⟩] }
  else room

/-- `sessions.Delete`. -/
def delete (room : Room Conn) (conn : Conn) : Room Conn :=
  { room with
    sessions := room.sessions.filter (· ≠ conn)
    ranges := fun goroutine =>
      (room.ranges goroutine).map fun range => (range.1.remove conn, range.2) }

def leave (room : Room Conn) (conn : Conn) (ts : Bytes) : Room Conn :=
  (room.beginRange (.connection conn)
    (.send (notification ts (room.name conn ++ ascii " left the chat!")))).setPhase conn .gone

/-- `sessions.Load`, with the type assertion that panics when the session is missing. -/
def load (room : Room Conn) (conn : Conn) (found : Room Conn) : Room Conn :=
  if conn ∈ room.sessions then found else { room with panicked := true }

/-- The function that the handler passes to `Range`. -/
def callback (room : Room Conn) (task : Task Conn) (ts : Bytes) : Callback :=
  if task.packet.type = messagePacket then
    .send (messageText ts (room.name task.conn) task.packet.data)
  else .members (heading ts ++ ascii "Current members in chat-room:")

/-- A command other than `LIST`, up to its `Send`. -/
def prepare (room : Room Conn) (i : ℕ) (task : Task Conn) (ts : Bytes) : Room Conn :=
  match command task.packet.data with
  | .list => room
  | .name =>
      room.setStage i task
        (.replying (heading ts ++ ascii "You current nickname is " ++ room.name task.conn))
  | .useName name =>
      (room.setName task.conn name).setStage i task
        (.replying (heading ts ++ ascii "Your nickname has been changed to " ++ name))
  | .incorrectUse =>
      room.setStage i task (.replying (heading ts ++ ascii "Incorrect usage of $USE-NAME$!"))
  | .unrecognized =>
      room.setStage i task (.replying (ascii "Unrecognized command " ++ task.packet.data))

/-- The callback of a `Range` comes to a session. -/
def call (room : Room Conn) (goroutine : Goroutine Conn) (client : Conn)
    (iteration : Iteration Conn) : Callback → Room Conn
  | .send data =>
      (room.setRange goroutine (some (iteration, .send data))).send goroutine client data
  | .members str =>
      room.setRange goroutine (some (iteration, .members (str ++ 10 :: room.name client)))

/-- Behind the `Range` of a handler: a message is done, the member list is sent. -/
def afterRange (callback : Callback) : Stage :=
  match callback with
  | .send _ => .returned
  | .members str => .replying str

/-- The end of a `Range`. -/
def endRange (room : Room Conn) (goroutine : Goroutine Conn) (callback : Callback) : Room Conn :=
  match goroutine with
  | .connection _ => room.setRange goroutine none
  | .handler i =>
      match room.tasks[i]? with
      | none => room.setRange goroutine none
      | some task => (room.setRange goroutine none).setStage i task (afterRange callback)

def step (room : Room Conn) (piece : Piece Conn) : Option (Room Conn) :=
  if room.panicked then none
  else
    match piece with
    | .accept conn =>
        if room.phase conn = .absent then some (room.setPhase conn .accepted) else none
    | .join conn ts => if room.phase conn = .accepted then some (room.join conn ts) else none
    | .store conn =>
        if room.phase conn = .named ∧ room.ranges (.connection conn) = none then
          some ((room.store conn).setPhase conn .serving)
        else none
    | .recv conn packet =>
        if room.phase conn = .serving then some (room.dispatch conn packet) else none
    | .recvError conn =>
        if room.phase conn = .serving then some (room.setPhase conn .disconnecting) else none
    | .disconnectLoad conn =>
        if room.phase conn = .disconnecting then
          some (room.load conn (room.setPhase conn .loaded))
        else none
    | .delete conn =>
        if room.phase conn = .loaded then some ((room.delete conn).setPhase conn .removed) else none
    | .leave conn ts => if room.phase conn = .removed then some (room.leave conn ts) else none
    | .load i =>
        match room.tasks[i]? with
        | some task =>
            if task.packet.loads ∧ task.stage = .started then
              some (room.load task.conn (room.setStage i task .loaded))
            else none
        | none => none
    | .range i ts =>
        match room.tasks[i]? with
        | some task =>
            if task.ready ∧ task.packet.ranges then
              some ((room.setStage i task .ranging).beginRange (.handler i)
                (room.callback task ts))
            else none
        | none => none
    | .prepare i ts =>
        match room.tasks[i]? with
        | some task =>
            if task.ready ∧ ¬ task.packet.ranges then some (room.prepare i task ts) else none
        | none => none
    | .reply i =>
        match room.tasks[i]? with
        | some task =>
            match task.stage with
            | .replying data =>
                some ((room.setStage i task .returned).send (.handler i) task.conn data)
            | _ => none
        | none => none
    | .visit goroutine client =>
        match room.ranges goroutine with
        | some (iteration, callback) =>
            match iteration.visit client with
            | some iteration' => some (room.call goroutine client iteration' callback)
            | none => none
        | none => none
    | .endRange goroutine =>
        match room.ranges goroutine with
        | some (iteration, callback) =>
            if iteration.Done then some (room.endRange goroutine callback) else none
        | none => none

/-- The room behind `NewChatServer`. -/
def empty : Room Conn where
  sessions := []
  name _ := []
  sessionSeq := 0
  phase _ := .absent
  tasks := []
  ranges _ := none
  outPackets _ := []
  panicked := false

end Room

def chatRoom (Conn : Type) [DecidableEq Conn] : System (Room Conn) (Piece Conn) where
  start room := room = Room.empty
  step := Room.step

end Steps

end Eureka.Chat

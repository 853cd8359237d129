import Eureka.Chat.Codec
import Eureka.Library.Transition

/-!
# The chat server

Each connection has a goroutine that takes it up, reads its packets and, when
reading fails, removes its session.  Each packet is handled in a goroutine of
its own, which the reading goroutine does not wait for.

An event is one uninterrupted piece of a goroutine; `handlerLoad` and
`disconnectLoad` are the ones that load a session and assert its type.  When
the session is missing the assertion panics and the process is gone.  What is
sent to a connection is kept in order.  The channel of a session holds sixteen
packets, and that a full one makes the sender wait is left out.  This only takes
schedules away: what is proved of every run is true of the server, and nothing
is said of a handler that it gets to its return.
-/

namespace Eureka.Chat

open Transition

/-- How far the goroutine of a connection is. -/
inductive Phase
  | absent
  | accepted
  | named
  | serving
  | disconnecting
  | loaded
  | removed
  | gone
  deriving DecidableEq, Repr

/-- A goroutine that handles a packet, in front of its load or behind it. -/
structure Handler (Conn : Type) where
  conn : Conn
  packet : Packet
  loaded : Bool
  deriving DecidableEq

structure Server (Conn : Type) where
  /-- The keys of the session map. -/
  sessions : List Conn
  /-- The names in the client data, which outlive the sessions. -/
  name : Conn → Bytes
  sessionSeq : ℕ
  phase : Conn → Phase
  handlers : List (Handler Conn)
  outPackets : Conn → List Packet
  panicked : Bool

/-- The events of a run.  Where a text is put together from the time, the time is given as it is
formatted. -/
inductive Event (Conn : Type)
  | accept (conn : Conn)
  | join (conn : Conn) (ts : Bytes)
  | store (conn : Conn)
  | recv (conn : Conn) (packet : Packet)
  | recvError (conn : Conn)
  | disconnectLoad (conn : Conn)
  | delete (conn : Conn)
  | leave (conn : Conn) (ts : Bytes)
  | handlerLoad (i : ℕ)
  | handlerFinish (i : ℕ) (ts : Bytes)

/-! ## Commands -/

/-- The branches of `handleCommand`. -/
inductive Command
  | list
  | name
  | useName (name : Bytes)
  | incorrectUse
  | unrecognized
  deriving DecidableEq, Repr

def command (data : Bytes) : Command :=
  if data = ascii "LIST" then .list
  else if data = ascii "NAME" then .name
  else if (ascii "USE-NAME").isPrefixOf data then
    match data.splitOn 32 with
    | [_, name] => .useName name
    | _ => .incorrectUse
  else .unrecognized

/-- The handler of the packet loads the session of its connection. -/
def Packet.loads (packet : Packet) : Bool :=
  packet.type = messagePacket ||
    match command packet.data with
    | .name => true
    | .useName _ => true
    | _ => false

/-! ## What is sent -/

section Steps

variable {Conn : Type} [DecidableEq Conn]

namespace Server

def send (s : Server Conn) (conn : Conn) (data : Bytes) : Server Conn :=
  { s with
    outPackets :=
      Function.update s.outPackets conn (s.outPackets conn ++ [⟨messagePacket, data⟩]) }

/-- The `Range` over the sessions that sends the same packet to each of them. -/
def sendAll (s : Server Conn) (data : Bytes) : Server Conn :=
  s.sessions.foldl (fun s conn => s.send conn data) s

def broadcast (s : Server Conn) (ts msg : Bytes) : Server Conn :=
  s.sendAll (ascii "[" ++ ts ++ ascii "] *| " ++ msg)

def setPhase (s : Server Conn) (conn : Conn) (phase : Phase) : Server Conn :=
  { s with phase := Function.update s.phase conn phase }

/-- What `handleMessage` does behind the load. -/
def finishMessage (s : Server Conn) (conn : Conn) (data ts : Bytes) : Server Conn :=
  s.sendAll (ascii "[" ++ ts ++ ascii "] " ++ s.name conn ++ ascii "| " ++ data)

/-- What `handleCommand` does behind the load, if there is one. -/
def finishCommand (s : Server Conn) (conn : Conn) (data ts : Bytes) : Server Conn :=
  let heading := ascii "[" ++ ts ++ ascii "] *|"
  match command data with
  | .list =>
      let members := s.sessions.flatMap fun client => 10 :: s.name client
      s.send conn (heading ++ ascii "Current members in chat-room:" ++ members)
  | .name => s.send conn (heading ++ ascii "You current nickname is " ++ s.name conn)
  | .useName name =>
      { s with name := Function.update s.name conn name }.send conn
        (heading ++ ascii "Your nickname has been changed to " ++ name)
  | .incorrectUse => s.send conn (heading ++ ascii "Incorrect usage of $USE-NAME$!")
  | .unrecognized => s.send conn (ascii "Unrecognized command " ++ data)

/-! ## The events -/

/-- `serve` starts a goroutine for the packets of the known types. -/
def dispatch (s : Server Conn) (conn : Conn) (packet : Packet) : Server Conn :=
  if packet.type = commandPacket ∨ packet.type = messagePacket then
    { s with handlers := s.handlers ++ [⟨conn, packet, false⟩] }
  else s

/-- The load of a handler. -/
def handlerLoad (s : Server Conn) (i : ℕ) (handler : Handler Conn) : Server Conn :=
  if handler.conn ∈ s.sessions then
    { s with handlers := s.handlers.set i { handler with loaded := true } }
  else { s with panicked := true }

/-- The rest of a handler. -/
def handlerFinish (s : Server Conn) (i : ℕ) (handler : Handler Conn) (ts : Bytes) : Server Conn :=
  let s := { s with handlers := s.handlers.eraseIdx i }
  if handler.packet.type = messagePacket then s.finishMessage handler.conn handler.packet.data ts
  else s.finishCommand handler.conn handler.packet.data ts

/-- The load of `handleDisconnection`. -/
def disconnectLoad (s : Server Conn) (conn : Conn) : Server Conn :=
  if conn ∈ s.sessions then s.setPhase conn .loaded else { s with panicked := true }

/-- The first part of `handleNewConnection`. -/
def join (s : Server Conn) (conn : Conn) (ts : Bytes) : Server Conn :=
  let name := ascii "user-" ++ ascii (toString s.sessionSeq)
  let s := { s with
    sessionSeq := s.sessionSeq + 1
    name := Function.update s.name conn name }
  (s.broadcast ts (name ++ ascii " joined the chat!")).setPhase conn .named

def leave (s : Server Conn) (conn : Conn) (ts : Bytes) : Server Conn :=
  (s.broadcast ts (s.name conn ++ ascii " left the chat!")).setPhase conn .gone

end Server

/-- The load is still ahead of the handler. -/
def Handler.waits (handler : Handler Conn) : Bool := handler.packet.loads && !handler.loaded

def step (s : Server Conn) (event : Event Conn) : Option (Server Conn) :=
  if s.panicked then none
  else
    match event with
    | .accept conn => if s.phase conn = .absent then some (s.setPhase conn .accepted) else none
    | .join conn ts => if s.phase conn = .accepted then some (s.join conn ts) else none
    | .store conn =>
        if s.phase conn = .named then
          some ({ s with sessions := s.sessions ++ [conn] }.setPhase conn .serving)
        else none
    | .recv conn packet =>
        if s.phase conn = .serving then some (s.dispatch conn packet) else none
    | .recvError conn =>
        if s.phase conn = .serving then some (s.setPhase conn .disconnecting) else none
    | .disconnectLoad conn =>
        if s.phase conn = .disconnecting then some (s.disconnectLoad conn) else none
    | .delete conn =>
        if s.phase conn = .loaded then
          some ({ s with sessions := s.sessions.filter (· ≠ conn) }.setPhase conn .removed)
        else none
    | .leave conn ts => if s.phase conn = .removed then some (s.leave conn ts) else none
    | .handlerLoad i =>
        match s.handlers[i]? with
        | some handler => if handler.waits then some (s.handlerLoad i handler) else none
        | none => none
    | .handlerFinish i ts =>
        match s.handlers[i]? with
        | some handler => if handler.waits then none else some (s.handlerFinish i handler ts)
        | none => none

/-- The server behind `NewChatServer`. -/
def initial : Server Conn where
  sessions := []
  name _ := []
  sessionSeq := 0
  phase _ := .absent
  handlers := []
  outPackets _ := []
  panicked := false

def server (Conn : Type) [DecidableEq Conn] : System (Server Conn) (Event Conn) where
  start s := s = initial
  step := step

end Steps

end Eureka.Chat

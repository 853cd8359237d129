import Eureka.Library.Transition
import Eureka.Socks.Relay

/-!
# The SOCKS5 tunnel

A tunnel from its first read on, one completion at a time.  Each stage of the
handshake has one operation pending: an exact read, a write or the connect.  A
read of `n` bytes completes when they are there; it fails at the end of the
stream if they are not, and any operation may fail at any time.  What is not in the
repository is the `Environment` of a tunnel.

The endpoints of the connect are in a vector that is gone when `ConnetRemote`
returns.  The first one was used before that; what is read of the others, and of the
one that is connected in the end, is whatever the memory holds by then.

The logs `resolved` and `dialed` are not in the code.
-/

namespace Eureka.Socks5

open Endian Socks Transition

def kSocks5Ver : Byte := 0x05

def kCmdConnect : Byte := 0x01

def kAddrIPv4 : Byte := 0x01

def kAddrDomain : Byte := 0x03

def kAddrIPv6 : Byte := 0x04

structure RequestPacket where
  ver : Byte
  cmd : Byte
  reserved : Byte
  addrType : Byte
  destAddr : Bytes
  destPort : ℕ

inductive Endpoint
  | v4 (ip : ℕ) (port : ℕ)
  | v6 (ip : Bytes) (port : ℕ)
  deriving DecidableEq, Repr

/-- What a tunnel takes from outside of the repository. -/
structure Environment extends Host where
  /-- `tcp::resolver::resolve`, of a name and a service. -/
  resolve : Bytes → Bytes → Option (List Endpoint)

inductive RejectReason
  | generalFailure
  | hostUnreachable
  | commandNotSupported
  deriving DecidableEq, Repr

def RejectReason.toByte : RejectReason → Byte
  | generalFailure => 0x01
  | hostUnreachable => 0x04
  | commandNotSupported => 0x07

/-- The operation that is pending. -/
inductive Stage
  | greetingPreamble
  | greetingMethods (numMethods : Byte)
  | replyGreeting (rest : Bytes)
  | requestPreamble
  | addrLength (packet : RequestPacket)
  | domain (packet : RequestPacket) (length : ℕ)
  | addr (packet : RequestPacket) (bytes : ℕ)
  | destPort (packet : RequestPacket)
  /-- An attempt at an endpoint, if there is one, and the number of endpoints behind it. -/
  | connecting (endpoint : Option Endpoint) (left : ℕ)
  | replyRequest (rest : Bytes)
  | tunneling
  | rejecting (rest : Bytes)
  | closed

structure Tunnel where
  stage : Stage
  relay : Relay
  /-- The names that were looked up, each with its service. -/
  resolved : List (Bytes × Bytes)
  /-- The endpoints to which a connection was attempted. -/
  dialed : List Endpoint
  remoteAddr : Option Endpoint
  /-- Some operation of the handshake has failed. -/
  failed : Bool

inductive Action
  /-- The pending exact read has got all its bytes. -/
  | read
  /-- The stream has ended before them. -/
  | eof
  /-- The pending write gets on by some bytes. -/
  | wrote (count : ℕ)
  /-- The attempt succeeds, and `*it_remote` reads an endpoint from the freed memory. -/
  | connected (stale : Endpoint)
  /-- The attempt fails; if there is another one, its endpoint is read from the freed memory. -/
  | refused (stale : Endpoint)
  | fail
  | relay (side : Side) (completion : Completion)

/-- The number of bytes of the pending read. -/
def Stage.needed : Stage → Option ℕ
  | greetingPreamble => some 2
  | greetingMethods numMethods => some numMethods.toNat
  | requestPreamble => some 4
  | addrLength _ => some 1
  | domain _ length => some length
  | addr _ bytes => some bytes
  | destPort _ => some 2
  | _ => none

def kReplyGreeting : Bytes := [0x05, 0x00]

def rejectReply (reason : RejectReason) : Bytes :=
  [kSocks5Ver, reason.toByte, 0x00, kAddrIPv4, 0x00, 0x00, 0x00, 0x00, 0x00, 0x00]

/-- The reply of `ReplyRequest`, with the port of the proxy in it. -/
def requestReply (env : Environment) (localPort : ℕ) : Bytes :=
  [0x05, 0x00, 0x00, 0x01, 0x00, 0x00, 0x00, 0x00] ++
    objectBytes env.order 2 (env.byteswap 2 localPort)

namespace Tunnel

def goto (s : Tunnel) (stage : Stage) : Tunnel :=
  { s with stage := stage }

def shutdownClient (s : Tunnel) : Tunnel :=
  s.goto .closed

def rejectClient (s : Tunnel) (reason : RejectReason) : Tunnel :=
  s.goto (.rejecting (rejectReply reason))

/-- The start of the `async_connect`, with an attempt at the first endpoint. -/
def dial (s : Tunnel) (endpoints : List Endpoint) : Tunnel :=
  { s with dialed := s.dialed ++ endpoints.head?.toList }.goto
    (.connecting endpoints.head? (endpoints.length - 1))

/-- What follows an attempt that fails. -/
def redial (s : Tunnel) (stale : Endpoint) : ℕ → Tunnel
  | 0 => s.rejectClient .hostUnreachable
  | left + 1 => { s with dialed := s.dialed ++ [stale] }.goto (.connecting (some stale) left)

def connetRemote (env : Environment) (s : Tunnel) (packet : RequestPacket) : Tunnel :=
  if packet.addrType = kAddrIPv4 then
    s.dial [.v4 (env.swapped packet.destAddr) packet.destPort]
  else if packet.addrType = kAddrIPv6 then
    s.dial [.v6 packet.destAddr packet.destPort]
  else
    let service := ascii (toString packet.destPort)
    let looked := { s with resolved := s.resolved ++ [(packet.destAddr, service)] }
    match env.resolve packet.destAddr service with
    | none => looked.rejectClient .hostUnreachable
    | some results => looked.dial results

def onGreetingPreamble (s : Tunnel) (ver numMethods : Byte) : Tunnel :=
  if ver ≠ kSocks5Ver ∨ numMethods = 0 then s.shutdownClient
  else s.goto (.greetingMethods numMethods)

def onRequestPreamble (s : Tunnel) (packet : RequestPacket) : Tunnel :=
  if packet.ver ≠ kSocks5Ver then s.rejectClient .generalFailure
  else if packet.cmd ≠ kCmdConnect then s.rejectClient .commandNotSupported
  else if packet.addrType = kAddrDomain then s.goto (.addrLength packet)
  else s.goto (.addr packet (if packet.addrType = kAddrIPv4 then 4 else 16))

/-- What follows an exact read that has got its bytes. -/
def received (env : Environment) (s : Tunnel) (data : Bytes) : Tunnel :=
  match s.stage, data with
  | .greetingPreamble, [ver, numMethods] => s.onGreetingPreamble ver numMethods
  | .greetingMethods _, _ => s.goto (.replyGreeting kReplyGreeting)
  | .requestPreamble, [ver, cmd, reserved, addrType] =>
      s.onRequestPreamble ⟨ver, cmd, reserved, addrType, [], 0⟩
  | .addrLength packet, [length] => s.goto (.domain packet length.toNat)
  | .domain packet _, name => s.goto (.destPort { packet with destAddr := name })
  | .addr packet _, ip => s.goto (.destPort { packet with destAddr := ip })
  | .destPort packet, port =>
      s.connetRemote env { packet with destPort := env.swapped port }
  | _, _ => s

/-- What follows a read that fails. -/
def readFailed (s : Tunnel) : Tunnel :=
  match s.stage with
  | .greetingPreamble | .greetingMethods _ | .requestPreamble => s.shutdownClient
  | .addrLength _ | .domain _ _ | .addr _ _ | .destPort _ => s.rejectClient .generalFailure
  | _ => s

def consume (s : Tunnel) (count : ℕ) : Tunnel :=
  { s with relay := s.relay.consume count }

def output (s : Tunnel) (bytes : Bytes) : Tunnel :=
  { s with relay := s.relay.output bytes }

/-- A write gets on, and in the end something follows it. -/
def wrote (s : Tunnel) (rest : Bytes) (count : ℕ) (writing : Bytes → Stage)
    (done : Tunnel → Tunnel) : Option Tunnel :=
  if 0 < count ∧ count ≤ rest.length then
    let next := s.output (rest.take count)
    some (if rest.drop count = [] then done next else next.goto (writing (rest.drop count)))
  else none

theorem wrote_cases {s s' : Tunnel} {rest : Bytes} {count : ℕ} {writing : Bytes → Stage}
    {done : Tunnel → Tunnel} (hstep : s.wrote rest count writing done = some s') :
    rest.drop count = [] ∧ s' = done (s.output (rest.take count)) ∨
      rest.drop count ≠ [] ∧ (rest.drop count).length < rest.length ∧
        s' = (s.output (rest.take count)).goto (writing (rest.drop count)) :=
  cases_of_progress hstep

def startTunneling (s : Tunnel) : Tunnel :=
  { s with relay := s.relay.start }.goto .tunneling

end Tunnel

section System

variable (env : Environment) (localPort : ℕ)

def step (s : Tunnel) : Action → Option Tunnel
  | .read =>
      match s.stage.needed with
      | some count =>
          if count ≤ (s.relay.unread .client).length then
            some ((s.consume count).received env ((s.relay.unread .client).take count))
          else none
      | none => none
  | .eof =>
      match s.stage.needed with
      | some count => if (s.relay.unread .client).length < count then some s.readFailed else none
      | none => none
  | .wrote count =>
      match s.stage with
      | .replyGreeting rest => s.wrote rest count .replyGreeting (·.goto .requestPreamble)
      | .replyRequest rest => s.wrote rest count .replyRequest Tunnel.startTunneling
      | .rejecting rest => s.wrote rest count .rejecting (·.goto .closed)
      | _ => none
  | .connected stale =>
      match s.stage with
      | .connecting (some _) _ =>
          some ({ s with remoteAddr := some stale }.goto
            (.replyRequest (requestReply env localPort)))
      | _ => none
  | .refused stale =>
      match s.stage with
      | .connecting _ left => some (s.redial stale left)
      | _ => none
  | .fail =>
      match s.stage with
      | .replyGreeting _ | .replyRequest _ | .rejecting _ =>
          some { s with failed := true }.shutdownClient
      | stage => if stage.needed = none then none else some { s with failed := true }.readFailed
  | .relay side completion =>
      match s.stage with
      | .tunneling => (s.relay.forward side completion).map fun relay => { s with relay := relay }
      | _ => none

/-- The ways a tunnel goes on. -/
inductive Moves (s : Tunnel) : Tunnel → Prop
  | read {count} (hneeded : s.stage.needed = some count)
      (hlen : count ≤ (s.relay.unread .client).length) :
      Moves s ((s.consume count).received env ((s.relay.unread .client).take count))
  | eof {count} (hneeded : s.stage.needed = some count)
      (hlt : (s.relay.unread .client).length < count) : Moves s s.readFailed
  | readFails {count} (hneeded : s.stage.needed = some count) :
      Moves s { s with failed := true }.readFailed
  | greeted {rest count s'} (hs : s.stage = .replyGreeting rest)
      (hwrote : s.wrote rest count .replyGreeting (·.goto .requestPreamble) = some s') : Moves s s'
  | granted {rest count s'} (hs : s.stage = .replyRequest rest)
      (hwrote : s.wrote rest count .replyRequest Tunnel.startTunneling = some s') : Moves s s'
  | rejected {rest count s'} (hs : s.stage = .rejecting rest)
      (hwrote : s.wrote rest count .rejecting (·.goto .closed) = some s') : Moves s s'
  | writeFails {rest} (hs : s.stage = .replyGreeting rest ∨ s.stage = .replyRequest rest ∨
      s.stage = .rejecting rest) : Moves s { s with failed := true }.shutdownClient
  | connected {endpoint left} (stale : Endpoint) (hs : s.stage = .connecting (some endpoint) left) :
      Moves s ({ s with remoteAddr := some stale }.goto
        (.replyRequest (requestReply env localPort)))
  | refused {endpoint left} (stale : Endpoint) (hs : s.stage = .connecting endpoint left) :
      Moves s (s.redial stale left)
  | relayed {side completion relay} (hs : s.stage = .tunneling)
      (hrelay : s.relay.forward side completion = some relay) : Moves s { s with relay := relay }

variable {env localPort} in
theorem moves_of_step {s s' : Tunnel} {action : Action}
    (hstep : step env localPort s action = some s') : Moves env localPort s s' := by
  cases action with
  | read =>
      rw [step] at hstep
      split at hstep
      · next count hneeded =>
          obtain ⟨hlen, heq⟩ := Option.ite_none_right_eq_some.mp hstep
          exact Option.some.inj heq ▸ .read hneeded hlen
      · exact nomatch hstep
  | eof =>
      rw [step] at hstep
      split at hstep
      · next count hneeded =>
          obtain ⟨hlt, heq⟩ := Option.ite_none_right_eq_some.mp hstep
          exact Option.some.inj heq ▸ .eof hneeded hlt
      · exact nomatch hstep
  | wrote count =>
      rw [step] at hstep
      split at hstep
      · next rest hs => exact .greeted hs hstep
      · next rest hs => exact .granted hs hstep
      · next rest hs => exact .rejected hs hstep
      · exact nomatch hstep
  | connected stale =>
      rw [step] at hstep
      split at hstep
      · next endpoint left hs => exact Option.some.inj hstep ▸ .connected stale hs
      · exact nomatch hstep
  | refused stale =>
      rw [step] at hstep
      split at hstep
      · next endpoint left hs => exact Option.some.inj hstep ▸ .refused stale hs
      · exact nomatch hstep
  | fail =>
      rw [step] at hstep
      split at hstep
      · next rest hs => exact Option.some.inj hstep ▸ .writeFails (.inl hs)
      · next rest hs => exact Option.some.inj hstep ▸ .writeFails (.inr (.inl hs))
      · next rest hs => exact Option.some.inj hstep ▸ .writeFails (.inr (.inr hs))
      · obtain ⟨hneeded, heq⟩ := Option.ite_none_left_eq_some.mp hstep
        obtain ⟨count, hcount⟩ := Option.ne_none_iff_exists'.mp hneeded
        exact Option.some.inj heq ▸ .readFails hcount
  | relay side completion =>
      rw [step] at hstep
      split at hstep
      · next hs =>
          obtain ⟨relay, hrelay, rfl⟩ := Option.map_eq_some_iff.mp hstep
          exact .relayed hs hrelay
      · exact nomatch hstep

/-- A tunnel whose sides are going to send these bytes. -/
def initial (streams : Side → Bytes) : Tunnel where
  stage := .greetingPreamble
  relay :=
    { unread := streams
      written := fun _ => []
      loop := fun _ => .idle
      disconnected := fun _ => false
      shutdown := fun _ => false
      forceShutdown := false }
  resolved := []
  dialed := []
  remoteAddr := none
  failed := false

def tunnel (streams : Side → Bytes) : System Tunnel Action where
  start s := s = initial streams
  step := step env localPort

end System

end Eureka.Socks5

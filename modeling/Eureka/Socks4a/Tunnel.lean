import Eureka.Library.Transition
import Eureka.Socks.Relay

/-!
# The SOCKS4a tunnel

A tunnel from its first read on, one completion at a time.  The preamble is an
exact read.  The texts behind it are read by `async_read_until` into
`io_client_buf_`: as long as the delimiter is not in the buffer, whatever has
arrived is put behind it, and this may be more than the text.  The ack is written
from the same buffer, and the relay reads into it.

What is not in the repository is the `Environment` of a tunnel.  The flag `failed` is
not in the code.
-/

namespace Eureka.Socks4a

open Endian Socks Transition

structure RequestPacket where
  ver : Byte
  cmd : Byte
  destPort : ℕ
  destIp : ℕ
  userId : Bytes
  domain : Bytes

def kVer4 : Byte := 4

def kCmdConnect : Byte := 1

def k4aMask : ℕ := 256

def kPreambleSize : ℕ := 8

def RequestPacket.valid (packet : RequestPacket) : Bool :=
  if packet.ver ≠ kVer4 ∨ packet.cmd ≠ kCmdConnect ∨ packet.destPort = 0 ∨ packet.destIp = 0 then
    false
  else !(packet.destIp < k4aMask && packet.domain.isEmpty)

inductive Endpoint
  | v4 (ip : ℕ) (port : ℕ)
  | v6 (ip : Bytes) (port : ℕ)
  deriving DecidableEq, Repr

/-- What a tunnel takes from outside of the repository. -/
structure Environment extends Host where
  /-- `tcp::resolver::resolve`, of a name and a service. -/
  resolve : Bytes → Bytes → Option (List Endpoint)

/-- The operation that is pending. -/
inductive Stage
  | preamble
  | userId (packet : RequestPacket)
  | domain (packet : RequestPacket)
  | connecting (endpoints : List Endpoint)
  | ack (rest : Bytes)
  | tunneling
  | rejecting (rest : Bytes)
  | closed
  /-- `to_v4` has thrown, for an endpoint that is not one. -/
  | thrown

structure Tunnel where
  stage : Stage
  relay : Relay
  ioClientBuf : Bytes
  /-- Some operation of the handshake has failed, or the stream has ended in the request. -/
  failed : Bool

inductive Action
  /-- The preamble is there. -/
  | read
  /-- A read of `async_read_until` puts some bytes into the buffer. -/
  | readSome (count : ℕ)
  /-- The delimiter is in the buffer. -/
  | found
  | eof
  | wrote (count : ℕ)
  | connected (endpoint : Endpoint)
  | refused
  | fail
  | relay (side : Side) (completion : Completion)

def kRejectedResp : Bytes := [0x00, 0x5B, 0x2B, 0x2B, 0x2B, 0x2B, 0x2B, 0x2B]

def grantedResp (env : Environment) (ip port : ℕ) : Bytes :=
  [0x00, 0x5A] ++ objectBytes env.order 2 (env.byteswap 2 port) ++ networkBytes 4 ip

namespace Tunnel

def goto (s : Tunnel) (stage : Stage) : Tunnel :=
  { s with stage := stage }

def rejectClient (s : Tunnel) : Tunnel :=
  s.goto (.rejecting kRejectedResp)

def fail (s : Tunnel) : Tunnel :=
  { s with failed := true }

def consume (s : Tunnel) (count : ℕ) : Tunnel :=
  { s with relay := s.relay.consume count }

/-- A read of this many bytes into `io_client_buf_`, behind what is there. -/
def receive (s : Tunnel) (count : ℕ) : Tunnel :=
  { s.consume count with ioClientBuf := s.ioClientBuf ++ (s.relay.unread .client).take count }

def output (s : Tunnel) (bytes : Bytes) : Tunnel :=
  { s with relay := s.relay.output bytes }

def connectRemote (env : Environment) (s : Tunnel) (packet : RequestPacket) : Tunnel :=
  if packet.domain ≠ [] then
    match env.resolve packet.domain (ascii (toString packet.destPort)) with
    | none => s.fail.rejectClient
    | some results => s.goto (.connecting results)
  else s.goto (.connecting [.v4 packet.destIp packet.destPort])

def complete (env : Environment) (s : Tunnel) (packet : RequestPacket) : Tunnel :=
  if packet.valid then s.connectRemote env packet else s.rejectClient

def onPreamble (env : Environment) (s : Tunnel) : Bytes → Tunnel
  | [ver, cmd, p0, p1, i0, i1, i2, i3] =>
      s.goto (.userId
        { ver := ver
          cmd := cmd
          destPort := env.swapped [p0, p1]
          destIp := env.swapped [i0, i1, i2, i3]
          userId := []
          domain := [] })
  | _ => s

/-- What follows the user id, of which `bytes` bytes with the delimiter are in the buffer. -/
def onUserId (env : Environment) (s : Tunnel) (packet : RequestPacket) (bytes : ℕ) : Tunnel :=
  let read := { packet with userId := s.ioClientBuf.take (bytes - 1) }
  let next := { s with ioClientBuf := s.ioClientBuf.drop bytes }
  if packet.destIp < 256 then next.goto (.domain read) else next.complete env read

def onDomain (env : Environment) (s : Tunnel) (packet : RequestPacket) (bytes : ℕ) : Tunnel :=
  { s with ioClientBuf := [] }.complete env
    { packet with domain := s.ioClientBuf.take (bytes - 1) }

/-- `io_client_buf_` is assigned the ack; later it is the buffer of the relay. -/
def onConnected (env : Environment) (s : Tunnel) : Endpoint → Tunnel
  | .v4 ip port =>
      let resp := grantedResp env ip port
      { s with ioClientBuf := resp }.goto (.ack resp)
  | .v6 _ _ => s.goto .thrown

def forwardTransmission (s : Tunnel) : Tunnel :=
  { s with relay := s.relay.start }.goto .tunneling

/-- A write gets on, and in the end something follows it. -/
def wrote (s : Tunnel) (rest : Bytes) (count : ℕ) (writing : Bytes → Stage)
    (done : Tunnel → Tunnel) : Option Tunnel :=
  if 0 < count ∧ count ≤ rest.length then
    let next := s.output (rest.take count)
    some (if rest.drop count = [] then done next else next.goto (writing (rest.drop count)))
  else none

theorem wrote_cases {s s' : Tunnel} {rest : Bytes} {count : ℕ} {writing : Bytes → Stage}
    {done : Tunnel → Tunnel} (hstep : s.wrote rest count writing done = some s') :
    rest.drop count = [] ∧ s' = done (s.output (rest.take count)) ∨
      rest.drop count ≠ [] ∧ (rest.drop count).length < rest.length ∧
        s' = (s.output (rest.take count)).goto (writing (rest.drop count)) :=
  cases_of_progress hstep

end Tunnel

section System

variable (env : Environment)

def step (s : Tunnel) : Action → Option Tunnel
  | .read =>
      match s.stage with
      | .preamble =>
          if kPreambleSize ≤ (s.relay.unread .client).length then
            some ((s.consume kPreambleSize).onPreamble env
              ((s.relay.unread .client).take kPreambleSize))
          else none
      | _ => none
  | .readSome count =>
      match s.stage with
      | .userId _ | .domain _ =>
          if 0 ∉ s.ioClientBuf ∧ 0 < count ∧ count ≤ (s.relay.unread .client).length then
            some (s.receive count)
          else none
      | _ => none
  | .found =>
      match s.stage with
      | .userId packet =>
          if 0 ∈ s.ioClientBuf then some (s.onUserId env packet (s.ioClientBuf.idxOf 0 + 1))
          else none
      | .domain packet =>
          if 0 ∈ s.ioClientBuf then some (s.onDomain env packet (s.ioClientBuf.idxOf 0 + 1))
          else none
      | _ => none
  | .eof =>
      match s.stage with
      | .preamble =>
          if (s.relay.unread .client).length < kPreambleSize then some s.fail.rejectClient else none
      | .userId _ | .domain _ =>
          if 0 ∉ s.ioClientBuf ∧ s.relay.unread .client = [] then some s.fail.rejectClient else none
      | _ => none
  | .wrote count =>
      match s.stage with
      | .ack rest => s.wrote rest count .ack Tunnel.forwardTransmission
      | .rejecting rest => s.wrote rest count .rejecting (·.goto .closed)
      | _ => none
  | .connected endpoint =>
      match s.stage with
      | .connecting endpoints =>
          if endpoint ∈ endpoints then some (s.onConnected env endpoint) else none
      | _ => none
  | .refused =>
      match s.stage with
      | .connecting _ => some s.fail.rejectClient
      | _ => none
  | .fail =>
      match s.stage with
      | .preamble | .userId _ | .domain _ => some s.fail.rejectClient
      | .ack _ | .rejecting _ => some (s.fail.goto .closed)
      | _ => none
  | .relay side completion =>
      match s.stage with
      | .tunneling => (s.relay.forward side completion).map fun relay => { s with relay := relay }
      | _ => none

/-- A tunnel whose sides are going to send these bytes. -/
def initial (streams : Side → Bytes) : Tunnel where
  stage := .preamble
  relay :=
    { unread := streams
      written := fun _ => []
      loop := fun _ => .idle
      disconnected := fun _ => false
      shutdown := fun _ => false
      forceShutdown := false }
  ioClientBuf := []
  failed := false

def tunnel (streams : Side → Bytes) : System Tunnel Action where
  start s := s = initial streams
  step := step env

end System

end Eureka.Socks4a

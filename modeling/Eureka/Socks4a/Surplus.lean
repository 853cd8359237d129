import Eureka.Socks4a.Tunnel

/-!
# The surplus of the request

`async_read_until` may take bytes behind the text that it looks for.  Behind the
last text of the request these are bytes of the payload, and nothing reads them
out of `io_client_buf_`: they are dropped with the next assignment.  As long as no
read goes beyond the request, the whole payload is still unread when the relay
starts, and the relay loses nothing.

Where the request ends is told by its address, which a big-endian host reads in the
wrong order (`Request.MaskKept`).

* `exists_of_found`: what is in the buffer when the delimiter is found;
* `Inv`: where the request and the payload are, stage by stage;
* `always_losesNothing`: the runs in which no read takes a byte of the payload.
-/

namespace Eureka.Socks4a

open Endian Socks Transition

/-! ## Requests -/

/-- A SOCKS4 request, and with an address below 256 a SOCKS4a one. -/
structure Request where
  port : ℕ
  ip : ℕ
  userId : Bytes
  domain : Bytes
  port_pos : 0 < port
  port_lt : port < 65536
  ip_pos : 0 < ip
  ip_lt : ip < 4294967296
  userId_nul : 0 ∉ userId
  domain_nul : 0 ∉ domain
  domain_ne : ip < k4aMask → domain ≠ []

def Request.tail (request : Request) : Bytes :=
  if request.ip < k4aMask then request.domain ++ [0] else []

def Request.bytes (request : Request) : Bytes :=
  [kVer4, kCmdConnect] ++ networkBytes 2 request.port ++ networkBytes 4 request.ip ++
    request.userId ++ 0 :: request.tail

/-- The preamble of the request, as the tunnel has it. -/
def Request.packet (env : Environment) (request : Request) : RequestPacket where
  ver := kVer4
  cmd := kCmdConnect
  destPort := env.swapped (networkBytes 2 request.port)
  destIp := env.swapped (networkBytes 4 request.ip)
  userId := []
  domain := []

/-- The address is read as one of SOCKS4a exactly if it is one. -/
def Request.MaskKept (env : Environment) (request : Request) : Prop :=
  env.swapped (networkBytes 4 request.ip) < k4aMask ↔ request.ip < k4aMask

/-- A host that reads the address in its order tells the two kinds of requests apart. -/
theorem Request.maskKept_of_inOrder {env : Environment} (hswaps : ReversesBytes env.byteswap)
    (request : Request) (horder : env.InOrder (networkBytes 4 request.ip)) :
    request.MaskKept env := by
  have hip : ofNetworkBytes (networkBytes 4 request.ip) = request.ip := by
    rw [ofNetworkBytes_networkBytes, Nat.mod_eq_of_lt (request.ip_lt.trans_eq (by norm_num))]
  rw [MaskKept, (Host.swapped_iff hswaps _).mpr horder, hip]

theorem exists_of_found {buf unread text rest : Bytes} (heq : buf ++ unread = text ++ 0 :: rest)
    (hnul : 0 ∉ text) (hfound : 0 ∈ buf) :
    ∃ surplus, buf = text ++ 0 :: surplus ∧ surplus ++ unread = rest := by
  rcases List.append_eq_append_iff.mp heq with ⟨more, htext, -⟩ | ⟨more, hbuf, hrest⟩
  · exact absurd (htext ▸ List.mem_append_left more hfound) hnul
  · cases more with
    | nil =>
        rw [List.append_nil] at hbuf
        exact absurd (hbuf ▸ hfound) hnul
    | cons first surplus =>
        obtain ⟨rfl, htail⟩ := List.cons.inj hrest
        exact ⟨surplus, hbuf, htail.symm⟩

theorem unread_eq_payload {surplus unread payload : Bytes} (heq : surplus ++ unread = payload)
    (hlength : payload.length ≤ unread.length) : unread = payload := by
  have hsurplus : surplus = [] := by
    rw [← heq, List.length_append] at hlength
    exact List.eq_nil_of_length_eq_zero (by omega)
  rw [← heq, hsurplus, List.nil_append]

theorem idxOf_nul {text surplus : Bytes} (hnul : 0 ∉ text) :
    (text ++ 0 :: surplus).idxOf 0 = text.length := by
  rw [List.idxOf_append_of_notMem hnul, List.idxOf_cons_self, Nat.add_zero]

/-! ## The promise -/

/-- What is promised of the payload. -/
structure LosesNothing (payload : Bytes) (s : Tunnel) : Prop where
  inOrder : s.relay.written .remote <+: payload
  /-- Behind the end of the stream of the client, the remote side has all of it. -/
  whole : s.relay.loop .client = .ended → s.relay.written .remote = payload
  /-- The request is granted, as far as the operations do not fail. -/
  granted : s.failed = false →
    (∀ rest, s.stage ≠ .rejecting rest) ∧ s.stage ≠ .closed ∧ s.stage ≠ .thrown

/-- The step takes no byte of the payload into the buffer, and connects to an IPv4 endpoint. -/
def Keeps (payload : Bytes) (s : Tunnel) : Action → Prop
  | .readSome count => payload.length + count ≤ (s.relay.unread .client).length
  | .connected (.v6 _ _) => False
  | _ => True

instance (payload : Bytes) (s : Tunnel) : (action : Action) → Decidable (Keeps payload s action)
  | .readSome count =>
      inferInstanceAs (Decidable (payload.length + count ≤ (s.relay.unread .client).length))
  | .connected (.v6 _ _) => .isFalse id
  | .connected (.v4 _ _) | .read | .found | .eof | .wrote _ | .refused | .fail | .relay _ _ =>
      .isTrue trivial

/-! ## The invariant -/

section Invariant

variable (env : Environment) (request : Request) (payload : Bytes)

def AtStage (remote : Bytes) (s : Tunnel) : Stage → Prop
  | .preamble => s.ioClientBuf = [] ∧ s.relay.unread .client = request.bytes ++ payload
  | .userId packet =>
      packet = request.packet env ∧
        s.ioClientBuf ++ s.relay.unread .client = request.userId ++ 0 :: (request.tail ++ payload) ∧
        payload.length ≤ (s.relay.unread .client).length
  | .domain packet =>
      request.ip < k4aMask ∧ packet = { request.packet env with userId := request.userId } ∧
        s.ioClientBuf ++ s.relay.unread .client = request.domain ++ 0 :: payload ∧
        payload.length ≤ (s.relay.unread .client).length
  | .connecting _ => s.relay.unread .client = payload
  | .ack rest => s.relay.unread .client = payload ∧ rest ≠ []
  | .tunneling => ∃ told, s.relay.Carries (Relay.carriage payload told remote)
  | .rejecting _ => s.failed = true
  | .closed => s.failed = true
  | .thrown => False

structure Inv (remote : Bytes) (s : Tunnel) : Prop where
  stage : AtStage env request payload remote s s.stage
  quiet : s.stage ≠ .tunneling → s.relay.Quiet remote

end Invariant

variable {env : Environment} {request : Request}
  {payload remote : Bytes} {s s' : Tunnel}

theorem Inv.losesNothing (h : Inv env request payload remote s) : LosesNothing payload s := by
  have hstage := h.stage
  by_cases hs : s.stage = .tunneling
  · rw [hs] at hstage
    obtain ⟨told, hcarries⟩ := hstage
    exact ⟨hcarries.written_isPrefix .client, hcarries.written_of_ended, fun _ => by simp [hs]⟩
  · have hquiet := h.quiet hs
    refine ⟨hquiet.written ▸ List.nil_prefix, fun hended => ?_, fun hfailed => ⟨?_, ?_, ?_⟩⟩
    · rw [hquiet.idle] at hended
      exact nomatch hended
    · intro rest hrejecting
      rw [hrejecting] at hstage
      exact nomatch hfailed.symm.trans hstage
    · intro hclosed
      rw [hclosed] at hstage
      exact nomatch hfailed.symm.trans hstage
    · intro hthrown
      rw [hthrown] at hstage
      exact hstage

/-! ## The steps -/

theorem Inv.move (h : Inv env request payload remote s) (hquiet : s.stage ≠ .tunneling)
    (hrelay : s'.relay = s.relay) (hstage : AtStage env request payload remote s' s'.stage) :
    Inv env request payload remote s' where
  stage := hstage
  quiet _ := hrelay ▸ h.quiet hquiet

theorem Inv.fail (h : Inv env request payload remote s) (hquiet : s.stage ≠ .tunneling) :
    Inv env request payload remote s.fail.rejectClient :=
  h.move hquiet rfl rfl

theorem Inv.consume (h : Inv env request payload remote s) (hquiet : s.stage ≠ .tunneling) {count : ℕ}
    (hrelay : s'.relay = s.relay.consume count)
    (hstage : AtStage env request payload remote s' s'.stage) : Inv env request payload remote s' where
  stage := hstage
  quiet _ := hrelay ▸ (h.quiet hquiet).consume count

theorem onPreamble_bytes (env : Environment) (request : Request) (s : Tunnel) :
    s.onPreamble env ([kVer4, kCmdConnect] ++ networkBytes 2 request.port ++
      networkBytes 4 request.ip) = s.goto (.userId (request.packet env)) := by
  obtain ⟨p0, p1, hp⟩ := List.length_eq_two.mp (length_networkBytes 2 request.port)
  obtain ⟨i0, i1, i2, i3, hi⟩ := List.length_eq_four.mp (length_networkBytes 4 request.ip)
  rw [Request.packet, hp, hi]
  rfl

theorem Inv.read (h : Inv env request payload remote s) (hs : s.stage = .preamble) :
    Inv env request payload remote
      ((s.consume kPreambleSize).onPreamble env
        ((s.relay.unread .client).take kPreambleSize)) := by
  have hstage := h.stage
  rw [hs] at hstage
  obtain ⟨hbuf, hunread⟩ := hstage
  have hsplit : s.relay.unread .client = ([kVer4, kCmdConnect] ++ networkBytes 2 request.port ++
      networkBytes 4 request.ip) ++ (request.userId ++ 0 :: (request.tail ++ payload)) := by
    rw [hunread, Request.bytes]
    simp
  have hlength : ([kVer4, kCmdConnect] ++ networkBytes 2 request.port ++
      networkBytes 4 request.ip).length = kPreambleSize := by simp [kPreambleSize]
  have hrest : (s.relay.consume kPreambleSize).unread .client =
      request.userId ++ 0 :: (request.tail ++ payload) := by
    rw [Relay.unread_consume, hsplit, ← hlength, List.drop_left]
  have htake : (s.relay.unread .client).take kPreambleSize = [kVer4, kCmdConnect] ++
      networkBytes 2 request.port ++ networkBytes 4 request.ip := by
    rw [hsplit, ← hlength, List.take_left]
  rw [htake, onPreamble_bytes]
  refine h.consume (by simp [hs]) (rfl : _ = s.relay.consume kPreambleSize) ⟨rfl, ?_, ?_⟩
  · exact (congrArg (· ++ _) hbuf).trans hrest
  · rw [show ((s.consume kPreambleSize).goto (.userId (request.packet env))).relay.unread .client = _ from
      hrest]
    simp only [List.length_append, List.length_cons]
    omega

theorem Inv.readSome (h : Inv env request payload remote s) {count : ℕ}
    (hs : (∃ packet, s.stage = .userId packet) ∨ ∃ packet, s.stage = .domain packet)
    (hkeeps : payload.length + count ≤ (s.relay.unread .client).length) :
    Inv env request payload remote (s.receive count) := by
  have hall : s.ioClientBuf ++ (s.relay.unread .client).take count ++
      (s.relay.consume count).unread .client = s.ioClientBuf ++ s.relay.unread .client := by
    rw [Relay.unread_consume, List.append_assoc, List.take_append_drop]
  have hlength : payload.length ≤ ((s.relay.consume count).unread .client).length := by
    rw [Relay.unread_consume, List.length_drop]
    omega
  have hstage := h.stage
  rcases hs with ⟨packet, hs⟩ | ⟨packet, hs⟩
  · rw [hs] at hstage
    obtain ⟨hpacket, hbytes, -⟩ := hstage
    refine h.consume (by simp [hs]) (rfl : _ = s.relay.consume count) ?_
    rw [show (s.receive count).stage = .userId packet from hs]
    exact ⟨hpacket, hall.trans hbytes, hlength⟩
  · rw [hs] at hstage
    obtain ⟨hip, hpacket, hbytes, -⟩ := hstage
    refine h.consume (by simp [hs]) (rfl : _ = s.relay.consume count) ?_
    rw [show (s.receive count).stage = .domain packet from hs]
    exact ⟨hip, hpacket, hall.trans hbytes, hlength⟩

/-- A request of which all was read is granted, if the resolver does not fail. -/
theorem inv_complete (hquiet : s.relay.Quiet remote) (hunread : s.relay.unread .client = payload)
    {packet : RequestPacket} (hvalid : packet.valid = true) :
    Inv env request payload remote (s.complete env packet) := by
  rw [Tunnel.complete, if_pos hvalid, Tunnel.connectRemote]
  split
  · split
    · exact ⟨rfl, fun _ => hquiet⟩
    · exact ⟨hunread, fun _ => hquiet⟩
  · exact ⟨hunread, fun _ => hquiet⟩

theorem swapped_ne_zero (hswaps : ReversesBytes env.byteswap) {size n : ℕ} (hpos : 0 < n)
    (hlt : n < 256 ^ size) : env.swapped (networkBytes size n) ≠ 0 := by
  rw [Ne, Host.swapped_eq_zero_iff hswaps, ofNetworkBytes_networkBytes, Nat.mod_eq_of_lt hlt]
  exact hpos.ne'

/-- The packet of a request is valid, in whichever order its numbers are read. -/
theorem Request.valid (hswaps : ReversesBytes env.byteswap) (request : Request)
    (hmask : request.MaskKept env) (userId domain : Bytes)
    (hdomain : request.ip < k4aMask → domain = request.domain) :
    RequestPacket.valid { request.packet env with userId := userId, domain := domain } = true := by
  have hport : env.swapped (networkBytes 2 request.port) ≠ 0 :=
    swapped_ne_zero hswaps request.port_pos (request.port_lt.trans_eq (by norm_num))
  have hip : env.swapped (networkBytes 4 request.ip) ≠ 0 :=
    swapped_ne_zero hswaps request.ip_pos (request.ip_lt.trans_eq (by norm_num))
  rw [RequestPacket.valid, if_neg (by simp [Request.packet, hport, hip])]
  by_cases hlt : request.ip < k4aMask
  · simp [hdomain hlt, request.domain_ne hlt]
  · have hge : ¬ env.swapped (networkBytes 4 request.ip) < k4aMask := fun h => hlt (hmask.mp h)
    simp [Request.packet, hge]

theorem Inv.found_userId (h : Inv env request payload remote s)
    (hswaps : ReversesBytes env.byteswap) (hmask : request.MaskKept env) {packet : RequestPacket}
    (hs : s.stage = .userId packet) (hfound : 0 ∈ s.ioClientBuf) :
    Inv env request payload remote (s.onUserId env packet (s.ioClientBuf.idxOf 0 + 1)) := by
  have hstage := h.stage
  rw [hs] at hstage
  obtain ⟨rfl, hbytes, hlength⟩ := hstage
  obtain ⟨surplus, hbuf, hrest⟩ := exists_of_found hbytes request.userId_nul hfound
  have htake : s.ioClientBuf.take request.userId.length = request.userId := by
    rw [hbuf, List.take_left]
  have hdrop : s.ioClientBuf.drop (request.userId.length + 1) = surplus := by
    rw [hbuf, List.drop_append, List.drop_eq_nil_of_le (Nat.le_succ _)]
    simp
  rw [show s.ioClientBuf.idxOf 0 = request.userId.length by rw [hbuf, idxOf_nul request.userId_nul],
    Tunnel.onUserId, Nat.add_sub_cancel, htake, hdrop]
  split
  · next hip =>
      have htail : request.tail = request.domain ++ [0] := if_pos (hmask.mp hip)
      rw [htail, List.append_assoc] at hrest
      exact h.move (by simp [hs]) rfl ⟨hmask.mp hip, rfl, hrest, hlength⟩
  · next hip =>
      have htail : request.tail = [] := if_neg fun hlt => hip (hmask.mpr hlt)
      rw [htail, List.nil_append] at hrest
      have hquiet : ({ s with ioClientBuf := surplus } : Tunnel).relay.Quiet remote :=
        h.quiet (by simp [hs])
      refine inv_complete hquiet (unread_eq_payload hrest hlength) ?_
      exact request.valid hswaps hmask _ [] fun hlt => absurd (hmask.mpr hlt) hip

theorem Inv.found_domain (h : Inv env request payload remote s)
    (hswaps : ReversesBytes env.byteswap) (hmask : request.MaskKept env) {packet : RequestPacket}
    (hs : s.stage = .domain packet) (hfound : 0 ∈ s.ioClientBuf) :
    Inv env request payload remote (s.onDomain env packet (s.ioClientBuf.idxOf 0 + 1)) := by
  have hstage := h.stage
  rw [hs] at hstage
  obtain ⟨hip, rfl, hbytes, hlength⟩ := hstage
  obtain ⟨surplus, hbuf, hrest⟩ := exists_of_found hbytes request.domain_nul hfound
  have htake : s.ioClientBuf.take request.domain.length = request.domain := by
    rw [hbuf, List.take_left]
  rw [show s.ioClientBuf.idxOf 0 = request.domain.length by rw [hbuf, idxOf_nul request.domain_nul],
    Tunnel.onDomain, Nat.add_sub_cancel, htake]
  have hquiet : ({ s with ioClientBuf := [] } : Tunnel).relay.Quiet remote :=
    h.quiet (by simp [hs])
  refine inv_complete hquiet (unread_eq_payload hrest hlength) ?_
  exact request.valid hswaps hmask _ _ fun _ => rfl

theorem Inv.wrote_ack (h : Inv env request payload remote s) {rest : Bytes} {count : ℕ}
    (hs : s.stage = .ack rest)
    (hstep : s.wrote rest count .ack Tunnel.forwardTransmission = some s') :
    Inv env request payload remote s' := by
  have hstage := h.stage
  rw [hs] at hstage
  have hquiet := (h.quiet (by simp [hs])).output (rest.take count)
  rcases Tunnel.wrote_cases hstep with ⟨-, rfl⟩ | ⟨hmore, -, rfl⟩
  · have hcarries := hquiet.carries
    rw [show (s.relay.output (rest.take count)).unread .client = payload from hstage.1] at hcarries
    exact ⟨⟨_, hcarries⟩, fun hnot => absurd rfl hnot⟩
  · exact ⟨⟨hstage.1, hmore⟩, fun _ => hquiet⟩

theorem Inv.wrote_rejecting (h : Inv env request payload remote s) {rest : Bytes} {count : ℕ}
    (hs : s.stage = .rejecting rest)
    (hstep : s.wrote rest count .rejecting (·.goto .closed) = some s') :
    Inv env request payload remote s' := by
  have hstage := h.stage
  rw [hs] at hstage
  have hquiet := (h.quiet (by simp [hs])).output (rest.take count)
  rcases Tunnel.wrote_cases hstep with ⟨-, rfl⟩ | ⟨-, -, rfl⟩
  · exact ⟨hstage, fun _ => hquiet⟩
  · exact ⟨hstage, fun _ => hquiet⟩

theorem Inv.step (h : Inv env request payload remote s) (hswaps : ReversesBytes env.byteswap)
    (hmask : request.MaskKept env) {action : Action}
    (hkeeps : Keeps payload s action) (hstep : step env s action = some s') :
    Inv env request payload remote s' := by
  have hstage := h.stage
  cases action with
  | read =>
      rw [Socks4a.step] at hstep
      split at hstep
      · next hs =>
          split at hstep
          · obtain rfl := Option.some.inj hstep
            exact h.read hs
          · exact nomatch hstep
      · exact nomatch hstep
  | readSome count =>
      rw [Socks4a.step] at hstep
      split at hstep
      · next packet hs =>
          split at hstep
          · obtain rfl := Option.some.inj hstep
            exact h.readSome (.inl ⟨packet, hs⟩) hkeeps
          · exact nomatch hstep
      · next packet hs =>
          split at hstep
          · obtain rfl := Option.some.inj hstep
            exact h.readSome (.inr ⟨packet, hs⟩) hkeeps
          · exact nomatch hstep
      · exact nomatch hstep
  | found =>
      rw [Socks4a.step] at hstep
      split at hstep
      · next packet hs =>
          split at hstep
          · next hfound =>
              obtain rfl := Option.some.inj hstep
              exact h.found_userId hswaps hmask hs hfound
          · exact nomatch hstep
      · next packet hs =>
          split at hstep
          · next hfound =>
              obtain rfl := Option.some.inj hstep
              exact h.found_domain hswaps hmask hs hfound
          · exact nomatch hstep
      · exact nomatch hstep
  | eof =>
      rw [Socks4a.step] at hstep
      split at hstep
      · next hs =>
          split at hstep
          · obtain rfl := Option.some.inj hstep
            exact h.fail (by simp [hs])
          · exact nomatch hstep
      · next packet hs =>
          split at hstep
          · obtain rfl := Option.some.inj hstep
            exact h.fail (by simp [hs])
          · exact nomatch hstep
      · next packet hs =>
          split at hstep
          · obtain rfl := Option.some.inj hstep
            exact h.fail (by simp [hs])
          · exact nomatch hstep
      · exact nomatch hstep
  | wrote count =>
      rw [Socks4a.step] at hstep
      split at hstep
      · next rest hs => exact h.wrote_ack hs hstep
      · next rest hs => exact h.wrote_rejecting hs hstep
      · exact nomatch hstep
  | connected endpoint =>
      rw [Socks4a.step] at hstep
      split at hstep
      · next endpoints hs =>
          rw [hs] at hstage
          split at hstep
          · obtain rfl := Option.some.inj hstep
            cases endpoint with
            | v4 ip port => exact h.move (by simp [hs]) rfl ⟨hstage, by simp [grantedResp]⟩
            | v6 ip port => exact absurd hkeeps id
          · exact nomatch hstep
      · exact nomatch hstep
  | refused =>
      rw [Socks4a.step] at hstep
      split at hstep
      · next endpoints hs =>
          obtain rfl := Option.some.inj hstep
          exact h.fail (by simp [hs])
      · exact nomatch hstep
  | fail =>
      rw [Socks4a.step] at hstep
      split at hstep
      · next hs =>
          obtain rfl := Option.some.inj hstep
          exact h.fail (by simp [hs])
      · next packet hs =>
          obtain rfl := Option.some.inj hstep
          exact h.fail (by simp [hs])
      · next packet hs =>
          obtain rfl := Option.some.inj hstep
          exact h.fail (by simp [hs])
      · next rest hs =>
          obtain rfl := Option.some.inj hstep
          exact h.move (by simp [hs]) rfl rfl
      · next rest hs =>
          obtain rfl := Option.some.inj hstep
          exact h.move (by simp [hs]) rfl rfl
      · exact nomatch hstep
  | relay side completion =>
      rw [Socks4a.step] at hstep
      split at hstep
      · next hs =>
          rw [hs] at hstage
          obtain ⟨told, hcarries⟩ := hstage
          obtain ⟨relay, hrelay, rfl⟩ := Option.map_eq_some_iff.mp hstep
          refine ⟨?_, fun hnot => absurd hs hnot⟩
          dsimp only
          rw [hs]
          exact ⟨told, hcarries.forward hrelay⟩
      · exact nomatch hstep

/-! ## The runs -/

/-- What the sides of a tunnel send. -/
def streams (request : Request) (payload remote : Bytes) : Side → Bytes
  | .client => request.bytes ++ payload
  | .remote => remote

theorem inv_initial : Inv env request payload remote (initial (streams request payload remote)) where
  stage := ⟨rfl, rfl⟩
  quiet _ := ⟨fun _ => rfl, fun _ => rfl, rfl, rfl⟩

/-- **The tunnel loses no byte of the payload**, on a host that does not take the one kind of request
for the other, in the runs in which no read of the request takes one, and the endpoint that is
connected is an IPv4 one. -/
theorem always_losesNothing (hswaps : ReversesBytes env.byteswap) (hmask : request.MaskKept env)
    {actions : List Action}
    (hkeeps : (tunnel env (streams request payload remote)).EachStep (Keeps payload)
      (initial (streams request payload remote)) actions) :
    (tunnel env (streams request payload remote)).Always (LosesNothing payload)
      (initial (streams request payload remote)) actions :=
  System.always_of_eachStep (I := Inv env request payload remote)
    (fun _ _ _ h hC hstep => h.step hswaps hmask hC hstep) (fun _ h => h.losesNothing) inv_initial
    hkeeps

/-- A little-endian host on which no name is known. -/
def noNames : Environment where
  order := .little
  byteswap := byteSwap
  resolve _ _ := none

def plainRequest : Request where
  port := 80
  ip := 2130706433
  userId := []
  domain := []
  port_pos := by decide
  port_lt := by decide
  ip_pos := by decide
  ip_lt := by decide
  userId_nul := by decide
  domain_nul := by decide
  domain_ne := by decide

/-- The end of the request arrives in a read of this size, and the rest of the stream behind it. -/
def runWithRead (count rest : ℕ) : List Action :=
  [Action.read, Action.readSome count, Action.found, Action.connected (.v4 2130706433 80),
      Action.wrote 8] ++
    (if rest = 0 then []
      else [Action.relay .client (.read rest), Action.relay .client (.wrote rest)]) ++
    [Action.relay .client .eof]

theorem always_losesNothing_apart :
    ∃ s, (tunnel noNames (streams plainRequest [71, 69, 84] [])).run
        (initial (streams plainRequest [71, 69, 84] [])) (runWithRead 1 3) = some s ∧
      s.relay.loop .client = .ended ∧ s.relay.written .remote = [71, 69, 84] ∧
      (tunnel noNames (streams plainRequest [71, 69, 84] [])).Always
        (LosesNothing [71, 69, 84]) (initial (streams plainRequest [71, 69, 84] []))
        (runWithRead 1 3) := by
  have hfacts : ((tunnel noNames (streams plainRequest [71, 69, 84] [])).run
      (initial (streams plainRequest [71, 69, 84] [])) (runWithRead 1 3)).map
      (fun s => (s.relay.loop .client, s.relay.written .remote)) =
      some (.ended, [71, 69, 84]) := rfl
  obtain ⟨s, hrun, hs⟩ := Option.map_eq_some_iff.mp hfacts
  obtain ⟨hended, hwritten⟩ := Prod.ext_iff.mp hs
  have hswaps : ReversesBytes noNames.byteswap := fun _ _ _ => rfl
  have hmask : plainRequest.MaskKept noNames :=
    Request.maskKept_of_inOrder hswaps plainRequest (.inl rfl)
  exact ⟨s, hrun, hended, hwritten, always_losesNothing hswaps hmask (by decide)⟩

/-- If the payload comes with the last byte of the request, none of it is written. -/
theorem surplus_is_lost :
    ¬ ∀ s, (tunnel noNames (streams plainRequest [71, 69, 84] [])).Reachable s →
      LosesNothing [71, 69, 84] s := by
  have hfacts : ((tunnel noNames (streams plainRequest [71, 69, 84] [])).run
      (initial (streams plainRequest [71, 69, 84] [])) (runWithRead 4 0)).map
      (fun s => (s.relay.loop .client, s.relay.written .remote)) = some (.ended, []) := rfl
  obtain ⟨s, hrun, hs⟩ := Option.map_eq_some_iff.mp hfacts
  obtain ⟨hended, hwritten⟩ := Prod.ext_iff.mp hs
  intro h
  have hwhole := (h s ⟨_, _, rfl, hrun⟩).whole hended
  exact nomatch hwritten.symm.trans hwhole

end Eureka.Socks4a

import Eureka.Socks5.Tunnel

/-!
# The requests of a SOCKS5 client

What a stream of bytes asks for, said without the tunnel: `requestOf` is the part
behind the greeting, and `Asks` the target and the port of a CONNECT request at
its start.

* `Inv`: at every stage of the handshake, what the tunnel has read and written;
* `Inv.received`: a read that completes, stage by stage;
* `inv_of_reachable`: the invariant holds in every run, unless the address type is
  unknown and the request is complete.

The invariant does not say where the tunnel connects to.
-/

namespace Eureka.Socks5

open Endian Socks Transition

/-! ## What a stream asks for -/

/-- What comes behind a greeting. -/
def requestOf : Bytes → Option Bytes
  | ver :: numMethods :: rest =>
      if ver = kSocks5Ver ∧ numMethods ≠ 0 ∧ numMethods.toNat ≤ rest.length then
        some (rest.drop numMethods.toNat)
      else none
  | _ => none

/-- Where a request wants to go. -/
inductive Target
  | ipv4 (ip : Bytes)
  | domain (name : Bytes)
  | ipv6 (ip : Bytes)

def Target.WellFormed : Target → Prop
  | ipv4 ip => ip.length = 4
  | domain name => name.length < 256
  | ipv6 ip => ip.length = 16

/-- The target in a request, behind its address type. -/
def Target.encoding : Target → Bytes
  | ipv4 ip => kAddrIPv4 :: ip
  | domain name => kAddrDomain :: UInt8.ofNat name.length :: name
  | ipv6 ip => kAddrIPv6 :: ip

/-- The endpoints of a target; a name has those that the resolver knows. -/
def Target.endpoints (env : Environment) (port : ℕ) : Target → Option (List Endpoint)
  | ipv4 ip => some [.v4 (ofNetworkBytes ip) port]
  | domain name => env.resolve name (ascii (toString port))
  | ipv6 ip => some [.v6 ip port]

/-- The stream has a CONNECT request to the target, and then the rest. -/
def Asks (stream : Bytes) (target : Target) (port : ℕ) (rest : Bytes) : Prop :=
  target.WellFormed ∧ port < 65536 ∧ ∃ reserved,
    requestOf stream = some (kSocks5Ver :: kCmdConnect :: reserved ::
      (target.encoding ++ networkBytes 2 port ++ rest))

/-- The stream has the preamble of a request with another version, command or address type. -/
def Unsupported (stream : Bytes) : Prop :=
  ∃ ver cmd reserved addrType rest,
    requestOf stream = some (ver :: cmd :: reserved :: addrType :: rest) ∧
      (ver ≠ kSocks5Ver ∨ cmd ≠ kCmdConnect ∨
        (addrType ≠ kAddrIPv4 ∧ addrType ≠ kAddrDomain ∧ addrType ≠ kAddrIPv6))

/-- The stream has a CONNECT request of an unknown address type, with as many bytes behind it as an
IPv6 address and a port have. -/
def UnknownAddress (stream : Bytes) : Prop :=
  ∃ reserved addrType rest,
    requestOf stream = some (kSocks5Ver :: kCmdConnect :: reserved :: addrType :: rest) ∧
      addrType ≠ kAddrIPv4 ∧ addrType ≠ kAddrDomain ∧ addrType ≠ kAddrIPv6 ∧ 18 ≤ rest.length

theorem Asks.not_unsupported {stream rest : Bytes} {target : Target} {port : ℕ}
    (h : Asks stream target port rest) : ¬ Unsupported stream := by
  obtain ⟨-, -, reserved, hasks⟩ := h
  rintro ⟨ver, cmd, reserved', addrType, rest', hrequest, hbad⟩
  rw [hasks] at hrequest
  cases target with
  | _ =>
      simp only [Target.encoding, List.cons_append, Option.some.injEq, List.cons.injEq] at hrequest
      obtain ⟨rfl, rfl, -, rfl, -⟩ := hrequest
      simp at hbad

/-! ## The invariant -/

/-- The address of a packet, as it stood in the request. -/
def RequestPacket.address (packet : RequestPacket) : Bytes :=
  if packet.addrType = kAddrDomain then
    UInt8.ofNat packet.destAddr.length :: packet.destAddr
  else packet.destAddr

/-- The length of an address that was read. -/
def RequestPacket.Fits (packet : RequestPacket) : Prop :=
  if packet.addrType = kAddrDomain then packet.destAddr.length < 256
  else packet.destAddr.length = if packet.addrType = kAddrIPv4 then 4 else 16

section Invariant

variable (env : Environment) (localPort : ℕ) (streams : Side → Bytes)

/-- A request was read, and this is behind it. -/
def Asked (stream rest : Bytes) : Prop :=
  ∃ target port, Asks stream target port rest

/-- What was read of the client and written to it, at each stage. -/
def AtStage (relay : Relay) (failed : Bool) : Stage → Prop
  | .greetingPreamble => relay.unread .client = streams .client ∧ relay.written .client = []
  | .greetingMethods numMethods =>
      streams .client = kSocks5Ver :: numMethods :: relay.unread .client ∧ numMethods ≠ 0 ∧
        relay.written .client = []
  | .replyGreeting rest =>
      requestOf (streams .client) = some (relay.unread .client) ∧ rest ≠ [] ∧
        relay.written .client ++ rest = kReplyGreeting
  | .requestPreamble =>
      requestOf (streams .client) = some (relay.unread .client) ∧
        relay.written .client = kReplyGreeting
  | .addrLength packet =>
      requestOf (streams .client) = some (kSocks5Ver :: kCmdConnect :: packet.reserved ::
        kAddrDomain :: relay.unread .client) ∧ packet.addrType = kAddrDomain ∧
        relay.written .client = kReplyGreeting
  | .domain packet length =>
      requestOf (streams .client) = some (kSocks5Ver :: kCmdConnect :: packet.reserved ::
        kAddrDomain :: UInt8.ofNat length :: relay.unread .client) ∧ length < 256 ∧
        packet.addrType = kAddrDomain ∧ relay.written .client = kReplyGreeting
  | .addr packet bytes =>
      requestOf (streams .client) = some (kSocks5Ver :: kCmdConnect :: packet.reserved ::
        packet.addrType :: relay.unread .client) ∧ packet.addrType ≠ kAddrDomain ∧
        bytes = (if packet.addrType = kAddrIPv4 then 4 else 16) ∧
        relay.written .client = kReplyGreeting
  | .destPort packet =>
      requestOf (streams .client) = some (kSocks5Ver :: kCmdConnect :: packet.reserved ::
        packet.addrType :: (packet.address ++ relay.unread .client)) ∧ packet.Fits ∧
        relay.written .client = kReplyGreeting
  | .connecting _ _ =>
      Asked (streams .client) (relay.unread .client) ∧ relay.written .client = kReplyGreeting
  | .replyRequest rest =>
      Asked (streams .client) (relay.unread .client) ∧ rest ≠ [] ∧
        relay.written .client ++ rest = kReplyGreeting ++ requestReply env localPort
  | .tunneling =>
      ∃ payload, Asked (streams .client) payload ∧ relay.Carries (Relay.carriage payload
        (kReplyGreeting ++ requestReply env localPort) (streams .remote))
  | .rejecting rest =>
      rest ≠ [] ∧ ∃ reason, relay.written .client ++ rest = kReplyGreeting ++ rejectReply reason
  | .closed =>
      failed = true ∨ (∃ reason, relay.written .client = kReplyGreeting ++ rejectReply reason) ∨
        ¬ Unsupported (streams .client)

/-- What the client was told is a beginning of what it may be told. -/
def Said (relay : Relay) : Prop :=
  relay.written .client <+: kReplyGreeting ++ requestReply env localPort ++ streams .remote ∨
    ∃ reason, relay.written .client <+: kReplyGreeting ++ rejectReply reason

structure Inv (s : Tunnel) : Prop where
  stage : AtStage env localPort streams s.relay s.failed s.stage
  said : Said env localPort streams s.relay
  quiet : s.stage ≠ .tunneling → s.relay.Quiet (streams .remote)

end Invariant

variable {env : Environment} {localPort : ℕ}
  {streams : Side → Bytes} {s s' : Tunnel} {stream : Bytes}

/-! ## The reads -/

theorem consume_unread (count : ℕ) :
    (s.consume count).relay.unread .client = (s.relay.unread .client).drop count :=
  s.relay.unread_consume count

theorem Inv.goto (h : Inv env localPort streams s) (hquiet : s.stage ≠ .tunneling) {stage : Stage}
    {count : ℕ} (hstage : AtStage env localPort streams (s.consume count).relay s.failed stage) :
    Inv env localPort streams ((s.consume count).goto stage) where
  stage := hstage
  said := h.said
  quiet _ := (h.quiet hquiet).consume count

theorem not_unsupported_of_none (h : requestOf stream = none) : ¬ Unsupported stream := by
  rintro ⟨ver, cmd, reserved, addrType, rest, hrequest, -⟩
  rw [h] at hrequest
  exact nomatch hrequest

theorem Inv.read_greetingPreamble (h : Inv env localPort streams s)
    (hs : s.stage = .greetingPreamble) {ver numMethods : Byte} {rest : Bytes}
    (hunread : s.relay.unread .client = ver :: numMethods :: rest) :
    Inv env localPort streams ((s.consume 2).onGreetingPreamble ver numMethods) := by
  have hstage := h.stage
  rw [hs] at hstage
  obtain ⟨hall, hwritten⟩ := hstage
  have hrest : (s.consume 2).relay.unread .client = rest := by rw [consume_unread, hunread]; rfl
  rw [Tunnel.onGreetingPreamble]
  split
  · next hbad =>
      refine h.goto (by simp [hs]) (.inr (.inr (not_unsupported_of_none ?_)))
      rw [← hall, hunread, requestOf, if_neg]
      rcases hbad with hver | hzero
      · exact fun hgood => hver hgood.1
      · exact fun hgood => hgood.2.1 hzero
  · next hgood =>
      obtain ⟨hver, hnonzero⟩ := not_or.mp hgood
      refine h.goto (by simp [hs]) ⟨?_, hnonzero, hwritten⟩
      rw [hrest, ← hall, hunread, not_not.mp hver]

theorem Inv.read_greetingMethods (h : Inv env localPort streams s) {numMethods : Byte}
    (hs : s.stage = .greetingMethods numMethods)
    (hlen : numMethods.toNat ≤ (s.relay.unread .client).length) :
    Inv env localPort streams
      ((s.consume numMethods.toNat).goto (.replyGreeting kReplyGreeting)) := by
  have hstage := h.stage
  rw [hs] at hstage
  obtain ⟨hall, hnonzero, hwritten⟩ := hstage
  refine h.goto (by simp [hs]) ⟨?_, by simp [kReplyGreeting], ?_⟩
  · rw [consume_unread, hall, requestOf, if_pos ⟨rfl, hnonzero, hlen⟩]
  · rw [show (s.consume numMethods.toNat).relay.written .client = [] from hwritten]
    rfl

theorem Inv.reject (h : Inv env localPort streams s) (hquiet : s.stage ≠ .tunneling)
    (hwritten : s.relay.written .client = kReplyGreeting) (count : ℕ) (reason : RejectReason) :
    Inv env localPort streams ((s.consume count).rejectClient reason) :=
  h.goto hquiet ⟨by simp [rejectReply], reason, by
    rw [show (s.consume count).relay.written .client = kReplyGreeting from hwritten]⟩

theorem Inv.read_requestPreamble (h : Inv env localPort streams s)
    (hs : s.stage = .requestPreamble) {ver cmd reserved addrType : Byte} {rest : Bytes}
    (hunread : s.relay.unread .client = ver :: cmd :: reserved :: addrType :: rest) :
    Inv env localPort streams
      ((s.consume 4).onRequestPreamble ⟨ver, cmd, reserved, addrType, [], 0⟩) := by
  have hstage := h.stage
  rw [hs] at hstage
  obtain ⟨hrequest, hwritten⟩ := hstage
  have hquiet : s.stage ≠ .tunneling := by simp [hs]
  have hrest : (s.consume 4).relay.unread .client = rest := by rw [consume_unread, hunread]; rfl
  rw [hunread] at hrequest
  rw [Tunnel.onRequestPreamble]
  split
  · exact h.reject hquiet hwritten 4 _
  · next hver =>
      split
      · exact h.reject hquiet hwritten 4 _
      · next hcmd =>
          obtain rfl := not_not.mp hver
          obtain rfl := not_not.mp hcmd
          split
          · next hdomain =>
              refine h.goto hquiet ⟨?_, hdomain, hwritten⟩
              rw [hrest, hrequest, show addrType = kAddrDomain from hdomain]
          · next hdomain =>
              refine h.goto hquiet ⟨?_, hdomain, rfl, hwritten⟩
              rw [hrest, hrequest]

theorem Inv.read_addrLength (h : Inv env localPort streams s) {packet : RequestPacket}
    (hs : s.stage = .addrLength packet) {length : Byte} {rest : Bytes}
    (hunread : s.relay.unread .client = length :: rest) :
    Inv env localPort streams ((s.consume 1).goto (.domain packet length.toNat)) := by
  have hstage := h.stage
  rw [hs] at hstage
  obtain ⟨hrequest, hdomain, hwritten⟩ := hstage
  refine h.goto (by simp [hs]) ⟨?_, length.toNat_lt, hdomain, hwritten⟩
  rw [consume_unread, hrequest, hunread, UInt8.ofNat_toNat, List.drop_one, List.tail_cons]

theorem Inv.read_domain (h : Inv env localPort streams s) {packet : RequestPacket} {length : ℕ}
    (hs : s.stage = .domain packet length) (hlen : length ≤ (s.relay.unread .client).length) :
    Inv env localPort streams ((s.consume length).goto (.destPort { packet with
      destAddr := (s.relay.unread .client).take length })) := by
  have hstage := h.stage
  rw [hs] at hstage
  obtain ⟨hrequest, hlt, hdomain, hwritten⟩ := hstage
  have hname : ((s.relay.unread .client).take length).length = length := List.length_take_of_le hlen
  refine h.goto (by simp [hs]) ⟨?_, ?_, hwritten⟩
  · rw [hrequest, RequestPacket.address, if_pos hdomain, hname, hdomain, consume_unread,
      List.cons_append, List.take_append_drop]
  · rw [RequestPacket.Fits, if_pos hdomain, hname]
    exact hlt

theorem Inv.read_addr (h : Inv env localPort streams s) {packet : RequestPacket} {bytes : ℕ}
    (hs : s.stage = .addr packet bytes) (hlen : bytes ≤ (s.relay.unread .client).length) :
    Inv env localPort streams ((s.consume bytes).goto (.destPort { packet with
      destAddr := (s.relay.unread .client).take bytes })) := by
  have hstage := h.stage
  rw [hs] at hstage
  obtain ⟨hrequest, hdomain, hbytes, hwritten⟩ := hstage
  have hip : ((s.relay.unread .client).take bytes).length = bytes := List.length_take_of_le hlen
  refine h.goto (by simp [hs]) ⟨?_, ?_, hwritten⟩
  · rw [hrequest, RequestPacket.address, if_neg hdomain, consume_unread, List.take_append_drop]
  · rw [RequestPacket.Fits, if_neg hdomain, hip]
    exact hbytes

/-! ## The connect -/

/-- A tunnel that has read its request connects, whatever it makes of it. -/
theorem inv_connetRemote (hquiet : s.relay.Quiet (streams .remote))
    (hwritten : s.relay.written .client = kReplyGreeting)
    (hasked : Asked (streams .client) (s.relay.unread .client)) (packet : RequestPacket) :
    Inv env localPort streams (s.connetRemote env packet) := by
  have hsaid : Said env localPort streams s.relay := by
    rw [Said, hwritten, List.append_assoc]
    exact .inl (List.prefix_append _ _)
  have hdial : ∀ (t : Tunnel) (endpoints : List Endpoint), t.relay = s.relay →
      Inv env localPort streams (t.dial endpoints) := by
    intro t endpoints hrelay
    have hrelay' : (t.dial endpoints).relay = s.relay := hrelay
    refine ⟨⟨?_, ?_⟩, ?_, fun _ => ?_⟩
    · rw [hrelay']
      exact hasked
    · rw [hrelay']
      exact hwritten
    · rw [hrelay']
      exact hsaid
    · rw [hrelay']
      exact hquiet
  rw [Tunnel.connetRemote]
  split
  · exact hdial s _ rfl
  · split
    · exact hdial s _ rfl
    · dsimp only
      split
      · exact ⟨⟨by simp [rejectReply], .hostUnreachable, congrArg (· ++ _) hwritten⟩, hsaid,
          fun _ => hquiet⟩
      · exact hdial _ _ rfl

theorem asks_of_address {packet : RequestPacket} {b0 b1 : Byte} {rest : Bytes} {target : Target}
    (hrequest : requestOf stream = some (kSocks5Ver :: kCmdConnect :: packet.reserved ::
      packet.addrType :: (packet.address ++ b0 :: b1 :: rest)))
    (htarget : target.encoding = packet.addrType :: packet.address) (hfits : target.WellFormed) :
    Asks stream target (ofNetworkBytes [b0, b1]) rest := by
  refine ⟨hfits, (ofNetworkBytes_lt [b0, b1]).trans_eq (by norm_num), packet.reserved, ?_⟩
  rw [show networkBytes 2 (ofNetworkBytes [b0, b1]) = [b0, b1] from
    networkBytes_ofNetworkBytes [b0, b1], hrequest, htarget]
  simp

theorem exists_target {packet : RequestPacket} {b0 b1 : Byte} {rest : Bytes}
    (hknown : ¬ UnknownAddress stream) (hfits : packet.Fits)
    (hrequest : requestOf stream = some (kSocks5Ver :: kCmdConnect :: packet.reserved ::
      packet.addrType :: (packet.address ++ b0 :: b1 :: rest))) :
    ∃ target : Target, target.WellFormed ∧
      target.encoding = packet.addrType :: packet.address := by
  by_cases hdomain : packet.addrType = kAddrDomain
  · rw [RequestPacket.Fits, if_pos hdomain] at hfits
    refine ⟨.domain packet.destAddr, hfits, ?_⟩
    rw [RequestPacket.address, if_pos hdomain, hdomain, Target.encoding]
  · rw [RequestPacket.Fits, if_neg hdomain] at hfits
    have haddress : packet.address = packet.destAddr := if_neg hdomain
    by_cases hipv4 : packet.addrType = kAddrIPv4
    · rw [if_pos hipv4] at hfits
      exact ⟨.ipv4 packet.destAddr, hfits, by rw [haddress, hipv4, Target.encoding]⟩
    · rw [if_neg hipv4] at hfits
      by_cases hipv6 : packet.addrType = kAddrIPv6
      · exact ⟨.ipv6 packet.destAddr, hfits, by rw [haddress, hipv6, Target.encoding]⟩
      · refine absurd ⟨_, _, _, hrequest, hipv4, hdomain, hipv6, ?_⟩ hknown
        rw [haddress, List.length_append, hfits, List.length_cons, List.length_cons]
        omega

/-- The request that a tunnel has read, once it has read the port. -/
theorem Inv.asks (h : Inv env localPort streams s) (hknown : ¬ UnknownAddress (streams .client))
    {packet : RequestPacket} (hs : s.stage = .destPort packet) {b0 b1 : Byte} {rest : Bytes}
    (hunread : s.relay.unread .client = b0 :: b1 :: rest) :
    ∃ target : Target, target.encoding = packet.addrType :: packet.address ∧
      Asks (streams .client) target (ofNetworkBytes [b0, b1]) rest := by
  have hstage := h.stage
  rw [hs] at hstage
  obtain ⟨hrequest, hfits, -⟩ := hstage
  rw [hunread] at hrequest
  obtain ⟨target, hwell, htarget⟩ := exists_target hknown hfits hrequest
  exact ⟨target, htarget, asks_of_address hrequest htarget hwell⟩

theorem Inv.read_destPort (h : Inv env localPort streams s)
    (hknown : ¬ UnknownAddress (streams .client)) {packet : RequestPacket}
    (hs : s.stage = .destPort packet) {b0 b1 : Byte} {rest : Bytes}
    (hunread : s.relay.unread .client = b0 :: b1 :: rest) :
    Inv env localPort streams ((s.consume 2).connetRemote env { packet with
      destPort := env.swapped [b0, b1] }) := by
  have hstage := h.stage
  rw [hs] at hstage
  obtain ⟨target, -, hasks⟩ := h.asks hknown hs hunread
  have hrest : (s.consume 2).relay.unread .client = rest := by rw [consume_unread, hunread]; rfl
  have hquiet : (s.consume 2).relay.Quiet (streams .remote) :=
    (h.quiet (by simp [hs])).consume 2
  refine inv_connetRemote hquiet hstage.2.2 ?_ _
  rw [hrest]
  exact ⟨target, _, hasks⟩

/-! ## The steps -/

theorem Inv.received (h : Inv env localPort streams s)
    (hknown : ¬ UnknownAddress (streams .client)) {count : ℕ}
    (hneeded : s.stage.needed = some count) (hlen : count ≤ (s.relay.unread .client).length) :
    Inv env localPort streams
      ((s.consume count).received env ((s.relay.unread .client).take count)) := by
  have hstage : (s.consume count).stage = s.stage := rfl
  cases hs : s.stage with
  | greetingPreamble =>
      obtain rfl : 2 = count := by simpa [hs, Stage.needed] using hneeded
      rcases hu : s.relay.unread .client with _ | ⟨ver, _ | ⟨numMethods, rest⟩⟩
      · simp [hu] at hlen
      · simp [hu] at hlen
      · simpa [Tunnel.received, hstage, hs] using h.read_greetingPreamble hs hu
  | greetingMethods numMethods =>
      obtain rfl : numMethods.toNat = count := by simpa [hs, Stage.needed] using hneeded
      simpa [Tunnel.received, hstage, hs] using h.read_greetingMethods hs hlen
  | requestPreamble =>
      obtain rfl : 4 = count := by simpa [hs, Stage.needed] using hneeded
      rcases hu : s.relay.unread .client with _ | ⟨ver, _ | ⟨cmd, _ | ⟨reserved, _ | ⟨addrType, rest⟩⟩⟩⟩
      · simp [hu] at hlen
      · simp [hu] at hlen
      · simp [hu] at hlen
      · simp [hu] at hlen
      · simpa [Tunnel.received, hstage, hs] using h.read_requestPreamble hs hu
  | addrLength packet =>
      obtain rfl : 1 = count := by simpa [hs, Stage.needed] using hneeded
      rcases hu : s.relay.unread .client with _ | ⟨length, rest⟩
      · simp [hu] at hlen
      · simpa [Tunnel.received, hstage, hs] using h.read_addrLength hs hu
  | domain packet length =>
      obtain rfl : length = count := by simpa [hs, Stage.needed] using hneeded
      simpa [Tunnel.received, hstage, hs] using h.read_domain hs hlen
  | addr packet bytes =>
      obtain rfl : bytes = count := by simpa [hs, Stage.needed] using hneeded
      simpa [Tunnel.received, hstage, hs] using h.read_addr hs hlen
  | destPort packet =>
      obtain rfl : 2 = count := by simpa [hs, Stage.needed] using hneeded
      rcases hu : s.relay.unread .client with _ | ⟨b0, _ | ⟨b1, rest⟩⟩
      · simp [hu] at hlen
      · simp [hu] at hlen
      · simpa [Tunnel.received, hstage, hs] using h.read_destPort hknown hs hu
  | _ => simp [hs, Stage.needed] at hneeded

theorem Inv.move (h : Inv env localPort streams s) (hquiet : s.stage ≠ .tunneling) {stage : Stage}
    (hstage : AtStage env localPort streams s.relay s.failed stage) :
    Inv env localPort streams (s.goto stage) where
  stage := hstage
  said := h.said
  quiet _ := h.quiet hquiet

/-- Whatever endpoint is read, the next attempt or the refusal leaves the sockets as they were. -/
theorem Inv.redial (h : Inv env localPort streams s) {endpoint : Option Endpoint} {left : ℕ}
    (hs : s.stage = .connecting endpoint left) (stale : Endpoint) :
    Inv env localPort streams (s.redial stale left) := by
  have hstage := h.stage
  rw [hs] at hstage
  cases left with
  | zero => exact h.move (by simp [hs]) ⟨by simp [rejectReply], .hostUnreachable, by rw [hstage.2]⟩
  | succ left =>
      have hlogged : Inv env localPort streams { s with dialed := s.dialed ++ [stale] } :=
        ⟨h.stage, h.said, h.quiet⟩
      exact hlogged.move (by simp [hs]) hstage

theorem Inv.fail (h : Inv env localPort streams s) :
    Inv env localPort streams { s with failed := true } where
  stage := by
    have hstage := h.stage
    cases hs : s.stage with
    | closed => exact .inl rfl
    | _ =>
        rw [hs] at hstage
        exact hstage
  said := h.said
  quiet := h.quiet

/-- A read that fails, by an error or because the stream is too short. -/
theorem Inv.readFailed (h : Inv env localPort streams s) {count : ℕ}
    (hneeded : s.stage.needed = some count)
    (hwhy : s.failed = true ∨ (s.relay.unread .client).length < count) :
    Inv env localPort streams s.readFailed := by
  have hstage := h.stage
  have hclose : s.stage ≠ .tunneling → ((s.relay.unread .client).length < count →
      ¬ Unsupported (streams .client)) → Inv env localPort streams s.shutdownClient :=
    fun hquiet hshort => h.move hquiet (hwhy.imp_right fun hlt => .inr (hshort hlt))
  have hreject : s.stage ≠ .tunneling → s.relay.written .client = kReplyGreeting →
      Inv env localPort streams (s.rejectClient .generalFailure) :=
    fun hquiet hwritten => h.move hquiet ⟨by simp [rejectReply], .generalFailure, by rw [hwritten]⟩
  cases hs : s.stage with
  | greetingPreamble =>
      rw [hs] at hstage hneeded
      obtain rfl : 2 = count := Option.some.inj hneeded
      rw [Tunnel.readFailed, hs]
      refine hclose (by simp [hs]) fun hlt => not_unsupported_of_none ?_
      rw [hstage.1] at hlt
      rcases hall : streams .client with _ | ⟨a, _ | ⟨b, rest⟩⟩
      · rfl
      · rfl
      · rw [hall, List.length_cons, List.length_cons] at hlt
        omega
  | greetingMethods numMethods =>
      rw [hs] at hstage hneeded
      obtain rfl : numMethods.toNat = count := Option.some.inj hneeded
      rw [Tunnel.readFailed, hs]
      refine hclose (by simp [hs]) fun hlt => not_unsupported_of_none ?_
      rw [hstage.1, requestOf, if_neg]
      exact fun hgood => absurd hgood.2.2 (not_le.mpr hlt)
  | requestPreamble =>
      rw [hs] at hstage hneeded
      obtain rfl : 4 = count := Option.some.inj hneeded
      rw [Tunnel.readFailed, hs]
      refine hclose (by simp [hs]) fun hlt => ?_
      rintro ⟨ver, cmd, reserved, addrType, rest, hrequest, -⟩
      rw [hstage.1] at hrequest
      rw [Option.some.inj hrequest] at hlt
      simp only [List.length_cons] at hlt
      omega
  | addrLength packet =>
      rw [hs] at hstage
      rw [Tunnel.readFailed, hs]
      exact hreject (by simp [hs]) hstage.2.2
  | domain packet length =>
      rw [hs] at hstage
      rw [Tunnel.readFailed, hs]
      exact hreject (by simp [hs]) hstage.2.2.2
  | addr packet bytes =>
      rw [hs] at hstage
      rw [Tunnel.readFailed, hs]
      exact hreject (by simp [hs]) hstage.2.2.2
  | destPort packet =>
      rw [hs] at hstage
      rw [Tunnel.readFailed, hs]
      exact hreject (by simp [hs]) hstage.2.2
  | _ => simp [hs, Stage.needed] at hneeded

/-! ## The writes -/

theorem Inv.output (h : Inv env localPort streams s) (hquiet : s.stage ≠ .tunneling)
    {bytes : Bytes} {stage : Stage}
    (hstage : AtStage env localPort streams (s.output bytes).relay s.failed stage)
    (hsaid : Said env localPort streams (s.output bytes).relay) :
    Inv env localPort streams ((s.output bytes).goto stage) where
  stage := hstage
  said := hsaid
  quiet _ := (h.quiet hquiet).output bytes

theorem output_said {rest : Bytes} {count : ℕ}
    (hsaid : s.relay.written .client ++ rest <+:
        kReplyGreeting ++ requestReply env localPort ++ streams .remote ∨
      ∃ reason, s.relay.written .client ++ rest <+: kReplyGreeting ++ rejectReply reason) :
    Said env localPort streams (s.output (rest.take count)).relay := by
  have hwritten : (s.output (rest.take count)).relay.written .client <+:
      s.relay.written .client ++ rest := ⟨rest.drop count, Relay.output_append_drop rfl count⟩
  exact hsaid.imp hwritten.trans fun ⟨reason, hreason⟩ => ⟨reason, hwritten.trans hreason⟩

theorem Inv.wrote_replyGreeting (h : Inv env localPort streams s) {rest : Bytes} {count : ℕ}
    (hs : s.stage = .replyGreeting rest)
    (hstep : s.wrote rest count .replyGreeting (·.goto .requestPreamble) = some s') :
    Inv env localPort streams s' := by
  have hstage := h.stage
  rw [hs] at hstage
  obtain ⟨hrequest, -, hwritten⟩ := hstage
  have hsaid : Said env localPort streams (s.output (rest.take count)).relay := output_said (.inl (by
    rw [hwritten, List.append_assoc]
    exact List.prefix_append _ _))
  rcases Tunnel.wrote_cases hstep with ⟨hdone, rfl⟩ | ⟨hmore, -, rfl⟩
  · exact h.output (by simp [hs]) ⟨hrequest, Relay.output_of_drop_eq_nil hwritten hdone⟩ hsaid
  · exact h.output (by simp [hs]) ⟨hrequest, hmore, Relay.output_append_drop hwritten count⟩ hsaid

theorem Inv.wrote_rejecting (h : Inv env localPort streams s) {rest : Bytes} {count : ℕ}
    (hs : s.stage = .rejecting rest)
    (hstep : s.wrote rest count .rejecting (·.goto .closed) = some s') :
    Inv env localPort streams s' := by
  have hstage := h.stage
  rw [hs] at hstage
  obtain ⟨-, reason, hwritten⟩ := hstage
  have hsaid : Said env localPort streams (s.output (rest.take count)).relay :=
    output_said (.inr ⟨reason, hwritten ▸ List.prefix_rfl⟩)
  rcases Tunnel.wrote_cases hstep with ⟨hdone, rfl⟩ | ⟨hmore, -, rfl⟩
  · refine h.output (by simp [hs]) (.inr (.inl ⟨reason, ?_⟩)) hsaid
    exact Relay.output_of_drop_eq_nil hwritten hdone
  · exact h.output (by simp [hs]) ⟨hmore, reason, Relay.output_append_drop hwritten count⟩ hsaid

theorem Inv.wrote_replyRequest (h : Inv env localPort streams s) {rest : Bytes} {count : ℕ}
    (hs : s.stage = .replyRequest rest)
    (hstep : s.wrote rest count .replyRequest Tunnel.startTunneling = some s') :
    Inv env localPort streams s' := by
  have hstage := h.stage
  rw [hs] at hstage
  obtain ⟨hasked, -, hwritten⟩ := hstage
  have hsaid : Said env localPort streams (s.output (rest.take count)).relay :=
    output_said (.inl (hwritten ▸ List.prefix_append _ _))
  rcases Tunnel.wrote_cases hstep with ⟨hdone, rfl⟩ | ⟨hmore, -, rfl⟩
  · -- the relay starts behind the reply, with the payload unread
    have hcarries := ((h.quiet (by simp [hs])).output (rest.take count)).carries
    rw [Relay.output_of_drop_eq_nil hwritten hdone] at hcarries
    exact ⟨⟨_, hasked, hcarries⟩, hsaid, fun hnot => absurd rfl hnot⟩
  · exact h.output (by simp [hs]) ⟨hasked, hmore, Relay.output_append_drop hwritten count⟩ hsaid

/-! ## The runs -/

theorem Inv.relayed (h : Inv env localPort streams s) (hs : s.stage = .tunneling) {side : Side}
    {completion : Completion} {relay : Relay} (hstep : s.relay.forward side completion = some relay) :
    Inv env localPort streams { s with relay := relay } := by
  have hstage := h.stage
  rw [hs] at hstage
  obtain ⟨payload, hasked, hcarries⟩ := hstage
  have hcarries' := hcarries.forward hstep
  refine ⟨?_, .inl (hcarries'.written_isPrefix .remote), fun hnot => absurd hs hnot⟩
  dsimp only
  rw [hs]
  exact ⟨payload, hasked, hcarries'⟩

theorem Inv.step (h : Inv env localPort streams s) (hknown : ¬ UnknownAddress (streams .client))
    {action : Action} (hstep : step env localPort s action = some s') :
    Inv env localPort streams s' := by
  have hstage := h.stage
  cases moves_of_step hstep with
  | read hneeded hlen => exact h.received hknown hneeded hlen
  | eof hneeded hlt => exact h.readFailed hneeded (.inr hlt)
  | readFails hneeded => exact h.fail.readFailed hneeded (.inl rfl)
  | greeted hs hwrote => exact h.wrote_replyGreeting hs hwrote
  | granted hs hwrote => exact h.wrote_replyRequest hs hwrote
  | rejected hs hwrote => exact h.wrote_rejecting hs hwrote
  | writeFails hs =>
      have hquiet : s.stage ≠ .tunneling := by rcases hs with hs | hs | hs <;> simp [hs]
      exact h.fail.move hquiet (.inl rfl)
  | connected stale hs =>
      rw [hs] at hstage
      have hread : Inv env localPort streams { s with remoteAddr := some stale } :=
        ⟨h.stage, h.said, h.quiet⟩
      exact hread.move (by simp [hs]) ⟨hstage.1, by simp [requestReply], by rw [hstage.2]⟩
  | refused stale hs =>
      rw [hs] at hstage
      exact h.redial hs stale
  | relayed hs hrelay => exact h.relayed hs hrelay

theorem inv_initial : Inv env localPort streams (initial streams) where
  stage := ⟨rfl, rfl⟩
  said := .inl (List.nil_prefix)
  quiet _ := ⟨fun _ => rfl, fun _ => rfl, rfl, rfl⟩

theorem inv_of_reachable (hknown : ¬ UnknownAddress (streams .client))
    (hreach : (tunnel env localPort streams).Reachable s) : Inv env localPort streams s :=
  hreach.invariant (P := Inv env localPort streams)
    (fun s (hstart : s = initial streams) => hstart ▸ inv_initial)
    (fun _ _ _ h hstep => h.step hknown hstep)

end Eureka.Socks5

/-!
## The relay of the SOCKS5 tunnel

All reads of the handshake are exact, so that the relay starts right behind the
request, also if the client sends its payload together with it.  From then on the
two loops carry what the sides send.

* `Asks.unique`: where the payload begins is a matter of the stream;
* `relays_faithfully`: what was written to the two sides, in every reachable state.
-/

namespace Eureka.Socks5

open Endian Socks Transition

variable {env : Environment} {localPort : ℕ}
  {streams : Side → Bytes} {s : Tunnel} {stream rest rest' payload : Bytes}
  {target target' : Target} {port port' : ℕ}

theorem Target.encoding_inj_of_append (htarget : target.WellFormed) (htarget' : target'.WellFormed)
    (heq : target.encoding ++ rest = target'.encoding ++ rest') : target = target' ∧ rest = rest' := by
  cases target with
  | ipv4 ip =>
      cases target' with
      | ipv4 ip' =>
          obtain ⟨rfl, hrest⟩ := List.append_inj (List.cons.inj heq).2
            (htarget.trans (Eq.symm htarget'))
          exact ⟨rfl, hrest⟩
      | domain name => exact absurd (List.cons.inj heq).1 (by decide)
      | ipv6 ip' => exact absurd (List.cons.inj heq).1 (by decide)
  | domain name =>
      cases target' with
      | ipv4 ip' => exact absurd (List.cons.inj heq).1 (by decide)
      | domain name' =>
          obtain ⟨hlength, hrest⟩ := List.cons.inj (List.cons.inj heq).2
          have hlength' : name.length = name'.length := by
            have hmod := congrArg UInt8.toNat hlength
            simp only [UInt8.toNat_ofNat'] at hmod
            rwa [Nat.mod_eq_of_lt htarget, Nat.mod_eq_of_lt htarget'] at hmod
          obtain ⟨rfl, hrest'⟩ := List.append_inj hrest hlength'
          exact ⟨rfl, hrest'⟩
      | ipv6 ip' => exact absurd (List.cons.inj heq).1 (by decide)
  | ipv6 ip =>
      cases target' with
      | ipv4 ip' => exact absurd (List.cons.inj heq).1 (by decide)
      | domain name => exact absurd (List.cons.inj heq).1 (by decide)
      | ipv6 ip' =>
          obtain ⟨rfl, hrest⟩ := List.append_inj (List.cons.inj heq).2
            (htarget.trans (Eq.symm htarget'))
          exact ⟨rfl, hrest⟩

/-- A stream has one request, and one payload behind it. -/
theorem Asks.unique (h : Asks stream target port rest) (h' : Asks stream target' port' rest') :
    target = target' ∧ port = port' ∧ rest = rest' := by
  obtain ⟨hwell, hlt, reserved, hrequest⟩ := h
  obtain ⟨hwell', hlt', reserved', hrequest'⟩ := h'
  have heq := Option.some.inj (hrequest.symm.trans hrequest')
  simp only [List.cons.injEq, true_and, List.append_assoc] at heq
  obtain ⟨htarget, hbehind⟩ := Target.encoding_inj_of_append hwell hwell' heq.2
  obtain ⟨hport, hrest⟩ := List.append_inj hbehind (by simp)
  have hnumber : port % 256 ^ 2 = port' % 256 ^ 2 := by
    rw [← ofNetworkBytes_networkBytes, hport, ofNetworkBytes_networkBytes]
  exact ⟨htarget, by omega, hrest⟩

theorem Asks.not_unknownAddress (h : Asks stream target port rest) : ¬ UnknownAddress stream := by
  rintro ⟨reserved, addrType, tail, hrequest, hipv4, hdomain, hipv6, -⟩
  exact h.not_unsupported ⟨_, _, _, _, _, hrequest, .inr (.inr ⟨hipv4, hdomain, hipv6⟩)⟩

/-- What was relayed, of the payload of the client and of the stream of the remote side. -/
structure Faithful (env : Environment) (localPort : ℕ) (payload remote : Bytes) (relay : Relay) :
    Prop where
  toRemote : relay.written .remote <+: payload
  /-- The client gets the replies of the handshake, and then the remote stream or nothing. -/
  toClient : relay.written .client <+: kReplyGreeting ++ requestReply env localPort ++ remote ∨
    ∃ reason, relay.written .client <+: kReplyGreeting ++ rejectReply reason
  /-- A socket is shut down for an end of stream when everything before the end was written. -/
  remoteShutdown : relay.shutdown .remote = true → relay.written .remote = payload
  clientShutdown : relay.shutdown .client = true →
    relay.written .client = kReplyGreeting ++ requestReply env localPort ++ remote

theorem quiet_faithful (h : s.relay.Quiet (streams .remote))
    (hsaid : Said env localPort streams s.relay) :
    Faithful env localPort payload (streams .remote) s.relay where
  toRemote := h.written ▸ List.nil_prefix
  toClient := hsaid
  remoteShutdown hdown := by
    rw [h.shutdown] at hdown
    exact nomatch hdown
  clientShutdown hdown := by
    rw [h.shutdown] at hdown
    exact nomatch hdown

theorem carries_faithful (h : s.relay.Carries (Relay.carriage payload
    (kReplyGreeting ++ requestReply env localPort) (streams .remote))) :
    Faithful env localPort payload (streams .remote) s.relay where
  toRemote := h.written_isPrefix .client
  toClient := .inl (h.written_isPrefix .remote)
  remoteShutdown hdown := h.written_of_ended (h.shutdown .client hdown)
  clientShutdown hdown := h.written_of_ended (h.shutdown .remote hdown)

/-- **The tunnel relays both directions faithfully**, for any request that it grants or refuses, any
streams of both sides and any run. -/
theorem relays_faithfully (hasks : Asks (streams .client) target port payload)
    (hreach : (tunnel env localPort streams).Reachable s) :
    Faithful env localPort payload (streams .remote) s.relay := by
  have h := inv_of_reachable hasks.not_unknownAddress hreach
  by_cases hs : s.stage = .tunneling
  · have hstage := h.stage
    rw [hs] at hstage
    obtain ⟨payload', ⟨target', port', hasks'⟩, hcarries⟩ := hstage
    rw [(hasks.unique hasks').2.2]
    exact carries_faithful hcarries
  · exact quiet_faithful (h.quiet hs) h.said

/-- A little-endian host on which no name is known. -/
def noNames : Environment where
  order := .little
  byteswap := byteSwap
  resolve _ _ := none

/-- A request to 127.0.0.1:80 that is sent together with three bytes of payload, and two bytes from
the remote side. -/
def pipelined : Side → Bytes
  | .client => [5, 1, 0] ++ [5, 1, 0, 1, 127, 0, 0, 1, 0, 80] ++ [71, 69, 84]
  | .remote => [79, 75]

/-- The remote side is faster, and its bytes are written one by one. -/
def pipelinedRun : List Action :=
  [.read, .read, .wrote 2, .read, .read, .read, .connected (.v4 2130706433 80), .wrote 10,
    .relay .remote (.read 2), .relay .client (.read 3), .relay .remote (.wrote 1),
    .relay .client (.wrote 3), .relay .client .eof, .relay .remote (.wrote 1), .relay .remote .eof]

theorem relays_faithfully_pipelined :
    ∃ s, (tunnel noNames 1080 pipelined).run (initial pipelined) pipelinedRun = some s ∧
      s.relay.written .remote = [71, 69, 84] ∧ s.relay.shutdown .remote = true ∧
      Faithful noNames 1080 [71, 69, 84] [79, 75] s.relay := by
  have hfacts : ((tunnel noNames 1080 pipelined).run (initial pipelined)
      pipelinedRun).map (fun s => (s.relay.written .remote, s.relay.shutdown .remote)) =
      some ([71, 69, 84], true) := rfl
  obtain ⟨s, hrun, hs⟩ := Option.map_eq_some_iff.mp hfacts
  obtain ⟨hwritten, hshutdown⟩ := Prod.ext_iff.mp hs
  have hasks : Asks (pipelined .client) (.ipv4 [127, 0, 0, 1]) 80 [71, 69, 84] :=
    ⟨rfl, by decide, 0, rfl⟩
  exact ⟨s, hrun, hwritten, hshutdown,
    relays_faithfully hasks ⟨initial pipelined, pipelinedRun, rfl, hrun⟩⟩

end Eureka.Socks5

import Eureka.Socks5.Requests

/-!
# The requests are honoured

The tunnel connects to what the client has asked for and to nothing else, and it
refuses a client that asks for something else.  Three things stand against it.

* **Unknown address types.**  The tunnel takes them for the one of a name, so that
  such a request is looked up.
* **Names with several endpoints.**  When the first attempt fails, the endpoint of the
  next one is read from a vector that is gone.
* **The other byte order.**  Addresses and ports are swapped on every host.

Without them the promise holds (`requests_honoured_iff`).

* `step_cases`: the two steps that attempt a connection;
* `Inv.exists_step`: a handshake always can go on, and it ends (`handshake_ends`);
* `Inv.answered`: where it ends for a client that is refused;
* `comes_destPort`: every request is read to its end in some run.
-/

namespace Eureka.Socks5

open Endian Socks Transition

variable {env : Environment} {localPort : ℕ} {streams : Side → Bytes} {s s' : Tunnel}
  {stream rest : Bytes} {target : Target} {port : ℕ}

/-- An operation that completes without an error. -/
def Action.Succeeds : Action → Prop
  | fail => False
  | relay _ .fail => False
  | _ => True

section Promise

variable (env : Environment)

/-- Every attempt and every lookup is for a request that was read. -/
structure Exact (stream : Bytes) (s : Tunnel) : Prop where
  /-- A connection is attempted to an endpoint of the target of the request. -/
  dialed : ∀ endpoint ∈ s.dialed, ∃ target port rest endpoints, Asks stream target port rest ∧
    target.endpoints env port = some endpoints ∧ endpoint ∈ endpoints ∧
    s.relay.unread .client <:+ rest
  /-- A name is looked up that the request has, with its port. -/
  resolved : ∀ query ∈ s.resolved, ∃ name port rest, Asks stream (.domain name) port rest ∧
    query = (name, ascii (toString port)) ∧ s.relay.unread .client <:+ rest

/-- What is promised of a tunnel whose client sends this stream. -/
structure Honoured (localPort : ℕ) (stream : Bytes) (s : Tunnel) : Prop
    extends Exact env stream s where
  refused : Unsupported stream → s.dialed = [] ∧ s.resolved = []
  /-- A client that is refused is answered, as far as its socket goes. -/
  answered : Unsupported stream →
    (∀ action : Action, action.Succeeds → step env localPort s action = none) →
    s.failed = false →
    ∃ reason, s.relay.written .client = kReplyGreeting ++ rejectReply reason

/-- A target that the tunnel neither reads in the wrong order nor tries twice. -/
structure Target.Settled (port : ℕ) (target : Target) : Prop where
  port_inOrder : env.InOrder (networkBytes 2 port)
  ip_inOrder : ∀ ip, target = .ipv4 ip → env.InOrder ip
  one_endpoint : ∀ name endpoints, target = .domain name →
    env.resolve name (ascii (toString port)) = some endpoints → endpoints.length ≤ 1

end Promise

theorem Exact.refused (h : Exact env stream s) (hunsupported : Unsupported stream) :
    s.dialed = [] ∧ s.resolved = [] := by
  constructor
  · refine List.eq_nil_iff_forall_not_mem.mpr fun endpoint hmem => ?_
    obtain ⟨target, port, rest, endpoints, hasks, -⟩ := h.dialed endpoint hmem
    exact hasks.not_unsupported hunsupported
  · refine List.eq_nil_iff_forall_not_mem.mpr fun query hmem => ?_
    obtain ⟨name, port, rest, hasks, -⟩ := h.resolved query hmem
    exact hasks.not_unsupported hunsupported

/-- The endpoints that were attempted are those of the one request there is. -/
theorem Exact.mem_endpoints (h : Exact env stream s) (hasks : Asks stream target port rest)
    {endpoint : Endpoint} (hmem : endpoint ∈ s.dialed) :
    ∃ endpoints, target.endpoints env port = some endpoints ∧ endpoint ∈ endpoints := by
  obtain ⟨target', port', rest', endpoints, hasks', hendpoints, hendpoint, -⟩ := h.dialed _ hmem
  obtain ⟨rfl, rfl, -⟩ := hasks.unique hasks'
  exact ⟨endpoints, hendpoints, hendpoint⟩

/-! ## What a step attempts -/

/-- Nothing is looked up, and no connection attempted. -/
structure Keeps (s s' : Tunnel) : Prop where
  dialed : s'.dialed = s.dialed
  resolved : s'.resolved = s.resolved
  unread : s'.relay.unread .client <:+ s.relay.unread .client
  idle : ∀ endpoint left, s'.stage ≠ .connecting endpoint left

theorem consume_isSuffix (count : ℕ) :
    (s.consume count).relay.unread .client <:+ s.relay.unread .client := by
  rw [consume_unread]
  exact List.drop_suffix _ _

theorem Keeps.of_consume {count : ℕ} (h : Keeps (s.consume count) s') : Keeps s s' :=
  { h with unread := h.unread.trans (consume_isSuffix count) }

theorem keeps_goto {stage : Stage} (hstage : ∀ endpoint left, stage ≠ .connecting endpoint left) :
    Keeps s (s.goto stage) :=
  ⟨rfl, rfl, List.suffix_rfl, hstage⟩

theorem keeps_wrote {count : ℕ} {bytes : Bytes} {writing : Bytes → Stage} {done : Tunnel → Tunnel}
    (hstep : s.wrote bytes count writing done = some s')
    (hwriting : ∀ bytes endpoint left, writing bytes ≠ .connecting endpoint left)
    (hdone : ∀ t, Keeps t (done t)) :
    Keeps s s' := by
  rcases Tunnel.wrote_cases hstep with ⟨-, rfl⟩ | ⟨-, -, rfl⟩
  · have h : Keeps (s.output (bytes.take count)) _ := hdone _
    exact ⟨h.dialed, h.resolved, h.unread, h.idle⟩
  · exact ⟨rfl, rfl, List.suffix_rfl, hwriting _⟩

theorem keeps_readFailed {count : ℕ} (hneeded : s.stage.needed = some count) :
    Keeps s s.readFailed := by
  cases hs : s.stage with
  | greetingPreamble | greetingMethods _ | requestPreamble =>
      rw [Tunnel.readFailed, hs]
      exact keeps_goto (by simp)
  | addrLength _ | domain _ _ | addr _ _ | destPort _ =>
      rw [Tunnel.readFailed, hs]
      exact keeps_goto (by simp)
  | _ => simp [hs, Stage.needed] at hneeded

theorem received_cases {data : Bytes} (hneeded : s.stage.needed = some data.length) :
    Keeps s (s.received env data) ∨ ∃ packet b0 b1, s.stage = .destPort packet ∧
      data = [b0, b1] ∧
      s.received env data = s.connetRemote env { packet with destPort := env.swapped data } := by
  cases hs : s.stage with
  | greetingPreamble =>
      rw [hs] at hneeded
      obtain ⟨ver, numMethods, rfl⟩ := List.length_eq_two.mp (Option.some.inj hneeded).symm
      left
      simp only [Tunnel.received, hs, Tunnel.onGreetingPreamble]
      split <;> exact keeps_goto (by simp)
  | greetingMethods numMethods =>
      left
      simp only [Tunnel.received, hs]
      exact keeps_goto (by simp)
  | requestPreamble =>
      rw [hs] at hneeded
      obtain ⟨ver, cmd, reserved, addrType, rfl⟩ : ∃ a b c d : Byte, data = [a, b, c, d] :=
        List.length_eq_four.mp (Option.some.inj hneeded).symm
      left
      simp only [Tunnel.received, hs, Tunnel.onRequestPreamble]
      split
      · exact keeps_goto (by simp)
      · split
        · exact keeps_goto (by simp)
        · split <;> exact keeps_goto (by simp)
  | addrLength packet =>
      rw [hs] at hneeded
      obtain ⟨length, rfl⟩ := List.length_eq_one_iff.mp (Option.some.inj hneeded).symm
      left
      simp only [Tunnel.received, hs]
      exact keeps_goto (by simp)
  | domain packet length =>
      left
      simp only [Tunnel.received, hs]
      exact keeps_goto (by simp)
  | addr packet bytes =>
      left
      simp only [Tunnel.received, hs]
      exact keeps_goto (by simp)
  | destPort packet =>
      rw [hs] at hneeded
      obtain ⟨b0, b1, rfl⟩ := List.length_eq_two.mp (Option.some.inj hneeded).symm
      right
      exact ⟨packet, b0, b1, rfl, rfl, by simp only [Tunnel.received, hs]⟩
  | _ => simp [hs, Stage.needed] at hneeded

/-- A connection is attempted behind the port, and after an attempt that was not the last one. -/
theorem step_cases {action : Action} (hstep : step env localPort s action = some s') :
    Keeps s s' ∨
      (∃ packet b0 b1 rest, s.stage = .destPort packet ∧
        s.relay.unread .client = b0 :: b1 :: rest ∧ s' = (s.consume 2).connetRemote env
          { packet with destPort := env.swapped [b0, b1] }) ∨
      ∃ endpoint left, s.stage = .connecting endpoint (left + 1) := by
  cases moves_of_step hstep with
  | @read count hneeded hlen =>
      have htake : ((s.relay.unread .client).take count).length = count := List.length_take_of_le hlen
      have hneeded' : (s.consume count).stage.needed =
          some ((s.relay.unread .client).take count).length := by
        rw [htake]
        exact hneeded
      rcases received_cases hneeded' with hkeeps | ⟨packet, b0, b1, hs, hdata, heq⟩
      · exact .inl hkeeps.of_consume
      · obtain rfl : 2 = count := by rw [← htake, hdata]; rfl
        refine .inr (.inl ⟨packet, b0, b1, (s.relay.unread .client).drop 2, hs, ?_, ?_⟩)
        · rw [← List.take_append_drop 2 (s.relay.unread .client), hdata]
          simp
        · rw [heq, hdata]
  | eof hneeded => exact .inl (keeps_readFailed hneeded)
  | readFails hneeded =>
      have h : Keeps { s with failed := true } _ := keeps_readFailed hneeded
      exact .inl ⟨h.dialed, h.resolved, h.unread, h.idle⟩
  | greeted _ hwrote | rejected _ hwrote =>
      exact .inl (keeps_wrote hwrote nofun fun _ => keeps_goto nofun)
  | granted _ hwrote =>
      exact .inl (keeps_wrote hwrote nofun fun _ => ⟨rfl, rfl, List.suffix_rfl, nofun⟩)
  | writeFails | connected => exact .inl ⟨rfl, rfl, List.suffix_rfl, nofun⟩
  | @refused endpoint left stale hs =>
      cases left with
      | zero => exact .inl (keeps_goto nofun)
      | succ left => exact .inr (.inr ⟨endpoint, left, hs⟩)
  | relayed hs hrelay =>
      refine .inl ⟨rfl, rfl, Relay.forward_unread hrelay .client, fun endpoint left => ?_⟩
      dsimp only
      rw [hs]
      exact nofun

/-! ## The connect -/

/-- A connect to what was asked for, with the port as it was read. -/
def Tunnel.connectTo (env : Environment) (s : Tunnel) (port : ℕ) : Target → Tunnel
  | .ipv4 ip => s.dial [.v4 (env.swapped ip) port]
  | .ipv6 ip => s.dial [.v6 ip port]
  | .domain name =>
      let looked := { s with resolved := s.resolved ++ [(name, ascii (toString port))] }
      match env.resolve name (ascii (toString port)) with
      | none => looked.rejectClient .hostUnreachable
      | some results => looked.dial results

theorem connetRemote_eq_connectTo {packet : RequestPacket}
    (htarget : target.encoding = packet.addrType :: packet.address) (port : ℕ) :
    s.connetRemote env { packet with destPort := port } = s.connectTo env port target := by
  rw [Tunnel.connetRemote]
  dsimp only
  cases target with
  | ipv4 ip =>
      obtain ⟨htype, haddress⟩ := List.cons.inj htarget
      rw [RequestPacket.address, ← htype, if_neg (by decide)] at haddress
      rw [← htype, if_pos rfl, ← haddress, Tunnel.connectTo]
  | ipv6 ip =>
      obtain ⟨htype, haddress⟩ := List.cons.inj htarget
      rw [RequestPacket.address, ← htype, if_neg (by decide)] at haddress
      rw [← htype, if_neg (by decide), if_pos rfl, ← haddress, Tunnel.connectTo]
  | domain name =>
      obtain ⟨htype, haddress⟩ := List.cons.inj htarget
      rw [RequestPacket.address, ← htype, if_pos rfl] at haddress
      obtain rfl := (List.cons.inj haddress).2
      rw [← htype, if_neg (by decide), if_neg (by decide)]
      rfl

theorem Asks.swapped_port_iff (hswaps : ReversesBytes env.byteswap)
    (hasks : Asks stream target port rest) :
    env.swapped (networkBytes 2 port) = port ↔ env.InOrder (networkBytes 2 port) := by
  have hport : ofNetworkBytes (networkBytes 2 port) = port := by
    rw [ofNetworkBytes_networkBytes]
    exact Nat.mod_eq_of_lt (hasks.2.1.trans_eq (by norm_num))
  rw [← Host.swapped_iff hswaps, hport]

/-- What was tried so far is exact, and there is no endpoint left for another attempt. -/
structure Tried (env : Environment) (stream : Bytes) (s : Tunnel) : Prop
    extends Exact env stream s where
  alone : ∀ endpoint left, s.stage = .connecting endpoint left → left = 0

theorem Exact.of_same (h : Exact env stream s) (hdialed : s'.dialed = s.dialed)
    (hresolved : s'.resolved = s.resolved)
    (hunread : s'.relay.unread .client <:+ s.relay.unread .client) : Exact env stream s' where
  dialed := by
    rw [hdialed]
    intro endpoint hmem
    obtain ⟨target, port, rest, endpoints, hasks, hendpoints, hendpoint, hsuffix⟩ :=
      h.dialed endpoint hmem
    exact ⟨target, port, rest, endpoints, hasks, hendpoints, hendpoint, hunread.trans hsuffix⟩
  resolved := by
    rw [hresolved]
    intro query hmem
    obtain ⟨name, port, rest, hasks, hquery, hsuffix⟩ := h.resolved query hmem
    exact ⟨name, port, rest, hasks, hquery, hunread.trans hsuffix⟩

/-- An attempt at the first endpoint of the target of what was read, which has no second one. -/
theorem Exact.dial (h : Exact env stream s) (hasks : Asks stream target port
    (s.relay.unread .client)) {endpoints : List Endpoint} (hone : endpoints.length ≤ 1)
    (hendpoints : target.endpoints env port = some endpoints) :
    Tried env stream (s.dial endpoints) where
  dialed endpoint hmem := by
    rcases List.mem_append.mp hmem with hold | hnew
    · exact h.dialed endpoint hold
    · have hhead : endpoint ∈ endpoints :=
        List.mem_of_mem_head? (Option.mem_toList.mp hnew)
      exact ⟨target, port, _, endpoints, hasks, hendpoints, hhead, List.suffix_rfl⟩
  resolved := h.resolved
  alone endpoint left hstage := by
    obtain ⟨-, rfl⟩ := Stage.connecting.inj hstage
    omega

theorem Exact.look (h : Exact env stream s) {name : Bytes}
    (hasks : Asks stream (.domain name) port (s.relay.unread .client)) :
    Exact env stream { s with resolved := s.resolved ++ [(name, ascii (toString port))] } where
  dialed := h.dialed
  resolved query hmem := by
    rcases List.mem_append.mp hmem with hold | hnew
    · exact h.resolved query hold
    · obtain rfl := List.mem_singleton.mp hnew
      exact ⟨name, port, _, hasks, rfl, List.suffix_rfl⟩

theorem Exact.connectTo (h : Exact env stream s) (hswaps : ReversesBytes env.byteswap)
    (hasks : Asks stream target port (s.relay.unread .client)) (hsettled : target.Settled env port) :
    Tried env stream (s.connectTo env port target) := by
  cases target with
  | ipv4 ip =>
      have hip : env.swapped ip = ofNetworkBytes ip :=
        (Host.swapped_iff hswaps ip).mpr (hsettled.ip_inOrder ip rfl)
      rw [Tunnel.connectTo, hip]
      exact h.dial hasks le_rfl rfl
  | ipv6 ip =>
      rw [Tunnel.connectTo]
      exact h.dial hasks le_rfl rfl
  | domain name =>
      have hlooked := h.look hasks
      rw [Tunnel.connectTo]
      split
      · exact ⟨hlooked.of_same rfl rfl List.suffix_rfl, nofun⟩
      · next results hresults =>
          exact hlooked.dial hasks (hsettled.one_endpoint name results rfl hresults) hresults

theorem Tried.step (h : Tried env (streams .client) s) (hinv : Inv env localPort streams s)
    (hswaps : ReversesBytes env.byteswap) (hknown : ¬ UnknownAddress (streams .client))
    (hsettled : ∀ target port rest, Asks (streams .client) target port rest →
      target.Settled env port) {action : Action}
    (hstep : step env localPort s action = some s') : Tried env (streams .client) s' := by
  rcases step_cases hstep with hkeeps | ⟨packet, b0, b1, rest, hs, hunread, rfl⟩ |
    ⟨endpoint, left, hs⟩
  · exact ⟨h.toExact.of_same hkeeps.dialed hkeeps.resolved hkeeps.unread,
      fun endpoint left hstage => absurd hstage (hkeeps.idle endpoint left)⟩
  · obtain ⟨target, htarget, hasks⟩ := hinv.asks hknown hs hunread
    have hbytes : networkBytes 2 (ofNetworkBytes [b0, b1]) = [b0, b1] :=
      networkBytes_ofNetworkBytes [b0, b1]
    have hport : env.swapped [b0, b1] = ofNetworkBytes [b0, b1] := by
      rw [← hbytes, (hasks.swapped_port_iff hswaps).mpr (hsettled _ _ _ hasks).port_inOrder, hbytes]
    have hrest : (s.consume 2).relay.unread .client = rest := by rw [consume_unread, hunread]; rfl
    rw [connetRemote_eq_connectTo htarget, hport]
    have hexact : Exact env (streams .client) (s.consume 2) :=
      h.toExact.of_same rfl rfl (consume_isSuffix 2)
    exact hexact.connectTo hswaps (hrest ▸ hasks) (hsettled _ _ _ hasks)
  · exact absurd (h.alone endpoint (left + 1) hs) (Nat.succ_ne_zero left)

theorem tried_of_reachable (hswaps : ReversesBytes env.byteswap)
    (hknown : ¬ UnknownAddress (streams .client))
    (hsettled : ∀ target port rest, Asks (streams .client) target port rest →
      target.Settled env port) (hreach : (tunnel env localPort streams).Reachable s) :
    Inv env localPort streams s ∧ Tried env (streams .client) s :=
  hreach.invariant (P := fun s => Inv env localPort streams s ∧ Tried env (streams .client) s)
    (fun s (hstart : s = initial streams) => hstart ▸ ⟨inv_initial, ⟨nofun, nofun⟩, nofun⟩)
    (fun _ _ _ h hstep => ⟨h.1.step hknown hstep, h.2.step h.1 hswaps hknown hsettled hstep⟩)

/-! ## Clients that are refused -/

/-- A tunnel that neither is closed nor relays can go on without an error. -/
theorem Inv.exists_step (h : Inv env localPort streams s) (hclosed : s.stage ≠ .closed)
    (htunneling : s.stage ≠ .tunneling) :
    ∃ action : Action, action.Succeeds ∧ (Socks5.step env localPort s action).isSome := by
  have hstage := h.stage
  have hwrite : ∀ {rest : Bytes} {writing done}, rest ≠ [] →
      (s.wrote rest 1 writing done).isSome := by
    intro rest writing done hrest
    rw [Tunnel.wrote, if_pos ⟨Nat.one_pos, List.length_pos_iff.mpr hrest⟩]
    rfl
  by_cases hneeded : s.stage.needed = none
  · cases hs : s.stage with
    | replyGreeting rest =>
        rw [hs] at hstage
        exact ⟨.wrote 1, trivial, by rw [Socks5.step, hs]; exact hwrite hstage.2.1⟩
    | replyRequest rest =>
        rw [hs] at hstage
        exact ⟨.wrote 1, trivial, by rw [Socks5.step, hs]; exact hwrite hstage.2.1⟩
    | rejecting rest =>
        rw [hs] at hstage
        exact ⟨.wrote 1, trivial, by rw [Socks5.step, hs]; exact hwrite hstage.1⟩
    | connecting endpoint left =>
        exact ⟨.refused (.v4 0 0), trivial, by rw [Socks5.step, hs]; rfl⟩
    | tunneling => exact absurd hs htunneling
    | closed => exact absurd hs hclosed
    | _ => simp [hs, Stage.needed] at hneeded
  · obtain ⟨count, hcount⟩ := Option.ne_none_iff_exists'.mp hneeded
    by_cases hlen : count ≤ (s.relay.unread .client).length
    · exact ⟨.read, trivial, by rw [Socks5.step, hcount]; simp [hlen]⟩
    · exact ⟨.eof, trivial, by rw [Socks5.step, hcount]; simp [not_le.mp hlen]⟩

theorem Inv.not_tunneling (h : Inv env localPort streams s)
    (hunsupported : Unsupported (streams .client)) : s.stage ≠ .tunneling := by
  have hstage := h.stage
  intro hs
  rw [hs] at hstage
  obtain ⟨payload, ⟨target, port, hasks⟩, -⟩ := hstage
  exact hasks.not_unsupported hunsupported

theorem Inv.answered (h : Inv env localPort streams s)
    (hunsupported : Unsupported (streams .client))
    (hstuck : ∀ action : Action, action.Succeeds → Socks5.step env localPort s action = none)
    (hfailed : s.failed = false) :
    ∃ reason, s.relay.written .client = kReplyGreeting ++ rejectReply reason := by
  have hstage := h.stage
  by_cases hclosed : s.stage = .closed
  · rw [hclosed] at hstage
    rcases hstage with hfail | hreply | hsupported
    · rw [hfailed] at hfail
      exact nomatch hfail
    · exact hreply
    · exact absurd hunsupported hsupported
  · have htunneling : s.stage ≠ .tunneling := h.not_tunneling hunsupported
    obtain ⟨action, hsucceeds, hstep⟩ := h.exists_step hclosed htunneling
    rw [hstuck action hsucceeds] at hstep
    exact nomatch hstep

/-! ## Requests that are read to their end -/

theorem step_read {data rest : Bytes} (hneeded : s.stage.needed = some data.length)
    (hunread : s.relay.unread .client = data ++ rest) :
    (tunnel env localPort streams).step s .read =
      some ((s.consume data.length).received env data) := by
  have hlen : data.length ≤ (s.relay.unread .client).length := by simp [hunread]
  have htake : (s.relay.unread .client).take data.length = data := by simp [hunread]
  rw [tunnel]
  dsimp only
  rw [step, hneeded]
  simp only [if_pos hlen, htake]

theorem consume_append {data rest : Bytes} (hunread : s.relay.unread .client = data ++ rest) :
    (s.consume data.length).relay.unread .client = rest := by
  rw [consume_unread, hunread, List.drop_left]

/-- A tunnel that is at this stage, with these bytes of the client unread, can be reached. -/
def Comes (env : Environment) (localPort : ℕ) (streams : Side → Bytes) (stage : Stage)
    (unread : Bytes) : Prop :=
  ∃ s, (tunnel env localPort streams).Reachable s ∧ s.stage = stage ∧
    s.relay.unread .client = unread

theorem Comes.read {stage next : Stage} {data rest : Bytes}
    (h : Comes env localPort streams stage (data ++ rest))
    (hneeded : stage.needed = some data.length)
    (hgoes : ∀ s : Tunnel, s.stage = stage → s.received env data = s.goto next) :
    Comes env localPort streams next rest := by
  obtain ⟨s, hreach, hs, hunread⟩ := h
  have hstep : (tunnel env localPort streams).step s .read =
      some ((s.consume data.length).goto next) := by
    rw [← hgoes (s.consume data.length) hs]
    exact step_read (hs ▸ hneeded) hunread
  exact ⟨_, hreach.step hstep, rfl, consume_append hunread⟩

/-- Up to the preamble of the request, if no operation fails. -/
theorem comes_requestPreamble {request : Bytes} (h : requestOf (streams .client) = some request) :
    Comes env localPort streams .requestPreamble request := by
  have hstart : Comes env localPort streams .greetingPreamble (streams .client) :=
    ⟨initial streams, System.Reachable.of_start rfl, rfl, rfl⟩
  rcases hstream : streams .client with _ | ⟨ver, _ | ⟨numMethods, rest⟩⟩
  · rw [hstream] at h
    cases h
  · rw [hstream] at h
    cases h
  · rw [hstream, requestOf] at h
    split at h
    · next hgood =>
        obtain ⟨rfl, hnonzero, hlen⟩ := hgood
        obtain rfl := Option.some.inj h
        rw [hstream] at hstart
        have hgreeting : Comes env localPort streams (.greetingMethods numMethods) rest := by
          have hsplit : Comes env localPort streams .greetingPreamble
              ([kSocks5Ver, numMethods] ++ rest) := hstart
          refine hsplit.read rfl fun s hs => ?_
          simp [Tunnel.received, hs, Tunnel.onGreetingPreamble, hnonzero]
        rw [← List.take_append_drop numMethods.toNat rest] at hgreeting
        have hmethods : Comes env localPort streams (.replyGreeting kReplyGreeting)
            (rest.drop numMethods.toNat) := by
          refine hgreeting.read ?_ fun s hs => ?_
          · rw [List.length_take_of_le hlen, Stage.needed]
          · simp [Tunnel.received, hs]
        obtain ⟨s, hreach, hs, hunread⟩ := hmethods
        have hstep : (tunnel env localPort streams).step s (.wrote 2) =
            some ((s.output kReplyGreeting).goto .requestPreamble) := by
          rw [tunnel]
          dsimp only
          rw [step, hs]
          rfl
        exact ⟨_, hreach.step hstep, rfl, hunread⟩
    · cases h

theorem comes_addr (env : Environment) (localPort : ℕ) {reserved addrType : Byte} {ip : Bytes}
    (hrequest : requestOf (streams .client) =
      some (kSocks5Ver :: kCmdConnect :: reserved :: addrType :: (ip ++ rest)))
    (hdomain : addrType ≠ kAddrDomain)
    (hlength : ip.length = if addrType = kAddrIPv4 then 4 else 16) :
    Comes env localPort streams (.destPort ⟨kSocks5Ver, kCmdConnect, reserved, addrType, ip, 0⟩)
      rest := by
  have hpacket : Comes env localPort streams
      (.addr ⟨kSocks5Ver, kCmdConnect, reserved, addrType, [], 0⟩ ip.length) (ip ++ rest) := by
    have hpreamble : Comes env localPort streams .requestPreamble
        ([kSocks5Ver, kCmdConnect, reserved, addrType] ++ (ip ++ rest)) :=
      comes_requestPreamble hrequest
    refine hpreamble.read rfl fun s hs => ?_
    simp [Tunnel.received, hs, Tunnel.onRequestPreamble, hdomain, hlength]
  exact hpacket.read rfl fun s hs => by simp [Tunnel.received, hs]

theorem comes_domain {reserved : Byte} {name : Bytes} (hname : name.length < 256)
    (hrequest : requestOf (streams .client) = some (kSocks5Ver :: kCmdConnect :: reserved ::
      kAddrDomain :: UInt8.ofNat name.length :: (name ++ rest))) :
    Comes env localPort streams
      (.destPort ⟨kSocks5Ver, kCmdConnect, reserved, kAddrDomain, name, 0⟩) rest := by
  have hlength : (UInt8.ofNat name.length).toNat = name.length := by
    rw [UInt8.toNat_ofNat']
    exact Nat.mod_eq_of_lt hname
  have hpacket : Comes env localPort streams
      (.addrLength ⟨kSocks5Ver, kCmdConnect, reserved, kAddrDomain, [], 0⟩)
      ([UInt8.ofNat name.length] ++ (name ++ rest)) := by
    have hpreamble : Comes env localPort streams .requestPreamble
        ([kSocks5Ver, kCmdConnect, reserved, kAddrDomain] ++
          (UInt8.ofNat name.length :: (name ++ rest))) := comes_requestPreamble hrequest
    refine hpreamble.read rfl fun s hs => ?_
    simp [Tunnel.received, hs, Tunnel.onRequestPreamble]
  have hdomain : Comes env localPort streams
      (.domain ⟨kSocks5Ver, kCmdConnect, reserved, kAddrDomain, [], 0⟩ name.length)
      (name ++ rest) := by
    refine hpacket.read rfl fun s hs => ?_
    simp [Tunnel.received, hs, hlength]
  exact hdomain.read rfl fun s hs => by simp [Tunnel.received, hs]

theorem comes_destPort (env : Environment) (localPort : ℕ)
    (hasks : Asks (streams .client) target port rest) :
    ∃ packet : RequestPacket, target.encoding = packet.addrType :: packet.address ∧
      Comes env localPort streams (.destPort packet) (networkBytes 2 port ++ rest) := by
  obtain ⟨hwell, -, reserved, hrequest⟩ := hasks
  rw [List.append_assoc] at hrequest
  cases target with
  | ipv4 ip =>
      refine ⟨⟨kSocks5Ver, kCmdConnect, reserved, kAddrIPv4, ip, 0⟩, rfl, ?_⟩
      exact comes_addr env localPort hrequest (by decide) hwell
  | ipv6 ip =>
      refine ⟨⟨kSocks5Ver, kCmdConnect, reserved, kAddrIPv6, ip, 0⟩, rfl, ?_⟩
      exact comes_addr env localPort hrequest (by decide) hwell
  | domain name =>
      refine ⟨⟨kSocks5Ver, kCmdConnect, reserved, kAddrDomain, name, 0⟩, rfl, ?_⟩
      exact comes_domain hwell hrequest

theorem Comes.connetRemote {packet : RequestPacket} {bytes : Bytes}
    (h : Comes env localPort streams (.destPort packet) (bytes ++ rest))
    (hbytes : bytes.length = 2) : ∃ s : Tunnel, (tunnel env localPort streams).Reachable
      (s.connetRemote env { packet with destPort := env.swapped bytes }) := by
  obtain ⟨s, hreach, hs, hunread⟩ := h
  have hneeded : s.stage.needed = some bytes.length := by rw [hs, hbytes, Stage.needed]
  have hread := hreach.step (step_read hneeded hunread)
  have hstage : (s.consume bytes.length).stage = s.stage := rfl
  simp only [Tunnel.received, hstage, hs] at hread
  exact ⟨_, hread⟩

/-- Every request is read to its end in some run. -/
theorem exists_connectTo (env : Environment) (localPort : ℕ)
    (hasks : Asks (streams .client) target port rest) :
    ∃ s : Tunnel, (tunnel env localPort streams).Reachable
      (s.connectTo env (env.swapped (networkBytes 2 port)) target) := by
  obtain ⟨packet, htarget, hcomes⟩ := comes_destPort env localPort hasks
  obtain ⟨s, hreach⟩ := hcomes.connetRemote (length_networkBytes 2 port)
  rw [connetRemote_eq_connectTo htarget] at hreach
  exact ⟨s, hreach⟩

/-! ## What stands against the promise -/

/-- The sixteen bytes behind an unknown address type are looked up as a name. -/
theorem not_unknownAddress (h : ∀ s, (tunnel env localPort streams).Reachable s →
    Honoured env localPort (streams .client) s) : ¬ UnknownAddress (streams .client) := by
  rintro ⟨reserved, addrType, behind, hrequest, hipv4, hdomain, hipv6, hlen⟩
  have hunsupported : Unsupported (streams .client) :=
    ⟨_, _, _, _, _, hrequest, .inr (.inr ⟨hipv4, hdomain, hipv6⟩)⟩
  rw [← List.take_append_drop 16 behind, ← List.take_append_drop 2 (behind.drop 16)] at hrequest
  have hcomes := comes_addr env localPort hrequest hdomain (by
    rw [if_neg hipv4, List.length_take_of_le (by omega)])
  obtain ⟨s, hreach⟩ := hcomes.connetRemote
    (List.length_take_of_le (by rw [List.length_drop]; omega))
  have hresolved := ((h _ hreach).refused hunsupported).2
  rw [Tunnel.connetRemote, if_neg hipv4, if_neg hipv6] at hresolved
  dsimp only at hresolved
  -- whatever the resolver says, it was asked
  split at hresolved
  · exact absurd hresolved (List.append_ne_nil_of_right_ne_nil _ (List.cons_ne_nil _ _))
  · exact absurd hresolved (List.append_ne_nil_of_right_ne_nil _ (List.cons_ne_nil _ _))

theorem Char.ofNat_toUInt8 {c : Char} (hc : c.isDigit) : Char.ofNat c.toUInt8.toNat = c := by
  have hle : c.toNat ≤ 57 := by
    simp only [Char.isDigit, Bool.and_eq_true, decide_eq_true_eq] at hc
    exact hc.2
  have hnat : c.toUInt8.toNat = c.toNat := by
    rw [Char.toUInt8, UInt32.toNat_toUInt8]
    exact Nat.mod_eq_of_lt (show c.toNat < 256 by omega)
  rw [hnat, Char.ofNat_toNat]

/-- Different ports have different texts. -/
theorem ascii_toString_inj {m n : ℕ} (h : ascii (toString m) = ascii (toString n)) : m = n := by
  have hback : ∀ k : ℕ,
      (ascii (toString k)).map (fun byte => Char.ofNat byte.toNat) = (toString k).toList := by
    intro k
    rw [ascii, List.map_map]
    refine (List.map_congr_left fun c hc => ?_).trans (List.map_id _)
    have hdigit : c ∈ Nat.toDigits 10 k := by rwa [← Nat.toList_repr]
    exact Char.ofNat_toUInt8 (Nat.isDigit_of_mem_toDigits (by decide) (by decide) hdigit)
  have htext := congrArg (List.map fun byte : Byte => Char.ofNat byte.toNat) h
  rw [hback, hback] at htext
  exact Nat.repr_injective (String.toList_inj.mp htext)

/-- A connect as it is promised has read the port and the address in their order. -/
theorem Exact.inOrder (hasks : Asks stream target port rest)
    (h : Exact env stream (s.connectTo env (env.swapped (networkBytes 2 port)) target)) :
    env.swapped (networkBytes 2 port) = port ∧
      ∀ ip, target = .ipv4 ip → env.swapped ip = ofNetworkBytes ip := by
  cases target with
  | ipv4 ip =>
      obtain ⟨endpoints, hendpoints, hmem⟩ := h.mem_endpoints hasks
        (List.mem_append_right _ (List.mem_singleton.mpr rfl))
      obtain rfl := Option.some.inj hendpoints
      obtain ⟨hip, hport⟩ := Endpoint.v4.inj (List.mem_singleton.mp hmem)
      exact ⟨hport, fun ip' heq => Target.ipv4.inj heq ▸ hip⟩
  | ipv6 ip =>
      obtain ⟨endpoints, hendpoints, hmem⟩ := h.mem_endpoints hasks
        (List.mem_append_right _ (List.mem_singleton.mpr rfl))
      obtain rfl := Option.some.inj hendpoints
      exact ⟨(Endpoint.v6.inj (List.mem_singleton.mp hmem)).2, nofun⟩
  | domain name =>
      refine ⟨?_, nofun⟩
      have hmem : (name, ascii (toString (env.swapped (networkBytes 2 port)))) ∈
          (s.connectTo env (env.swapped (networkBytes 2 port)) (.domain name)).resolved := by
        rw [Tunnel.connectTo]
        split <;> exact List.mem_append_right _ (List.mem_singleton.mpr rfl)
      obtain ⟨name', port', rest', hasks', hquery, -⟩ := h.resolved _ hmem
      obtain ⟨-, rfl, -⟩ := hasks.unique hasks'
      exact ascii_toString_inj (Prod.ext_iff.mp hquery).2

instance : Infinite Endpoint :=
  Infinite.of_injective (fun ip => Endpoint.v4 ip 0) fun _ _ heq => (Endpoint.v4.inj heq).1

/-- The second endpoint of a name may be any. -/
theorem exists_stale (localPort : ℕ) {name : Bytes}
    (hasks : Asks (streams .client) (.domain name) port rest)
    (hport : env.swapped (networkBytes 2 port) = port) {endpoints : List Endpoint}
    (hresolve : env.resolve name (ascii (toString port)) = some endpoints)
    (htwo : 2 ≤ endpoints.length) (stale : Endpoint) :
    ∃ s, (tunnel env localPort streams).Reachable s ∧ stale ∈ s.dialed := by
  obtain ⟨s, hreach⟩ := exists_connectTo env localPort hasks
  obtain ⟨left, hleft⟩ := Nat.exists_eq_add_of_le' (Nat.le_pred_of_lt htwo)
  rw [hport, Tunnel.connectTo, hresolve] at hreach
  have hstep : (tunnel env localPort streams).step (Tunnel.dial
      { s with resolved := s.resolved ++ [(name, ascii (toString port))] } endpoints)
      (.refused stale) = some (Tunnel.redial (Tunnel.dial
        { s with resolved := s.resolved ++ [(name, ascii (toString port))] } endpoints) stale
          (endpoints.length - 1)) := rfl
  refine ⟨_, hreach.step hstep, ?_⟩
  rw [show endpoints.length - 1 = left + 1 from hleft]
  exact List.mem_append_right _ (List.mem_singleton.mpr rfl)

theorem settled_of_honoured (hswaps : ReversesBytes env.byteswap)
    (h : ∀ s, (tunnel env localPort streams).Reachable s →
      Honoured env localPort (streams .client) s)
    (hasks : Asks (streams .client) target port rest) : target.Settled env port := by
  obtain ⟨s, hreach⟩ := exists_connectTo env localPort hasks
  obtain ⟨hport, hip⟩ := (h _ hreach).toExact.inOrder hasks
  refine ⟨(hasks.swapped_port_iff hswaps).mp hport,
    fun ip htarget => (Host.swapped_iff hswaps ip).mp (hip ip htarget), ?_⟩
  rintro name endpoints rfl hresolve
  by_contra htwo
  obtain ⟨stale, hstale⟩ := Infinite.exists_notMem_finset endpoints.toFinset
  obtain ⟨s', hreach', hmem⟩ := exists_stale localPort hasks hport hresolve
    (not_le.mp htwo) stale
  obtain ⟨endpoints', hendpoints, hmem'⟩ := (h s' hreach').toExact.mem_endpoints hasks hmem
  obtain rfl := Option.some.inj (hresolve.symm.trans hendpoints)
  exact hstale (List.mem_toFinset.mpr hmem')

/-- **The requests are honoured**, for any bytes that the client may send and in any run, exactly if
they are not a CONNECT request of an unknown address type with an address and a port, and no request
is for a name of several endpoints or read in the wrong order. -/
theorem requests_honoured_iff (hswaps : ReversesBytes env.byteswap) :
    (∀ s, (tunnel env localPort streams).Reachable s →
      Honoured env localPort (streams .client) s) ↔
      ¬ UnknownAddress (streams .client) ∧ ∀ target port rest,
        Asks (streams .client) target port rest → target.Settled env port := by
  constructor
  · exact fun h => ⟨not_unknownAddress h, fun _ _ _ hasks => settled_of_honoured hswaps h hasks⟩
  · rintro ⟨hknown, hsettled⟩ s hreach
    obtain ⟨hinv, htried⟩ := tried_of_reachable hswaps hknown hsettled hreach
    exact ⟨htried.toExact, htried.toExact.refused, hinv.answered⟩

/-- On a little-endian host the pipelined request is for one endpoint. -/
theorem requests_honoured_pipelined : ReversesBytes noNames.byteswap ∧
    ∀ s, (tunnel noNames 1080 pipelined).Reachable s →
      Honoured noNames 1080 (pipelined .client) s := by
  have hswaps : ReversesBytes noNames.byteswap := fun _ _ _ => rfl
  have hasks : Asks (pipelined .client) (.ipv4 [127, 0, 0, 1]) 80 [71, 69, 84] :=
    ⟨rfl, by decide, 0, rfl⟩
  refine ⟨hswaps, (requests_honoured_iff hswaps).mpr ⟨hasks.not_unknownAddress, ?_⟩⟩
  intro target port rest _
  exact ⟨.inl rfl, fun _ _ => .inl rfl, fun _ _ _ hresolve => nomatch hresolve⟩

def unknownAddressType : Side → Bytes
  | .client => [5, 1, 0] ++ [5, 1, 0, 9] ++ List.replicate 16 97 ++ [0, 80]
  | .remote => []

theorem requests_not_honoured : ¬ ∀ s, (tunnel noNames 1080 unknownAddressType).Reachable s →
    Honoured noNames 1080 (unknownAddressType .client) s := by
  have hunknown : UnknownAddress (unknownAddressType .client) :=
    ⟨0, 9, List.replicate 16 97 ++ [0, 80], rfl, by decide, by decide, by decide, by decide⟩
  exact fun h => not_unknownAddress h hunknown

/-! ## The end of a handshake -/

variable {more : ℕ}

/-- No name has more endpoints than one and so many more. -/
def Environment.NamesUpTo (env : Environment) (more : ℕ) : Prop :=
  ∀ {name service : Bytes} {endpoints : List Endpoint}, env.resolve name service = some endpoints →
    endpoints.length ≤ more + 1

/-- How far the handshake is from its end. -/
def Stage.rank (more : ℕ) : Stage → ℕ
  | greetingPreamble => more + 21
  | greetingMethods _ => more + 20
  | replyGreeting rest => more + 17 + rest.length
  | requestPreamble => more + 16
  | addrLength _ => more + 15
  | domain _ _ => more + 14
  | addr _ _ => more + 14
  | destPort _ => more + 13
  | connecting _ left => left + 12
  | replyRequest rest => 1 + rest.length
  | tunneling => 0
  | rejecting rest => 1 + rest.length
  | closed => 0

instance : (stage : Stage) → Decidable (stage = .tunneling)
  | .tunneling => .isTrue rfl
  | .greetingPreamble | .requestPreamble | .closed => .isFalse nofun
  | .greetingMethods _ | .replyGreeting _ | .addrLength _ | .domain _ _ | .addr _ _ | .destPort _
  | .connecting _ _ | .replyRequest _ | .rejecting _ => .isFalse nofun

theorem rank_wrote {rest : Bytes} {count : ℕ} {writing : Bytes → Stage} {done : Tunnel → Tunnel}
    (hwriting : ∀ bytes : Bytes, bytes.length < rest.length →
      (writing bytes).rank more < (writing rest).rank more)
    (hdone : ∀ t, (done t).stage.rank more < (writing rest).rank more)
    (hstep : s.wrote rest count writing done = some s') :
    s'.stage.rank more < (writing rest).rank more := by
  rcases Tunnel.wrote_cases hstep with ⟨-, rfl⟩ | ⟨-, hless, rfl⟩
  · exact hdone _
  · exact hwriting _ hless

theorem rank_dial {endpoints : List Endpoint} (hlength : endpoints.length ≤ more + 1) :
    (s.dial endpoints).stage.rank more ≤ more + 12 := by
  simp only [Tunnel.dial, Tunnel.goto, Stage.rank]
  omega

theorem rank_rejectClient (reason : RejectReason) :
    (s.rejectClient reason).stage.rank more = 11 := rfl

theorem rank_connetRemote (hmore : env.NamesUpTo more) (packet : RequestPacket) :
    (s.connetRemote env packet).stage.rank more ≤ more + 12 := by
  rw [Tunnel.connetRemote]
  split
  · exact rank_dial (Nat.le_add_left 1 more)
  · split
    · exact rank_dial (Nat.le_add_left 1 more)
    · dsimp only
      split
      · rw [rank_rejectClient]
        omega
      · next results hresults => exact rank_dial (hmore hresults)

theorem rank_received (hmore : env.NamesUpTo more) {data : Bytes}
    (hneeded : s.stage.needed = some data.length) :
    (s.received env data).stage.rank more < s.stage.rank more := by
  cases hs : s.stage with
  | greetingPreamble =>
      rw [hs] at hneeded
      obtain ⟨ver, numMethods, rfl⟩ := List.length_eq_two.mp (Option.some.inj hneeded).symm
      simp only [Tunnel.received, hs, Tunnel.onGreetingPreamble]
      split <;> simp [Tunnel.shutdownClient, Tunnel.goto, Stage.rank]
  | greetingMethods numMethods =>
      simp [Tunnel.received, hs, Tunnel.goto, Stage.rank, kReplyGreeting]
  | requestPreamble =>
      rw [hs] at hneeded
      obtain ⟨ver, cmd, reserved, addrType, rfl⟩ : ∃ a b c d : Byte, data = [a, b, c, d] := by
        exact List.length_eq_four.mp (Option.some.inj hneeded).symm
      simp only [Tunnel.received, hs, Tunnel.onRequestPreamble]
      split
      · rw [rank_rejectClient, Stage.rank]
        omega
      · split
        · rw [rank_rejectClient, Stage.rank]
          omega
        · split <;> simp [Tunnel.goto, Stage.rank]
  | addrLength packet =>
      rw [hs] at hneeded
      obtain ⟨length, rfl⟩ := List.length_eq_one_iff.mp (Option.some.inj hneeded).symm
      simp [Tunnel.received, hs, Tunnel.goto, Stage.rank]
  | domain packet length => simp [Tunnel.received, hs, Tunnel.goto, Stage.rank]
  | addr packet bytes => simp [Tunnel.received, hs, Tunnel.goto, Stage.rank]
  | destPort packet =>
      simp only [Tunnel.received, hs]
      exact Nat.lt_succ_of_le (rank_connetRemote hmore _)
  | _ => simp [hs, Stage.needed] at hneeded

theorem rank_readFailed {count : ℕ} (hneeded : s.stage.needed = some count) :
    s.readFailed.stage.rank more < s.stage.rank more := by
  cases hs : s.stage with
  | greetingPreamble | greetingMethods _ | requestPreamble =>
      simp [Tunnel.readFailed, hs, Tunnel.shutdownClient, Tunnel.goto, Stage.rank]
  | addrLength _ | domain _ _ | addr _ _ | destPort _ =>
      simp only [Tunnel.readFailed, hs]
      rw [rank_rejectClient, Stage.rank]
      omega
  | _ => simp [hs, Stage.needed] at hneeded

theorem rank_redial (stale : Endpoint) (left : ℕ) :
    (s.redial stale left).stage.rank more < left + 12 := by
  cases left with
  | zero => rw [Tunnel.redial, rank_rejectClient]; omega
  | succ left =>
      simp only [Tunnel.redial, Tunnel.goto, Stage.rank]
      omega

/-- Every step of the handshake brings it nearer to its end. -/
theorem rank_step (hmore : env.NamesUpTo more) {action : Action} (hs : s.stage ≠ .tunneling)
    (hstep : step env localPort s action = some s') :
    s'.stage.rank more < s.stage.rank more := by
  cases moves_of_step hstep with
  | @read count hneeded hlen =>
      have hneeded' : (s.consume count).stage.needed =
          some ((s.relay.unread .client).take count).length := by
        rw [List.length_take_of_le hlen]
        exact hneeded
      exact rank_received hmore hneeded'
  | eof hneeded => exact rank_readFailed hneeded
  | readFails hneeded => exact rank_readFailed (s := { s with failed := true }) hneeded
  | @greeted rest count _ hrest hwrote =>
      rw [hrest]
      refine rank_wrote (fun bytes hlt => Nat.add_lt_add_left hlt (more + 17)) (fun t => ?_) hwrote
      exact Nat.lt_of_lt_of_le (Nat.lt_succ_self (more + 16)) (Nat.le_add_right (more + 17) _)
  | @granted rest count _ hrest hwrote | @rejected rest count _ hrest hwrote =>
      rw [hrest]
      refine rank_wrote (fun bytes hlt => Nat.add_lt_add_left hlt 1) (fun t => ?_) hwrote
      exact Nat.lt_add_right _ Nat.one_pos
  | writeFails hrest =>
      rcases hrest with hrest | hrest | hrest
      · rw [hrest]
        exact Nat.lt_add_right _ (Nat.succ_pos (more + 16))
      all_goals
        rw [hrest]
        exact Nat.lt_add_right _ Nat.one_pos
  | connected stale hconnecting =>
      have hlength : (requestReply env localPort).length = 10 := by simp [requestReply]
      rw [hconnecting]
      simp only [Tunnel.goto, Stage.rank, hlength]
      omega
  | @refused endpoint left stale hconnecting =>
      rw [hconnecting]
      exact rank_redial stale left
  | relayed htunneling => exact absurd htunneling hs

/-- So a run within the handshake has at most as many steps as the handshake still needs. -/
theorem rank_run (hmore : env.NamesUpTo more) {actions : List Action}
    (hhandshake : (tunnel env localPort streams).EachStep (fun t _ => t.stage ≠ .tunneling) s
      actions)
    (hrun : (tunnel env localPort streams).run s actions = some s') :
    actions.length + s'.stage.rank more ≤ s.stage.rank more := by
  induction actions generalizing s with
  | nil =>
      obtain rfl := Option.some.inj hrun
      rw [List.length_nil, Nat.zero_add]
  | cons action actions ih =>
      obtain ⟨mid, hmid, hrun⟩ := System.run_cons_eq_some.mp hrun
      have hrank := rank_step hmore hhandshake.1 hmid
      have hrest := ih (hhandshake.2 mid hmid) hrun
      rw [List.length_cons]
      omega

/-- **A handshake ends**, after at most 21 steps and one more for every further endpoint of a name,
and until then it can go on without an error. -/
theorem handshake_ends (hknown : ¬ UnknownAddress (streams .client)) (hmore : env.NamesUpTo more)
    {actions : List Action}
    (hhandshake : (tunnel env localPort streams).EachStep (fun t _ => t.stage ≠ .tunneling)
      (initial streams) actions)
    (hrun : (tunnel env localPort streams).run (initial streams) actions = some s) :
    actions.length ≤ more + 21 ∧ (s.stage ≠ .closed → s.stage ≠ .tunneling →
      ∃ action : Action, action.Succeeds ∧ (step env localPort s action).isSome) :=
  ⟨(Nat.le_add_right ..).trans (rank_run hmore hhandshake hrun),
    (inv_of_reachable hknown ⟨_, actions, rfl, hrun⟩).exists_step⟩

/-- A little-endian host on which every name has two endpoints, the first of which refuses. -/
def twoEndpoints : Environment where
  order := .little
  byteswap := byteSwap
  resolve _ _ := some [.v6 [0, 0, 0, 0, 0, 0, 0, 0, 0, 0, 0, 0, 0, 0, 0, 1] 80, .v4 2130706433 80]

def named : Side → Bytes
  | .client => [5, 1, 0] ++ [5, 1, 0, 3, 1, 97, 0, 80]
  | .remote => []

def namedRun : List Action :=
  [.read, .read, .wrote 2, .read, .read, .read, .read, .refused (.v4 0 0), .connected (.v4 0 0)]

theorem handshake_ends_named :
    namedRun.length ≤ 22 ∧ ∃ s, (tunnel twoEndpoints 1080 named).run (initial named) namedRun =
      some s ∧ s.stage ≠ .closed ∧
        ∃ action : Action, action.Succeeds ∧ (step twoEndpoints 1080 s action).isSome := by
  have hunknown : ¬ UnknownAddress (named .client) := by
    rintro ⟨reserved, addrType, rest, hrequest, hipv4, hdomain, -⟩
    simp [named, requestOf, kSocks5Ver, kCmdConnect] at hrequest
    exact hdomain hrequest.2.1.symm
  have hmore : twoEndpoints.NamesUpTo 1 := fun hresolve => by
    rw [← Option.some.inj hresolve]
    decide
  obtain ⟨s, hrun, rest, hstage⟩ : ∃ s, (tunnel twoEndpoints 1080 named).run (initial named)
      namedRun = some s ∧ ∃ rest, s.stage = .replyRequest rest := ⟨_, rfl, _, rfl⟩
  obtain ⟨hlength, hgoes⟩ := handshake_ends hunknown hmore (by decide) hrun
  exact ⟨hlength, s, hrun, by simp [hstage], hgoes (by simp [hstage]) (by simp [hstage])⟩

end Eureka.Socks5

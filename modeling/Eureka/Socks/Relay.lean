import Eureka.Bytes
import Eureka.Library.Endian

/-!
# The relay of a tunnel

The two loops that both tunnels end in.  A loop reads what its side has sent,
writes all of it to the other side and only then reads again.  The bytes that a
side is still going to send are fixed from the start, and so is that it ends
behind them; how they are cut into reads, how the writes get on and which loop
is faster, is open.

* `Relay.Carries`: what a loop has read and not yet written, and what was written
  before, make up the bytes of its side;
* `Relay.Carries.forward`: every step of the loops keeps this;
* `Relay.Quiet`: the relay during the handshake, which leaves it what it carries.

The integers of a handshake are read and written with `esl::byteswap`, which is not in
the repository; it is a parameter, and so is the byte order (`Host`).
-/

namespace Eureka.Socks

open Endian

/-- What a tunnel is run on. -/
structure Host where
  order : Endianness
  /-- `esl::byteswap`, of an unsigned integer of so many bytes. -/
  byteswap : ℕ → ℕ → ℕ

namespace Host

variable {host : Host}

/-- An integer that is read from these bytes and swapped. -/
def swapped (host : Host) (bytes : Bytes) : ℕ :=
  host.byteswap bytes.length (ofObjectBytes host.order bytes)

/-- To swap these bytes of the network is right on this host. -/
def InOrder (host : Host) (bytes : Bytes) : Prop :=
  host.order = .little ∨ bytes.reverse = bytes

theorem swapped_iff (hswaps : ReversesBytes host.byteswap) (bytes : Bytes) :
    host.swapped bytes = ofNetworkBytes bytes ↔ host.InOrder bytes :=
  hswaps.ofObjectBytes_iff host.order bytes

/-- A zero is read as one in both orders, and nothing else is. -/
theorem swapped_eq_zero_iff (hswaps : ReversesBytes host.byteswap) (bytes : Bytes) :
    host.swapped bytes = 0 ↔ ofNetworkBytes bytes = 0 := by
  have hobject : ofObjectBytes host.order bytes < 256 ^ bytes.length := by
    cases host.order with
    | little => exact ofLittleEndian_lt bytes
    | big => exact ofNetworkBytes_lt bytes
  rw [swapped, hswaps _ _ hobject]
  cases host.order with
  | little => rw [ofObjectBytes, byteSwap_ofLittleEndian]
  | big =>
      rw [ofObjectBytes, ← List.length_reverse, byteSwap_ofLittleEndian, ofNetworkBytes,
        ofNetworkBytes, List.reverse_reverse, ofLittleEndian_eq_zero_iff,
        ofLittleEndian_eq_zero_iff]
      simp only [List.mem_reverse]

end Host

inductive Side
  | client
  | remote
  deriving DecidableEq, Repr

namespace Side

def other : Side → Side
  | client => remote
  | remote => client

@[simp] theorem other_other (side : Side) : side.other.other = side := by
  cases side <;> rfl

@[simp] theorem other_ne (side : Side) : side.other ≠ side := by
  cases side <;> exact nofun

@[simp] theorem ne_other (side : Side) : side ≠ side.other := by
  cases side <;> exact nofun

theorem forall_of {P : Side → Prop} (side : Side) (hself : P side) (hother : P side.other) :
    ∀ x, P x := by
  intro x
  cases x <;> cases side <;> assumption

end Side

/-- Where the loop is that reads from a side. -/
inductive Loop
  | idle
  | reading
  | writing (rest : Bytes)
  | ended
  | failed (rest : Bytes)
  deriving DecidableEq, Repr

/-- What was read and is not written yet. -/
def Loop.pending : Loop → Bytes
  | writing rest => rest
  | failed rest => rest
  | _ => []

structure Relay where
  /-- What the side has sent, or is going to, that is not read yet. -/
  unread : Side → Bytes
  /-- What was written to the socket of the side. -/
  written : Side → Bytes
  loop : Side → Loop
  /-- `client_sock_disconnected_` and `dial_sock_disconnected_`. -/
  disconnected : Side → Bool
  /-- The write side of the socket was shut down because of an end of stream. -/
  shutdown : Side → Bool
  /-- The same because of an error. -/
  forceShutdown : Bool

/-- How a pending operation of a loop completes. -/
inductive Completion
  | read (count : ℕ)
  | eof
  | wrote (count : ℕ)
  | fail
  deriving DecidableEq, Repr

def ioBufSize : ℕ := 4 * 1024

namespace Relay

def setLoop (r : Relay) (side : Side) (loop : Loop) : Relay :=
  { r with loop := Function.update r.loop side loop }

/-- `ShutdownWriteSafe`, for an end of stream. -/
def shutdownWriteSafe (r : Relay) (side : Side) : Relay :=
  if r.disconnected side then r else { r with shutdown := Function.update r.shutdown side true }

/-- A read of some bytes, all of which are then written to the other side. -/
def read (r : Relay) (side : Side) (count : ℕ) : Relay :=
  { r with unread := Function.update r.unread side ((r.unread side).drop count) }.setLoop side
    (.writing ((r.unread side).take count))

/-- A write gets on by some bytes.  Behind the last of them the loop reads again. -/
def wrote (r : Relay) (side : Side) (rest : Bytes) (count : ℕ) : Relay :=
  { r with
    written := Function.update r.written side.other (r.written side.other ++ rest.take count) }.setLoop
    side (if rest.drop count = [] then .reading else .writing (rest.drop count))

/-- A completion of the operation that the loop of the side has started. -/
def forward (r : Relay) (side : Side) : Completion → Option Relay
  | .read count =>
      if r.loop side = .reading ∧ 0 < count ∧ count ≤ ioBufSize ∧
          count ≤ (r.unread side).length then
        some (r.read side count)
      else none
  | .eof =>
      if r.loop side = .reading ∧ r.unread side = [] then
        some (({ r with disconnected := Function.update r.disconnected side true }.setLoop side
          .ended).shutdownWriteSafe side.other)
      else none
  | .wrote count =>
      match r.loop side with
      | .writing rest =>
          if 0 < count ∧ count ≤ rest.length then some (r.wrote side rest count) else none
      | _ => none
  | .fail =>
      match r.loop side with
      | .reading => some ({ r with forceShutdown := true }.setLoop side (.failed []))
      | .writing rest => some ({ r with forceShutdown := true }.setLoop side (.failed rest))
      | _ => none

/-- `ForwardClientRequest` and `ForwardRemoteResponse` are called for the first time. -/
def start (r : Relay) : Relay :=
  { r with loop := fun _ => .reading }

/-- A read of the handshake, which takes bytes off the stream of the client. -/
def consume (r : Relay) (count : ℕ) : Relay :=
  { r with unread := Function.update r.unread .client ((r.unread .client).drop count) }

/-- A write of the handshake, to the client. -/
def output (r : Relay) (bytes : Bytes) : Relay :=
  { r with written := Function.update r.written .client (r.written .client ++ bytes) }

/-! ## Nothing is lost -/

variable {r r' : Relay} {whole : Side → Bytes} {side : Side} {completion : Completion}

/-- What the loops carry are these bytes, whole and in order, and a socket is only shut down behind
the last of them. -/
structure Carries (whole : Side → Bytes) (r : Relay) : Prop where
  carried : ∀ side, r.written side.other ++ (r.loop side).pending ++ r.unread side = whole side
  ended : ∀ side, r.loop side = .ended → r.unread side = []
  shutdown : ∀ side, r.shutdown side.other = true → r.loop side = .ended

theorem Carries.start (h : Carries whole r) (hidle : ∀ side, r.loop side = .idle)
    (hopen : ∀ side, r.shutdown side = false) : Carries whole r.start where
  carried side := by
    have hcarried := h.carried side
    rw [hidle side] at hcarried
    exact hcarried
  ended side hended := nomatch hended
  shutdown side hshutdown := by
    rw [Relay.start, hopen] at hshutdown
    exact nomatch hshutdown

/-- A loop that has not ended has not shut the other side down. -/
theorem Carries.open_of_loop (h : Carries whole r) (hloop : r.loop side ≠ .ended) :
    r.shutdown side.other ≠ true :=
  fun hshutdown => hloop (h.shutdown side hshutdown)

theorem Carries.of_loop (h : Carries whole r) {loop : Loop} (hloop : r.loop side ≠ .ended)
    (hmoved : r'.loop = Function.update r.loop side loop) (hgoes : loop ≠ .ended)
    (hshutdown : r'.shutdown = r.shutdown)
    (hwritten : r'.written side = r.written side) (hunread : r'.unread side.other = r.unread side.other)
    (hcarried : r'.written side.other ++ loop.pending ++ r'.unread side =
      r.written side.other ++ (r.loop side).pending ++ r.unread side) : Carries whole r' where
  carried := by
    refine Side.forall_of side ?_ ?_
    · rw [hmoved, Function.update_self, hcarried]
      exact h.carried side
    · rw [hmoved, Function.update_of_ne side.other_ne, side.other_other, hwritten, hunread]
      simpa using h.carried side.other
  ended := by
    refine Side.forall_of side (fun hended => ?_) (fun hended => ?_)
    · rw [hmoved, Function.update_self] at hended
      exact absurd hended hgoes
    · rw [hmoved, Function.update_of_ne side.other_ne] at hended
      rw [hunread]
      exact h.ended side.other hended
  shutdown := by
    rw [hshutdown]
    refine Side.forall_of side (fun hdown => absurd hdown (h.open_of_loop hloop)) (fun hdown => ?_)
    rw [hmoved, Function.update_of_ne side.other_ne]
    exact h.shutdown side.other hdown

theorem Carries.read (h : Carries whole r) (hloop : r.loop side = .reading) (count : ℕ) :
    Carries whole (r.read side count) := by
  refine h.of_loop (by simp [hloop]) rfl nofun rfl rfl ?_ ?_
  · exact Function.update_of_ne side.other_ne _ _
  · simp [Relay.read, setLoop, hloop, Loop.pending]

theorem Carries.wrote (h : Carries whole r) {rest : Bytes} (hloop : r.loop side = .writing rest)
    (count : ℕ) : Carries whole (r.wrote side rest count) := by
  have hpending : (if rest.drop count = [] then Loop.reading
      else .writing (rest.drop count)).pending = rest.drop count := by
    split
    · next hdone => rw [hdone]; rfl
    · rfl
  refine h.of_loop (by simp [hloop]) rfl (by split <;> exact nofun) rfl ?_ rfl ?_
  · exact Function.update_of_ne side.ne_other _ _
  · rw [hpending, hloop]
    simp [Relay.wrote, setLoop, Loop.pending]

theorem Carries.of_ended (h : Carries whole r) (hloop : r.loop side = .reading)
    (hend : r.unread side = []) (hmoved : r'.loop = Function.update r.loop side .ended)
    (hwritten : r'.written = r.written) (hunread : r'.unread = r.unread)
    (hshutdown : r'.shutdown side = r.shutdown side) : Carries whole r' where
  carried := by
    rw [hmoved, hwritten, hunread]
    refine Side.forall_of side ?_ ?_
    · rw [Function.update_self]
      simpa [hloop, Loop.pending] using h.carried side
    · rw [Function.update_of_ne side.other_ne]
      exact h.carried side.other
  ended := by
    rw [hmoved, hunread]
    refine Side.forall_of side (fun _ => hend) (fun hended => ?_)
    rw [Function.update_of_ne side.other_ne] at hended
    exact h.ended side.other hended
  shutdown := by
    rw [hmoved]
    refine Side.forall_of side (fun _ => Function.update_self ..) (fun hdown => ?_)
    rw [side.other_other, hshutdown] at hdown
    rw [Function.update_of_ne side.other_ne]
    exact h.shutdown side.other (by rw [side.other_other]; exact hdown)

theorem Carries.eof (h : Carries whole r) (hloop : r.loop side = .reading)
    (hunread : r.unread side = []) :
    Carries whole (({ r with disconnected := Function.update r.disconnected side true }.setLoop side
      .ended).shutdownWriteSafe side.other) := by
  rw [shutdownWriteSafe]
  split
  · exact h.of_ended hloop hunread rfl rfl rfl rfl
  · exact h.of_ended hloop hunread rfl rfl rfl (Function.update_of_ne side.ne_other _ _)

theorem Carries.fail (h : Carries whole r) {loop : Loop} (hloop : r.loop side ≠ .ended)
    (hpending : loop.pending = (r.loop side).pending) (hgoes : loop ≠ .ended) :
    Carries whole ({ r with forceShutdown := true }.setLoop side loop) :=
  h.of_loop hloop rfl hgoes rfl rfl rfl (by rw [hpending]; rfl)

theorem Carries.forward (h : Carries whole r) (hstep : r.forward side completion = some r') :
    Carries whole r' := by
  cases completion with
  | read count =>
      rw [Relay.forward] at hstep
      split at hstep
      · next hready =>
          obtain rfl := Option.some.inj hstep
          exact h.read hready.1 count
      · exact nomatch hstep
  | eof =>
      rw [Relay.forward] at hstep
      split at hstep
      · next hready =>
          obtain rfl := Option.some.inj hstep
          exact h.eof hready.1 hready.2
      · exact nomatch hstep
  | wrote count =>
      rw [Relay.forward] at hstep
      split at hstep
      · next rest hloop =>
          split at hstep
          · obtain rfl := Option.some.inj hstep
            exact h.wrote hloop count
          · exact nomatch hstep
      · exact nomatch hstep
  | fail =>
      rw [Relay.forward] at hstep
      split at hstep
      · next hloop =>
          obtain rfl := Option.some.inj hstep
          exact h.fail (by simp [hloop]) (by rw [hloop]; rfl) nofun
      · next rest hloop =>
          obtain rfl := Option.some.inj hstep
          exact h.fail (by simp [hloop]) (by rw [hloop]; rfl) nofun
      · exact nomatch hstep

theorem forward_unread (hstep : r.forward side completion = some r') (x : Side) :
    r'.unread x <:+ r.unread x := by
  cases completion with
  | read count =>
      rw [Relay.forward] at hstep
      split at hstep
      · obtain rfl := Option.some.inj hstep
        revert x
        refine Side.forall_of side ?_ ?_
        · simpa [Relay.read, setLoop] using List.drop_suffix count (r.unread side)
        · simp [Relay.read, setLoop]
      · exact nomatch hstep
  | eof =>
      rw [Relay.forward] at hstep
      split at hstep
      · obtain rfl := Option.some.inj hstep
        rw [shutdownWriteSafe]
        split <;> exact List.suffix_rfl
      · exact nomatch hstep
  | wrote count =>
      rw [Relay.forward] at hstep
      split at hstep
      · split at hstep
        · obtain rfl := Option.some.inj hstep
          exact List.suffix_rfl
        · exact nomatch hstep
      · exact nomatch hstep
  | fail =>
      rw [Relay.forward] at hstep
      split at hstep
      · obtain rfl := Option.some.inj hstep
        exact List.suffix_rfl
      · obtain rfl := Option.some.inj hstep
        exact List.suffix_rfl
      · exact nomatch hstep

/-- What was written to the other side is a prefix, in order and without repetition. -/
theorem Carries.written_isPrefix (h : Carries whole r) (side : Side) :
    r.written side.other <+: whole side :=
  ⟨(r.loop side).pending ++ r.unread side, by rw [← List.append_assoc]; exact h.carried side⟩

/-- Behind the end of its stream, everything of a side was written to the other one. -/
theorem Carries.written_of_ended (h : Carries whole r) (hended : r.loop side = .ended) :
    r.written side.other = whole side := by
  have hcarried := h.carried side
  rw [h.ended side hended, hended] at hcarried
  simpa [Loop.pending] using hcarried

/-! ## Before the start -/

@[simp] theorem unread_consume (r : Relay) (count : ℕ) :
    (r.consume count).unread .client = (r.unread .client).drop count := by
  simp [consume]

@[simp] theorem written_output (r : Relay) (bytes : Bytes) :
    (r.output bytes).written .client = r.written .client ++ bytes := by
  simp [output]

variable {rest all : Bytes}

theorem output_append_drop (hall : r.written .client ++ rest = all) (count : ℕ) :
    (r.output (rest.take count)).written .client ++ rest.drop count = all := by
  rw [written_output, List.append_assoc, List.take_append_drop, hall]

theorem output_of_drop_eq_nil (hall : r.written .client ++ rest = all) {count : ℕ}
    (hdone : rest.drop count = []) : (r.output (rest.take count)).written .client = all := by
  have hwritten := output_append_drop hall count
  rwa [hdone, List.append_nil] at hwritten

/-- The relay before it is started. -/
structure Quiet (remote : Bytes) (r : Relay) : Prop where
  idle : ∀ side, r.loop side = .idle
  shutdown : ∀ side, r.shutdown side = false
  unread : r.unread .remote = remote
  written : r.written .remote = []

/-- The bytes that the relay is to carry from a side, with all that was written before them. -/
def carriage (payload told remote : Bytes) : Side → Bytes
  | .client => payload
  | .remote => told ++ remote

variable {remote : Bytes}

theorem Quiet.consume (h : Quiet remote r) (count : ℕ) : Quiet remote (r.consume count) where
  idle := h.idle
  shutdown := h.shutdown
  unread := by
    rw [← h.unread]
    simp [Relay.consume]
  written := h.written

theorem Quiet.output (h : Quiet remote r) (bytes : Bytes) : Quiet remote (r.output bytes) where
  idle := h.idle
  shutdown := h.shutdown
  unread := h.unread
  written := by
    rw [← h.written]
    simp [Relay.output]

theorem Quiet.carries (h : Quiet remote r) :
    r.start.Carries (carriage (r.unread .client) (r.written .client) remote) := by
  refine Carries.start ⟨?_, ?_, ?_⟩ h.idle h.shutdown
  · intro side
    rw [h.idle side]
    cases side with
    | client => simp [Side.other, h.written, Loop.pending, carriage]
    | remote => simp [Side.other, h.unread, Loop.pending, carriage]
  · intro side hended
    rw [h.idle side] at hended
    exact nomatch hended
  · intro side hdown
    rw [h.shutdown] at hdown
    exact nomatch hdown

end Relay

/-- What a write that gets on leaves to write. -/
theorem cases_of_progress {T : Type} {rest : Bytes} {count : ℕ} {t done more : T}
    (hstep : (if 0 < count ∧ count ≤ rest.length then
      some (if rest.drop count = [] then done else more) else none) = some t) :
    rest.drop count = [] ∧ t = done ∨
      rest.drop count ≠ [] ∧ (rest.drop count).length < rest.length ∧ t = more := by
  obtain ⟨⟨hpos, hle⟩, heq⟩ := Option.ite_none_right_eq_some.mp hstep
  obtain rfl := Option.some.inj heq
  by_cases hdone : rest.drop count = []
  · exact .inl ⟨hdone, if_pos hdone⟩
  · refine .inr ⟨hdone, ?_, if_neg hdone⟩
    rw [List.length_drop]
    omega

end Eureka.Socks

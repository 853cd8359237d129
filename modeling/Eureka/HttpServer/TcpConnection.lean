import Eureka.Bytes
import Eureka.Library.TextSearch
import Eureka.Library.Transition

/-!
# A connection of the HTTP server

`Read` and `Write` of `tcp_connection.cpp`, as a worker calls them: `Read` while
the connection is registered for input and `Write` while it is for output; it is
registered again when a call ends, so calls on one connection do not overlap.
`Read` appends what it receives to `request_` and looks for the end of the
request only where the last piece can have completed it.

* `isRequestComplete_iff`: that is enough, as long as the request was not
  complete before the piece.
* `prepared_at_first`: the response is prepared behind the first piece with
  which the request is complete, and behind no other one.
-/

namespace Eureka.HttpServer

open TextSearch Transition

def kTerminator : Bytes := ascii "\r\n\r\n"

def isRequestComplete (req : Bytes) (bytesRead : ℕ) : Bool :=
  let lastSize := req.length - bytesRead
  -- `\r\n\r` may be the end of what was received before.
  let startPos := if lastSize > 3 then lastSize - 3 else 0
  (find req kTerminator startPos).isSome

/-- The events that a connection is registered for. -/
inductive Interest
  | input
  | output
  deriving DecidableEq

/-- The pieces since `request_` was empty, and the numbers of them that were there when
`PrepareResponse` was called, are not in the code. -/
structure TcpConnection where
  request : Bytes
  response : Bytes
  responseSent : ℕ
  interest : Interest
  received : List Bytes
  prepared : List ℕ

namespace TcpConnection

def construct : TcpConnection := ⟨[], [], 0, .input, [], []⟩

/-- `PrepareResponse`; the files on the disk say how to respond to a request. -/
def prepareResponse (respond : Bytes → Bytes) (conn : TcpConnection) : TcpConnection :=
  { conn with
    response := respond conn.request
    responseSent := 0
    interest := .output
    prepared := conn.prepared ++ [conn.received.length] }

def receive (conn : TcpConnection) (piece : Bytes) : TcpConnection :=
  { conn with
    request := conn.request ++ piece
    received := conn.received ++ [piece] }

/-- A call of `Read`, with what `recv` returns: nothing if it fails, an empty piece if the client has
disconnected.  Behind the last result there is nothing to receive. -/
def read (respond : Bytes → Bytes) (conn : TcpConnection) : List (Option Bytes) → TcpConnection
  | [] => conn
  | none :: _ => conn
  | some [] :: _ => conn
  | some (first :: others) :: rest =>
      let conn := conn.receive (first :: others)
      if isRequestComplete conn.request (first :: others).length then conn.prepareResponse respond
      else read respond conn rest

/-- A call of `Write`, with what `send` returns. -/
def write (conn : TcpConnection) : List (Option ℕ) → TcpConnection
  | [] => conn
  | none :: _ => conn
  | some 0 :: _ => conn
  | some (sent + 1) :: rest =>
      let conn := { conn with responseSent := conn.responseSent + (sent + 1) }
      if conn.responseSent = conn.response.length then
        { conn with request := [], interest := .input, received := [], prepared := [] }
      else write conn rest

end TcpConnection

inductive Event
  | input (results : List (Option Bytes))
  | output (results : List (Option ℕ))

/-- What a worker does about an event. -/
def handle (respond : Bytes → Bytes) (conn : TcpConnection) (event : Event) :
    Option TcpConnection :=
  match event with
  | .input results => if conn.interest = .input then some (conn.read respond results) else none
  | .output results => if conn.interest = .output then some (conn.write results) else none

def connection (respond : Bytes → Bytes) : System TcpConnection Event where
  start conn := conn = .construct
  step := handle respond

/-! ## The end of a request -/

/-- The text contains the terminator. -/
def Complete (text : Bytes) : Prop := kTerminator <:+: text

/-- The text is complete with these many pieces, and was not before. -/
structure CompleteFirst (pieces : List Bytes) (count : ℕ) : Prop where
  le_length : count ≤ pieces.length
  complete : Complete (pieces.take count).flatten
  first : ∀ fewer < count, ¬ Complete (pieces.take fewer).flatten

theorem isRequestComplete_iff {old piece : Bytes} (hold : ¬ Complete old) :
    isRequestComplete (old ++ piece) piece.length = true ↔ Complete (old ++ piece) := by
  have hlength : (old ++ piece).length - piece.length = old.length := by
    rw [List.length_append, Nat.add_sub_cancel]
  have hfour : kTerminator.length = 4 := rfl
  unfold isRequestComplete
  dsimp only
  rw [hlength]
  apply find_isSome_iff_of_append hold
  split <;> omega

theorem Complete.mono {text rest : Bytes} (h : Complete text) : Complete (text ++ rest) :=
  List.IsInfix.trans h (List.prefix_append text rest).isInfix

theorem not_complete_nil : ¬ Complete [] := by
  intro h
  cases List.infix_nil.mp h

/-! ## What the calls keep -/

/-- `Read` goes on with an incomplete request; a complete one has become so with its last piece. -/
structure Inv (conn : TcpConnection) : Prop where
  request_eq : conn.request = conn.received.flatten
  incomplete : conn.interest = .input → conn.prepared = [] ∧ ¬ Complete conn.request
  complete : conn.interest = .output → conn.prepared = [conn.received.length] ∧
    CompleteFirst conn.received conn.received.length

variable {respond : Bytes → Bytes} {conn conn' : TcpConnection}

theorem inv_construct : Inv .construct where
  request_eq := rfl
  incomplete _ := ⟨rfl, not_complete_nil⟩
  complete h := by cases h

namespace Inv

theorem receive (h : Inv conn) (piece : Bytes) :
    (conn.receive piece).request = (conn.receive piece).received.flatten := by
  show conn.request ++ piece = (conn.received ++ [piece]).flatten
  rw [List.flatten_append, h.request_eq, List.flatten_singleton]

theorem completeFirst (h : Inv conn) (hinput : conn.interest = .input) {piece : Bytes}
    (hcomplete : Complete (conn.request ++ piece)) :
    CompleteFirst (conn.received ++ [piece]) (conn.received ++ [piece]).length where
  le_length := le_rfl
  complete := by
    rw [List.take_length, List.flatten_append, ← h.request_eq, List.flatten_singleton]
    exact hcomplete
  first fewer hfewer hless := by
    rw [List.length_append, List.length_singleton] at hfewer
    apply (h.incomplete hinput).2
    rw [h.request_eq, ← List.take_append_drop fewer conn.received, List.flatten_append]
    rw [List.take_append_of_le_length (by omega)] at hless
    exact hless.mono

theorem read (h : Inv conn) (hinput : conn.interest = .input) (results : List (Option Bytes)) :
    Inv (conn.read respond results) := by
  induction results generalizing conn with
  | nil => exact h
  | cons result rest ih =>
      rcases result with _ | _ | ⟨first, others⟩
      · exact h
      · exact h
      · obtain ⟨hprepared, hincomplete⟩ := h.incomplete hinput
        have hiff : isRequestComplete (conn.request ++ (first :: others)) (first :: others).length =
            true ↔ Complete (conn.request ++ (first :: others)) := isRequestComplete_iff hincomplete
        unfold TcpConnection.read
        dsimp only
        split
        next hfound =>
          refine ⟨h.receive _, fun hcontra => ?_, fun _ => ⟨?_, ?_⟩⟩
          · cases hcontra
          · show conn.prepared ++ [(conn.received ++ [first :: others]).length] = _
            rw [hprepared]
            rfl
          · exact h.completeFirst hinput (hiff.mp hfound)
        next hmissing =>
          refine ih ⟨h.receive _, fun _ => ⟨hprepared, mt hiff.mpr hmissing⟩, fun hcontra => ?_⟩
            hinput
          cases hinput.symm.trans hcontra

theorem write (h : Inv conn) (results : List (Option ℕ)) : Inv (conn.write results) := by
  induction results generalizing conn with
  | nil => exact h
  | cons result rest ih =>
      rcases result with _ | _ | sent
      · exact h
      · exact h
      · unfold TcpConnection.write
        dsimp only
        split
        · refine ⟨rfl, fun _ => ⟨rfl, not_complete_nil⟩, fun hcontra => ?_⟩
          cases hcontra
        · exact ih ⟨h.request_eq, h.incomplete, h.complete⟩

theorem handle (h : Inv conn) {event : Event} (hstep : handle respond conn event = some conn') :
    Inv conn' := by
  cases event with
  | input results =>
      obtain ⟨hinput, heq⟩ := Option.ite_none_right_eq_some.mp hstep
      obtain rfl := Option.some.inj heq
      exact h.read hinput results
  | output results =>
      obtain ⟨-, heq⟩ := Option.ite_none_right_eq_some.mp hstep
      obtain rfl := Option.some.inj heq
      exact h.write results

end Inv

theorem inv_of_reachable (hreach : (connection respond).Reachable conn) : Inv conn := by
  refine hreach.invariant (P := Inv) ?_ ?_
  · rintro conn rfl
    exact inv_construct
  · intro conn event conn' h hstep
    exact h.handle hstep

theorem CompleteFirst.unique {pieces : List Bytes} {count count' : ℕ}
    (h : CompleteFirst pieces count) (h' : CompleteFirst pieces count') : count = count' := by
  rcases lt_trichotomy count count' with hlt | heq | hgt
  · exact absurd h.complete (h'.first count hlt)
  · exact heq
  · exact absurd h'.complete (h.first count' hgt)

/-- **The response is prepared once, behind the first piece that completes the request**, however
the pieces are cut and whichever calls of `Read` receive them. -/
theorem prepared_at_first (hreach : (connection respond).Reachable conn) :
    (∀ count, count ∈ conn.prepared ↔ CompleteFirst conn.received count) ∧
      conn.prepared.length ≤ 1 := by
  have h := inv_of_reachable hreach
  cases hinterest : conn.interest with
  | input =>
      obtain ⟨hprepared, hincomplete⟩ := h.incomplete hinterest
      rw [hprepared]
      refine ⟨fun count => iff_of_false (by simp) fun hcount => hincomplete ?_, Nat.zero_le 1⟩
      rw [h.request_eq, ← List.take_append_drop count conn.received, List.flatten_append]
      exact hcount.complete.mono
  | output =>
      obtain ⟨hprepared, hcomplete⟩ := h.complete hinterest
      rw [hprepared]
      refine ⟨fun count => ?_, le_rfl⟩
      rw [List.mem_singleton]
      constructor
      · rintro rfl
        exact hcomplete
      · intro hcount
        exact hcount.unique hcomplete

/-- The terminator comes in three pieces, of which two calls receive the first and the others. -/
theorem prepared_at_first_straddling :
    ∃ conn, (connection fun _ => ascii "HTTP/1.1 404 Not Found").run .construct
        [.input [some (ascii "GET / HTTP/1.1\r"), none],
          .input [some (ascii "\n\r"), some (ascii "\n")]] = some conn ∧
      conn.prepared = [3] ∧ ∀ count, count ∈ conn.prepared ↔ CompleteFirst conn.received count := by
  have hrun : ((connection fun _ => ascii "HTTP/1.1 404 Not Found").run .construct
      [.input [some (ascii "GET / HTTP/1.1\r"), none],
        .input [some (ascii "\n\r"), some (ascii "\n")]]).map TcpConnection.prepared = some [3] := by
    decide
  obtain ⟨conn, hconn, hprepared⟩ := Option.map_eq_some_iff.mp hrun
  exact ⟨conn, hconn, hprepared, (prepared_at_first ⟨_, _, rfl, hconn⟩).1⟩

end Eureka.HttpServer

import Eureka.Bytes
import Eureka.Library.Transition

/-!
# A chat room of coroutines

`chat_server` and `session`: every session has a coroutine that reads lines and one that
writes what `send` has queued, and sleeps on a timer when there is nothing.  All coroutines
run on one thread, and each one runs until it waits for an operation.  An operation first
completes, and its coroutine goes on later; in between `handle_close` can no longer cancel it.
Taken from asio are `async_read_until` (it looks for the newline in what is there, and reads into
the room that is left), `async_write` (it writes the rest until nothing is left) and the timer,
whose wait ends when it is cancelled.

* `broadcasts_delivered`: what `send` was given is what the socket has taken, what is left of the
  message that is being written, and the queue; the messages of a session in the room are all
  broadcasts since it came in; no writer sleeps with messages queued;
* `messages_framed`: what was received is the lines that were broadcast, and what the buffer holds;
* `after_close`: a closed session is sent nothing more, and says at most one more line.
-/

namespace Eureka.ChatServer

open Transition

/-- The reading coroutine, with its `async_read_some`. -/
inductive ReadOp
  /-- nothing is outstanding: the coroutine starts, or is in the middle of a turn -/
  | running
  | pending
  /-- completed with an error or with what was read, and not yet resumed -/
  | completed (result : Option Bytes)
  | over
deriving DecidableEq, Repr

/-- The writing coroutine, with its `async_wait` or its `async_write_some`. -/
inductive WriteOp
  | starting
  | sleeping
  | awakened
  | pending (rest : Bytes)
  /-- completed with an error or with the number of bytes that were written, and not yet resumed -/
  | completed (rest : Bytes) (result : Option ℕ)
  | over (rest : Bytes)
deriving DecidableEq, Repr

/-- What is left to write of the message that the coroutine has in hand. -/
def WriteOp.rest : WriteOp → Bytes
  | .starting | .sleeping | .awakened => []
  | .pending rest | .completed rest _ | .over rest => rest

/-- A session, with logs: the messages of `send`, the bytes that the socket has taken, those that
it has given, and the messages of `on_message_`. -/
structure Session where
  closed : Bool
  readOp : ReadOp
  msgBuf : Bytes
  writeOp : WriteOp
  msgs : List Bytes
  sent : List Bytes
  written : Bytes
  received : Bytes
  said : List Bytes
deriving DecidableEq, Repr

def maxBufSize : ℕ := 1024

def newline : Byte := 10

namespace Session

def make : Session := ⟨false, .running, [], .starting, [], [], [], [], []⟩

/-- `send`; `cancel_one` completes the wait of the writer. -/
def send (c : Session) (msg : Bytes) : Session :=
  { c with
    msgs := c.msgs ++ [msg]
    writeOp := if c.writeOp = .sleeping then .awakened else c.writeOp
    sent := c.sent ++ [msg] }

/-- The cancellations of `handle_close`: what has completed is not touched. -/
def cancel (c : Session) : Session :=
  { c with
    closed := true
    readOp := if c.readOp = .pending then .completed none else c.readOp
    writeOp := match c.writeOp with
      | .sleeping => .awakened
      | .pending rest => .completed rest none
      | other => other }

/-- The loop of `read` from its top.  A line that is already there is found by a read of nothing. -/
def readLoop (c : Session) : Session :=
  if c.closed then { c with readOp := .over }
  else if newline ∈ c.msgBuf then { c with readOp := .completed (some []) }
  else { c with readOp := .pending }

def receive (chunk : Bytes) (c : Session) : Session :=
  { c with
    readOp := .running
    msgBuf := c.msgBuf ++ chunk
    received := c.received ++ chunk }

def msgCnt (c : Session) : ℕ := c.msgBuf.idxOf newline + 1

/-- The message of `on_message_`. -/
def line (c : Session) : Bytes := c.msgBuf.take c.msgCnt

def eraseLine (c : Session) : Session :=
  { c with msgBuf := c.msgBuf.drop c.msgCnt, said := c.said ++ [c.line] }

/-- The loop of `write` from its top. -/
def writeLoop (c : Session) : Session :=
  if c.closed then { c with writeOp := .over [] }
  else
    match c.msgs with
    | [] => { c with writeOp := .sleeping }
    | msg :: msgs => { c with msgs := msgs, writeOp := .pending msg }

end Session

/-- The server with all sessions that there ever were, and with two logs: the broadcasts, and how
many there were when a session came in. -/
structure Server where
  listening : Bool
  sessions : List ℕ
  nextId : ℕ
  conns : ℕ → Session
  broadcasts : List Bytes
  joined : ℕ → ℕ

/-- What comes out of `async_accept`. -/
inductive Accepted
  | error
  /-- the peer has gone: `remote_endpoint` throws, and ends the coroutine that listens -/
  | unconnected
  | connected
deriving DecidableEq, Repr

namespace Server

def initial : Server := ⟨true, [], 0, fun _ => .make, [], fun _ => 0⟩

def modify (s : Server) (id : ℕ) (change : Session → Session) : Server :=
  { s with conns := Function.update s.conns id (change (s.conns id)) }

/-- One turn of `listen_and_serve`. -/
def accept (s : Server) : Accepted → Server
  | .error => s
  | .unconnected => { s with listening := false }
  | .connected =>
      { s with
        sessions := s.sessions ++ [s.nextId]
        nextId := s.nextId + 1
        conns := Function.update s.conns s.nextId .make
        joined := Function.update s.joined s.nextId s.broadcasts.length }

def broadcastMessage (s : Server) (msg : Bytes) : Server :=
  { s with
    conns := fun other =>
      if other ∈ s.sessions then (s.conns other).send msg else s.conns other
    broadcasts := s.broadcasts ++ [msg] }

/-- `handle_close`, with `remove_session`. -/
def handleClose (s : Server) (id : ℕ) : Server :=
  if (s.conns id).closed then s
  else { s.modify id Session.cancel with sessions := s.sessions.filter (· ≠ id) }

/-- The coroutine `read` ends by an exception. -/
def failRead (s : Server) (id : ℕ) : Server :=
  (s.modify id fun c => { c with readOp := .over }).handleClose id

/-- The coroutine `write` ends by an exception. -/
def failWrite (s : Server) (id : ℕ) : Server :=
  (s.modify id fun c => { c with writeOp := .over c.writeOp.rest }).handleClose id

/-- The coroutine `read` goes on, in `async_read_until` unless it only starts. -/
def resumeRead (s : Server) (id : ℕ) : Option Server :=
  match (s.conns id).readOp with
  | .running => some (s.modify id Session.readLoop)
  | .completed none => some (s.failRead id)
  | .completed (some chunk) =>
      let s := s.modify id (Session.receive chunk)
      let c := s.conns id
      if newline ∈ c.msgBuf then
        some ((s.broadcastMessage c.line).modify id fun c => c.eraseLine.readLoop)
      else if c.msgBuf.length = maxBufSize then some (s.failRead id)
      else some (s.modify id fun c => { c with readOp := .pending })
  | .pending | .over => none

/-- The coroutine `write` goes on. -/
def resumeWrite (s : Server) (id : ℕ) : Option Server :=
  match (s.conns id).writeOp with
  | .starting | .awakened => some (s.modify id Session.writeLoop)
  | .completed _ none => some (s.failWrite id)
  | .completed rest (some n) =>
      some (s.modify id fun c =>
        let c := { c with written := c.written ++ rest.take n }
        if n < rest.length then { c with writeOp := .pending (rest.drop n) } else c.writeLoop)
  | .sleeping | .pending _ | .over _ => none

/-- The read of a session completes: with an error, or with at least one byte and at most as many as
the buffer has room for. -/
def readCompletes (s : Server) (id : ℕ) (result : Option Bytes) : Option Server :=
  let c := s.conns id
  if c.readOp = .pending ∧
      ∀ chunk ∈ result, chunk ≠ [] ∧ c.msgBuf.length + chunk.length ≤ maxBufSize then
    some (s.modify id fun c => { c with readOp := .completed result })
  else none

def writeCompletes (s : Server) (id : ℕ) (result : Option ℕ) : Option Server :=
  match (s.conns id).writeOp with
  | .pending rest =>
      if ∀ n ∈ result, 0 < n ∧ n ≤ rest.length then
        some (s.modify id fun c => { c with writeOp := .completed rest result })
      else none
  | _ => none

end Server

inductive Action
  | accept (accepted : Accepted)
  | readCompletes (id : ℕ) (result : Option Bytes)
  | resumeRead (id : ℕ)
  | writeCompletes (id : ℕ) (result : Option ℕ)
  | resumeWrite (id : ℕ)
deriving DecidableEq, Repr

def servers : System Server Action where
  start s := s = .initial
  step s
    | .accept accepted => if s.listening then some (s.accept accepted) else none
    | .readCompletes id result => if id < s.nextId then s.readCompletes id result else none
    | .resumeRead id => if id < s.nextId then s.resumeRead id else none
    | .writeCompletes id result => if id < s.nextId then s.writeCompletes id result else none
    | .resumeWrite id => if id < s.nextId then s.resumeWrite id else none

/-! ### One session -/

/-- A line that fits into the buffer. -/
def IsLine (line : Bytes) : Prop :=
  ∃ body, line = body ++ [newline] ∧ newline ∉ body ∧ line.length ≤ maxBufSize

namespace Session

/-- What the writing coroutine keeps. -/
structure WriterInv (c : Session) : Prop where
  delivered : c.written ++ c.writeOp.rest ++ c.msgs.flatten = c.sent.flatten
  asleep : c.writeOp = .sleeping → c.msgs = [] ∧ c.closed = false

/-- What the reading coroutine keeps. -/
structure ReaderInv (c : Session) : Prop where
  framed : c.received = c.said.flatten ++ c.msgBuf
  lines : ∀ line ∈ c.said, IsLine line
  bounded : c.msgBuf.length ≤ maxBufSize
  waiting : c.readOp = .pending → newline ∉ c.msgBuf
  room : ∀ chunk, c.readOp = .completed (some chunk) → c.msgBuf.length + chunk.length ≤ maxBufSize

/-- An open session has both of its coroutines. -/
def Alive (c : Session) : Prop :=
  c.closed = false → c.readOp ≠ .over ∧ ∀ rest, c.writeOp ≠ .over rest

variable {c c' : Session}

theorem WriterInv.congr (hw : c.WriterInv) (hclosed : c'.closed = c.closed)
    (hop : c'.writeOp = c.writeOp) (hmsgs : c'.msgs = c.msgs) (hsent : c'.sent = c.sent)
    (hwritten : c'.written = c.written) : c'.WriterInv := by
  constructor
  · rw [hwritten, hop, hmsgs, hsent, hw.delivered]
  · rw [hop, hmsgs, hclosed]
    exact hw.asleep

theorem ReaderInv.congr (hr : c.ReaderInv) (hop : c'.readOp = c.readOp)
    (hbuf : c'.msgBuf = c.msgBuf) (hreceived : c'.received = c.received)
    (hsaid : c'.said = c.said) : c'.ReaderInv := by
  constructor
  · rw [hreceived, hsaid, hbuf, hr.framed]
  · rw [hsaid]
    exact hr.lines
  · rw [hbuf]
    exact hr.bounded
  · rw [hop, hbuf]
    exact hr.waiting
  · rw [hop, hbuf]
    exact hr.room

theorem make_inv : make.WriterInv ∧ make.ReaderInv ∧ make.Alive := by
  refine ⟨⟨rfl, nofun⟩, ⟨rfl, nofun, Nat.zero_le _, nofun, nofun⟩, ?_⟩
  exact fun _ => ⟨nofun, nofun⟩

theorem WriterInv.send (hw : c.WriterInv) (msg : Bytes) : (c.send msg).WriterInv := by
  constructor
  · have hrest : (c.send msg).writeOp.rest = c.writeOp.rest := by
      simp only [Session.send]
      split
      · simp [*, WriteOp.rest]
      · rfl
    calc c.written ++ (c.send msg).writeOp.rest ++ (c.msgs ++ [msg]).flatten
      _ = c.written ++ c.writeOp.rest ++ c.msgs.flatten ++ msg := by simp [hrest]
      _ = c.sent.flatten ++ msg := by rw [hw.delivered]
      _ = (c.sent ++ [msg]).flatten := by simp
  · intro hasleep
    simp only [Session.send] at hasleep
    split at hasleep
    · exact nomatch hasleep
    · contradiction

theorem send_alive (halive : c.Alive) (msg : Bytes) : (c.send msg).Alive := by
  intro hopen
  obtain ⟨hread, hwrite⟩ := halive hopen
  refine ⟨hread, fun rest => ?_⟩
  simp only [Session.send]
  split
  · exact nofun
  · exact hwrite rest

theorem cancel_rest (c : Session) : c.cancel.writeOp.rest = c.writeOp.rest := by
  rw [cancel]
  cases hop : c.writeOp <;> rfl

theorem WriterInv.cancel (hw : c.WriterInv) : c.cancel.WriterInv := by
  constructor
  · rw [cancel_rest]
    exact hw.delivered
  · intro hasleep
    rw [Session.cancel] at hasleep
    cases hop : c.writeOp <;> simp [hop] at hasleep

theorem ReaderInv.cancel (hr : c.ReaderInv) : c.cancel.ReaderInv := by
  refine ⟨hr.framed, hr.lines, hr.bounded, ?_, ?_⟩
  · intro hop
    simp only [Session.cancel] at hop
    split at hop
    · exact nomatch hop
    · contradiction
  · intro chunk hop
    simp only [Session.cancel] at hop
    split at hop
    · exact nomatch hop
    · exact hr.room chunk hop

theorem WriterInv.writeLoop (hdelivered : c.written ++ c.msgs.flatten = c.sent.flatten) :
    c.writeLoop.WriterInv := by
  rw [Session.writeLoop]
  split
  · exact ⟨by simpa [WriteOp.rest] using hdelivered, nofun⟩
  · rename_i hopen
    cases hmsgs : c.msgs with
    | nil =>
        refine ⟨by simpa [WriteOp.rest, hmsgs] using hdelivered, fun _ => ⟨rfl, ?_⟩⟩
        simpa using hopen
    | cons msg msgs => exact ⟨by simpa [WriteOp.rest, hmsgs] using hdelivered, nofun⟩

theorem ReaderInv.readLoop (hframed : c.received = c.said.flatten ++ c.msgBuf)
    (hlines : ∀ line ∈ c.said, IsLine line) (hbounded : c.msgBuf.length ≤ maxBufSize) :
    c.readLoop.ReaderInv := by
  rw [Session.readLoop]
  split
  · exact ⟨hframed, hlines, hbounded, nofun, nofun⟩
  · split
    · refine ⟨hframed, hlines, hbounded, nofun, ?_⟩
      rintro chunk hop
      obtain rfl : [] = chunk := by simpa using hop
      exact hbounded
    · exact ⟨hframed, hlines, hbounded, fun _ => by assumption, nofun⟩

/-- The top of the loop of `read` settles the reading coroutine and nothing else, and does not end
it while the session is open. -/
theorem readLoop_eq (c : Session) :
    ∃ op, c.readLoop = { c with readOp := op } ∧ (c.closed = false → op ≠ .over) := by
  rw [Session.readLoop]
  split
  · rename_i hclosed
    exact ⟨.over, rfl, fun hopen => absurd (hopen.symm.trans hclosed) (by decide)⟩
  · split
    · exact ⟨_, rfl, fun _ => nofun⟩
    · exact ⟨_, rfl, fun _ => nofun⟩

theorem readLoop_kept (hw : c.WriterInv) (halive : c.Alive) :
    c.readLoop.WriterInv ∧ c.readLoop.Alive ∧ c.readLoop.closed = c.closed ∧
      c.readLoop.sent = c.sent := by
  obtain ⟨op, heq, hop⟩ := readLoop_eq c
  rw [heq]
  exact ⟨hw.congr rfl rfl rfl rfl rfl, fun hopen => ⟨hop hopen, (halive hopen).2⟩, rfl, rfl⟩

/-- The top of the loop of `write` takes a message from the queue at most, none if the session is
closed, and does not end the coroutine while it is open. -/
theorem writeLoop_eq (c : Session) :
    ∃ op msgs, c.writeLoop = { c with writeOp := op, msgs := msgs } ∧
      (c.closed = false → ∀ rest, op ≠ .over rest) ∧ (c.closed = true → msgs = c.msgs) := by
  rw [Session.writeLoop]
  split
  · rename_i hclosed
    exact ⟨_, c.msgs, rfl, fun hopen => absurd (hopen.symm.trans hclosed) (by decide), fun _ => rfl⟩
  · rename_i hopen
    split
    · exact ⟨_, c.msgs, rfl, fun _ => nofun, fun _ => rfl⟩
    · exact ⟨_, _, rfl, fun _ => nofun, fun hclosed => absurd hclosed hopen⟩

theorem writeLoop_kept (hr : c.ReaderInv) (halive : c.closed = false → c.readOp ≠ .over) :
    c.writeLoop.ReaderInv ∧ c.writeLoop.Alive ∧ c.writeLoop.closed = c.closed ∧
      c.writeLoop.sent = c.sent := by
  obtain ⟨op, msgs, heq, hop, -⟩ := writeLoop_eq c
  rw [heq]
  exact ⟨hr.congr rfl rfl rfl rfl, fun hopen => ⟨halive hopen, hop hopen⟩, rfl, rfl⟩

theorem isLine_line (hbuf : newline ∈ c.msgBuf) (hbounded : c.msgBuf.length ≤ maxBufSize) :
    IsLine c.line := by
  have hlt : c.msgBuf.idxOf newline < c.msgBuf.length := List.idxOf_lt_length_iff.mpr hbuf
  refine ⟨c.msgBuf.take (c.msgBuf.idxOf newline), ?_, ?_, ?_⟩
  · rw [line, msgCnt, List.take_add_one, List.getElem?_eq_getElem hlt, List.getElem_idxOf hlt]
    rfl
  · intro hmem
    obtain ⟨i, hi, heq⟩ := List.mem_take_iff_getElem.mp hmem
    have hi' : i < c.msgBuf.idxOf newline := by omega
    exact absurd heq (by simpa using List.not_of_lt_findIdx hi')
  · exact (List.length_take_le' _ _).trans hbounded

end Session

/-! ### The server -/

namespace Server

@[simp]
theorem modify_conns (s : Server) (id : ℕ) (change : Session → Session) (other : ℕ) :
    (s.modify id change).conns other =
      if other = id then change (s.conns id) else s.conns other := by
  simp only [modify, Function.update_apply]

theorem modify_forall {s : Server} {id : ℕ} {change : Session → Session} {P : ℕ → Session → Prop}
    (hself : P id (change (s.conns id))) (hothers : ∀ other, other ≠ id → P other (s.conns other))
    (other : ℕ) : P other ((s.modify id change).conns other) := by
  rw [modify_conns]
  split
  · next heq => exact heq ▸ hself
  · next hne => exact hothers other hne

structure Inv (s : Server) : Prop where
  writer : ∀ id, (s.conns id).WriterInv
  reader : ∀ id, (s.conns id).ReaderInv
  alive : ∀ id, (s.conns id).Alive
  /-- the sessions in the room are the open ones -/
  inside : ∀ id, id ∈ s.sessions ↔ id < s.nextId ∧ (s.conns id).closed = false
  old : ∀ id, (s.conns id).closed = true → id < s.nextId
  cameIn : ∀ id < s.nextId, s.joined id ≤ s.broadcasts.length
  since : ∀ id ∈ s.sessions, (s.conns id).sent = s.broadcasts.drop (s.joined id)
  before : ∀ id < s.nextId, (s.conns id).sent <+: s.broadcasts.drop (s.joined id)

variable {s : Server} {id : ℕ}

theorem Inv.modify (hI : s.Inv) {change : Session → Session}
    (hw : (change (s.conns id)).WriterInv) (hr : (change (s.conns id)).ReaderInv)
    (halive : (change (s.conns id)).Alive)
    (hclosed : (change (s.conns id)).closed = (s.conns id).closed)
    (hsent : (change (s.conns id)).sent = (s.conns id).sent) : (s.modify id change).Inv := by
  have hkept : ∀ other, ((s.modify id change).conns other).closed = (s.conns other).closed ∧
      ((s.modify id change).conns other).sent = (s.conns other).sent :=
    modify_forall (P := fun other c => c.closed = (s.conns other).closed ∧
      c.sent = (s.conns other).sent) ⟨hclosed, hsent⟩ fun _ _ => ⟨rfl, rfl⟩
  refine ⟨modify_forall (P := fun _ c => c.WriterInv) hw fun other _ => hI.writer other,
    modify_forall (P := fun _ c => c.ReaderInv) hr fun other _ => hI.reader other,
    modify_forall (P := fun _ c => c.Alive) halive fun other _ => hI.alive other,
    fun other => ?_, fun other => ?_, hI.cameIn, fun other => ?_, fun other => ?_⟩
  · rw [(hkept other).1]
    exact hI.inside other
  · rw [(hkept other).1]
    exact hI.old other
  · rw [(hkept other).2]
    exact hI.since other
  · rw [(hkept other).2]
    exact hI.before other

theorem Inv.fail (hI : s.Inv) (hid : id < s.nextId) {change : Session → Session}
    (hw : (change (s.conns id)).WriterInv) (hr : (change (s.conns id)).ReaderInv)
    (hclosed : (change (s.conns id)).closed = (s.conns id).closed)
    (hsent : (change (s.conns id)).sent = (s.conns id).sent) :
    ((s.modify id change).handleClose id).Inv := by
  have hconn : (s.modify id change).conns id = change (s.conns id) := by
    rw [modify_conns, if_pos rfl]
  rw [handleClose, hconn, hclosed]
  split
  · rename_i halready
    refine hI.modify hw hr (fun hopen => ?_) hclosed hsent
    exact absurd (hopen.symm.trans (hclosed.trans halready)) (by decide)
  · have hconns : ∀ {P : ℕ → Session → Prop}, P id (change (s.conns id)).cancel →
        (∀ other, other ≠ id → P other (s.conns other)) →
        ∀ other, P other (((s.modify id change).modify id Session.cancel).conns other) := by
      intro P hself hothers
      refine modify_forall (by rwa [hconn]) fun other hne => ?_
      rw [modify_conns, if_neg hne]
      exact hothers other hne
    refine ⟨hconns (P := fun _ c => c.WriterInv) hw.cancel fun other _ => hI.writer other,
      hconns (P := fun _ c => c.ReaderInv) hr.cancel fun other _ => hI.reader other,
      hconns (P := fun _ c => c.Alive) (fun hopen => nomatch hopen) fun other _ => hI.alive other,
      hconns (P := fun other c => other ∈ s.sessions.filter (· ≠ id) ↔
        other < s.nextId ∧ c.closed = false) ?_ fun other hne => ?_,
      hconns (P := fun other c => c.closed = true → other < s.nextId) (fun _ => hid)
        fun other _ => hI.old other, hI.cameIn, ?_,
      hconns (P := fun other c => other < s.nextId →
        c.sent <+: s.broadcasts.drop (s.joined other)) ?_ fun other _ => hI.before other⟩
    · simp [Session.cancel]
    · simpa [hne] using hI.inside other
    · intro other hother
      obtain ⟨hother, hne⟩ := List.mem_filter.mp hother
      have hne : other ≠ id := by simpa using hne
      rw [show (((s.modify id change).modify id Session.cancel).conns other) = s.conns other by
        rw [modify_conns, if_neg hne, modify_conns, if_neg hne]]
      exact hI.since other hother
    · intro hother
      exact hsent ▸ hI.before id hother

/-- A new session has been sent nothing, and nothing was broadcast since it came in. -/
theorem Inv.accept (hI : s.Inv) (accepted : Accepted) : (s.accept accepted).Inv := by
  cases accepted with
  | error => exact hI
  | unconnected =>
      exact ⟨hI.writer, hI.reader, hI.alive, hI.inside, hI.old, hI.cameIn, hI.since, hI.before⟩
  | connected =>
      obtain ⟨hw, hr, halive⟩ := Session.make_inv
      have hcases : ∀ {P : ℕ → Session → ℕ → Prop}, P s.nextId .make s.broadcasts.length →
          (∀ other, other ≠ s.nextId → P other (s.conns other) (s.joined other)) →
          ∀ other, P other ((s.accept .connected).conns other)
            ((s.accept .connected).joined other) := by
        intro P hnew hold other
        simp only [Server.accept]
        by_cases heq : other = s.nextId
        · rw [heq, Function.update_self, Function.update_self]
          exact hnew
        · rw [Function.update_of_ne heq, Function.update_of_ne heq]
          exact hold other heq
      have hlt : ∀ other, other ≠ s.nextId → (other < s.nextId + 1 ↔ other < s.nextId) := by
        omega
      refine ⟨hcases (P := fun _ c _ => c.WriterInv) hw fun other _ => hI.writer other,
        hcases (P := fun _ c _ => c.ReaderInv) hr fun other _ => hI.reader other,
        hcases (P := fun _ c _ => c.Alive) halive fun other _ => hI.alive other,
        hcases (P := fun other c _ => other ∈ s.sessions ++ [s.nextId] ↔
          other < s.nextId + 1 ∧ c.closed = false) ?_ fun other hne => ?_,
        hcases (P := fun other c _ => c.closed = true → other < s.nextId + 1) nofun
          fun other _ hclosed => (hI.old other hclosed).trans (Nat.lt_succ_self _),
        hcases (P := fun other _ joined => other < s.nextId + 1 → joined ≤ s.broadcasts.length)
          (fun _ => le_rfl) fun other hne hother => hI.cameIn other ((hlt other hne).mp hother),
        hcases (P := fun other c joined => other ∈ s.sessions ++ [s.nextId] →
          c.sent = s.broadcasts.drop joined) (fun _ => List.drop_length.symm)
          fun other hne hother => hI.since other (by simpa [hne] using hother),
        hcases (P := fun other c joined => other < s.nextId + 1 →
          c.sent <+: s.broadcasts.drop joined) (fun _ => List.nil_prefix)
          fun other hne hother => hI.before other ((hlt other hne).mp hother)⟩
      · simp [Session.make]
      · simpa [hne, hlt other hne] using hI.inside other

theorem Inv.broadcastMessage (hI : s.Inv) (msg : Bytes) : (s.broadcastMessage msg).Inv := by
  have hdrop : ∀ other < s.nextId, (s.broadcasts ++ [msg]).drop (s.joined other) =
      s.broadcasts.drop (s.joined other) ++ [msg] := by
    intro other hother
    exact List.drop_append_of_le_length (hI.cameIn other hother)
  have hclosed : ∀ other, ((s.broadcastMessage msg).conns other).closed =
      (s.conns other).closed := by
    intro other
    simp only [Server.broadcastMessage]
    split <;> rfl
  refine ⟨?_, ?_, ?_, ?_, ?_, ?_, ?_, ?_⟩
  · intro other
    simp only [Server.broadcastMessage]
    split
    · exact (hI.writer other).send msg
    · exact hI.writer other
  · intro other
    simp only [Server.broadcastMessage]
    split
    · exact (hI.reader other).congr rfl rfl rfl rfl
    · exact hI.reader other
  · intro other
    simp only [Server.broadcastMessage]
    split
    · exact Session.send_alive (hI.alive other) msg
    · exact hI.alive other
  · intro other
    rw [hclosed]
    exact hI.inside other
  · intro other
    rw [hclosed]
    exact hI.old other
  · intro other hother
    refine (hI.cameIn other hother).trans ?_
    simp [Server.broadcastMessage]
  · intro other hother
    have hid := ((hI.inside other).mp hother).1
    have hsince := hI.since other hother
    simp only [Server.broadcastMessage] at hother ⊢
    rw [if_pos hother, hdrop other hid, ← hsince]
    rfl
  · intro other hother
    simp only [Server.broadcastMessage]
    rw [hdrop other hother]
    split
    · rename_i hinside
      rw [← hI.since other hinside]
      exact List.prefix_refl _
    · exact (hI.before other hother).trans (List.prefix_append ..)

theorem Inv.failRead (hI : s.Inv) (hid : id < s.nextId) : (s.failRead id).Inv := by
  have hr := hI.reader id
  have hw := hI.writer id
  exact hI.fail hid (hw.congr rfl rfl rfl rfl rfl)
    ⟨hr.framed, hr.lines, hr.bounded, nofun, nofun⟩ rfl rfl

theorem Inv.failWrite (hI : s.Inv) (hid : id < s.nextId) : (s.failWrite id).Inv := by
  have hr := hI.reader id
  have hw := hI.writer id
  exact hI.fail hid ⟨hw.delivered, nofun⟩ (hr.congr rfl rfl rfl rfl) rfl rfl

theorem Inv.readLoop (hI : s.Inv) (id : ℕ) : (s.modify id Session.readLoop).Inv := by
  have hr := hI.reader id
  obtain ⟨hw, halive, hclosed, hsent⟩ := Session.readLoop_kept (hI.writer id) (hI.alive id)
  exact hI.modify hw (.readLoop hr.framed hr.lines hr.bounded) halive hclosed hsent

theorem Inv.eraseLine (hI : s.Inv) (hline : newline ∈ (s.conns id).msgBuf) :
    (s.modify id fun c => c.eraseLine.readLoop).Inv := by
  have hr := hI.reader id
  have hw : (s.conns id).eraseLine.WriterInv := (hI.writer id).congr rfl rfl rfl rfl rfl
  obtain ⟨hw, halive, hclosed, hsent⟩ := Session.readLoop_kept hw (hI.alive id)
  refine hI.modify hw (.readLoop ?_ ?_ ?_) halive hclosed hsent
  · calc (s.conns id).received
      _ = (s.conns id).said.flatten ++ (s.conns id).msgBuf := hr.framed
      _ = ((s.conns id).said ++ [(s.conns id).line]).flatten ++ (s.conns id).eraseLine.msgBuf := by
        simp [Session.line, Session.eraseLine]
  · intro line hmem
    rcases List.mem_append.mp hmem with hmem | hmem
    · exact hr.lines line hmem
    · rw [List.mem_singleton.mp hmem]
      exact Session.isLine_line hline hr.bounded
  · simp only [Session.eraseLine, List.length_drop]
    exact (Nat.sub_le _ _).trans hr.bounded

theorem Inv.receive (hI : s.Inv) {chunk : Bytes}
    (hop : (s.conns id).readOp = .completed (some chunk)) :
    (s.modify id (Session.receive chunk)).Inv := by
  have hr := hI.reader id
  refine hI.modify ((hI.writer id).congr rfl rfl rfl rfl rfl) ⟨?_, hr.lines, ?_, nofun, nofun⟩
    (fun hopen => ⟨nofun, (hI.alive id hopen).2⟩) rfl rfl
  · simp only [Session.receive, hr.framed, List.append_assoc]
  · simp only [Session.receive, List.length_append]
    exact hr.room chunk hop

theorem Inv.resumeRead {s' : Server} (hI : s.Inv) (hid : id < s.nextId)
    (hstep : s.resumeRead id = some s') : s'.Inv := by
  rw [Server.resumeRead] at hstep
  split at hstep
  case h_1 hop =>
    obtain rfl := Option.some.inj hstep
    exact hI.readLoop id
  case h_2 hop =>
    obtain rfl := Option.some.inj hstep
    exact hI.failRead hid
  case h_3 chunk hop =>
    have hreceived := hI.receive hop
    simp only at hstep
    set s₁ := s.modify id (Session.receive chunk)
    have hid₁ : id < s₁.nextId := hid
    split at hstep
    · rename_i hline
      obtain rfl := Option.some.inj hstep
      refine (hreceived.broadcastMessage _).eraseLine ?_
      simp only [Server.broadcastMessage]
      split <;> exact hline
    · rename_i hline
      split at hstep
      · obtain rfl := Option.some.inj hstep
        exact hreceived.failRead hid₁
      · obtain rfl := Option.some.inj hstep
        have hr := hreceived.reader id
        refine hreceived.modify ((hreceived.writer id).congr rfl rfl rfl rfl rfl)
          ⟨hr.framed, hr.lines, hr.bounded, fun _ => hline, nofun⟩ ?_ rfl rfl
        exact fun hopen => ⟨nofun, (hreceived.alive id hopen).2⟩
  case h_4 => exact nomatch hstep
  case h_5 => exact nomatch hstep

theorem Inv.writeLoop (hI : s.Inv) (hrest : (s.conns id).writeOp.rest = []) :
    (s.modify id Session.writeLoop).Inv := by
  have hdelivered := (hI.writer id).delivered
  rw [hrest, List.append_nil] at hdelivered
  obtain ⟨hr, halive, hclosed, hsent⟩ :=
    Session.writeLoop_kept (hI.reader id) fun hopen => (hI.alive id hopen).1
  exact hI.modify (.writeLoop hdelivered) hr halive hclosed hsent

theorem Inv.resumeWrite {s' : Server} (hI : s.Inv) (hid : id < s.nextId)
    (hstep : s.resumeWrite id = some s') : s'.Inv := by
  have hw := hI.writer id
  have hr := hI.reader id
  rw [Server.resumeWrite] at hstep
  split at hstep
  case h_1 hop =>
    obtain rfl := Option.some.inj hstep
    exact hI.writeLoop (by rw [hop]; rfl)
  case h_2 hop =>
    obtain rfl := Option.some.inj hstep
    exact hI.writeLoop (by rw [hop]; rfl)
  case h_3 rest hop =>
    obtain rfl := Option.some.inj hstep
    exact hI.failWrite hid
  case h_4 rest n hop =>
    obtain rfl := Option.some.inj hstep
    have hdelivered := hw.delivered
    rw [hop] at hdelivered
    by_cases hlt : n < rest.length
    · simp only [hlt, if_true]
      refine hI.modify ⟨?_, nofun⟩ (hr.congr rfl rfl rfl rfl)
        (fun hopen => ⟨(hI.alive id hopen).1, fun _ => nofun⟩) rfl rfl
      rw [← hdelivered]
      simp [WriteOp.rest]
    · simp only [hlt, if_false]
      have hall : rest.take n = rest := List.take_of_length_le (Nat.le_of_not_lt hlt)
      obtain ⟨hr', halive, hclosed, hsent⟩ := Session.writeLoop_kept
        (c := { s.conns id with written := (s.conns id).written ++ rest.take n })
        (hr.congr rfl rfl rfl rfl) fun hopen => (hI.alive id hopen).1
      refine hI.modify (.writeLoop ?_) hr' halive hclosed hsent
      rw [hall]
      exact hdelivered
  all_goals exact nomatch hstep

theorem Inv.readCompletes {s' : Server} {result : Option Bytes} (hI : s.Inv)
    (hstep : s.readCompletes id result = some s') : s'.Inv := by
  have hr := hI.reader id
  simp only [Server.readCompletes, Option.ite_none_right_eq_some, Option.some.injEq] at hstep
  obtain ⟨⟨-, hroom⟩, rfl⟩ := hstep
  refine hI.modify ((hI.writer id).congr rfl rfl rfl rfl rfl)
    ⟨hr.framed, hr.lines, hr.bounded, nofun, ?_⟩
    (fun hopen => ⟨nofun, (hI.alive id hopen).2⟩) rfl rfl
  intro chunk hop
  obtain rfl : result = some chunk := by simpa using hop
  exact (hroom chunk rfl).2

theorem Inv.writeCompletes {s' : Server} {result : Option ℕ} (hI : s.Inv)
    (hstep : s.writeCompletes id result = some s') : s'.Inv := by
  have hw := hI.writer id
  rw [Server.writeCompletes] at hstep
  split at hstep
  · rename_i rest hop
    simp only [Option.ite_none_right_eq_some, Option.some.injEq] at hstep
    obtain ⟨-, rfl⟩ := hstep
    refine hI.modify ⟨?_, nofun⟩ ((hI.reader id).congr rfl rfl rfl rfl)
      (fun hopen => ⟨(hI.alive id hopen).1, fun _ => nofun⟩) rfl rfl
    simpa only [hop, WriteOp.rest] using hw.delivered
  · exact nomatch hstep

end Server

/-! ### The runs -/

theorem servers_inv {s : Server} (hreach : servers.Reachable s) : s.Inv := by
  refine hreach.invariant ?_ ?_
  · rintro s rfl
    obtain ⟨hw, hr, halive⟩ := Session.make_inv
    refine ⟨fun _ => hw, fun _ => hr, fun _ => halive, ?_, nofun, nofun, nofun, nofun⟩
    simp [Server.initial]
  · intro s action s' hI hstep
    cases action with
    | accept accepted =>
        simp only [servers, Option.ite_none_right_eq_some, Option.some.injEq] at hstep
        obtain ⟨-, rfl⟩ := hstep
        exact hI.accept accepted
    | readCompletes id result =>
        simp only [servers, Option.ite_none_right_eq_some] at hstep
        exact hI.readCompletes hstep.2
    | resumeRead id =>
        simp only [servers, Option.ite_none_right_eq_some] at hstep
        exact hI.resumeRead hstep.1 hstep.2
    | writeCompletes id result =>
        simp only [servers, Option.ite_none_right_eq_some] at hstep
        exact hI.writeCompletes hstep.2
    | resumeWrite id =>
        simp only [servers, Option.ite_none_right_eq_some] at hstep
        exact hI.resumeWrite hstep.1 hstep.2

/-- What a closed session still does: it is sent nothing, it takes nothing from its queue, and it
says a line at most as it ends. -/
structure Winding (c c' : Session) : Prop where
  closed : c'.closed = true
  sent : c'.sent = c.sent
  msgs : c'.msgs = c.msgs
  ended : c.readOp = .over → c'.readOp = .over
  said : c'.said = c.said ∨
    c.readOp ≠ .over ∧ c'.readOp = .over ∧ ∃ line, c'.said = c.said ++ [line]

namespace Winding

variable {c : Session}

theorem refl (hclosed : c.closed = true) : Winding c c :=
  ⟨hclosed, rfl, rfl, id, .inl rfl⟩

theorem trans {c c' c'' : Session} (h : Winding c c') (h' : Winding c' c'') : Winding c c'' := by
  refine ⟨h'.closed, h'.sent.trans h.sent, h'.msgs.trans h.msgs,
    fun hover => h'.ended (h.ended hover), ?_⟩
  rcases h.said with hsame | ⟨hrunning, hover, line, hsaid⟩
  · rcases h'.said with hsame' | ⟨hrunning, hover, line, hsaid⟩
    · exact .inl (hsame'.trans hsame)
    · exact .inr ⟨fun hover => hrunning (h.ended hover), hover, line, hsame ▸ hsaid⟩
  · rcases h'.said with hsame' | ⟨hrunning', -⟩
    · exact .inr ⟨hrunning, h'.ended hover, line, hsame'.trans hsaid⟩
    · exact absurd hover hrunning'

theorem writeLoop (hclosed : c.closed = true) : Winding c c.writeLoop := by
  obtain ⟨op, msgs, heq, -, hmsgs⟩ := c.writeLoop_eq
  rw [heq]
  exact ⟨hclosed, rfl, hmsgs hclosed, id, .inl rfl⟩

theorem readLoop (hclosed : c.closed = true) : c.readLoop = { c with readOp := .over } := by
  rw [Session.readLoop, if_pos hclosed]

end Winding

namespace Server

variable {s s' : Server} {id other : ℕ}

/-- A closed session does not notice changes of others, nor the end of its own coroutines. -/
theorem handleClose_closed (hclosed : (s.conns id).closed = true) (other : ℕ) :
    (s.handleClose other).conns id = s.conns id := by
  rw [handleClose]
  split
  · rfl
  · next hopen =>
      have hne : id ≠ other := fun heq => hopen (heq ▸ hclosed)
      exact (modify_conns ..).trans (if_neg hne)

theorem modify_winding {change : Session → Session} (hclosed : (s.conns id).closed = true)
    (h : id = other → Winding (s.conns id) (change (s.conns id))) :
    Winding (s.conns id) ((s.modify other change).conns id) := by
  rw [modify_conns]
  split
  · next heq =>
      subst heq
      exact h rfl
  · exact .refl hclosed

theorem fail_winding {change : Session → Session} (hclosed : (s.conns id).closed = true)
    (h : id = other → Winding (s.conns id) (change (s.conns id))) :
    Winding (s.conns id) (((s.modify other change).handleClose other).conns id) := by
  have hchange := modify_winding hclosed h
  rwa [handleClose_closed hchange.closed]

theorem resumeRead_winding (hclosed : (s.conns id).closed = true) (hid : id ∉ s.sessions)
    (hstep : s.resumeRead other = some s') : Winding (s.conns id) (s'.conns id) := by
  rw [resumeRead] at hstep
  split at hstep
  case h_1 hop =>
    obtain rfl := Option.some.inj hstep
    refine modify_winding hclosed fun _ => ?_
    rw [Winding.readLoop hclosed]
    exact ⟨hclosed, rfl, rfl, fun _ => rfl, .inl rfl⟩
  case h_2 hop =>
    obtain rfl := Option.some.inj hstep
    exact fail_winding hclosed fun _ => ⟨hclosed, rfl, rfl, fun _ => rfl, .inl rfl⟩
  case h_3 chunk hop =>
    have hreceive : Winding (s.conns id) ((s.modify other (Session.receive chunk)).conns id) := by
      refine modify_winding hclosed fun heq => ⟨hclosed, rfl, rfl, fun hover => ?_, .inl rfl⟩
      subst heq
      exact nomatch hop.symm.trans hover
    have hrunning : id = other →
        ((s.modify other (Session.receive chunk)).conns id).readOp ≠ .over := by
      rintro rfl
      simp [Session.receive]
    have hid₁ : id ∉ (s.modify other (Session.receive chunk)).sessions := hid
    simp only at hstep
    generalize s.modify other (Session.receive chunk) = s₁ at hstep hreceive hrunning hid₁
    have hclosed₁ := hreceive.closed
    split at hstep
    · obtain rfl := Option.some.inj hstep
      have hsame : (s₁.broadcastMessage (s₁.conns other).line).conns id = s₁.conns id := by
        simp only [broadcastMessage, if_neg hid₁]
      refine hreceive.trans ?_
      rw [← hsame]
      refine modify_winding (by rwa [hsame]) fun heq => ?_
      rw [hsame, Winding.readLoop (c := (s₁.conns id).eraseLine) hclosed₁]
      exact ⟨hclosed₁, rfl, rfl, fun _ => rfl, .inr ⟨hrunning heq, rfl, _, rfl⟩⟩
    · split at hstep
      · obtain rfl := Option.some.inj hstep
        refine hreceive.trans (fail_winding hclosed₁ fun _ => ?_)
        exact ⟨hclosed₁, rfl, rfl, fun _ => rfl, .inl rfl⟩
      · obtain rfl := Option.some.inj hstep
        refine hreceive.trans (modify_winding hclosed₁ fun heq => ?_)
        exact ⟨hclosed₁, rfl, rfl, fun hover => absurd hover (hrunning heq), .inl rfl⟩
  all_goals exact nomatch hstep

theorem resumeWrite_winding (hclosed : (s.conns id).closed = true)
    (hstep : s.resumeWrite other = some s') : Winding (s.conns id) (s'.conns id) := by
  have hsame : ∀ {c : Session}, c.closed = true → c.sent = (s.conns id).sent →
      c.msgs = (s.conns id).msgs → c.readOp = (s.conns id).readOp → c.said = (s.conns id).said →
      Winding (s.conns id) c :=
    fun hclosed hsent hmsgs hop hsaid => ⟨hclosed, hsent, hmsgs, hop.trans, .inl hsaid⟩
  rw [resumeWrite] at hstep
  split at hstep
  case h_1 | h_2 =>
    obtain rfl := Option.some.inj hstep
    exact modify_winding hclosed fun _ => .writeLoop hclosed
  case h_3 =>
    obtain rfl := Option.some.inj hstep
    exact fail_winding hclosed fun _ => hsame hclosed rfl rfl rfl rfl
  case h_4 rest n hop =>
    obtain rfl := Option.some.inj hstep
    refine modify_winding hclosed fun _ => ?_
    split
    · exact hsame hclosed rfl rfl rfl rfl
    · exact (hsame (c := { s.conns id with written := (s.conns id).written ++ rest.take n })
        hclosed rfl rfl rfl rfl).trans (.writeLoop hclosed)
  all_goals exact nomatch hstep

end Server

/-- Every step leaves a closed session as it is, or winds it up. -/
theorem servers_winding {s s' : Server} {action : Action} {id : ℕ} (hI : s.Inv)
    (hclosed : (s.conns id).closed = true) (hstep : servers.step s action = some s') :
    Winding (s.conns id) (s'.conns id) := by
  cases action with
  | accept accepted =>
      simp only [servers, Option.ite_none_right_eq_some, Option.some.injEq] at hstep
      obtain ⟨-, rfl⟩ := hstep
      cases accepted with
      | error | unconnected => exact .refl hclosed
      | connected =>
          have hne : id ≠ s.nextId := (hI.old id hclosed).ne
          have hsame : (s.accept .connected).conns id = s.conns id := Function.update_of_ne hne ..
          rw [hsame]
          exact .refl hclosed
  | readCompletes other result =>
      simp only [servers, Server.readCompletes, Option.ite_none_right_eq_some,
        Option.some.injEq] at hstep
      obtain ⟨-, ⟨hop, -⟩, rfl⟩ := hstep
      refine Server.modify_winding hclosed fun heq =>
        ⟨hclosed, rfl, rfl, fun hover => ?_, .inl rfl⟩
      subst heq
      exact nomatch hop.symm.trans hover
  | resumeRead other =>
      simp only [servers, Option.ite_none_right_eq_some] at hstep
      refine Server.resumeRead_winding hclosed (fun hmem => ?_) hstep.2
      exact absurd (((hI.inside id).mp hmem).2.symm.trans hclosed) (by decide)
  | writeCompletes other result =>
      simp only [servers, Server.writeCompletes, Option.ite_none_right_eq_some] at hstep
      obtain ⟨-, hstep⟩ := hstep
      split at hstep
      · simp only [Option.ite_none_right_eq_some, Option.some.injEq] at hstep
        obtain ⟨-, rfl⟩ := hstep
        exact Server.modify_winding hclosed fun _ =>
          ⟨hclosed, rfl, rfl, fun hover => hover, .inl rfl⟩
      · exact nomatch hstep
  | resumeWrite other =>
      simp only [servers, Option.ite_none_right_eq_some] at hstep
      exact Server.resumeWrite_winding hclosed hstep.2

/-- **Every broadcast goes out.**  The sessions in the room are the open ones, and such a session
was sent exactly the broadcasts since it came in; what a session was sent is what its socket has taken,
what is left of the message in hand, and the queue, in this order; and a writer that sleeps has an
empty queue. -/
theorem broadcasts_delivered {s : Server} (hreach : servers.Reachable s) {id : ℕ}
    (hid : id < s.nextId) :
    (id ∈ s.sessions ↔ (s.conns id).closed = false) ∧
      (id ∈ s.sessions → (s.conns id).sent = s.broadcasts.drop (s.joined id)) ∧
      (s.conns id).sent <+: s.broadcasts.drop (s.joined id) ∧
      (s.conns id).written ++ (s.conns id).writeOp.rest ++ (s.conns id).msgs.flatten =
        (s.conns id).sent.flatten ∧
      ((s.conns id).writeOp = .sleeping → (s.conns id).msgs = []) := by
  have hI := servers_inv hreach
  have hw := hI.writer id
  refine ⟨?_, hI.since id, hI.before id hid, hw.delivered, fun hop => (hw.asleep hop).1⟩
  rw [hI.inside id]
  exact and_iff_right hid

/-- Two sessions; the first says a line, which is read in two parts, and both get it. -/
theorem broadcasts_delivered_twoSessions :
    ∃ s, servers.Reachable s ∧ (s.conns 0).written = [104, 10] ∧
      (s.conns 1).writeOp = .pending [104, 10] ∧
      (s.conns 1).written ++ (s.conns 1).writeOp.rest ++ (s.conns 1).msgs.flatten =
        (s.conns 1).sent.flatten := by
  have hfields : (servers.run .initial
      [.accept .connected, .resumeRead 0, .resumeWrite 0, .accept .connected, .resumeWrite 1,
        .readCompletes 0 (some [104]), .resumeRead 0, .readCompletes 0 (some [10]), .resumeRead 0,
        .resumeWrite 0, .writeCompletes 0 (some 2), .resumeWrite 0, .resumeWrite 1]).map
      (fun s => (s.nextId, (s.conns 0).written, (s.conns 1).writeOp)) =
      some (2, [104, 10], .pending [104, 10]) := by
    decide
  obtain ⟨s, hrun, hfields⟩ := Option.map_eq_some_iff.mp hfields
  simp only [Prod.mk.injEq] at hfields
  obtain ⟨hnext, hwritten, hop⟩ := hfields
  have hreach : servers.Reachable s := ⟨.initial, _, rfl, hrun⟩
  obtain ⟨-, -, -, hdelivered, -⟩ := broadcasts_delivered hreach (show 1 < s.nextId by omega)
  exact ⟨s, hreach, hwritten, hop, hdelivered⟩

/-- **Messages are lines.**  What a session has received is its messages and the contents of its
buffer; every message is a line of at most `maxBufSize` bytes; while it waits for more to read no
line is held back; and as long as it is open it goes on reading and writing. -/
theorem messages_framed {s : Server} (hreach : servers.Reachable s) (id : ℕ) :
    (s.conns id).received = (s.conns id).said.flatten ++ (s.conns id).msgBuf ∧
      (∀ line ∈ (s.conns id).said, IsLine line) ∧
      ((s.conns id).readOp = .pending → newline ∉ (s.conns id).msgBuf) ∧
      ((s.conns id).closed = false →
        (s.conns id).readOp ≠ .over ∧ ∀ rest, (s.conns id).writeOp ≠ .over rest) := by
  have hI := servers_inv hreach
  have hr := hI.reader id
  exact ⟨hr.framed, hr.lines, hr.waiting, hI.alive id⟩

/-- A line and a half. -/
theorem messages_framed_half :
    ∃ s, servers.Reachable s ∧ (s.conns 0).readOp = .pending ∧ (s.conns 0).said = [[104, 10]] ∧
      newline ∉ (s.conns 0).msgBuf ∧
      (s.conns 0).received = (s.conns 0).said.flatten ++ (s.conns 0).msgBuf := by
  have hfields : (servers.run .initial
      [.accept .connected, .resumeRead 0, .readCompletes 0 (some [104, 10, 105]),
        .resumeRead 0]).map (fun s => ((s.conns 0).readOp, (s.conns 0).said)) = some (.pending, [[104, 10]]) := by
    decide
  obtain ⟨s, hrun, hfields⟩ := Option.map_eq_some_iff.mp hfields
  simp only [Prod.mk.injEq] at hfields
  obtain ⟨hop, hsaid⟩ := hfields
  have hreach : servers.Reachable s := ⟨.initial, _, rfl, hrun⟩
  obtain ⟨hreceived, -, hwaiting, -⟩ := messages_framed hreach 0
  exact ⟨s, hreach, hop, hsaid, hwaiting hop, hreceived⟩

/-- **After the end.**  In every run on from a state in which a session is closed, it stays closed,
is sent nothing more, takes nothing more from its queue, and says at most one more line. -/
theorem after_close {s s' : Server} (hreach : servers.Reachable s) {id : ℕ}
    (hclosed : (s.conns id).closed = true) {actions : List Action}
    (hrun : servers.run s actions = some s') :
    (s'.conns id).closed = true ∧ (s'.conns id).sent = (s.conns id).sent ∧
      (s'.conns id).msgs = (s.conns id).msgs ∧
      ((s'.conns id).said = (s.conns id).said ∨
        ∃ line, (s'.conns id).said = (s.conns id).said ++ [line]) := by
  have hinv : servers.Reachable s' ∧ Winding (s.conns id) (s'.conns id) := by
    refine System.run_invariant
      (P := fun s' => servers.Reachable s' ∧ Winding (s.conns id) (s'.conns id)) ?_
      ⟨hreach, .refl hclosed⟩ hrun
    rintro mid action next ⟨hreach, hwinding⟩ hstep
    have hnext := servers_winding (servers_inv hreach) hwinding.closed hstep
    exact ⟨hreach.step hstep, hwinding.trans hnext⟩
  obtain ⟨-, hwinding⟩ := hinv
  refine ⟨hwinding.closed, hwinding.sent, hwinding.msgs, ?_⟩
  exact hwinding.said.imp_right fun ⟨_, _, hline⟩ => hline

/-- The write of a session fails when a line of it has been read: it is closed, and says the line to
the other one. -/
theorem after_close_lastLine :
    ∃ s s', servers.Reachable s ∧ servers.run s [.resumeRead 0] = some s' ∧
      (s.conns 0).said = [] ∧ (s'.conns 0).said = [[104, 10]] ∧
      (s'.conns 1).msgs = [[104, 10]] ∧
      (s'.conns 0).sent = (s.conns 0).sent ∧ (s'.conns 0).msgs = (s.conns 0).msgs := by
  let actions : List Action :=
    [.accept .connected, .accept .connected, .resumeRead 0, .resumeRead 1, .resumeWrite 0,
      .readCompletes 1 (some [10]), .resumeRead 1, .resumeWrite 0,
      .readCompletes 0 (some [104, 10]), .writeCompletes 0 none, .resumeWrite 0, .resumeWrite 1]
  have hbefore : (servers.run .initial actions).map
      (fun s => ((s.conns 0).closed, (s.conns 0).said)) = some (true, []) := by
    decide
  have hbehind : ((servers.run .initial actions).bind fun s => servers.run s [.resumeRead 0]).map
      (fun s => ((s.conns 0).said, (s.conns 1).msgs)) = some ([[104, 10]], [[104, 10]]) := by
    decide
  obtain ⟨s, hrun, hfields⟩ := Option.map_eq_some_iff.mp hbefore
  rw [hrun, Option.bind_some] at hbehind
  obtain ⟨s', hrun', hfields'⟩ := Option.map_eq_some_iff.mp hbehind
  simp only [Prod.mk.injEq] at hfields hfields'
  obtain ⟨hclosed, hsaid⟩ := hfields
  have hreach : servers.Reachable s := ⟨.initial, _, rfl, hrun⟩
  obtain ⟨-, hsent, hmsgs, -⟩ := after_close hreach hclosed hrun'
  exact ⟨s, s', hreach, hrun', hsaid, hfields'.1, hfields'.2, hsent, hmsgs⟩

end Eureka.ChatServer

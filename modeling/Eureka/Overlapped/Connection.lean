import Eureka.EventLoop.Loop
import Eureka.NetworkBuffer.Operations
import Eureka.Library.Transition
import Eureka.NetworkBuffer.Buffer

/-!
# Overlapped writes

`Send`, `PostWrite` and `HandleWriteCompletion` of
`NetworkInfraWin/src/tcp_connection.cpp`.  A posted write is a pointer into the
storage of the output buffer, which the system reads until the write completes;
so the storage of the buffer's vector has an address here.

When the vector outgrows its capacity, an allocation of the environment's choice
replaces its storage.  What a completed write has transmitted is what memory
holds at the posted address when it completes; behind a reallocation that can be
anything.  The connection stays connected throughout.
-/

namespace Eureka.Overlapped

open EventLoop NetworkBuffer

/-- The storage of a vector: `capacity` bytes at the address `base`. -/
structure Block where
  base : ℕ
  capacity : ℕ
deriving DecidableEq, Repr

/-- A new block lives together with the old one while the content is moved. -/
def Block.Disjoint (block other : Block) : Prop :=
  block.base + block.capacity ≤ other.base ∨ other.base + other.capacity ≤ block.base

instance (block other : Block) : Decidable (block.Disjoint other) :=
  inferInstanceAs (Decidable (_ ∨ _))

/-- The storage of a vector that now has `size` elements; `grown` is the
allocation for the case that they do not fit. -/
def Block.hold (block : Block) (size : ℕ) (grown : Block) : Option Block :=
  if size ≤ block.capacity then some block
  else if size ≤ grown.capacity ∧ grown.Disjoint block then some grown
  else none

/-- A write that the system works on: where it was posted, and what was there. -/
structure Flight where
  address : ℕ
  bytes : Bytes
deriving DecidableEq, Repr

/-- The sending side of a connection, with two logs: the messages in the order of
their `SendInLoop`, and the bytes that were transmitted. -/
structure Connection where
  outputBuf : Buffer
  block : Block
  outstandingWrites : ℤ
  flight : Option Flight
  pendingTasks : List Bytes
  sent : List Bytes
  transmitted : Bytes
deriving DecidableEq, Repr

namespace Connection

/-- What memory holds at the address, as far as it belongs to the vector. -/
def readStorage (c : Connection) (address size : ℕ) : Option Bytes :=
  if c.block.base ≤ address then slice c.outputBuf.buf (address - c.block.base) size else none

/-- `PostWrite`; the length of a `WSABUF` has 32 bits. -/
def postWrite (c : Connection) : Connection :=
  { c with
    outstandingWrites := c.outstandingWrites + 1
    flight := some ⟨c.block.base + c.outputBuf.readerIndex,
      c.outputBuf.readable.take (c.outputBuf.readableSize % 2 ^ 32)⟩ }

def sendInLoop (c : Connection) (msg : Bytes) (grown : Block) : Option Connection :=
  match c.outputBuf.write msg with
  | (b, .done _) =>
      (c.block.hold b.buf.length grown).map fun block =>
        let c := { c with outputBuf := b, block := block, sent := c.sent ++ [msg] }
        if c.outstandingWrites = 0 then c.postWrite else c
  | (_, .checkFailed) => none
  | (_, .lengthError) => none
  | (_, .undefined) => none

/-- `Send` of a thread, with the allocation that its `SendInLoop` may need. -/
def send {Thread : Type} (c : Connection) (caller : Caller Thread) (msg : Bytes)
    (grown : Block) : Option Connection :=
  match caller with
  | .loop => c.sendInLoop msg grown
  | .other _ => some { c with pendingTasks := c.pendingTasks ++ [msg] }

/-- The next task that was queued by a `Send`. -/
def runTask (c : Connection) (grown : Block) : Option Connection :=
  match c.pendingTasks with
  | [] => none
  | msg :: rest => { c with pendingTasks := rest }.sendInLoop msg grown

/-- `HandleWriteCompletion` for `n` transmitted bytes, which are the `n` bytes
`garbage` if the posted range is not part of the vector any more. -/
def handleWriteCompletion (c : Connection) (n : ℕ) (garbage : Bytes) : Option Connection :=
  match c.flight with
  | none => none
  | some flight =>
      if n ≤ flight.bytes.length ∧ garbage.length = n then
        let c := { c with
          outstandingWrites := c.outstandingWrites - 1
          flight := none
          transmitted := c.transmitted ++ (c.readStorage flight.address n).getD garbage }
        match c.outputBuf.consume n with
        | (b, .done _) =>
            let c := { c with outputBuf := b }
            if b.readableSize > 0 then some c.postWrite else some c
        | (_, .checkFailed) => none
        | (_, .lengthError) => none
        | (_, .undefined) => none
      else none

end Connection

inductive Action (Thread : Type)
  | send (caller : Caller Thread) (msg : Bytes) (grown : Block)
  | runTask (grown : Block)
  | writeCompletion (n : ℕ) (garbage : Bytes)
deriving DecidableEq

/-- The runs of `Send` calls and write completions. -/
def writes (Thread : Type) : Transition.System Connection (Action Thread) where
  start c := ∃ b block, Buffer.construct defaultInitialSize = some b ∧
    b.buf.length ≤ block.capacity ∧ c = ⟨b, block, 0, none, [], [], []⟩
  step c
    | .send caller msg grown => if msg.length ≤ maxSize then c.send caller msg grown else none
    | .runTask grown => c.runTask grown
    | .writeCompletion n garbage => c.handleWriteCompletion n garbage

end Eureka.Overlapped

/-!
## Overlapped reads

`HandleReadCompletion`, `PostReadProbe` and `PostRead` of
`NetworkInfraWin/src/tcp_connection.cpp`, from the end of `EstablishConnection` on.

A posted read completes with some of the bytes that the peer has sent, as many as
its receive area holds at most.  It completes with no bytes if the peer has
closed its side and everything was delivered, and also if the receive area is
empty, as soon as there is something to receive.  The message handler consumes
any amounts from the input buffer, in each call others.
-/

namespace Eureka.Overlapped

open NetworkBuffer Transition

/-- `IOEvent`. -/
inductive IOEvent
  | readProbe
  | read
  | write
deriving DecidableEq, Repr

/-- The receiving side of a connection.  `posted` is the size of the receive area
of the read that the system works on, `incoming` what the peer has sent and the
system has not delivered; `closed` says that `HandleClose` was invoked. -/
structure Receiver where
  inputBuf : Buffer
  readEvent : IOEvent
  posted : Option ℕ
  incoming : Bytes
  peerClosed : Bool
  closed : Bool
deriving DecidableEq, Repr

/-- What a message handler consumes in one call. -/
def consumeEach : Buffer → List ℕ → Option Buffer
  | b, [] => some b
  | b, amount :: amounts =>
      match b.consume amount with
      | (b, .done _) => consumeEach b amounts
      | (_, .checkFailed) => none
      | (_, .lengthError) => none
      | (_, .undefined) => none

namespace Receiver

/-- `PostRead`; the length of a `WSABUF` has 32 bits. -/
def postRead (r : Receiver) : Option Receiver :=
  if r.readEvent = .read then some { r with posted := some (r.inputBuf.writableSize % 2 ^ 32) }
  else none

/-- The end of `HandleReadCompletion`: the message handler and the next read. -/
def handleMessage (r : Receiver) (amounts : List ℕ) : Option Receiver :=
  (consumeEach r.inputBuf amounts).bind fun b => { r with inputBuf := b }.postRead

/-- `HandleReadCompletion`, behind a system call that has put the bytes into the
receive area. -/
def handleReadCompletion (r : Receiver) (bytes : Bytes) (amounts : List ℕ) : Option Receiver :=
  match r.readEvent with
  | .readProbe => { r with readEvent := .read }.handleMessage amounts
  | .read | .write =>
      if bytes.length = 0 then
        some { r with closed := true }
      else
        match overwrite r.inputBuf.buf r.inputBuf.writerIndex bytes with
        | none => none
        | some buf =>
            match { r.inputBuf with buf := buf }.endWrite bytes.length with
            | (b, .done _) => { r with inputBuf := b }.handleMessage amounts
            | (_, .checkFailed) => none
            | (_, .lengthError) => none
            | (_, .undefined) => none

/-- A read with a receive area of this size may complete with `n` bytes. -/
def Completes (r : Receiver) (area n : ℕ) : Prop :=
  n ≤ area ∧ n ≤ r.incoming.length ∧
    (n = 0 → (area = 0 ∧ r.incoming ≠ []) ∨ (r.incoming = [] ∧ r.peerClosed = true))

instance (r : Receiver) (area n : ℕ) : Decidable (r.Completes area n) :=
  inferInstanceAs (Decidable (_ ∧ _ ∧ _))

/-- The posted read completes with `n` bytes. -/
def complete (r : Receiver) (n : ℕ) (amounts : List ℕ) : Option Receiver :=
  match r.posted with
  | none => none
  | some area =>
      if r.Completes area n then
        { r with posted := none, incoming := r.incoming.drop n }.handleReadCompletion
          (r.incoming.take n) amounts
      else none

end Receiver

inductive ReadAction
  | peerSends (bytes : Bytes)
  | peerCloses
  | readCompletion (n : ℕ) (amounts : List ℕ)
deriving DecidableEq, Repr

/-- The runs of read completions, behind the first `PostReadProbe`. -/
def reads : System Receiver ReadAction where
  start r := ∃ b, Buffer.construct defaultInitialSize = some b ∧
    r = ⟨b, .readProbe, some 0, [], false, false⟩
  step r
    | .peerSends bytes =>
        if r.peerClosed then none else some { r with incoming := r.incoming ++ bytes }
    | .peerCloses => some { r with peerClosed := true }
    | .readCompletion n amounts => r.complete n amounts

end Eureka.Overlapped

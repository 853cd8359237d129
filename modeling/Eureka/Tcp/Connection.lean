import Eureka.EventLoop.Loop
import Eureka.NetworkBuffer.Operations

/-!
# The sending side of a connection

`Send`, `Shutdown` and `HandleWrite` of `NetworkInfra/src/tcp_connection.cpp`,
with the task list of the loop.  Any thread calls `Send` and `Shutdown`, and other
threads get on between the test of `state_`, its assignment and the `QueueTask`.  On
the loop thread the task runs at once, in one step with the assignment.  Everything
else runs on the loop thread, one function after the other.  A `Send` or `Shutdown` of
the loop thread may come between any two of them: it is made by some handler or task.

`state_` is not atomic, but is taken for it here.

A buffer that would outgrow its vector throws out of the loop, and the run ends
there.  The close and error handlers are not part of the system.
-/

namespace Eureka.Tcp

open EventLoop NetworkBuffer

/-- `TCPConnection::State`. -/
inductive ConnState
  | connecting
  | connected
  | disconnecting
  | disconnected
deriving DecidableEq, Repr

/-- A message and the thread that sends it. -/
structure Message (Thread : Type) where
  sender : Caller Thread
  bytes : Bytes
deriving DecidableEq

/-- What `Send` and `Shutdown` queue. -/
inductive Task (Thread : Type)
  | sendInLoop (message : Message Thread)
  | shutdownInLoop
deriving DecidableEq

/-- A call that has found the connection connected. -/
inductive CallStage
  | idle
  | sending (bytes : Bytes)
  /-- `Shutdown`, in front of its assignment -/
  | shutting
  /-- `Shutdown`, in front of its `QueueTask` -/
  | queueing
deriving DecidableEq

/-- The message of a queued `SendInLoop`. -/
def Task.message? {Thread : Type} : Task Thread → Option (Message Thread)
  | .sendInLoop message => some message
  | .shutdownInLoop => none

/-- What there was when `shutdown(SHUT_WR)` was issued. -/
structure Issued (Thread : Type) where
  due : List (Message Thread)
  accepted : List (Message Thread)
  written : Bytes
deriving DecidableEq

/-- The connection and the task list of its loop, with the logs of what was sent,
written and shut down. -/
structure Connection (Thread : Type) where
  state : ConnState
  outputBuf : Buffer
  writingEnabled : Bool
  pendingTasks : List (Task Thread)
  /-- the tasks that `ProcessPendingTasks` has swapped out and not yet run -/
  batch : List (Task Thread)
  calls : Caller Thread → CallStage
  /-- the messages of the calls of `Send` that have returned -/
  sent : List (Message Thread)
  /-- those of them that had returned when `Shutdown` was called for the last time -/
  due : List (Message Thread)
  /-- the messages that have reached the buffer -/
  accepted : List (Message Thread)
  /-- the bytes that the socket has accepted -/
  written : Bytes
  shutdowns : List (Issued Thread)

namespace Connection

variable {Thread : Type}

/-- `SendInLoop`: the write interest is on afterwards, whether it was on before or not. -/
def sendInLoop (c : Connection Thread) (message : Message Thread) : Option (Connection Thread) :=
  match c.outputBuf.write message.bytes with
  | (b, .done _) =>
      some { c with
        outputBuf := b
        writingEnabled := true
        accepted := c.accepted ++ [message] }
  | (_, .checkFailed) => none
  | (_, .lengthError) => none
  | (_, .undefined) => none

def shutdownInLoop (c : Connection Thread) : Connection Thread :=
  if c.writingEnabled then c
  else { c with shutdowns := c.shutdowns ++ [⟨c.due, c.accepted, c.written⟩] }

def queueTask (c : Connection Thread) (task : Task Thread) : Connection Thread :=
  { c with pendingTasks := c.pendingTasks ++ [task] }

section Calls

variable [DecidableEq Thread]

def setCall (c : Connection Thread) (caller : Caller Thread) (call : CallStage) : Connection Thread :=
  { c with calls := Function.update c.calls caller call }

/-- The call of `Send`, with its test. -/
def send (c : Connection Thread) (message : Message Thread) : Option (Connection Thread) :=
  if c.calls message.sender = .idle then
    some (if c.state = .connected then c.setCall message.sender (.sending message.bytes) else c)
  else none

/-- The `RunTask` of `Send`, which then returns. -/
def sendTask (c : Connection Thread) (sender : Caller Thread) : Option (Connection Thread) :=
  match c.calls sender with
  | .sending bytes =>
      let message : Message Thread := ⟨sender, bytes⟩
      let c := { c.setCall sender .idle with sent := c.sent ++ [message] }
      match sender with
      | .loop => c.sendInLoop message
      | .other _ => some (c.queueTask (.sendInLoop message))
  | _ => none

/-- The call of `Shutdown`, with its test. -/
def shutdown (c : Connection Thread) (caller : Caller Thread) : Option (Connection Thread) :=
  if c.calls caller = .idle then
    some (if c.state = .connected then { c.setCall caller .shutting with due := c.sent } else c)
  else none

/-- The assignment of `Shutdown`, and on the loop thread the task. -/
def shutdownState (c : Connection Thread) (caller : Caller Thread) : Option (Connection Thread) :=
  if c.calls caller = .shutting then
    match caller with
    | .loop => some { c.setCall caller .idle with state := .disconnecting }.shutdownInLoop
    | .other _ => some { c.setCall caller .queueing with state := .disconnecting }
  else none

/-- The `QueueTask` of `Shutdown`, on another thread. -/
def shutdownTask (c : Connection Thread) (thread : Thread) : Option (Connection Thread) :=
  if c.calls (.other thread) = .queueing then
    some ((c.setCall (.other thread) .idle).queueTask .shutdownInLoop)
  else none

end Calls

/-- `HandleWrite`, when `write` returns `n`. -/
def handleWrite (c : Connection Thread) (n : ℤ) : Option (Connection Thread) :=
  if !c.writingEnabled then some c
  else if n ≤ 0 then some c
  else
    match c.outputBuf.consume n.toNat with
    | (b, .done _) =>
        let c := { c with
          outputBuf := b
          written := c.written ++ c.outputBuf.readable.take n.toNat }
        if b.readableSize = 0 then
          let c := { c with writingEnabled := false }
          if c.state = .disconnecting then some c.shutdownInLoop else some c
        else some c
    | (_, .checkFailed) => none
    | (_, .lengthError) => none
    | (_, .undefined) => none

/-- The swap of `ProcessPendingTasks`. -/
def swapTasks (c : Connection Thread) : Option (Connection Thread) :=
  match c.batch with
  | [] => some { c with batch := c.pendingTasks, pendingTasks := [] }
  | _ :: _ => none

/-- The next task of `ProcessPendingTasks`. -/
def runTask (c : Connection Thread) : Option (Connection Thread) :=
  match c.batch with
  | [] => none
  | .sendInLoop message :: batch => { c with batch := batch }.sendInLoop message
  | .shutdownInLoop :: batch => some { c with batch := batch }.shutdownInLoop

def tasks (c : Connection Thread) : List (Task Thread) := c.batch ++ c.pendingTasks

def queued (c : Connection Thread) : List (Message Thread) := c.tasks.filterMap Task.message?

end Connection

inductive Action (Thread : Type)
  | send (message : Message Thread)
  | sendTask (sender : Caller Thread)
  | shutdown (caller : Caller Thread)
  | shutdownState (caller : Caller Thread)
  | shutdownTask (thread : Thread)
  | handleWrite (n : ℤ)
  | swapTasks
  | runTask
deriving DecidableEq

/-- The runs of an established connection.  A message is a `std::string`, and
`write` accepts at most what it is offered.  The functions of the loop run while the loop
thread is in no call. -/
def connections (Thread : Type) [DecidableEq Thread] :
    Transition.System (Connection Thread) (Action Thread) where
  start c := ∃ b, Buffer.construct defaultInitialSize = some b ∧
    c = ⟨.connected, b, false, [], [], fun _ => .idle, [], [], [], [], []⟩
  step c
    | .send message => if message.bytes.length ≤ maxSize then c.send message else none
    | .sendTask sender => c.sendTask sender
    | .shutdown caller => c.shutdown caller
    | .shutdownState caller => c.shutdownState caller
    | .shutdownTask thread => c.shutdownTask thread
    | .handleWrite n =>
        if c.calls .loop = .idle ∧ n ≤ c.outputBuf.readableSize then c.handleWrite n else none
    | .swapTasks => if c.calls .loop = .idle then c.swapTasks else none
    | .runTask => if c.calls .loop = .idle then c.runTask else none

end Eureka.Tcp

import Eureka.NetworkBuffer.Queue
import Eureka.Tcp.Connection

/-!
# The output stream of a connection

What the socket has accepted, followed by what the output buffer still holds,
is a merge of whole messages.  The messages of the loop thread never queue, and
those of any other thread are in the queue in its own order, so that the merged
messages and the queued ones together show every thread's calls of `Send`.

* `sendInLoop_spec`, `handleWrite_cases`: what the functions of the loop do;
* `Streaming`: the invariant, and `Streaming.step`, one step;
* `output_stream`: the stream of every run.
-/

namespace Eureka.Tcp

open EventLoop NetworkBuffer Transition

namespace Connection

variable {Thread : Type} {c c' : Connection Thread}

/-! ## The functions of the loop -/

section ShutdownInLoop

variable (c : Connection Thread)

@[simp] theorem shutdownInLoop_outputBuf : c.shutdownInLoop.outputBuf = c.outputBuf := by
  unfold shutdownInLoop
  split <;> rfl

@[simp] theorem shutdownInLoop_written : c.shutdownInLoop.written = c.written := by
  unfold shutdownInLoop
  split <;> rfl

@[simp] theorem shutdownInLoop_sent : c.shutdownInLoop.sent = c.sent := by
  unfold shutdownInLoop
  split <;> rfl

@[simp] theorem shutdownInLoop_due : c.shutdownInLoop.due = c.due := by
  unfold shutdownInLoop
  split <;> rfl

@[simp] theorem shutdownInLoop_accepted : c.shutdownInLoop.accepted = c.accepted := by
  unfold shutdownInLoop
  split <;> rfl

@[simp] theorem shutdownInLoop_calls : c.shutdownInLoop.calls = c.calls := by
  unfold shutdownInLoop
  split <;> rfl

@[simp] theorem shutdownInLoop_writingEnabled :
    c.shutdownInLoop.writingEnabled = c.writingEnabled := by
  unfold shutdownInLoop
  split <;> rfl

@[simp] theorem shutdownInLoop_state : c.shutdownInLoop.state = c.state := by
  unfold shutdownInLoop
  split <;> rfl

@[simp] theorem shutdownInLoop_tasks : c.shutdownInLoop.tasks = c.tasks := by
  unfold shutdownInLoop
  split <;> rfl

@[simp] theorem shutdownInLoop_queued : c.shutdownInLoop.queued = c.queued := by
  rw [queued, shutdownInLoop_tasks, queued]

end ShutdownInLoop

@[simp] theorem queueTask_tasks (c : Connection Thread) (task : Task Thread) :
    (c.queueTask task).tasks = c.tasks ++ [task] := by
  simp only [tasks, queueTask, List.append_assoc]

theorem sendInLoop_spec (hvalid : c.outputBuf.Valid) {message : Message Thread}
    (hfits : message.bytes.length ≤ maxSize) (hsend : c.sendInLoop message = some c') :
    ∃ b, b.Valid ∧ b.readable = c.outputBuf.readable ++ message.bytes ∧
      c' = { c with
        outputBuf := b, writingEnabled := true, accepted := c.accepted ++ [message] } := by
  rcases Buffer.write_spec hvalid hfits with ⟨b, hwrite, hb, hreadable⟩ | ⟨hwrite, -⟩
  · rw [sendInLoop, hwrite] at hsend
    exact ⟨b, hb, hreadable, (Option.some.inj hsend).symm⟩
  · rw [sendInLoop, hwrite] at hsend
    cases hsend

/-- What a `HandleWrite` can do: nothing; write a part of the buffer; or write
all of it, which turns the write interest off and may issue the shutdown. -/
theorem handleWrite_cases (hvalid : c.outputBuf.Valid) {n : ℤ}
    (hn : n ≤ c.outputBuf.readableSize) (hwrite : c.handleWrite n = some c') :
    ((c.writingEnabled = false ∨ n ≤ 0) ∧ c' = c) ∨
    (c.writingEnabled = true ∧ 0 < n ∧ ∃ b, b.Valid ∧
      b.readable = c.outputBuf.readable.drop n.toNat ∧ b.readable ≠ [] ∧
      c' = { c with
        outputBuf := b, written := c.written ++ c.outputBuf.readable.take n.toNat }) ∨
    (c.writingEnabled = true ∧ 0 < n ∧ n.toNat = c.outputBuf.readable.length ∧
      ∃ b, b.Valid ∧ b.readable = [] ∧
        c' = if c.state = .disconnecting then
            { c with
              outputBuf := b
              written := c.written ++ c.outputBuf.readable
              writingEnabled := false
              shutdowns := c.shutdowns ++
                [⟨c.due, c.accepted, c.written ++ c.outputBuf.readable⟩] }
          else
            { c with
              outputBuf := b
              written := c.written ++ c.outputBuf.readable
              writingEnabled := false }) := by
  unfold handleWrite at hwrite
  split at hwrite
  · next hdisabled =>
    exact .inl ⟨.inl (by simpa using hdisabled), (Option.some.inj hwrite).symm⟩
  next henabled =>
  have hwriting : c.writingEnabled = true := by simpa using henabled
  split at hwrite
  · next hfailed => exact .inl ⟨.inr hfailed, (Option.some.inj hwrite).symm⟩
  next hpos =>
  have hlength := hvalid.length_readable
  rcases Buffer.consume_spec hvalid n.toNat with ⟨hle, b, hconsume, hb, hreadable⟩ | ⟨hlt, -⟩
  · rw [hconsume] at hwrite
    dsimp only at hwrite
    have hsize : b.readableSize = c.outputBuf.readable.length - n.toNat := by
      rw [← hb.length_readable, hreadable, List.length_drop]
    split at hwrite
    · -- The whole buffer was accepted.
      next hzero =>
      have hall : n.toNat = c.outputBuf.readable.length := by omega
      have htake : c.outputBuf.readable.take n.toNat = c.outputBuf.readable := by
        rw [hall, List.take_length]
      rw [htake] at hwrite
      refine .inr (.inr ⟨hwriting, by omega, hall, b, hb, ?_, ?_⟩)
      · rw [hreadable, hall, List.drop_length]
      · split at hwrite
        · next hstate =>
          rw [if_pos hstate, ← Option.some.inj hwrite]
          rfl
        · next hstate => rw [if_neg hstate, ← Option.some.inj hwrite]
    · next hrest =>
      refine .inr (.inl ⟨hwriting, by omega, b, hb, hreadable, ?_, (Option.some.inj hwrite).symm⟩)
      intro hnil
      rw [← hb.length_readable, hnil] at hrest
      exact hrest rfl
  · omega

/-! ## The invariant -/

variable [DecidableEq Thread]

/-- What a sender has among these messages. -/
def ofSender (sender : Caller Thread) (messages : List (Message Thread)) : List (Message Thread) :=
  messages.filter fun message => message.sender = sender

/-- The invariant of all runs.  The messages that have reached the buffer and the queued ones are
what every sender has sent, in its order. -/
structure Streaming (c : Connection Thread) : Prop where
  valid : c.outputBuf.Valid
  fits : ∀ message ∈ c.queued, message.bytes.length ≤ maxSize
  remote : ∀ message ∈ c.queued, message.sender ≠ .loop
  calling : ∀ caller bytes, c.calls caller = .sending bytes → bytes.length ≤ maxSize
  merges : ∀ sender, ofSender sender (c.accepted ++ c.queued) = ofSender sender c.sent
  stream : c.written ++ c.outputBuf.readable = c.accepted.flatMap Message.bytes
  writing : c.outputBuf.readable ≠ [] → c.writingEnabled = true

theorem ofSender_append (sender : Caller Thread) (first second : List (Message Thread)) :
    ofSender sender (first ++ second) = ofSender sender first ++ ofSender sender second :=
  List.filter_append _ _

theorem ofSender_singleton (sender : Caller Thread) (message : Message Thread) :
    ofSender sender [message] = if message.sender = sender then [message] else [] := by
  by_cases heq : message.sender = sender
  · rw [if_pos heq, ofSender, List.filter_cons_of_pos (by simpa using heq), List.filter_nil]
  · rw [if_neg heq, ofSender, List.filter_cons_of_neg (by simpa using heq), List.filter_nil]

theorem Streaming.ofSender_loop (hc : c.Streaming) : ofSender .loop c.queued = [] := by
  rw [ofSender, List.filter_eq_nil_iff]
  intro message hmessage
  rw [decide_eq_true_eq]
  exact hc.remote message hmessage

/-- Steps that only rearrange the tasks, or touch nothing of the stream, keep the invariant. -/
theorem Streaming.congr (hc : c.Streaming) (hbuf : c'.outputBuf = c.outputBuf)
    (hwritten : c'.written = c.written) (hsent : c'.sent = c.sent)
    (haccepted : c'.accepted = c.accepted) (hwriting : c'.writingEnabled = c.writingEnabled)
    (hqueued : c'.queued = c.queued)
    (hcalling : ∀ caller bytes, c'.calls caller = .sending bytes → bytes.length ≤ maxSize) :
    c'.Streaming := by
  refine ⟨hbuf ▸ hc.valid, hqueued ▸ hc.fits, hqueued ▸ hc.remote, hcalling, ?_, ?_, ?_⟩
  · rw [hqueued, hsent, haccepted]
    exact hc.merges
  · rw [hwritten, hbuf, haccepted]
    exact hc.stream
  · rw [hbuf, hwriting]
    exact hc.writing

/-- A call that is over, or goes on with something that fits. -/
theorem Streaming.calling_setCall (hc : c.Streaming) (caller : Caller Thread) {call : CallStage}
    (hcall : ∀ bytes, call = .sending bytes → bytes.length ≤ maxSize) (other : Caller Thread)
    (bytes : Bytes) (hother : (c.setCall caller call).calls other = .sending bytes) :
    bytes.length ≤ maxSize := by
  rw [setCall] at hother
  dsimp only at hother
  by_cases heq : other = caller
  · subst heq
    rw [Function.update_self] at hother
    exact hcall bytes hother
  · rw [Function.update_of_ne heq] at hother
    exact hc.calling other bytes hother

/-- A message that reaches the buffer is the last one merged so far. -/
theorem Streaming.deliver {message : Message Thread} (hvalid : c.outputBuf.Valid)
    (hfits : message.bytes.length ≤ maxSize)
    (hqueued : ∀ m ∈ c.queued, m.bytes.length ≤ maxSize ∧ m.sender ≠ .loop)
    (hcalling : ∀ caller bytes, c.calls caller = .sending bytes → bytes.length ≤ maxSize)
    (hmerges : ∀ sender, ofSender sender (c.accepted ++ [message] ++ c.queued) =
      ofSender sender c.sent)
    (hstream : c.written ++ c.outputBuf.readable = c.accepted.flatMap Message.bytes)
    (hsend : c.sendInLoop message = some c') : c'.Streaming := by
  obtain ⟨b, hb, hreadable, rfl⟩ := sendInLoop_spec hvalid hfits hsend
  refine ⟨hb, fun m hm => (hqueued m hm).1, fun m hm => (hqueued m hm).2, hcalling, hmerges, ?_,
    fun _ => rfl⟩
  dsimp only
  rw [hreadable, ← List.append_assoc, hstream, List.flatMap_append, List.flatMap_singleton]

theorem Streaming.send (hc : c.Streaming) {message : Message Thread}
    (hfits : message.bytes.length ≤ maxSize) (hsend : c.send message = some c') :
    c'.Streaming := by
  obtain ⟨-, heq⟩ := Option.ite_none_right_eq_some.mp hsend
  obtain rfl := Option.some.inj heq
  split
  · refine hc.congr rfl rfl rfl rfl rfl rfl (hc.calling_setCall message.sender ?_)
    rintro bytes heq
    exact CallStage.sending.inj heq ▸ hfits
  · exact hc

/-- What a `Send` queues is the last message of its thread. -/
theorem Streaming.queue (hc : c.Streaming) {thread : Thread} {bytes : Bytes}
    (hfits : bytes.length ≤ maxSize) : (Connection.queueTask
      { c.setCall (.other thread) .idle with sent := c.sent ++ [⟨.other thread, bytes⟩] }
      (.sendInLoop ⟨.other thread, bytes⟩)).Streaming := by
  set message : Message Thread := ⟨.other thread, bytes⟩
  set c' := Connection.queueTask
    { c.setCall (.other thread) .idle with sent := c.sent ++ [message] } (.sendInLoop message)
  have hqueued : c'.queued = c.queued ++ [message] := by
    rw [queued, queueTask_tasks, List.filterMap_append]
    rfl
  refine ⟨hc.valid, ?_, ?_, hc.calling_setCall _ nofun, ?_, hc.stream, hc.writing⟩
  · rw [hqueued]
    intro m hm
    rcases List.mem_append.mp hm with hold | hnew
    · exact hc.fits m hold
    · rw [List.mem_singleton.mp hnew]
      exact hfits
  · rw [hqueued]
    intro m hm
    rcases List.mem_append.mp hm with hold | hnew
    · exact hc.remote m hold
    · rw [List.mem_singleton.mp hnew]
      exact nofun
  · intro sender
    rw [hqueued, ← List.append_assoc, ofSender_append]
    exact (congrArg (· ++ _) (hc.merges sender)).trans (ofSender_append _ _ _).symm

/-- **One call of `Send`** comes to its end. -/
theorem Streaming.sendTask (hc : c.Streaming) {sender : Caller Thread}
    (hsend : c.sendTask sender = some c') : c'.Streaming := by
  rw [Connection.sendTask] at hsend
  split at hsend
  · next bytes hcall =>
    have hfits := hc.calling sender bytes hcall
    cases sender with
    | loop =>
        refine Streaming.deliver (c := { c.setCall .loop .idle with
          sent := c.sent ++ [⟨.loop, bytes⟩] }) hc.valid hfits
          (fun m hm => ⟨hc.fits m hm, hc.remote m hm⟩) (hc.calling_setCall _ nofun) ?_ hc.stream hsend
        intro sender
        have hbefore := hc.merges sender
        rw [ofSender_append] at hbefore
        rw [ofSender_append, ofSender_append, ofSender_append, ofSender_singleton, ← hbefore]
        split
        · next heq =>
          have hnone := hc.ofSender_loop
          rw [show sender = .loop from heq.symm]
          simp only [show ofSender .loop (queued { c.setCall .loop .idle with
            sent := c.sent ++ [⟨.loop, bytes⟩] }) = [] from hnone, hnone, List.append_nil]
          rfl
        · simp only [List.append_nil]
          rfl
    | other thread =>
        obtain rfl := Option.some.inj hsend
        exact hc.queue hfits
  · cases hsend

/-- **One task of the loop.** -/
theorem Streaming.runTask (hc : c.Streaming) (hrun : c.runTask = some c') : c'.Streaming := by
  unfold Connection.runTask at hrun
  split at hrun
  · cases hrun
  · next message batch hbatch =>
    have hqueued : c.queued = message :: queued { c with batch := batch } := by
      rw [queued, tasks, hbatch]
      rfl
    refine Streaming.deliver (c := { c with batch := batch }) hc.valid
      (hc.fits message (hqueued ▸ List.mem_cons_self)) ?_ hc.calling ?_ hc.stream hrun
    · intro m hm
      have hmem : m ∈ c.queued := hqueued ▸ List.mem_cons_of_mem _ hm
      exact ⟨hc.fits m hmem, hc.remote m hmem⟩
    · intro sender
      have hbefore := hc.merges sender
      rw [hqueued] at hbefore
      rw [List.append_assoc]
      exact hbefore
  · next batch hbatch =>
    obtain rfl := Option.some.inj hrun
    have hqueued : c.queued = queued { c with batch := batch } := by
      rw [queued, tasks, hbatch]
      rfl
    refine hc.congr ?_ ?_ ?_ ?_ ?_ ?_ ?_
    · rw [shutdownInLoop_outputBuf]
    · rw [shutdownInLoop_written]
    · rw [shutdownInLoop_sent]
    · rw [shutdownInLoop_accepted]
    · rw [shutdownInLoop_writingEnabled]
    · rw [shutdownInLoop_queued, hqueued]
    · rw [shutdownInLoop_calls]
      exact hc.calling

theorem Streaming.swapTasks (hc : c.Streaming) (hswap : c.swapTasks = some c') :
    c'.Streaming := by
  unfold Connection.swapTasks at hswap
  split at hswap
  · next hbatch =>
    obtain rfl := Option.some.inj hswap
    refine hc.congr rfl rfl rfl rfl rfl ?_ hc.calling
    simp only [queued, tasks, hbatch, List.append_nil, List.nil_append]
  · cases hswap

theorem Streaming.shutdown (hc : c.Streaming) {caller : Caller Thread}
    (hshutdown : c.shutdown caller = some c') : c'.Streaming := by
  obtain ⟨-, heq⟩ := Option.ite_none_right_eq_some.mp hshutdown
  obtain rfl := Option.some.inj heq
  split
  · exact hc.congr rfl rfl rfl rfl rfl rfl (hc.calling_setCall caller nofun)
  · exact hc

theorem Streaming.shutdownState (hc : c.Streaming) {caller : Caller Thread}
    (hshutdown : c.shutdownState caller = some c') : c'.Streaming := by
  obtain ⟨-, heq⟩ := Option.ite_none_right_eq_some.mp hshutdown
  cases caller with
  | loop =>
      obtain rfl := Option.some.inj heq
      refine hc.congr ?_ ?_ ?_ ?_ ?_ ?_ ?_
      · rw [shutdownInLoop_outputBuf]
        rfl
      · rw [shutdownInLoop_written]
        rfl
      · rw [shutdownInLoop_sent]
        rfl
      · rw [shutdownInLoop_accepted]
        rfl
      · rw [shutdownInLoop_writingEnabled]
        rfl
      · rw [shutdownInLoop_queued]
        rfl
      · rw [shutdownInLoop_calls]
        exact hc.calling_setCall _ nofun
  | other thread =>
      obtain rfl := Option.some.inj heq
      exact hc.congr rfl rfl rfl rfl rfl rfl (hc.calling_setCall _ nofun)

theorem Streaming.shutdownTask (hc : c.Streaming) {thread : Thread}
    (hshutdown : c.shutdownTask thread = some c') : c'.Streaming := by
  obtain ⟨-, heq⟩ := Option.ite_none_right_eq_some.mp hshutdown
  obtain rfl := Option.some.inj heq
  refine hc.congr rfl rfl rfl rfl rfl ?_ (hc.calling_setCall _ nofun)
  rw [queued, queueTask_tasks, List.filterMap_append]
  exact List.append_nil _

/-- **One `HandleWrite`.**  What it writes, it takes from the front of the buffer. -/
theorem Streaming.handleWrite (hc : c.Streaming) {n : ℤ} (hn : n ≤ c.outputBuf.readableSize)
    (hwrite : c.handleWrite n = some c') : c'.Streaming := by
  rcases handleWrite_cases hc.valid hn hwrite with
    ⟨-, rfl⟩ | ⟨hwriting, -, b, hb, hreadable, -, rfl⟩ | ⟨-, -, -, b, hb, hempty, rfl⟩
  · exact hc
  · refine ⟨hb, hc.fits, hc.remote, hc.calling, hc.merges, ?_, fun _ => hwriting⟩
    dsimp only
    rw [hreadable, List.append_assoc, List.take_append_drop, hc.stream]
  · split
    · refine ⟨hb, hc.fits, hc.remote, hc.calling, hc.merges, ?_, fun hne => absurd hempty hne⟩
      dsimp only
      rw [hempty, List.append_nil, hc.stream]
    · refine ⟨hb, hc.fits, hc.remote, hc.calling, hc.merges, ?_, fun hne => absurd hempty hne⟩
      dsimp only
      rw [hempty, List.append_nil, hc.stream]

theorem Streaming.step (hc : c.Streaming) {action : Action Thread}
    (hstep : (connections Thread).step c action = some c') : c'.Streaming := by
  cases action with
  | send message =>
      simp only [connections, Option.ite_none_right_eq_some] at hstep
      exact hc.send hstep.1 hstep.2
  | sendTask sender => exact hc.sendTask hstep
  | shutdown caller => exact hc.shutdown hstep
  | shutdownState caller => exact hc.shutdownState hstep
  | shutdownTask thread => exact hc.shutdownTask hstep
  | handleWrite n =>
      simp only [connections, Option.ite_none_right_eq_some] at hstep
      exact hc.handleWrite hstep.1.2 hstep.2
  | swapTasks =>
      simp only [connections, Option.ite_none_right_eq_some] at hstep
      exact hc.swapTasks hstep.2
  | runTask =>
      simp only [connections, Option.ite_none_right_eq_some] at hstep
      exact hc.runTask hstep.2

theorem streaming_of_start (hc : (connections Thread).start c) : c.Streaming := by
  obtain ⟨b, hb, rfl⟩ := hc
  obtain ⟨hvalid, hreadable⟩ := valid_of_construct (by decide) hb
  refine ⟨hvalid, nofun, nofun, nofun, fun _ => rfl, hreadable, ?_⟩
  intro hne
  exact absurd hreadable hne

end Connection

open Connection

variable {Thread : Type} [DecidableEq Thread] {c : Connection Thread}

/-- **The output stream.**  What is written, followed by what is unread, is a
merge of whole messages: together with the queued ones they are every thread's
messages in its order of sending.  The write interest is on whenever there is
something to write. -/
theorem output_stream (hc : (connections Thread).Reachable c) :
    (∃ messages : List (Message Thread),
      c.written ++ c.outputBuf.readable = messages.flatMap Message.bytes ∧
      ∀ sender, ofSender sender (messages ++ c.queued) = ofSender sender c.sent) ∧
    (c.outputBuf.readable ≠ [] → c.writingEnabled = true) := by
  have hstreaming : c.Streaming :=
    hc.invariant (fun _ => streaming_of_start) fun _ _ _ hc hstep => hc.step hstep
  exact ⟨⟨c.accepted, hstreaming.stream, hstreaming.merges⟩, hstreaming.writing⟩

def established : Connection Unit :=
  ⟨.connected, ⟨List.replicate 1032 0, 8, 8⟩, false, [], [], fun _ => .idle, [], [], [], [], []⟩

theorem established_start : (connections Unit).start established := ⟨_, rfl, rfl⟩

/-- Two threads that send at once. -/
def overtakingRun : List (Action Unit) :=
  [.send ⟨.other (), [1, 2]⟩, .send ⟨.loop, [3, 4, 5]⟩, .sendTask (.other ()), .sendTask .loop,
    .handleWrite 2, .swapTasks, .runTask]

/-- A message of the loop thread overtakes one that is queued, and is written in part. -/
theorem output_stream_overtaking :
    ∃ c, (connections Unit).run established overtakingRun = some c ∧
      ∃ messages : List (Message Unit),
        c.written ++ c.outputBuf.readable = messages.flatMap Message.bytes ∧
        ∀ sender, ofSender sender (messages ++ c.queued) = ofSender sender c.sent := by
  obtain ⟨c, hrun⟩ := Option.isSome_iff_exists.mp
    (show ((connections Unit).run established overtakingRun).isSome = true by decide +kernel)
  exact ⟨c, hrun, (output_stream ⟨_, _, established_start, hrun⟩).1⟩

end Eureka.Tcp

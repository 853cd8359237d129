import Eureka.Tcp.Stream

/-!
# Shutting a connection down

`ShutdownInLoop` takes the write interest for a sign that output is left.  That
is wrong in two ways: queued messages do not show in it, and an empty message
turns it on although there is nothing to write, so that `write` returns 0 and
`HandleWrite` gives up.  And a thread that calls `Shutdown` leaves the connection
disconnecting before it has queued anything.

* `Ordered.covered`: what was sent before a `Shutdown` is in front of its task;
* `graceful_iff`: a run is graceful throughout exactly when its steps are orderly;
* `shutdown_not_graceful`: a shutdown that comes too early, one that never comes, and
  one that is not queued yet.
-/

namespace Eureka.Tcp

open EventLoop NetworkBuffer Transition

variable {Thread : Type} [DecidableEq Thread]

/-- The messages that are due and not accepted have no bytes.  Those of a sender that are accepted
are its first ones. -/
def Settled (due accepted : List (Message Thread)) : Prop :=
  ∀ message ∈ due, ∀ left ∈ (Connection.ofSender message.sender due).drop
    (Connection.ofSender message.sender accepted).length, left.bytes = []

instance (due accepted : List (Message Thread)) : Decidable (Settled due accepted) := by
  unfold Settled
  infer_instance

/-- Everything that was accepted is written, and this is all that was due. -/
structure Issued.Delivered (issued : Issued Thread) : Prop where
  written : issued.written = issued.accepted.flatMap Message.bytes
  settled : Settled issued.due issued.accepted

namespace Connection

variable {c c' : Connection Thread}

/-- What `Shutdown` promises. -/
structure Graceful (c : Connection Thread) : Prop where
  delivered : ∀ issued ∈ c.shutdowns, issued.Delivered
  issued : c.state = .disconnecting → c.tasks = [] → c.outputBuf.readable = [] →
    c.shutdowns ≠ []

/-- Something is queued or unread, unless the shutdown is issued. -/
def Pends (c : Connection Thread) : Prop :=
  c.tasks = [] → c.outputBuf.readable = [] → c.shutdowns ≠ []

/-- The condition on running the next task: the last one of them leaves something
to write behind, if the shutdown is requested but not issued. -/
def OrderlyTask (c : Connection Thread) : List (Task Thread) → Prop
  | [.sendInLoop message] => c.state = .disconnecting → c.shutdowns = [] →
      c.outputBuf.readable ++ message.bytes ≠ []
  | [.shutdownInLoop] => c.writingEnabled = true → c.shutdowns = [] →
      c.outputBuf.readable ≠ []
  | _ => True

/-- The condition on a step, in the state it is taken in.  When the loop thread shuts the write half
down, no byte that was due is queued; and a step that requests the shutdown without issuing it, or
that runs the last task, finds or leaves something to write behind. -/
def Orderly (c : Connection Thread) : Action Thread → Prop
  | .shutdownState .loop => if c.writingEnabled then c.Pends else Settled c.due c.accepted
  | .shutdownState (.other _) => c.Pends
  | .handleWrite n => c.writingEnabled = true → c.state = .disconnecting → 0 < n →
      n.toNat = c.outputBuf.readable.length → Settled c.due c.accepted
  | .runTask => OrderlyTask c c.tasks
  | _ => True

instance (c : Connection Thread) : Decidable c.Pends :=
  inferInstanceAs (Decidable (_ → _ → _))

instance decidableOrderlyTask (c : Connection Thread) :
    (tasks : List (Task Thread)) → Decidable (OrderlyTask c tasks)
  | [] => .isTrue trivial
  | [.sendInLoop message] => inferInstanceAs <| Decidable <|
      c.state = .disconnecting → c.shutdowns = [] → c.outputBuf.readable ++ message.bytes ≠ []
  | [.shutdownInLoop] => inferInstanceAs <| Decidable <|
      c.writingEnabled = true → c.shutdowns = [] → c.outputBuf.readable ≠ []
  | .sendInLoop _ :: _ :: _ => .isTrue trivial
  | .shutdownInLoop :: _ :: _ => .isTrue trivial

instance (c : Connection Thread) : (action : Action Thread) → Decidable (Orderly c action)
  | .shutdownState .loop =>
      inferInstanceAs (Decidable (if c.writingEnabled then c.Pends else Settled c.due c.accepted))
  | .shutdownState (.other _) => inferInstanceAs (Decidable c.Pends)
  | .handleWrite n => inferInstanceAs <| Decidable <|
      c.writingEnabled = true → c.state = .disconnecting → 0 < n →
        n.toNat = c.outputBuf.readable.length → Settled c.due c.accepted
  | .runTask => inferInstanceAs <| Decidable <| OrderlyTask c c.tasks
  | .send _ | .sendTask _ | .shutdown _ | .shutdownTask _ | .swapTasks => .isTrue trivial

/-! ## The invariant -/

/-- These messages of each sender are at most as many as those. -/
def Fewer (first second : List (Message Thread)) : Prop :=
  ∀ sender, (ofSender sender first).length ≤ (ofSender sender second).length

theorem Fewer.append_right {first second : List (Message Thread)} (h : Fewer first second)
    (more : List (Message Thread)) : Fewer first (second ++ more) := by
  intro sender
  rw [ofSender_append, List.length_append]
  exact (h sender).trans (Nat.le_add_right _ _)

theorem Fewer.settled {due accepted : List (Message Thread)} (h : Fewer due accepted) :
    Settled due accepted := by
  intro message _ left hleft
  rw [List.drop_eq_nil_of_le (h message.sender)] at hleft
  cases hleft

/-- What holds of every state, whether its run is graceful or not. -/
structure Ordered (c : Connection Thread) : Prop where
  streaming : c.Streaming
  state : c.state = .connected ∨ c.state = .disconnecting
  connected : c.state = .connected → c.shutdowns = [] ∧ Task.shutdownInLoop ∉ c.tasks ∧
    ∀ caller, c.calls caller ≠ .queueing
  due : Fewer c.due c.sent
  /-- the tasks in front of a `ShutdownInLoop` have the messages that are due -/
  covered : ∀ front back, c.tasks = front ++ Task.shutdownInLoop :: back →
    Fewer c.due (c.accepted ++ front.filterMap Task.message?)

omit [DecidableEq Thread] in
theorem tasks_of_batch {task : Task Thread} {batch : List (Task Thread)}
    (hbatch : c.batch = task :: batch) :
    c.tasks = task :: tasks { c with batch := batch } := by
  rw [tasks, hbatch]
  rfl

theorem Streaming.fits_of_batch (hc : c.Streaming) {message : Message Thread}
    {batch : List (Task Thread)} (hbatch : c.batch = .sendInLoop message :: batch) :
    message.bytes.length ≤ maxSize := by
  refine hc.fits message ?_
  rw [queued, tasks_of_batch hbatch]
  exact List.mem_cons_self

omit [DecidableEq Thread] in
theorem eq_append_of_queue {tasks front back : List (Task Thread)} {task : Task Thread}
    (heq : tasks ++ [task] = front ++ Task.shutdownInLoop :: back) :
    (∃ back', tasks = front ++ Task.shutdownInLoop :: back') ∨
      task = .shutdownInLoop ∧ front = tasks := by
  rcases List.append_eq_append_iff.mp heq with ⟨middle, hfront, hback⟩ | ⟨middle, hold, hback⟩
  · cases middle with
    | nil =>
        rw [List.append_nil] at hfront
        exact .inr ⟨(List.cons.inj hback).1, hfront⟩
    | cons task middle => simp at hback
  · cases middle with
    | nil =>
        rw [List.append_nil] at hold
        exact .inr ⟨(List.cons.inj hback).1.symm, hold.symm⟩
    | cons first middle =>
        obtain ⟨rfl, -⟩ := List.cons.inj hback
        exact .inl ⟨middle, hold⟩

theorem setCall_ne_queueing (hcalls : ∀ caller, c.calls caller ≠ .queueing)
    (caller : Caller Thread) {call : CallStage} (hcall : call ≠ .queueing)
    (other : Caller Thread) : (c.setCall caller call).calls other ≠ .queueing := by
  rw [setCall]
  dsimp only
  by_cases heq : other = caller
  · subst heq
    rwa [Function.update_self]
  · rw [Function.update_of_ne heq]
    exact hcalls other

theorem Ordered.send (hc : c.Ordered) {message : Message Thread}
    (hfits : message.bytes.length ≤ maxSize) (hsend : c.send message = some c') :
    c'.Ordered := by
  have hstreaming := hc.streaming.send hfits hsend
  obtain ⟨-, heq⟩ := Option.ite_none_right_eq_some.mp hsend
  obtain rfl := Option.some.inj heq
  by_cases hstate : c.state = .connected
  · rw [if_pos hstate] at hstreaming ⊢
    obtain ⟨hshutdowns, htasks, hcalls⟩ := hc.connected hstate
    exact ⟨hstreaming, hc.state, fun _ => ⟨hshutdowns, htasks,
      setCall_ne_queueing hcalls _ nofun⟩, hc.due, hc.covered⟩
  · rw [if_neg hstate]
    exact hc

theorem Ordered.sendTask (hc : c.Ordered) {sender : Caller Thread}
    (hsend : c.sendTask sender = some c') : c'.Ordered := by
  have hstreaming := hc.streaming.sendTask hsend
  rw [Connection.sendTask] at hsend
  split at hsend
  · next bytes hcall =>
    cases sender with
    | loop =>
        obtain ⟨b, -, -, rfl⟩ := sendInLoop_spec (c := { c.setCall .loop .idle with
          sent := c.sent ++ [⟨.loop, bytes⟩] }) hc.streaming.valid
          (hc.streaming.calling .loop bytes hcall) hsend
        refine ⟨hstreaming, hc.state, fun hstate => ?_, hc.due.append_right _, ?_⟩
        · obtain ⟨hshutdowns, htasks, hcalls⟩ := hc.connected hstate
          exact ⟨hshutdowns, htasks, setCall_ne_queueing hcalls _ (by simp)⟩
        · intro front back heq sender
          have hbefore := hc.covered front back heq sender
          rw [ofSender_append, List.length_append] at hbefore
          dsimp only [setCall]
          rw [ofSender_append, ofSender_append, List.length_append, List.length_append]
          omega
    | other thread =>
        obtain rfl := Option.some.inj hsend
        refine ⟨hstreaming, hc.state, fun hstate => ?_, hc.due.append_right _, ?_⟩
        · obtain ⟨hshutdowns, htasks, hcalls⟩ := hc.connected hstate
          refine ⟨hshutdowns, ?_, setCall_ne_queueing hcalls _ (by simp)⟩
          rw [queueTask_tasks]
          intro hmem
          rcases List.mem_append.mp hmem with hold | hnew
          · exact htasks hold
          · simp at hnew
        · intro front back heq
          rw [queueTask_tasks] at heq
          rcases eq_append_of_queue heq with ⟨back', hold⟩ | ⟨hnew, -⟩
          · exact hc.covered front back' hold
          · cases hnew
  · cases hsend

theorem Ordered.shutdown (hc : c.Ordered) {caller : Caller Thread}
    (hshutdown : c.shutdown caller = some c') : c'.Ordered := by
  have hstreaming := hc.streaming.shutdown hshutdown
  obtain ⟨-, heq⟩ := Option.ite_none_right_eq_some.mp hshutdown
  obtain rfl := Option.some.inj heq
  by_cases hstate : c.state = .connected
  · rw [if_pos hstate] at hstreaming ⊢
    obtain ⟨hshutdowns, htasks, hcalls⟩ := hc.connected hstate
    refine ⟨hstreaming, hc.state, fun _ => ⟨hshutdowns, htasks,
      setCall_ne_queueing hcalls _ nofun⟩, fun _ => le_rfl, ?_⟩
    -- What is due now is not yet behind any `ShutdownInLoop`.
    intro front back heq
    refine absurd ?_ htasks
    rw [show c.tasks = front ++ Task.shutdownInLoop :: back from heq]
    simp
  · rw [if_neg hstate]
    exact hc

theorem Ordered.shutdownState (hc : c.Ordered) {caller : Caller Thread}
    (hshutdown : c.shutdownState caller = some c') : c'.Ordered := by
  have hstreaming := hc.streaming.shutdownState hshutdown
  obtain ⟨-, heq⟩ := Option.ite_none_right_eq_some.mp hshutdown
  cases caller with
  | loop =>
      obtain rfl := Option.some.inj heq
      refine ⟨hstreaming, ?_, ?_, ?_, ?_⟩
      · rw [shutdownInLoop_state]
        exact .inr rfl
      · rw [shutdownInLoop_state]
        nofun
      · rw [shutdownInLoop_due, shutdownInLoop_sent]
        exact hc.due
      · rw [shutdownInLoop_tasks, shutdownInLoop_due, shutdownInLoop_accepted]
        exact hc.covered
  | other thread =>
      obtain rfl := Option.some.inj heq
      exact ⟨hstreaming, .inr rfl, nofun, hc.due, hc.covered⟩

theorem Ordered.shutdownTask (hc : c.Ordered) {thread : Thread}
    (hshutdown : c.shutdownTask thread = some c') : c'.Ordered := by
  have hstreaming := hc.streaming.shutdownTask hshutdown
  obtain ⟨hcall, heq⟩ := Option.ite_none_right_eq_some.mp hshutdown
  obtain rfl := Option.some.inj heq
  refine ⟨hstreaming, hc.state, fun hstate => ?_, hc.due, ?_⟩
  · exact absurd hcall ((hc.connected hstate).2.2 (.other thread))
  · intro front back heq
    rw [queueTask_tasks] at heq
    rcases eq_append_of_queue heq with ⟨back', hold⟩ | ⟨-, rfl⟩
    · exact hc.covered front back' hold
    · intro sender
      exact (hc.due sender).trans_eq (congrArg List.length (hc.streaming.merges sender).symm)

theorem Ordered.handleWrite (hc : c.Ordered) {n : ℤ} (hn : n ≤ c.outputBuf.readableSize)
    (hwrite : c.handleWrite n = some c') : c'.Ordered := by
  have hstreaming := hc.streaming.handleWrite hn hwrite
  rcases handleWrite_cases hc.streaming.valid hn hwrite with
    ⟨-, rfl⟩ | ⟨-, -, b, -, -, -, rfl⟩ | ⟨-, -, -, b, -, -, rfl⟩
  · exact hc
  · exact ⟨hstreaming, hc.state, hc.connected, hc.due, hc.covered⟩
  · split at hstreaming
    · next hstate =>
      rw [if_pos hstate]
      refine ⟨hstreaming, hc.state, ?_, hc.due, hc.covered⟩
      intro hconnected
      rw [show c.state = .connected from hconnected] at hstate
      cases hstate
    · next hstate =>
      rw [if_neg hstate]
      exact ⟨hstreaming, hc.state, hc.connected, hc.due, hc.covered⟩

omit [DecidableEq Thread] in
theorem swapTasks_tasks (hswap : c.swapTasks = some c') :
    c' = { c with batch := c'.batch, pendingTasks := c'.pendingTasks } ∧ c'.tasks = c.tasks := by
  unfold Connection.swapTasks at hswap
  split at hswap
  · next hbatch =>
    obtain rfl := Option.some.inj hswap
    simp [tasks, hbatch]
  · cases hswap

theorem Ordered.swapTasks (hc : c.Ordered) (hswap : c.swapTasks = some c') : c'.Ordered := by
  have hstreaming := hc.streaming.swapTasks hswap
  obtain ⟨heq, htasks⟩ := swapTasks_tasks hswap
  rw [heq] at htasks hstreaming ⊢
  refine ⟨hstreaming, hc.state, ?_, hc.due, ?_⟩
  · rw [htasks]
    exact hc.connected
  · rw [htasks]
    exact hc.covered

theorem Ordered.runTask (hc : c.Ordered) (hrun : c.runTask = some c') : c'.Ordered := by
  have hstreaming := hc.streaming.runTask hrun
  unfold Connection.runTask at hrun
  split at hrun
  · cases hrun
  · next message batch hbatch =>
    have htasks := tasks_of_batch hbatch
    obtain ⟨b, -, -, rfl⟩ := sendInLoop_spec (c := { c with batch := batch })
      hc.streaming.valid (hc.streaming.fits_of_batch hbatch) hrun
    refine ⟨hstreaming, hc.state, ?_, hc.due, ?_⟩
    · intro hstate
      obtain ⟨hshutdowns, hnone, hcalls⟩ := hc.connected hstate
      rw [htasks] at hnone
      exact ⟨hshutdowns, fun hmem => hnone (List.mem_cons_of_mem _ hmem), hcalls⟩
    · intro front back heq
      have hbefore := hc.covered (.sendInLoop message :: front) back
        (by rw [htasks]; exact congrArg _ heq)
      dsimp only
      rw [List.append_assoc]
      exact hbefore
  · next batch hbatch =>
    obtain rfl := Option.some.inj hrun
    have htasks := tasks_of_batch hbatch
    refine ⟨hstreaming, ?_, ?_, ?_, ?_⟩
    · rw [shutdownInLoop_state]
      exact hc.state
    · rw [shutdownInLoop_state]
      exact fun hstate => absurd (htasks ▸ List.mem_cons_self) (hc.connected hstate).2.1
    · rw [shutdownInLoop_due, shutdownInLoop_sent]
      exact hc.due
    · intro front back heq
      rw [shutdownInLoop_tasks] at heq
      rw [shutdownInLoop_due, shutdownInLoop_accepted]
      exact hc.covered (.shutdownInLoop :: front) back (by rw [htasks]; exact congrArg _ heq)

theorem Ordered.step (hc : c.Ordered) {action : Action Thread}
    (hstep : (connections Thread).step c action = some c') : c'.Ordered := by
  cases action with
  | send message =>
      simp only [connections, Option.ite_none_right_eq_some] at hstep
      exact hc.send hstep.1 hstep.2
  | sendTask sender => exact hc.sendTask hstep
  | shutdown caller => exact hc.shutdown hstep
  | shutdownState caller => exact hc.shutdownState hstep
  | shutdownTask thread => exact hc.shutdownTask hstep
  | handleWrite n =>
      simp only [connections, Option.ite_none_right_eq_some] at hstep
      exact hc.handleWrite hstep.1.2 hstep.2
  | swapTasks =>
      simp only [connections, Option.ite_none_right_eq_some] at hstep
      exact hc.swapTasks hstep.2
  | runTask =>
      simp only [connections, Option.ite_none_right_eq_some] at hstep
      exact hc.runTask hstep.2

/-! ## One step -/

theorem Graceful.of_same (hc : c.Graceful) (hshutdowns : c'.shutdowns = c.shutdowns)
    (hissued : c'.state = .disconnecting → c'.tasks = [] → c'.outputBuf.readable = [] →
      c'.shutdowns ≠ []) : c'.Graceful where
  delivered issued hmem := hc.delivered issued (hshutdowns ▸ hmem)
  issued := hissued

/-- A new shutdown is right when it comes behind everything that was due. -/
theorem graceful_of_issued (hc : c.Graceful) {issued : Issued Thread}
    (hwritten : issued.written = issued.accepted.flatMap Message.bytes)
    (hshutdowns : c'.shutdowns = c.shutdowns ++ [issued]) :
    c'.Graceful ↔ Settled issued.due issued.accepted := by
  have hmem : issued ∈ c'.shutdowns := by
    rw [hshutdowns]
    exact List.mem_append_right _ (List.mem_singleton_self _)
  constructor
  · exact fun hgraceful => (hgraceful.delivered issued hmem).settled
  · intro hsettled
    refine ⟨?_, fun _ _ _ => List.ne_nil_of_mem hmem⟩
    intro other hother
    rw [hshutdowns] at hother
    rcases List.mem_append.mp hother with hold | hnew
    · exact hc.delivered other hold
    · rw [List.mem_singleton.mp hnew]
      exact ⟨hwritten, hsettled⟩

/-- With the write interest off, everything that was accepted is written. -/
theorem Streaming.written_eq (hc : c.Streaming) (hwriting : ¬c.writingEnabled = true) :
    c.written = c.accepted.flatMap Message.bytes := by
  have hempty : c.outputBuf.readable = [] := by
    by_contra hne
    exact hwriting (hc.writing hne)
  rw [← hc.stream, hempty, List.append_nil]

theorem sendTask_graceful (hc : c.Ordered) (hgraceful : c.Graceful) {sender : Caller Thread}
    (hsend : c.sendTask sender = some c') : c'.Graceful := by
  rw [Connection.sendTask] at hsend
  split at hsend
  · next bytes hcall =>
    cases sender with
    | loop =>
        obtain ⟨b, -, hreadable, rfl⟩ := sendInLoop_spec (c := { c.setCall .loop .idle with
          sent := c.sent ++ [⟨.loop, bytes⟩] }) hc.streaming.valid
          (hc.streaming.calling .loop bytes hcall) hsend
        refine hgraceful.of_same rfl fun hstate htasks hempty => ?_
        rw [show b.readable = _ from hreadable] at hempty
        exact hgraceful.issued hstate htasks (List.append_eq_nil_iff.mp hempty).1
    | other thread =>
        obtain rfl := Option.some.inj hsend
        refine hgraceful.of_same rfl fun _ htasks => ?_
        rw [queueTask_tasks] at htasks
        simp at htasks
  · cases hsend

theorem shutdownState_iff (hc : c.Ordered) (hgraceful : c.Graceful) {caller : Caller Thread}
    (hshutdown : c.shutdownState caller = some c') :
    c'.Graceful ↔ Orderly c (.shutdownState caller) := by
  obtain ⟨-, heq⟩ := Option.ite_none_right_eq_some.mp hshutdown
  have hpends : ∀ {d : Connection Thread}, d.state = .disconnecting → d.tasks = c.tasks →
      d.outputBuf.readable = c.outputBuf.readable → d.shutdowns = c.shutdowns →
      (d.Graceful ↔ c.Pends) := by
    intro d hstate htasks hreadable hshutdowns
    constructor
    · intro hafter hnone hempty
      exact hshutdowns ▸ hafter.issued hstate (htasks.trans hnone) (hreadable.trans hempty)
    · intro hpends
      refine hgraceful.of_same hshutdowns fun _ hnone hempty => ?_
      rw [hshutdowns]
      exact hpends (htasks.symm.trans hnone) (hreadable.symm.trans hempty)
  cases caller with
  | loop =>
      obtain rfl := Option.some.inj heq
      set d : Connection Thread := { c.setCall .loop .idle with state := .disconnecting }
      rw [Orderly]
      by_cases hwriting : c.writingEnabled = true
      · rw [if_pos hwriting, show d.shutdownInLoop = d from if_pos hwriting]
        exact hpends rfl rfl rfl rfl
      · have hissued : d.shutdownInLoop.shutdowns =
            c.shutdowns ++ [⟨c.due, c.accepted, c.written⟩] := by
          rw [show d.shutdownInLoop = { d with
            shutdowns := c.shutdowns ++ [⟨c.due, c.accepted, c.written⟩] } from if_neg hwriting]
        rw [if_neg hwriting]
        exact graceful_of_issued hgraceful (hc.streaming.written_eq hwriting) hissued
  | other thread =>
      obtain rfl := Option.some.inj heq
      exact hpends rfl rfl rfl rfl

theorem handleWrite_iff (hc : c.Ordered) (hgraceful : c.Graceful) {n : ℤ}
    (hn : n ≤ c.outputBuf.readableSize) (hwrite : c.handleWrite n = some c') :
    c'.Graceful ↔ Orderly c (.handleWrite n) := by
  rcases handleWrite_cases hc.streaming.valid hn hwrite with
    ⟨hidle, rfl⟩ | ⟨-, -, b, -, hreadable, hrest, rfl⟩ | ⟨hwriting, hpos, hall, b, -, -, rfl⟩
  · refine iff_of_true hgraceful ?_
    intro hwriting _ hpos _
    rcases hidle with hdisabled | hfailed
    · rw [hwriting] at hdisabled
      cases hdisabled
    · omega
  · refine iff_of_true (hgraceful.of_same rfl fun _ _ hnil => absurd hnil hrest) ?_
    intro _ _ _ hall
    rw [hreadable, hall, List.drop_length] at hrest
    exact absurd rfl hrest
  · by_cases hstate : c.state = .disconnecting
    · rw [if_pos hstate]
      refine (graceful_of_issued hgraceful hc.streaming.stream rfl).trans ?_
      exact ⟨fun h _ _ _ _ => h, fun h => h hwriting hstate hpos hall⟩
    · rw [if_neg hstate]
      refine iff_of_true (hgraceful.of_same rfl ?_) fun _ h => absurd h hstate
      intro hdisconnecting
      exact absurd hdisconnecting hstate

theorem runTask_iff (hc : c.Ordered) (hgraceful : c.Graceful) (hrun : c.runTask = some c') :
    c'.Graceful ↔ Orderly c .runTask := by
  unfold Connection.runTask at hrun
  split at hrun
  · cases hrun
  · next message batch hbatch =>
    have htasks := tasks_of_batch hbatch
    obtain ⟨b, -, hreadable, rfl⟩ := sendInLoop_spec (c := { c with batch := batch })
      hc.streaming.valid (hc.streaming.fits_of_batch hbatch) hrun
    rw [Orderly, htasks]
    cases hrest : tasks { c with batch := batch } with
    | nil =>
        constructor
        · intro hafter hstate hnone hempty
          exact hafter.issued hstate hrest (hreadable.trans hempty) hnone
        · intro hleft
          refine hgraceful.of_same rfl ?_
          intro hstate _ hempty hnone
          exact hleft hstate hnone (hreadable.symm.trans hempty)
    | cons task rest =>
        refine iff_of_true (hgraceful.of_same rfl ?_) trivial
        intro _ hnil
        rw [show tasks { c with batch := batch } = [] from hnil] at hrest
        cases hrest
  · next batch hbatch =>
    obtain rfl := Option.some.inj hrun
    have htasks := tasks_of_batch hbatch
    have hstate : c.state = .disconnecting := by
      refine hc.state.resolve_left fun hconnected => ?_
      exact (hc.connected hconnected).2.1 (htasks ▸ List.mem_cons_self)
    rw [Orderly, htasks, shutdownInLoop]
    by_cases hwriting : c.writingEnabled = true
    · rw [if_pos hwriting]
      cases hrest : tasks { c with batch := batch } with
      | nil =>
          constructor
          · intro hafter _ hnone hempty
            exact hafter.issued hstate hrest hempty hnone
          · intro hleft
            refine hgraceful.of_same rfl ?_
            intro _ _ hempty hnone
            exact hleft hwriting hnone hempty
      | cons task rest =>
          have htrue : OrderlyTask c (Task.shutdownInLoop :: task :: rest) := by
            cases task <;> trivial
          refine iff_of_true (hgraceful.of_same rfl ?_) htrue
          intro _ hnil
          rw [hrest] at hnil
          cases hnil
    · rw [if_neg hwriting]
      have hcovered : Settled c.due c.accepted := by
        have hfront := hc.covered [] _ htasks
        rw [List.filterMap_nil, List.append_nil] at hfront
        exact hfront.settled
      have horderly : OrderlyTask c (Task.shutdownInLoop :: tasks { c with batch := batch }) := by
        cases tasks { c with batch := batch } with
        | nil => exact fun h => absurd h hwriting
        | cons task rest => cases task <;> trivial
      refine iff_of_true ?_ horderly
      exact (graceful_of_issued hgraceful (hc.streaming.written_eq hwriting) rfl).mpr hcovered

theorem swapTasks_graceful (hgraceful : c.Graceful) (hswap : c.swapTasks = some c') :
    c'.Graceful := by
  obtain ⟨heq, htasks⟩ := swapTasks_tasks hswap
  rw [heq] at htasks ⊢
  refine hgraceful.of_same rfl fun hstate hnone => ?_
  rw [htasks] at hnone
  exact hgraceful.issued hstate hnone

/-- **One step** keeps a run graceful exactly when it is orderly. -/
theorem step_iff (hc : c.Ordered) (hgraceful : c.Graceful) {action : Action Thread}
    (hstep : (connections Thread).step c action = some c') :
    c'.Graceful ↔ Orderly c action := by
  cases action with
  | send message =>
      simp only [connections, Option.ite_none_right_eq_some] at hstep
      obtain ⟨-, heq⟩ := Option.ite_none_right_eq_some.mp hstep.2
      obtain rfl := Option.some.inj heq
      refine iff_of_true ?_ trivial
      split
      · exact hgraceful.of_same rfl hgraceful.issued
      · exact hgraceful
  | sendTask sender => exact iff_of_true (sendTask_graceful hc hgraceful hstep) trivial
  | shutdown caller =>
      obtain ⟨-, heq⟩ := Option.ite_none_right_eq_some.mp hstep
      obtain rfl := Option.some.inj heq
      refine iff_of_true ?_ trivial
      split
      · exact hgraceful.of_same rfl hgraceful.issued
      · exact hgraceful
  | shutdownState caller => exact shutdownState_iff hc hgraceful hstep
  | shutdownTask thread =>
      obtain ⟨-, heq⟩ := Option.ite_none_right_eq_some.mp hstep
      obtain rfl := Option.some.inj heq
      refine iff_of_true (hgraceful.of_same rfl fun _ htasks => ?_) trivial
      rw [queueTask_tasks] at htasks
      simp at htasks
  | handleWrite n =>
      simp only [connections, Option.ite_none_right_eq_some] at hstep
      exact handleWrite_iff hc hgraceful hstep.1.2 hstep.2
  | swapTasks =>
      simp only [connections, Option.ite_none_right_eq_some] at hstep
      exact iff_of_true (swapTasks_graceful hgraceful hstep.2) trivial
  | runTask =>
      simp only [connections, Option.ite_none_right_eq_some] at hstep
      exact runTask_iff hc hgraceful hstep.2

end Connection

open Connection

/-- **Graceful shutdown.**  A run keeps the promise of `Shutdown` throughout
exactly when all its steps are orderly. -/
theorem graceful_iff {c₀ c : Connection Thread} {actions : List (Action Thread)}
    (hstart : (connections Thread).start c₀)
    (hrun : (connections Thread).run c₀ actions = some c) :
    (connections Thread).Always Graceful c₀ actions ↔
      (connections Thread).EachStep Orderly c₀ actions := by
  have hstreaming := streaming_of_start hstart
  obtain ⟨b, -, rfl⟩ := hstart
  refine System.always_iff_eachStep (I := Ordered) (fun c action c' hc hstep => hc.step hstep)
    (fun c action c' hc hgraceful hstep => step_iff hc hgraceful hstep) ?_ ?_ hrun
  · exact ⟨hstreaming, .inl rfl, fun _ => ⟨rfl, by simp [tasks], by simp⟩, fun _ => le_rfl, by simp [tasks]⟩
  · exact ⟨by simp, by simp⟩

/-- A message of another thread is queued when its `Shutdown` is called, and both are
run before the message is written. -/
def queuedRun : List (Action Unit) :=
  [.send ⟨.other (), [1, 2]⟩, .sendTask (.other ()), .shutdown (.other ()),
    .shutdownState (.other ()), .shutdownTask (), .swapTasks, .runTask, .runTask, .handleWrite 2]

theorem graceful_iff_queued : (connections Unit).Always Graceful established queuedRun := by
  obtain ⟨c, hrun⟩ := Option.isSome_iff_exists.mp
    (show ((connections Unit).run established queuedRun).isSome = true by decide +kernel)
  exact (graceful_iff established_start hrun).mpr (by decide +kernel)

/-- The loop thread shuts down while a message of another thread is queued; it shuts down
behind an empty message, for which `write` returns 0; and another thread has not yet queued its
task. -/
theorem shutdown_not_graceful :
    (∃ c, (connections Unit).run established [.send ⟨.other (), [1]⟩, .sendTask (.other ()),
        .shutdown .loop, .shutdownState .loop] = some c ∧ ¬ c.Graceful) ∧
    (∃ c, (connections Unit).run established [.send ⟨.loop, []⟩, .sendTask .loop,
        .shutdown .loop, .shutdownState .loop, .handleWrite 0] = some c ∧ ¬ c.Graceful) ∧
    ∃ c, (connections Unit).run established
        [.shutdown (.other ()), .shutdownState (.other ())] = some c ∧ ¬ c.Graceful := by
  refine ⟨?_, ?_, ⟨_, rfl, ?_⟩⟩
  · have hfacts : ((connections Unit).run established [.send ⟨.other (), [1]⟩,
        .sendTask (.other ()), .shutdown .loop, .shutdownState .loop]).map Connection.shutdowns =
        some [⟨[⟨.other (), [1]⟩], [], []⟩] := by decide +kernel
    obtain ⟨c, hrun, hshutdowns⟩ := Option.map_eq_some_iff.mp hfacts
    refine ⟨c, hrun, fun hgraceful => ?_⟩
    have hsettled := (hgraceful.delivered _ (hshutdowns ▸ List.mem_singleton_self _)).settled
    exact absurd hsettled (by decide)
  · have hfacts : ((connections Unit).run established [.send ⟨.loop, []⟩, .sendTask .loop,
        .shutdown .loop, .shutdownState .loop, .handleWrite 0]).map
          (fun c => (c.state, c.tasks, c.outputBuf.readable, c.shutdowns.length))
        = some (.disconnecting, [], [], 0) := by decide +kernel
    obtain ⟨c, hrun, hfacts⟩ := Option.map_eq_some_iff.mp hfacts
    simp only [Prod.mk.injEq, List.length_eq_zero_iff] at hfacts
    obtain ⟨hstate, htasks, hempty, hnone⟩ := hfacts
    exact ⟨c, hrun, fun hgraceful => hgraceful.issued hstate htasks hempty hnone⟩
  · exact fun hgraceful => hgraceful.issued rfl rfl rfl rfl

end Eureka.Tcp

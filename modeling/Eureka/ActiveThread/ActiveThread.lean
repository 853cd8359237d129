import Eureka.ActiveThread.BlockingQueue

/-!
# The active thread

`ActiveThread` of `ActiveThread/src/active_thread.cpp`: a thread that dequeues the
tasks of a blocking queue and runs them, and a destructor that posts a last task,
which sets `done_`, and joins the thread.  A task may itself post tasks.

* `run_in_order`: the tasks are run one after another, in the order of the posts,
  each once;
* `run_before_join`: what the thread has run when the destructor returns is what was
  posted before its last task;
* `join_not_stuck`: the destructor does not wait for a thread that cannot go on.
-/

namespace Eureka.ActiveThread

open Transition Monitor

/-- A posted task, and the last one, which the destructor posts. -/
inductive Task (α : Type)
  | task (a : α)
  | quit
  deriving DecidableEq

/-- Who uses the queue: the thread, the callers of `PostTask` and the destructor. -/
inductive Agent (Poster : Type)
  | run
  | poster (p : Poster)
  | destructor
  deriving DecidableEq

/-- `Run`. -/
inductive RunAt (α : Type)
  | check
  | dequeue
  | call (task : Task α)
  | exited
  deriving DecidableEq

/-- `~ActiveThread`. -/
inductive DestructorAt
  | notCalled
  | post
  | join
  | returned
  deriving DecidableEq

variable {α Poster : Type} [DecidableEq Poster]

/-- The queue with those who use it. -/
abbrev TaskQueue (α Poster : Type) : Type :=
  State (List (Task α)) (BlockingQueue.Op (Task α)) (BlockingQueue.Ret (Task α)) (Agent Poster)

/-- The steps of the queue. -/
abbrev queueSystem (α Poster : Type) [DecidableEq Poster] :
    System (TaskQueue α Poster) (Monitor.Action (BlockingQueue.Op (Task α)) (Agent Poster)) :=
  Monitor.system (BlockingQueue.spec (Task α)) (Agent Poster)

/-- An active thread; the log `started` has the tasks that it has called. -/
structure Thread (α Poster : Type) where
  taskQueue : TaskQueue α Poster
  done : Bool
  run : RunAt α
  destructor : DestructorAt
  started : List (Task α)

inductive Action (α Poster : Type)
  /-- `PostTask`, of a task if it is the thread itself that calls it -/
  | post (t : Agent Poster) (a : α)
  | queue (t chosen : Agent Poster)
  | spurious (t : Agent Poster)
  | check
  | finish
  | destroy
  | join

namespace Thread

/-- Tasks are posted by the callers, and by the task that is running. -/
def mayPost (s : Thread α Poster) : Agent Poster → Bool
  | .poster _ => true
  | .destructor => false
  | .run =>
      match s.run with
      | .call _ => true
      | .check | .dequeue | .exited => false

/-- An action of the queue alone. -/
def useQueue (s : Thread α Poster)
    (action : Monitor.Action (BlockingQueue.Op (Task α)) (Agent Poster)) :
    Option (Thread α Poster) :=
  ((queueSystem α Poster).step s.taskQueue action).map fun queue => { s with taskQueue := queue }

/-- The head of the loop of `Run`. -/
def check (s : Thread α Poster) : Option (Thread α Poster) :=
  match s.run with
  | .check =>
      if s.done then some { s with run := .exited }
      else (s.useQueue (.call .run .pop)).map ({ · with run := .dequeue })
  | .dequeue | .call _ | .exited => none

/-- A step inside of the queue; when `Dequeue` returns to the thread, the task is called. -/
def stepQueue (s : Thread α Poster) (t chosen : Agent Poster) :
    Option (Thread α Poster) :=
  (s.useQueue (.step t chosen)).map fun s' =>
    match t, s.taskQueue.pc t with
    | .run, .notify .pop (.ele task) =>
        { s' with run := .call task, started := s'.started ++ [task] }
    | _, _ => s'

def finish (s : Thread α Poster) : Option (Thread α Poster) :=
  match s.run, s.taskQueue.pc .run with
  | .call (.task _), .idle => some { s with run := .check }
  | .call .quit, .idle => some { s with run := .check, done := true }
  | _, _ => none

def destroy (s : Thread α Poster) : Option (Thread α Poster) :=
  match s.destructor with
  | .notCalled =>
      (s.useQueue (.call .destructor (.push .quit))).map ({ · with destructor := .post })
  | .post | .join | .returned => none

/-- The destructor goes on behind its `PostTask`, and behind `join`. -/
def join (s : Thread α Poster) : Option (Thread α Poster) :=
  match s.destructor, s.taskQueue.pc .destructor, s.run with
  | .post, .idle, _ => some { s with destructor := .join }
  | .join, _, .exited => some { s with destructor := .returned }
  | _, _, _ => none

end Thread

/-- The runs of an active thread. -/
def activeThreads (α Poster : Type) [DecidableEq Poster] :
    System (Thread α Poster) (Action α Poster) where
  start s := ∃ queue, (queueSystem α Poster).start queue ∧
    s = ⟨queue, false, .check, .notCalled, []⟩
  step s
    | .post t a => if s.mayPost t then s.useQueue (.call t (.push (.task a))) else none
    | .queue t chosen => s.stepQueue t chosen
    | .spurious t => s.useQueue (.spurious t)
    | .check => s.check
    | .finish => s.finish
    | .destroy => s.destroy
    | .join => s.join

/-! ### The queue of an active thread -/

/-- What each of them calls. -/
def Agent.Calls : Agent Poster → BlockingQueue.Op (Task α) → Prop
  | .run, op => op = .pop ∨ ∃ a, op = .push (.task a)
  | .poster _, op => ∃ a, op = .push (.task a)
  | .destructor, op => op = .push .quit

/-- The last task was called, as the last one. -/
def Ended (started : List (Task α)) : Prop :=
  ∃ before, started = before ++ [.quit] ∧ .quit ∉ before

/-- The tasks that were called are the answers of `Dequeue`; while the thread dequeues or runs a
task, the last task was not called before; and the destructor, once it waits, has posted it. -/
structure Inv (s : Thread α Poster) : Prop where
  reach : (queueSystem α Poster).Reachable s.taskQueue
  calls : Calls Agent.Calls s.taskQueue
  started : s.started = (ofThread .run s.taskQueue.returned).filterMap BlockingQueue.Ret.ele?
  check : s.run = .check → s.taskQueue.pc .run = .idle ∧
    if s.done then Ended s.started else .quit ∉ s.started
  dequeue : s.run = .dequeue →
    (s.taskQueue.pc .run).op? = some .pop ∧ s.done = false ∧ .quit ∉ s.started
  call : ∀ task, s.run = .call task → (s.taskQueue.pc .run).op? ≠ some .pop ∧
    s.done = false ∧ ∃ before, s.started = before ++ [task] ∧ .quit ∉ before
  exited : s.run = .exited → s.taskQueue.pc .run = .idle ∧ Ended s.started
  post : s.destructor = .post →
    s.taskQueue.pc .destructor ≠ .idle ∨ ofThread .destructor s.taskQueue.returned ≠ []
  join : s.destructor = .join ∨ s.destructor = .returned →
    ofThread .destructor s.taskQueue.returned ≠ []
  returned : s.destructor = .returned → s.run = .exited

variable {s s' : Thread α Poster} {queue : TaskQueue α Poster}

theorem useQueue_eq_some {action : Monitor.Action (BlockingQueue.Op (Task α)) (Agent Poster)} :
    s.useQueue action = some s' ↔
      ∃ queue, (queueSystem α Poster).step s.taskQueue action = some queue ∧
        { s with taskQueue := queue } = s' := by
  rw [Thread.useQueue, Option.map_eq_some_iff]

/-- The thread's own call, at the head of the loop or in a task, or a call of another agent. -/
theorem Inv.queueCall (h : Inv s) {t : Agent Poster} {op : BlockingQueue.Op (Task α)}
    (hstep : (queueSystem α Poster).step s.taskQueue (.call t op) = some queue)
    (hP : t.Calls op) :
    (queueSystem α Poster).Reachable queue ∧ Calls Agent.Calls queue ∧
      queue.returned = s.taskQueue.returned ∧ (queue.pc t).op? = some op ∧
        ∀ u, u ≠ t → queue.pc u = s.taskQueue.pc u := by
  refine ⟨h.reach.step hstep, ?_⟩
  obtain ⟨-, rfl⟩ := call_eq_some.mp hstep
  refine ⟨h.calls.call hP, rfl, ?_, fun u hu => goto_pc_of_ne _ _ hu⟩
  rw [goto_pc_self]
  rfl

theorem Inv.elsewhere (h : Inv s) (hreach : (queueSystem α Poster).Reachable queue)
    (hcalls : Calls Agent.Calls queue) (hpc : queue.pc .run = s.taskQueue.pc .run)
    (hreturned : ofThread .run queue.returned = ofThread .run s.taskQueue.returned)
    (hpost : s.destructor = .post →
      queue.pc .destructor ≠ .idle ∨ ofThread .destructor queue.returned ≠ [])
    (hjoin : ofThread .destructor s.taskQueue.returned ≠ [] →
      ofThread .destructor queue.returned ≠ []) :
    Inv { s with taskQueue := queue } where
  reach := hreach
  calls := hcalls
  started := h.started.trans (by rw [hreturned])
  check hrun := by
    rw [hpc]
    exact h.check hrun
  dequeue hrun := by
    rw [hpc]
    exact h.dequeue hrun
  call task hrun := by
    rw [hpc]
    exact h.call task hrun
  exited hrun := by
    rw [hpc]
    exact h.exited hrun
  post := hpost
  join hdestructor := hjoin (h.join hdestructor)
  returned := h.returned

theorem Inv.post_step (h : Inv s) {t : Agent Poster} {a : α} (hmay : s.mayPost t = true)
    (hstep : (queueSystem α Poster).step s.taskQueue (.call t (.push (.task a))) = some queue) :
    Inv { s with taskQueue := queue } := by
  cases t with
  | destructor => cases hmay
  | poster p =>
      obtain ⟨hreach, hcalls, hreturned, -, hothers⟩ := h.queueCall hstep ⟨a, rfl⟩
      refine h.elsewhere hreach hcalls (hothers .run nofun) (by rw [hreturned]) ?_ ?_
      · rw [hothers .destructor nofun, hreturned]
        exact h.post
      · rw [hreturned]
        exact id
  | run =>
      obtain ⟨hreach, hcalls, hreturned, hop, hothers⟩ := h.queueCall hstep (.inr ⟨a, rfl⟩)
      obtain ⟨task, hrun⟩ : ∃ task, s.run = .call task := by
        cases hrun : s.run <;> simp [Thread.mayPost, hrun] at hmay ⊢
      have hdestructor : queue.pc .destructor = s.taskQueue.pc .destructor :=
        hothers .destructor nofun
      exact
        { reach := hreach
          calls := hcalls
          started := h.started.trans (by rw [hreturned])
          check := fun hcheck => nomatch hrun.symm.trans hcheck
          dequeue := fun hdequeue => nomatch hrun.symm.trans hdequeue
          call := fun task' hcall => ⟨by simp [hop], (h.call task' hcall).2⟩
          exited := fun hexited => nomatch hrun.symm.trans hexited
          post := fun hpost => by rw [hdestructor, hreturned]; exact h.post hpost
          join := fun hjoin => by rw [hreturned]; exact h.join hjoin
          returned := h.returned }

theorem Inv.spurious_step (h : Inv s) {t : Agent Poster}
    (hstep : (queueSystem α Poster).step s.taskQueue (.spurious t) = some queue) :
    Inv { s with taskQueue := queue } := by
  have hreach := h.reach.step hstep
  obtain ⟨-, rfl⟩ := spurious_eq_some.mp hstep
  exact h.elsewhere hreach ⟨h.calls.pc, h.calls.history⟩ rfl rfl h.post id

theorem ofThread_append_of_idle {t u : Agent Poster} (htu : u ≠ t)
    {returned returned' : List (Agent Poster × BlockingQueue.Ret (Task α))}
    (h : returned' = returned ∨ ∃ ret, returned' = returned ++ [(t, ret)]) :
    ofThread u returned' = ofThread u returned := by
  rcases h with rfl | ⟨ret, rfl⟩
  · rfl
  · exact ofThread_append_of_ne htu _ _

theorem Inv.others_step (h : Inv s) {t : Agent Poster} (ht : t ≠ .run)
    (hmoves : Moves (BlockingQueue.spec (Task α)) s.taskQueue t queue)
    (hreach : (queueSystem α Poster).Reachable queue) : Inv { s with taskQueue := queue } := by
  obtain ⟨hothers, hself⟩ := hmoves.frame
  have hreturned : queue.returned = s.taskQueue.returned ∨
      ∃ ret, queue.returned = s.taskQueue.returned ++ [(t, ret)] := by
    rcases hself with ⟨_, ret, _, _, hret⟩ | ⟨_, hret, _⟩
    · exact .inr ⟨ret, hret⟩
    · exact .inl hret
  refine h.elsewhere hreach (h.calls.of_moves hmoves) (hothers .run ht.symm)
    (ofThread_append_of_idle ht.symm hreturned) ?_ ?_
  · intro hpost
    by_cases htd : t = .destructor
    · subst htd
      rcases hself with ⟨_, ret, _, _, hret⟩ | ⟨⟨op, _, hop⟩, _⟩
      · refine .inr ?_
        rw [hret, ofThread_append_self]
        simp
      · refine .inl fun hidle => ?_
        rw [hidle] at hop
        cases hop
    · rw [hothers .destructor (Ne.symm htd),
        ofThread_append_of_idle (Ne.symm htd) hreturned]
      exact h.post hpost
  · intro hne
    rcases hreturned with hret | ⟨ret, hret⟩
    · rw [hret]
      exact hne
    · intro hempty
      rw [hret, ofThread, List.filter_append, List.map_append, List.append_eq_nil_iff] at hempty
      exact hne hempty.1

theorem stepQueue_eq_some {t chosen : Agent Poster} (h : s.stepQueue t chosen = some s') :
    ∃ queue, (queueSystem α Poster).step s.taskQueue (.step t chosen) = some queue ∧
      ((t = .run ∧ ∃ task, s.taskQueue.pc .run = .notify .pop (.ele task) ∧
          s' = ⟨queue, s.done, .call task, s.destructor, s.started ++ [task]⟩) ∨
        (¬ (t = .run ∧ ∃ task, s.taskQueue.pc .run = .notify .pop (.ele task)) ∧
          s' = { s with taskQueue := queue })) := by
  rw [Thread.stepQueue, Option.map_eq_some_iff] at h
  obtain ⟨mid, hmid, rfl⟩ := h
  obtain ⟨queue, hqueue, rfl⟩ := useQueue_eq_some.mp hmid
  refine ⟨queue, hqueue, ?_⟩
  by_cases hpop : t = .run ∧ ∃ task, s.taskQueue.pc .run = .notify .pop (.ele task)
  · obtain ⟨rfl, task, htask⟩ := hpop
    exact .inl ⟨rfl, task, htask, by simp only [htask]⟩
  · refine .inr ⟨hpop, ?_⟩
    split
    case h_1 task htask => exact absurd ⟨rfl, task, htask⟩ hpop
    case h_2 => rfl

/-- `Dequeue` returns to the thread, which calls the task. -/
theorem Inv.dequeued (h : Inv s) {task : Task α}
    (hpc : s.taskQueue.pc .run = .notify .pop (.ele task))
    (hmoves : Moves (BlockingQueue.spec (Task α)) s.taskQueue .run queue)
    (hreach : (queueSystem α Poster).Reachable queue) :
    Inv ⟨queue, s.done, .call task, s.destructor, s.started ++ [task]⟩ := by
  have hrun : s.run = .dequeue := by
    cases hrun : s.run with
    | check => simp [(h.check hrun).1] at hpc
    | exited => simp [(h.exited hrun).1] at hpc
    | call task' => exact absurd (by rw [hpc]; rfl) (h.call task' hrun).1
    | dequeue => rfl
  obtain ⟨hothers, hself⟩ := hmoves.frame
  obtain ⟨op, ret, hnotify, hidle, hreturned⟩ : ∃ op ret, s.taskQueue.pc .run = .notify op ret ∧
      queue.pc .run = .idle ∧ queue.returned = s.taskQueue.returned ++ [(.run, ret)] :=
    hself.resolve_right fun hbusy => hbusy.2.2 _ _ hpc
  obtain ⟨rfl, rfl⟩ : op = .pop ∧ ret = .ele task := by simpa [hpc, eq_comm] using hnotify
  have hdestructor : ofThread .destructor queue.returned =
      ofThread .destructor s.taskQueue.returned :=
    ofThread_append_of_idle (t := .run) (by simp) (.inr ⟨_, hreturned⟩)
  refine
    { reach := hreach
      calls := h.calls.of_moves hmoves
      started := ?_
      check := nofun
      dequeue := nofun
      call := fun task' htask' => ?_
      exited := nofun
      post := fun hpost => ?_
      join := fun hjoin => ?_
      returned := fun hreturned => ?_ }
  · rw [hreturned, ofThread_append_self, List.filterMap_append, ← h.started]
    rfl
  · obtain rfl : task = task' := by simpa using htask'
    exact ⟨by simp [hidle], (h.dequeue hrun).2.1, s.started, rfl, (h.dequeue hrun).2.2⟩
  · rw [hdestructor, hothers .destructor nofun]
    exact h.post hpost
  · rw [hdestructor]
    exact h.join hjoin
  · exact absurd (h.returned hreturned) (by simp [hrun])

theorem Inv.run_step (h : Inv s)
    (hpop : ¬ ∃ task, s.taskQueue.pc .run = .notify .pop (.ele task))
    (hmoves : Moves (BlockingQueue.spec (Task α)) s.taskQueue .run queue)
    (hreach : (queueSystem α Poster).Reachable queue) : Inv { s with taskQueue := queue } := by
  obtain ⟨hothers, hself⟩ := hmoves.frame
  have hnotidle : s.taskQueue.pc .run ≠ .idle := by
    rcases hself with ⟨_, _, hpc, _⟩ | ⟨⟨_, hop, _⟩, _⟩
    · simp [hpc]
    · intro hidle
      simp [hidle] at hop
  have hreturned : ofThread .destructor queue.returned =
      ofThread .destructor s.taskQueue.returned := by
    refine ofThread_append_of_idle (t := .run) (by simp) ?_
    rcases hself with ⟨_, ret, _, _, hret⟩ | ⟨_, hret, _⟩
    · exact .inr ⟨ret, hret⟩
    · exact .inl hret
  -- what the thread may have returned from is a `PostTask` of its task
  have hpost : ∀ op ret, s.taskQueue.pc .run = .notify op ret → ret.ele? = none ∧ op ≠ .pop := by
    intro op ret hpc
    have hop : (s.taskQueue.pc .run).op? = some op := by rw [hpc]; rfl
    have howed : (s.taskQueue.pc .run).owed = some ret := by rw [hpc]; rfl
    rcases h.calls.pc .run op hop with rfl | ⟨a, rfl⟩
    · obtain ⟨task, rfl⟩ := BlockingQueue.pop_answer h.reach hop howed
      exact absurd ⟨task, hpc⟩ hpop
    · obtain ⟨data, -, rfl⟩ := answered h.reach .run _ ret hop howed
      exact ⟨rfl, nofun⟩
  refine
    { reach := hreach
      calls := h.calls.of_moves hmoves
      started := ?_
      check := fun hcheck => absurd (h.check hcheck).1 hnotidle
      dequeue := fun hdequeue => ?_
      call := fun task hcall => ?_
      exited := fun hexited => absurd (h.exited hexited).1 hnotidle
      post := fun hpost => by rw [hreturned, hothers .destructor nofun]; exact h.post hpost
      join := fun hjoin => by rw [hreturned]; exact h.join hjoin
      returned := h.returned }
  · rcases hself with ⟨op, ret, hpc, -, hret⟩ | ⟨-, hret, -⟩
    · rw [hret, ofThread_append_self, List.filterMap_append, ← h.started]
      simp [(hpost op ret hpc).1]
    · rw [hret]
      exact h.started
  · obtain ⟨hop, hrest⟩ := h.dequeue hdequeue
    rcases hself with ⟨op, ret, hpc, -⟩ | ⟨⟨op, hop', hop''⟩, -⟩
    · rw [hpc] at hop
      exact absurd (Option.some.inj hop) (hpost op ret hpc).2
    · exact ⟨hop''.trans (hop'.symm.trans hop), hrest⟩
  · obtain ⟨hop, hrest⟩ := h.call task hcall
    rcases hself with ⟨op, ret, -, hidle, -⟩ | ⟨⟨op, hop', hop''⟩, -⟩
    · exact ⟨by simp [hidle], hrest⟩
    · exact ⟨by rw [hop'', ← hop']; exact hop, hrest⟩

theorem Inv.stepQueue (h : Inv s) {t chosen : Agent Poster}
    (hstep : s.stepQueue t chosen = some s') : Inv s' := by
  obtain ⟨queue, hqueue, hcases⟩ := stepQueue_eq_some hstep
  have hmoves := moves_of_step hqueue
  have hreach := h.reach.step hqueue
  rcases hcases with ⟨rfl, task, hpc, rfl⟩ | ⟨hpop, rfl⟩
  · exact h.dequeued hpc hmoves hreach
  · by_cases ht : t = .run
    · subst ht
      exact h.run_step (fun hex => hpop ⟨rfl, hex⟩) hmoves hreach
    · exact h.others_step ht hmoves hreach

theorem Inv.checked (h : Inv s) (hstep : s.check = some s') : Inv s' := by
  rw [Thread.check] at hstep
  split at hstep
  case h_1 hrun =>
      obtain ⟨hidle, hended⟩ := h.check hrun
      split at hstep
      case isTrue hdone =>
          obtain rfl := Option.some.inj hstep
          rw [if_pos hdone] at hended
          exact { h with
            check := nofun
            dequeue := nofun
            call := nofun
            exited := fun _ => ⟨hidle, hended⟩
            returned := fun _ => rfl }
      case isFalse hdone =>
          rw [if_neg hdone] at hended
          obtain ⟨mid, hmid, rfl⟩ := Option.map_eq_some_iff.mp hstep
          obtain ⟨queue, hqueue, rfl⟩ := useQueue_eq_some.mp hmid
          obtain ⟨hreach, hcalls, hreturned, hop, hothers⟩ := h.queueCall hqueue (.inl rfl)
          have hdestructor : queue.pc .destructor = s.taskQueue.pc .destructor :=
            hothers .destructor nofun
          exact
            { reach := hreach
              calls := hcalls
              started := h.started.trans (by rw [hreturned])
              check := nofun
              dequeue := fun _ => ⟨hop, by simpa using hdone, hended⟩
              call := nofun
              exited := nofun
              post := fun hpost => by rw [hdestructor, hreturned]; exact h.post hpost
              join := fun hjoin => by rw [hreturned]; exact h.join hjoin
              returned := fun hret => absurd (h.returned hret) (by simp [hrun]) }
  case h_2 | h_3 | h_4 => cases hstep

theorem Inv.finished (h : Inv s) (hstep : s.finish = some s') : Inv s' := by
  have hkeep : ∀ task, s.run = .call task → s.destructor ≠ .returned := fun task hrun hret =>
    absurd (h.returned hret) (by simp [hrun])
  rw [Thread.finish] at hstep
  split at hstep
  case h_1 a hrun hidle =>
      obtain rfl := Option.some.inj hstep
      obtain ⟨-, hdone, before, hstarted, hquit⟩ := h.call _ hrun
      exact { h with
        check := fun _ => ⟨hidle, by simp [hdone, hstarted, hquit]⟩
        dequeue := nofun
        call := nofun
        exited := nofun
        returned := fun hret => absurd hret (hkeep _ hrun) }
  case h_2 hrun hidle =>
      obtain rfl := Option.some.inj hstep
      obtain ⟨-, -, hended⟩ := h.call _ hrun
      exact { h with
        check := fun _ => ⟨hidle, hended⟩
        dequeue := nofun
        call := nofun
        exited := nofun
        returned := fun hret => absurd hret (hkeep _ hrun) }
  case h_3 => cases hstep

theorem Inv.destroyed (h : Inv s) (hstep : s.destroy = some s') : Inv s' := by
  rw [Thread.destroy] at hstep
  split at hstep
  case h_1 hdestructor =>
      obtain ⟨mid, hmid, rfl⟩ := Option.map_eq_some_iff.mp hstep
      obtain ⟨queue, hqueue, rfl⟩ := useQueue_eq_some.mp hmid
      obtain ⟨hreach, hcalls, hreturned, hop, hothers⟩ := h.queueCall hqueue rfl
      have hpost : queue.pc .destructor ≠ .idle := by
        intro hidle
        rw [hidle] at hop
        cases hop
      have hmid : Inv { s with taskQueue := queue } :=
        h.elsewhere hreach hcalls (hothers .run nofun) (by rw [hreturned])
          (fun _ => .inl hpost) (by rw [hreturned]; exact id)
      exact { hmid with
        post := fun _ => .inl hpost
        join := nofun
        returned := nofun }
  case h_2 | h_3 | h_4 => cases hstep

theorem Inv.joined (h : Inv s) (hstep : s.join = some s') : Inv s' := by
  rw [Thread.join] at hstep
  split at hstep
  case h_1 hdestructor hidle =>
      obtain rfl := Option.some.inj hstep
      have hposted := (h.post hdestructor).resolve_left (fun hne => hne hidle)
      exact { h with
        post := nofun
        join := fun _ => hposted
        returned := nofun }
  case h_2 hdestructor hrun =>
      obtain rfl := Option.some.inj hstep
      exact { h with
        post := nofun
        join := fun _ => h.join (.inl hdestructor)
        returned := fun _ => hrun }
  case h_3 => cases hstep

theorem inv_of_reachable (hreach : (activeThreads α Poster).Reachable s) : Inv s := by
  refine hreach.invariant ?_ ?_
  · rintro s ⟨queue, hqueue, rfl⟩
    have hreach : (queueSystem α Poster).Reachable queue := .of_start hqueue
    obtain rfl := hqueue
    exact
      { reach := hreach
        calls := ⟨fun t op hop => (nomatch hop), nofun⟩
        started := rfl
        check := fun _ => ⟨rfl, by simp⟩
        dequeue := nofun
        call := nofun
        exited := nofun
        post := nofun
        join := nofun
        returned := nofun }
  · intro s action s' h hstep
    cases action with
    | post t a =>
        simp only [activeThreads, Option.ite_none_right_eq_some] at hstep
        obtain ⟨hmay, huse⟩ := hstep
        obtain ⟨queue, hqueue, rfl⟩ := useQueue_eq_some.mp huse
        exact h.post_step hmay hqueue
    | queue t chosen => exact h.stepQueue hstep
    | spurious t =>
        obtain ⟨queue, hqueue, rfl⟩ := useQueue_eq_some.mp hstep
        exact h.spurious_step hqueue
    | check => exact h.checked hstep
    | finish => exact h.finished hstep
    | destroy => exact h.destroyed hstep
    | join => exact h.joined hstep

/-! ### The order of the tasks, and the end of the thread -/

/-- The tasks that were posted, in the order in which they came into the queue. -/
def Thread.posted (s : Thread α Poster) : List (Task α) := BlockingQueue.pushes s.taskQueue.history

/-- The task that `Dequeue` is about to return with. -/
def Thread.dequeued (s : Thread α Poster) : Option (Task α) :=
  (s.taskQueue.pc .run).owed.bind BlockingQueue.Ret.ele?

theorem Inv.order (h : Inv s) :
    s.started ++ s.dequeued.toList ++ s.taskQueue.data = s.posted := by
  have hpush : ∀ call ∈ s.taskQueue.history, call.1 ≠ .run → ∃ ele, call.2 = .push ele := by
    rintro ⟨t, op⟩ hcall hne
    have hP : t.Calls op := h.calls.history _ hcall
    cases t with
    | run => exact absurd rfl hne
    | poster p =>
        obtain ⟨a, rfl⟩ := hP
        exact ⟨_, rfl⟩
    | destructor => exact ⟨_, hP⟩
  have hall : ofThread .run (BlockingQueue.popped s.taskQueue.history) =
      (BlockingQueue.popped s.taskQueue.history).map Prod.snd := by
    have hrun := BlockingQueue.fst_of_mem_popped hpush
    rw [ofThread, List.filter_eq_self.mpr (by simpa using hrun)]
  calc s.started ++ s.dequeued.toList ++ s.taskQueue.data
      = ofThread .run (BlockingQueue.popped s.taskQueue.history) ++ s.taskQueue.data := by
        rw [BlockingQueue.ofThread_popped h.reach, h.started]
        rfl
    _ = (BlockingQueue.popped s.taskQueue.history).map Prod.snd ++ s.taskQueue.data := by rw [hall]
    _ = s.posted := BlockingQueue.popped_append_data h.reach

/-- **The tasks are run in the order in which they were posted**, one after another and each
once: behind those that were called come the one that was dequeued and those in the queue. -/
theorem run_in_order (hreach : (activeThreads α Poster).Reachable s) :
    s.started ++ s.dequeued.toList ++ s.taskQueue.data = s.posted :=
  (inv_of_reachable hreach).order

/-- A task posts another one while it runs. -/
def nested : List (Action ℕ Unit) :=
  List.flatten [[.post (.poster ()) 1], List.replicate 5 (.queue (.poster ()) .run), [.check],
    List.replicate 5 (.queue .run .run), [.post .run 2], List.replicate 3 (.queue .run .run)]

theorem run_in_order_nested :
    ∃ s : Thread ℕ Unit, s.started = [.task 1] ∧ s.taskQueue.data = [.task 2] ∧
      s.started ++ s.dequeued.toList ++ s.taskQueue.data = s.posted := by
  have hfacts : ((activeThreads ℕ Unit).run
      ⟨⟨[], none, ∅, fun _ => .idle, [], []⟩, false, .check, .notCalled, []⟩ nested).map
        (fun s => (s.started, s.taskQueue.data)) = some ([.task 1], [.task 2]) := by decide
  obtain ⟨s, hrun, hs⟩ := Option.map_eq_some_iff.mp hfacts
  simp only [Prod.mk.injEq] at hs
  exact ⟨s, hs.1, hs.2, run_in_order ⟨_, nested, ⟨_, rfl, rfl⟩, hrun⟩⟩

/-- **What the destructor leaves behind.**  When it returns, the thread has run what was posted
before the destructor's task, and this task, and nothing that was posted later. -/
theorem run_before_join (hreach : (activeThreads α Poster).Reachable s)
    (hreturned : s.destructor = .returned) :
    ∃ before after, s.posted = before ++ .quit :: after ∧ .quit ∉ before ∧
      s.started = before ++ [.quit] := by
  have h := inv_of_reachable hreach
  obtain ⟨hidle, before, hstarted, hquit⟩ := h.exited (h.returned hreturned)
  have horder := h.order
  have hdequeued : s.dequeued = none := by simp [Thread.dequeued, hidle, At.owed]
  rw [hdequeued, hstarted] at horder
  exact ⟨before, s.taskQueue.data, by simpa using horder.symm, hquit, hstarted⟩

/-- A caller posts a task, the thread runs it, and the destructor is called and returns; in the end
the caller, which should have stopped, has posted once more. -/
def wholeLife : List (Action ℕ Unit) :=
  List.flatten [[.post (.poster ()) 1], List.replicate 5 (.queue (.poster ()) .run), [.check],
    List.replicate 5 (.queue .run .run), [.finish, .destroy],
    List.replicate 5 (.queue .destructor .run), [.join, .check],
    List.replicate 5 (.queue .run .run), [.finish, .post (.poster ()) 2],
    List.replicate 4 (.queue (.poster ()) .run), [.check, .join]]

theorem run_before_join_wholeLife :
    ∃ s : Thread ℕ Unit, s.posted = [.task 1, .quit, .task 2] ∧
      ∃ before after, s.posted = before ++ .quit :: after ∧ .quit ∉ before ∧
        s.started = before ++ [.quit] := by
  have hfacts : ((activeThreads ℕ Unit).run
      ⟨⟨[], none, ∅, fun _ => .idle, [], []⟩, false, .check, .notCalled, []⟩ wholeLife).map
        (fun s => (s.posted, s.destructor)) =
      some ([.task 1, .quit, .task 2], .returned) := by decide
  obtain ⟨s, hrun, hs⟩ := Option.map_eq_some_iff.mp hfacts
  simp only [Prod.mk.injEq] at hs
  exact ⟨s, hs.1, run_before_join ⟨_, wholeLife, ⟨_, rfl, rfl⟩, hrun⟩ hs.2⟩

theorem quit_mem_posted (h : Inv s) (hjoin : s.destructor = .join) : .quit ∈ s.posted := by
  obtain ⟨op, hop⟩ :=
    (Monitor.inv_of_reachable h.reach).linearizes.exists_call (h.join (.inl hjoin))
  obtain rfl : op = .push .quit := h.calls.history _ hop
  exact List.mem_filterMap.mpr ⟨_, hop, rfl⟩

theorem exists_queue_step {u chosen : Agent Poster}
    (hstep : (queueSystem α Poster).step s.taskQueue (.step u chosen) = some queue) :
    ((activeThreads α Poster).step s (.queue u chosen)).isSome := by
  have huse : s.useQueue (.step u chosen) = some { s with taskQueue := queue } :=
    useQueue_eq_some.mpr ⟨queue, hstep, rfl⟩
  simp [activeThreads, Thread.stepQueue, huse]

/-- **The destructor does not join a thread that is stuck**: until the thread has ended, it or
another one in the queue can go on. -/
theorem join_not_stuck (hreach : (activeThreads α Poster).Reachable s)
    (hjoin : s.destructor = .join) (hrun : s.run ≠ .exited) :
    ((activeThreads α Poster).step s .check).isSome ∨
      ((activeThreads α Poster).step s .finish).isSome ∨
        ∃ t chosen, ((activeThreads α Poster).step s (.queue t chosen)).isSome := by
  have h := inv_of_reachable hreach
  have hbusy : ∀ op, (s.taskQueue.pc .run).op? = some op → .run ∉ s.taskQueue.waiting →
      ∃ t chosen, ((activeThreads α Poster).step s (.queue t chosen)).isSome := by
    intro op hop hwaiting
    obtain ⟨u, -, chosen, queue, hstep⟩ :=
      exists_step_of_busy (Monitor.inv_of_reachable h.reach) hop hwaiting
    exact ⟨u, chosen, exists_queue_step hstep⟩
  cases hcase : s.run with
  | exited => exact absurd hcase hrun
  | check =>
      refine .inl ?_
      obtain ⟨hidle, -⟩ := h.check hcase
      have hcall : (queueSystem α Poster).step s.taskQueue (.call .run .pop) =
          some (s.taskQueue.goto .run (.lock .pop)) := call_eq_some.mpr ⟨hidle, rfl⟩
      have huse := useQueue_eq_some.mpr ⟨_, hcall, rfl⟩
      cases hdone : s.done <;> simp [activeThreads, Thread.check, hcase, hdone, huse]
  | call task =>
      refine .inr ?_
      cases hop : (s.taskQueue.pc .run).op? with
      | none =>
          have hidle : s.taskQueue.pc .run = .idle := by
            cases hpc : s.taskQueue.pc .run <;> simp [hpc, At.op?] at hop ⊢
          exact .inl (by cases task <;> simp [activeThreads, Thread.finish, hcase, hidle])
      | some op =>
          refine .inr (hbusy op hop fun hwaiting => (h.call task hcase).1 ?_)
          rw [BlockingQueue.pc_of_waiting h.reach hwaiting]
          rfl
  | dequeue =>
      refine .inr (.inr ?_)
      obtain ⟨hop, -, hquit⟩ := h.dequeue hcase
      by_cases hwaiting : .run ∈ s.taskQueue.waiting
      · -- the destructor's task was posted and not yet called, so it is in the queue
        have horder := h.order
        have hdequeued : s.dequeued = none := by
          simp [Thread.dequeued, BlockingQueue.pc_of_waiting h.reach hwaiting, At.owed]
        have hmem : Task.quit ∈ s.taskQueue.data := by
          have hposted := quit_mem_posted h hjoin
          rw [← horder, hdequeued] at hposted
          simpa [hquit] using hposted
        obtain ⟨u, -, chosen, queue, hstep⟩ := (BlockingQueue.signals (Task α)).not_stuck h.reach
          hwaiting (BlockingQueue.pc_of_waiting h.reach hwaiting)
          (BlockingQueue.ready_pop (List.ne_nil_of_mem hmem))
        exact ⟨u, chosen, exists_queue_step hstep⟩
      · exact hbusy .pop hop hwaiting

/-- The destructor joins a thread that it has just woken. -/
def joining : List (Action ℕ Unit) :=
  List.flatten [[.check, .queue .run .run, .queue .run .run, .destroy],
    List.replicate 5 (.queue .destructor .run), [.join]]

theorem join_not_stuck_joining :
    ∃ s : Thread ℕ Unit, s.destructor = .join ∧
      (((activeThreads ℕ Unit).step s .check).isSome ∨
        ((activeThreads ℕ Unit).step s .finish).isSome ∨
          ∃ t chosen, ((activeThreads ℕ Unit).step s (.queue t chosen)).isSome) := by
  have hfacts : ((activeThreads ℕ Unit).run
      ⟨⟨[], none, ∅, fun _ => .idle, [], []⟩, false, .check, .notCalled, []⟩ joining).map
        (fun s => (s.destructor, decide (s.run = .exited))) = some (.join, false) := by decide
  obtain ⟨s, hrun, hs⟩ := Option.map_eq_some_iff.mp hfacts
  simp only [Prod.mk.injEq, decide_eq_false_iff_not] at hs
  exact ⟨s, hs.1, join_not_stuck ⟨_, joining, ⟨_, rfl, rfl⟩, hrun⟩ hs.1 hs.2⟩

end Eureka.ActiveThread

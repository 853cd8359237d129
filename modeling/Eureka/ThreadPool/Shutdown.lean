import Eureka.Library.Mutex
import Eureka.ThreadPool.Pool

/-!
# The shutdown of the thread pool

`running_` and the queue are only used under the mutex.  A worker that has an
empty function in its hand has seen, in one section, that the pool is stopped
and the queue empty; and since tasks are only accepted while the pool runs, both
stays so.

* `InOrder`: what the queue and the logs have to do with each other;
* `Inv`: the invariant;
* `Inv.moveWorker`, `Inv.movePoster`, `Inv.moveDestructor`: the steps beside the queue;
* `Inv.skipFront`, `Inv.takeFront`, `Inv.execute`, `Inv.push`: the way of a task;
* `shutdown_orderly`: what holds in every reachable state.
-/

namespace Eureka.ThreadPool

open Transition

/-! ## Who is where -/

/-- The worker has locked the mutex. -/
def WorkerAt.inside : WorkerAt → Bool
  | check => true
  | scan => true
  | unlock _ => true
  | _ => false

/-- The task that the worker has taken and not called. -/
def WorkerAt.hand : WorkerAt → Option ℕ
  | unlock task => task
  | call task => some task
  | _ => none

/-- The worker has an empty function, or has left for it. -/
def WorkerAt.leaves : WorkerAt → Bool
  | unlock none => true
  | exited => true
  | _ => false

def PosterAt.inside : PosterAt → Bool
  | ensure _ => true
  | push _ => true
  | unlock => true
  | _ => false

def DestructorAt.inside : DestructorAt → Bool
  | stop => true
  | unlock => true
  | _ => false

variable {Worker Poster : Type} {s s' : Pool Worker Poster} {w : Worker} {p : Poster} {task : ℕ}

namespace Pool

def inside (s : Pool Worker Poster) : Agent Worker Poster → Bool
  | .worker w => (s.worker w).inside
  | .poster p => (s.poster p).inside
  | .destructor => s.destructor.inside

/-- The tasks that were taken to be run. -/
def takenTasks (s : Pool Worker Poster) : List ℕ :=
  (s.retrieved.filter Retrieval.taken).map Retrieval.task

variable [DecidableEq Worker]

theorem worker_update {P : Worker → WorkerAt → Prop} {pc : WorkerAt} (hself : P w pc)
    (hothers : ∀ v, v ≠ w → P v (s.worker v)) (v : Worker) :
    P v (Function.update s.worker w pc v) := by
  by_cases hv : v = w
  · rw [hv, Function.update_self]
    exact hself
  · rw [Function.update_of_ne hv]
    exact hothers v hv

theorem hand_update {pc : WorkerAt} {v : Worker} :
    (Function.update s.worker w pc v).hand = some task ↔
      v = w ∧ pc.hand = some task ∨ v ≠ w ∧ (s.worker v).hand = some task := by
  by_cases hv : v = w
  · rw [hv, Function.update_self]
    simp
  · rw [Function.update_of_ne hv]
    simp [hv]

variable [DecidableEq Poster]

theorem guards_of_worker {pc : WorkerAt} (hworker : s'.worker = Function.update s.worker w pc)
    (hposter : s'.poster = s.poster) (hdestructor : s'.destructor = s.destructor)
    (hmutex : Guards s'.poolMutex (Function.update s.inside (.worker w) pc.inside)) :
    Guards s'.poolMutex s'.inside := by
  convert hmutex using 1
  funext agent
  cases agent with
  | worker v =>
      rw [inside, hworker]
      by_cases hv : v = w
      · rw [hv, Function.update_self, Function.update_self]
      · rw [Function.update_of_ne hv, Function.update_of_ne (fun heq => hv (Agent.worker.inj heq)),
          inside]
  | poster q => rw [inside, hposter, Function.update_of_ne (fun heq => by cases heq), inside]
  | destructor =>
      rw [inside, hdestructor, Function.update_of_ne (fun heq => by cases heq), inside]

theorem guards_of_poster {pc : PosterAt} (hposter : s'.poster = Function.update s.poster p pc)
    (hworker : s'.worker = s.worker) (hdestructor : s'.destructor = s.destructor)
    (hmutex : Guards s'.poolMutex (Function.update s.inside (.poster p) pc.inside)) :
    Guards s'.poolMutex s'.inside := by
  convert hmutex using 1
  funext agent
  cases agent with
  | poster q =>
      rw [inside, hposter]
      by_cases hq : q = p
      · rw [hq, Function.update_self, Function.update_self]
      · rw [Function.update_of_ne hq, Function.update_of_ne (fun heq => hq (Agent.poster.inj heq)),
          inside]
  | worker v => rw [inside, hworker, Function.update_of_ne (fun heq => by cases heq), inside]
  | destructor =>
      rw [inside, hdestructor, Function.update_of_ne (fun heq => by cases heq), inside]

theorem guards_of_destructor (hworker : s'.worker = s.worker) (hposter : s'.poster = s.poster)
    (hmutex : Guards s'.poolMutex (Function.update s.inside .destructor s'.destructor.inside)) :
    Guards s'.poolMutex s'.inside := by
  convert hmutex using 1
  funext agent
  cases agent with
  | worker v => rw [inside, hworker, Function.update_of_ne (fun heq => by cases heq), inside]
  | poster q => rw [inside, hposter, Function.update_of_ne (fun heq => by cases heq), inside]
  | destructor => rw [inside, Function.update_self]

end Pool

/-! ## The queue and the logs -/

structure InOrder (s : Pool Worker Poster) : Prop where
  /-- The tasks are retrieved in the order in which they were posted. -/
  order : s.retrieved.map Retrieval.task ++ s.taskQueue.map Prod.fst = List.range s.posted.length
  queued : ∀ entry ∈ s.taskQueue, s.posted[entry.1]? = some entry.2
  logged : ∀ r ∈ s.retrieved, s.posted[r.task]? = some r.behavior ∧
    (r.taken = false ↔ r.running = false ∧ r.behavior = .skipOnShutdown)

namespace InOrder

variable {behavior : TaskShutdownBehavior} {rest : List (ℕ × TaskShutdownBehavior)}

theorem of_same (h : InOrder s) (hqueue : s'.taskQueue = s.taskQueue)
    (hposted : s'.posted = s.posted) (hretrieved : s'.retrieved = s.retrieved) : InOrder s' where
  order := by rw [hretrieved, hqueue, hposted]; exact h.order
  queued := by rw [hqueue, hposted]; exact h.queued
  logged := by rw [hretrieved, hposted]; exact h.logged

/-- Every task is retrieved once. -/
theorem front_not_retrieved (h : InOrder s) (hqueue : s.taskQueue = (task, behavior) :: rest) :
    task ∉ s.retrieved.map Retrieval.task := by
  intro hmem
  have hnodup : (s.retrieved.map Retrieval.task ++ s.taskQueue.map Prod.fst).Nodup := by
    rw [h.order]
    exact List.nodup_range
  have hfront : task ∈ s.taskQueue.map Prod.fst := by simp [hqueue]
  exact (List.disjoint_of_nodup_append hnodup) hmem hfront

theorem pop (h : InOrder s) {taken : Bool} (hqueue : s.taskQueue = (task, behavior) :: rest)
    (htaken : taken = false ↔ s.running = false ∧ behavior = .skipOnShutdown)
    (hqueue' : s'.taskQueue = rest) (hposted : s'.posted = s.posted)
    (hretrieved : s'.retrieved = s.retrieved ++ [⟨task, behavior, s.running, taken⟩]) :
    InOrder s' where
  order := by
    rw [hretrieved, hqueue', hposted, ← h.order, hqueue]
    simp
  queued entry hentry := by
    rw [hqueue'] at hentry
    rw [hposted]
    exact h.queued entry (by simp [hqueue, hentry])
  logged r hr := by
    rw [hretrieved] at hr
    rw [hposted]
    rcases List.mem_append.mp hr with hold | hnew
    · exact h.logged r hold
    · obtain rfl := List.mem_singleton.mp hnew
      exact ⟨h.queued (task, behavior) (by simp [hqueue]), htaken⟩

theorem push (h : InOrder s)
    (hqueue : s'.taskQueue = s.taskQueue ++ [(s.posted.length, behavior)])
    (hposted : s'.posted = s.posted ++ [behavior]) (hretrieved : s'.retrieved = s.retrieved) :
    InOrder s' := by
  have hkept : ∀ {i : ℕ} {b}, s.posted[i]? = some b → s'.posted[i]? = some b := by
    intro i b hi
    rw [hposted, List.getElem?_append_left (List.getElem?_eq_some_iff.mp hi).1]
    exact hi
  constructor
  · rw [hretrieved, hqueue, hposted, List.map_append, ← List.append_assoc, h.order,
      List.length_append]
    simp [List.range_succ]
  · intro entry hentry
    rw [hqueue] at hentry
    rcases List.mem_append.mp hentry with hold | hnew
    · exact hkept (h.queued entry hold)
    · obtain rfl := List.mem_singleton.mp hnew
      simp [hposted]
  · intro r hr
    rw [hretrieved] at hr
    exact ⟨hkept (h.logged r hr).1, (h.logged r hr).2⟩

end InOrder

/-! ## The invariant -/

structure Inv (s : Pool Worker Poster) : Prop where
  mutex : Guards s.poolMutex s.inside
  inOrder : InOrder s
  hand_taken : ∀ w task, (s.worker w).hand = some task → task ∈ s.takenTasks ∧ task ∉ s.executed
  hand_once : ∀ v w task, (s.worker v).hand = some task → (s.worker w).hand = some task → v = w
  executed_nodup : s.executed.Nodup
  executed_taken : ∀ task ∈ s.executed, task ∈ s.takenTasks
  taken_kept : ∀ task ∈ s.takenTasks, task ∈ s.executed ∨ ∃ w, (s.worker w).hand = some task
  /-- A running pool is only scanned with something in the queue. -/
  scanning : ∀ w, s.worker w = .scan → s.running = false ∨ s.taskQueue ≠ []
  leaving : ∀ w, (s.worker w).leaves = true → s.running = false ∧ s.taskQueue = []
  pushing : ∀ p behavior, s.poster p = .push behavior → s.running = true

/-- The queue, the flag and the logs are the same. -/
structure SameTasks (s s' : Pool Worker Poster) : Prop where
  taskQueue : s'.taskQueue = s.taskQueue
  running : s'.running = s.running
  posted : s'.posted = s.posted
  retrieved : s'.retrieved = s.retrieved
  executed : s'.executed = s.executed

namespace Inv

variable (h : Inv s)

include h

/-- The invariant does not depend on callers that do not push and on the destructor. -/
theorem of_same (hsame : SameTasks s s') (hmutex : Guards s'.poolMutex s'.inside)
    (hhand : ∀ w, (s'.worker w).hand = (s.worker w).hand)
    (hscanning : ∀ w, s'.worker w = .scan → s.running = false ∨ s.taskQueue ≠ [])
    (hleaving : ∀ w, (s'.worker w).leaves = true → s.running = false ∧ s.taskQueue = [])
    (hpushing : ∀ p behavior, s'.poster p = .push behavior → s.running = true) : Inv s' := by
  obtain ⟨hqueue, hrunning, hposted, hretrieved, hexecuted⟩ := hsame
  have htaken : s'.takenTasks = s.takenTasks := by rw [Pool.takenTasks, hretrieved, Pool.takenTasks]
  refine {
    mutex := hmutex
    inOrder := h.inOrder.of_same hqueue hposted hretrieved
    hand_taken := fun w task hw => ?_
    hand_once := fun v w task hv hw => h.hand_once v w task (hhand v ▸ hv) (hhand w ▸ hw)
    executed_nodup := by rw [hexecuted]; exact h.executed_nodup
    executed_taken := by rw [hexecuted, htaken]; exact h.executed_taken
    taken_kept := fun task htask => ?_
    scanning := by rw [hrunning, hqueue]; exact hscanning
    leaving := by rw [hrunning, hqueue]; exact hleaving
    pushing := by rw [hrunning]; exact hpushing }
  · rw [htaken, hexecuted]
    exact h.hand_taken w task (hhand w ▸ hw)
  · simp only [hhand, hexecuted]
    exact h.taken_kept task (htaken ▸ htask)

variable [DecidableEq Worker] [DecidableEq Poster]

theorem moveWorker {pc : WorkerAt} (hsame : SameTasks s s')
    (hworker : s'.worker = Function.update s.worker w pc) (hposter : s'.poster = s.poster)
    (hdestructor : s'.destructor = s.destructor)
    (hmutex : Guards s'.poolMutex (Function.update s.inside (.worker w) pc.inside))
    (hhand : pc.hand = (s.worker w).hand)
    (hscan : pc = .scan → s.running = false ∨ s.taskQueue ≠ [])
    (hleave : pc.leaves = true → s.running = false ∧ s.taskQueue = []) : Inv s' := by
  refine h.of_same hsame ?_ ?_ ?_ ?_ (hposter ▸ h.pushing)
  · exact Pool.guards_of_worker hworker hposter hdestructor hmutex
  · rw [hworker]
    exact Pool.worker_update (P := fun v pc => pc.hand = (s.worker v).hand) hhand fun _ _ => rfl
  · rw [hworker]
    exact Pool.worker_update (P := fun _ pc => pc = .scan → _) hscan fun v _ => h.scanning v
  · rw [hworker]
    exact Pool.worker_update (P := fun _ pc => pc.leaves = true → _) hleave
      fun v _ => h.leaving v

theorem movePoster {pc : PosterAt} (hsame : SameTasks s s')
    (hposter : s'.poster = Function.update s.poster p pc) (hworker : s'.worker = s.worker)
    (hdestructor : s'.destructor = s.destructor)
    (hmutex : Guards s'.poolMutex (Function.update s.inside (.poster p) pc.inside))
    (hpush : ∀ behavior, pc = .push behavior → s.running = true) : Inv s' := by
  refine h.of_same hsame ?_ (by rw [hworker]; exact fun _ => rfl) (hworker ▸ h.scanning)
    (hworker ▸ h.leaving) ?_
  · exact Pool.guards_of_poster hposter hworker hdestructor hmutex
  · intro q behavior hq
    rw [hposter] at hq
    by_cases hqp : q = p
    · rw [hqp, Function.update_self] at hq
      exact hpush behavior hq
    · rw [Function.update_of_ne hqp] at hq
      exact h.pushing q behavior hq

theorem moveDestructor (hqueue : s'.taskQueue = s.taskQueue)
    (hrunning : s'.running = true → s.running = true) (hposted : s'.posted = s.posted)
    (hretrieved : s'.retrieved = s.retrieved) (hexecuted : s'.executed = s.executed)
    (hworker : s'.worker = s.worker) (hposter : s'.poster = s.poster)
    (hmutex : Guards s'.poolMutex (Function.update s.inside .destructor s'.destructor.inside))
    (hpush : ∀ p behavior, s.poster p = .push behavior → s'.running = true) : Inv s' := by
  have htaken : s'.takenTasks = s.takenTasks := by rw [Pool.takenTasks, hretrieved, Pool.takenTasks]
  have hstopped : s.running = false → s'.running = false := by
    intro hs
    by_contra hs'
    rw [hrunning (Bool.eq_true_of_not_eq_false hs')] at hs
    exact nomatch hs
  constructor
  · exact Pool.guards_of_destructor hworker hposter hmutex
  · exact h.inOrder.of_same hqueue hposted hretrieved
  · rw [hworker, htaken, hexecuted]
    exact h.hand_taken
  · rw [hworker]
    exact h.hand_once
  · rw [hexecuted]
    exact h.executed_nodup
  · rw [hexecuted, htaken]
    exact h.executed_taken
  · rw [hexecuted, htaken, hworker]
    exact h.taken_kept
  · rw [hworker, hqueue]
    exact fun w hw => (h.scanning w hw).imp_left hstopped
  · rw [hworker, hqueue]
    exact fun w hw => (h.leaving w hw).imp_left hstopped
  · rw [hposter]
    exact hpush

/-! ## The way of a task -/

omit [DecidableEq Worker] [DecidableEq Poster] in
theorem alone {v : Worker} (hw : (s.worker w).inside = true) (hv : (s.worker v).inside = true) :
    v = w :=
  Agent.worker.inj (h.mutex.unique (show s.inside (.worker v) = true from hv) hw)

variable {behavior : TaskShutdownBehavior} {rest : List (ℕ × TaskShutdownBehavior)}

omit [DecidableEq Poster] in
/-- A task is skipped, which nobody notices but the log. -/
theorem skipFront (hw : s.worker w = .scan) (hqueue : s.taskQueue = (task, behavior) :: rest)
    (hskip : s.running = false ∧ behavior = .skipOnShutdown) :
    Inv ((s.popFront false).gotoWorker w .scan) := by
  have hpop : (s.popFront false).gotoWorker w .scan =
      { s with taskQueue := rest
               retrieved := s.retrieved ++ [⟨task, behavior, s.running, false⟩] } := by
    simp only [Pool.popFront, hqueue, Pool.gotoWorker, ← hw, Function.update_eq_self]
  have htaken : ((s.popFront false).gotoWorker w .scan).takenTasks = s.takenTasks := by
    rw [hpop]
    simp [Pool.takenTasks]
  constructor
  · rw [hpop]
    exact h.mutex
  · exact h.inOrder.pop hqueue (iff_of_true rfl hskip) (by rw [hpop]) (by rw [hpop]) (by rw [hpop])
  · rw [htaken, hpop]
    exact h.hand_taken
  · rw [hpop]
    exact h.hand_once
  · rw [hpop]
    exact h.executed_nodup
  · rw [htaken, hpop]
    exact h.executed_taken
  · rw [htaken, hpop]
    exact h.taken_kept
  · rw [hpop]
    exact fun _ _ => .inl hskip.1
  · rw [hpop]
    intro v hv
    have hempty := (h.leaving v hv).2
    rw [hqueue] at hempty
    exact nomatch hempty
  · rw [hpop]
    exact h.pushing

theorem takeFront (hw : s.worker w = .scan) (hqueue : s.taskQueue = (task, behavior) :: rest)
    (htake : ¬ (s.running = false ∧ behavior = .skipOnShutdown)) :
    Inv ((s.popFront true).gotoWorker w (.unlock (some task))) := by
  have hpop : (s.popFront true).gotoWorker w (.unlock (some task)) =
      { s with taskQueue := rest
               worker := Function.update s.worker w (.unlock (some task))
               retrieved := s.retrieved ++ [⟨task, behavior, s.running, true⟩] } := by
    simp only [Pool.popFront, hqueue, Pool.gotoWorker]
  have hinside : (s.worker w).inside = true := by rw [hw]; rfl
  have hhand : WorkerAt.hand (.unlock (some task)) = some task := rfl
  have htaken : ((s.popFront true).gotoWorker w (.unlock (some task))).takenTasks =
      s.takenTasks ++ [task] := by
    rw [hpop]
    simp [Pool.takenTasks]
  have hfresh : task ∉ s.takenTasks := by
    intro hmem
    obtain ⟨r, hr, hrtask⟩ := List.mem_map.mp hmem
    exact h.inOrder.front_not_retrieved hqueue
      (List.mem_map.mpr ⟨r, (List.mem_filter.mp hr).1, hrtask⟩)
  constructor
  · rw [hpop]
    exact Pool.guards_of_worker rfl rfl rfl (h.mutex.stay hinside.symm)
  · have hkeep : true = false ↔ s.running = false ∧ behavior = .skipOnShutdown :=
      iff_of_false nofun htake
    refine h.inOrder.pop hqueue hkeep ?_ ?_ ?_
    all_goals rw [hpop]
  · rw [htaken, hpop]
    intro v t hv
    rcases Pool.hand_update.mp hv with ⟨-, ht⟩ | ⟨-, ht⟩
    · obtain rfl : task = t := Option.some.inj (hhand.symm.trans ht)
      exact ⟨by simp, fun hexec => hfresh (h.executed_taken task hexec)⟩
    · exact ⟨List.mem_append_left _ (h.hand_taken v t ht).1, (h.hand_taken v t ht).2⟩
  · rw [hpop]
    intro u v t hu hv
    rcases Pool.hand_update.mp hu with ⟨hu', ht⟩ | ⟨-, ht⟩ <;>
      rcases Pool.hand_update.mp hv with ⟨hv', ht'⟩ | ⟨-, ht'⟩
    · rw [hu', hv']
    · obtain rfl : task = t := Option.some.inj (hhand.symm.trans ht)
      exact absurd (h.hand_taken v task ht').1 hfresh
    · obtain rfl : task = t := Option.some.inj (hhand.symm.trans ht')
      exact absurd (h.hand_taken u task ht).1 hfresh
    · exact h.hand_once u v t ht ht'
  · rw [hpop]
    exact h.executed_nodup
  · rw [htaken, hpop]
    exact fun t ht => List.mem_append_left _ (h.executed_taken t ht)
  · rw [htaken, hpop]
    intro t ht
    rcases List.mem_append.mp ht with hold | hnew
    · refine (h.taken_kept t hold).imp_right fun ⟨v, hv⟩ => ⟨v, ?_⟩
      -- the worker that scans has nothing in its hand
      refine Pool.hand_update.mpr (.inr ⟨fun hvw => ?_, hv⟩)
      rw [hvw, hw] at hv
      exact nomatch hv
    · obtain rfl := List.mem_singleton.mp hnew
      exact .inr ⟨w, Pool.hand_update.mpr (.inl ⟨rfl, rfl⟩)⟩
  · rw [hpop]
    refine Pool.worker_update (P := fun _ pc => pc = .scan → _) nofun fun v hvw hv => ?_
    exact absurd (h.alone hinside (by rw [hv]; rfl)) hvw
  · rw [hpop]
    refine Pool.worker_update (P := fun _ pc => pc.leaves = true → _) nofun fun v _ hv => ?_
    have hempty := (h.leaving v hv).2
    rw [hqueue] at hempty
    exact nomatch hempty
  · rw [hpop]
    exact h.pushing

theorem execute (hw : s.worker w = .call task) :
    Inv ({ s with executed := s.executed ++ [task] }.gotoWorker w (.executing task)) := by
  have hhand : (s.worker w).hand = some task := by rw [hw]; rfl
  have hfresh : task ∉ s.executed := (h.hand_taken w task hhand).2
  -- what another worker has in its hand is another task
  have hothers : ∀ v t, (Function.update s.worker w (.executing task) v).hand = some t →
      v ≠ w ∧ (s.worker v).hand = some t := by
    intro v t hv
    rcases Pool.hand_update.mp hv with ⟨-, ht⟩ | hv'
    · exact nomatch ht
    · exact hv'
  constructor
  · exact Pool.guards_of_worker rfl rfl rfl (h.mutex.stay (by rw [Pool.inside, hw]; rfl))
  · exact h.inOrder.of_same rfl rfl rfl
  · intro v t hv
    obtain ⟨hvw, ht⟩ := hothers v t hv
    refine ⟨(h.hand_taken v t ht).1, fun hexec => ?_⟩
    rcases List.mem_append.mp hexec with hold | hnew
    · exact (h.hand_taken v t ht).2 hold
    · obtain rfl := List.mem_singleton.mp hnew
      exact hvw (h.hand_once v w t ht hhand)
  · exact fun u v t hu hv => h.hand_once u v t (hothers u t hu).2 (hothers v t hv).2
  · exact List.nodup_append.mpr ⟨h.executed_nodup, List.nodup_singleton task,
      fun a ha b hb hab => hfresh (List.mem_singleton.mp hb ▸ hab ▸ ha)⟩
  · intro t ht
    rcases List.mem_append.mp ht with hold | hnew
    · exact h.executed_taken t hold
    · obtain rfl := List.mem_singleton.mp hnew
      exact (h.hand_taken w t hhand).1
  · intro t ht
    rcases h.taken_kept t ht with hexec | ⟨v, hv⟩
    · exact .inl (List.mem_append_left _ hexec)
    · by_cases hvw : v = w
      · rw [hvw, hhand] at hv
        exact .inl (List.mem_append_right _ (List.mem_singleton.mpr (Option.some.inj hv).symm))
      · exact .inr ⟨v, Pool.hand_update.mpr (.inr ⟨hvw, hv⟩)⟩
  · exact Pool.worker_update (P := fun _ pc => pc = .scan → _) nofun fun v _ => h.scanning v
  · exact Pool.worker_update (P := fun _ pc => pc.leaves = true → _) nofun fun v _ => h.leaving v
  · exact h.pushing

theorem push (hp : s.poster p = .push behavior) :
    Inv ({ s with
      taskQueue := s.taskQueue ++ [(s.posted.length, behavior)]
      posted := s.posted ++ [behavior] }.gotoPoster p .unlock) := by
  have hrunning := h.pushing p behavior hp
  constructor
  · exact Pool.guards_of_poster rfl rfl rfl (h.mutex.stay (by rw [Pool.inside, hp]; rfl))
  · exact h.inOrder.push rfl rfl rfl
  · exact h.hand_taken
  · exact h.hand_once
  · exact h.executed_nodup
  · exact h.executed_taken
  · exact h.taken_kept
  · exact fun _ _ => .inr (by simp [Pool.gotoPoster])
  · intro v hv
    rw [(h.leaving v hv).1] at hrunning
    exact nomatch hrunning
  · exact fun _ _ _ => hrunning

end Inv

/-! ## The steps -/

section Steps

variable [DecidableEq Worker] [DecidableEq Poster]

theorem Inv.worker_step (h : Inv s) (hstep : s.workerNext w = some s') : Inv s' := by
  unfold Pool.workerNext at hstep
  split at hstep
  next hw =>
    split at hstep
    · next hfree =>
        obtain rfl := Option.some.inj hstep
        exact h.moveWorker ⟨rfl, rfl, rfl, rfl, rfl⟩ rfl rfl rfl ((hfree ▸ h.mutex).lock _)
          (by rw [hw]; rfl) nofun nofun
    · exact nomatch hstep
  next hw =>
    have hin : s.inside (.worker w) = true := by rw [Pool.inside, hw]; rfl
    split at hstep
    · next hwake =>
        obtain rfl := Option.some.inj hstep
        exact h.moveWorker ⟨rfl, rfl, rfl, rfl, rfl⟩ rfl rfl rfl (h.mutex.stay hin.symm)
          (by rw [hw]; rfl) (fun _ => hwake) nofun
    · obtain rfl := Option.some.inj hstep
      exact h.moveWorker ⟨rfl, rfl, rfl, rfl, rfl⟩ rfl rfl rfl (h.mutex.unlock hin)
        (by rw [hw]; rfl) nofun nofun
  next hw =>
    have hout : s.inside (.worker w) = false := by rw [Pool.inside, hw]; rfl
    obtain rfl := Option.some.inj hstep
    exact h.moveWorker ⟨rfl, rfl, rfl, rfl, rfl⟩ rfl rfl rfl (h.mutex.stay hout.symm)
      (by rw [hw]; rfl) nofun nofun
  next hw =>
    obtain rfl := Option.some.inj hstep
    unfold Pool.scan
    split
    · next hempty =>
        have hin : s.inside (.worker w) = true := by rw [Pool.inside, hw]; rfl
        -- an empty queue is only scanned when the pool is stopped
        have hstopped : s.running = false := (h.scanning w hw).resolve_right (fun hne => hne hempty)
        exact h.moveWorker ⟨rfl, rfl, rfl, rfl, rfl⟩ rfl rfl rfl (h.mutex.stay hin.symm)
          (by rw [hw]; rfl) nofun (fun _ => ⟨hstopped, hempty⟩)
    · next task behavior rest hqueue =>
        split
        · next hskip => exact h.skipFront hw hqueue hskip
        · next htake => exact h.takeFront hw hqueue htake
  next hw =>
    have hin : s.inside (.worker w) = true := by rw [Pool.inside, hw]; rfl
    obtain rfl := Option.some.inj hstep
    exact h.moveWorker ⟨rfl, rfl, rfl, rfl, rfl⟩ rfl rfl rfl (h.mutex.unlock hin)
      (by rw [hw]; rfl) nofun (fun _ => h.leaving w (by rw [hw]; rfl))
  next task hw =>
    have hin : s.inside (.worker w) = true := by rw [Pool.inside, hw]; rfl
    obtain rfl := Option.some.inj hstep
    exact h.moveWorker ⟨rfl, rfl, rfl, rfl, rfl⟩ rfl rfl rfl (h.mutex.unlock hin)
      (by rw [hw]; rfl) nofun nofun
  next task hw =>
    obtain rfl := Option.some.inj hstep
    exact h.execute hw
  next task hw =>
    have hout : s.inside (.worker w) = false := by rw [Pool.inside, hw]; rfl
    obtain rfl := Option.some.inj hstep
    exact h.moveWorker ⟨rfl, rfl, rfl, rfl, rfl⟩ rfl rfl rfl (h.mutex.stay hout.symm)
      (by rw [hw]; rfl) nofun nofun
  next => exact nomatch hstep

theorem Inv.poster_step (h : Inv s) (hstep : s.posterNext p = some s') : Inv s' := by
  unfold Pool.posterNext at hstep
  split at hstep
  next => exact nomatch hstep
  next behavior hp =>
    split at hstep
    · next hfree =>
        obtain rfl := Option.some.inj hstep
        exact h.movePoster ⟨rfl, rfl, rfl, rfl, rfl⟩ rfl rfl rfl ((hfree ▸ h.mutex).lock _) nofun
    · exact nomatch hstep
  next behavior hp =>
    have hin : s.inside (.poster p) = true := by rw [Pool.inside, hp]; rfl
    obtain rfl := Option.some.inj hstep
    refine h.movePoster ⟨rfl, rfl, rfl, rfl, rfl⟩ rfl rfl rfl (h.mutex.stay ?_) ?_
    · rw [hin]
      split <;> rfl
    · intro b hb
      split at hb
      · next hrunning => exact hrunning
      · exact nomatch hb
  next behavior hp =>
    obtain rfl := Option.some.inj hstep
    exact h.push hp
  next hp =>
    have hin : s.inside (.poster p) = true := by rw [Pool.inside, hp]; rfl
    obtain rfl := Option.some.inj hstep
    exact h.movePoster ⟨rfl, rfl, rfl, rfl, rfl⟩ rfl rfl rfl (h.mutex.unlock hin) nofun

theorem Inv.destructor_step (h : Inv s) (hstep : s.destructorNext = some s') : Inv s' := by
  unfold Pool.destructorNext at hstep
  split at hstep
  next => exact nomatch hstep
  next hd =>
    split at hstep
    · next hfree =>
        obtain rfl := Option.some.inj hstep
        exact h.moveDestructor rfl id rfl rfl rfl rfl rfl ((hfree ▸ h.mutex).lock _) h.pushing
    · exact nomatch hstep
  next hd =>
    have hin : s.inside .destructor = true := by rw [Pool.inside, hd]; rfl
    obtain rfl := Option.some.inj hstep
    refine h.moveDestructor rfl nofun rfl rfl rfl rfl rfl (h.mutex.stay hin.symm) ?_
    -- nobody is about to push while the destructor has the mutex
    intro p behavior hp
    have heq := h.mutex.unique (show s.inside (.poster p) = true by rw [Pool.inside, hp]; rfl) hin
    exact nomatch heq
  next hd =>
    have hin : s.inside .destructor = true := by rw [Pool.inside, hd]; rfl
    obtain rfl := Option.some.inj hstep
    exact h.moveDestructor rfl id rfl rfl rfl rfl rfl (h.mutex.unlock hin) h.pushing
  next => exact nomatch hstep

theorem Inv.step {action : Action Worker Poster} (h : Inv s) (hstep : step s action = some s') :
    Inv s' := by
  cases action with
  | post p behavior =>
      rw [ThreadPool.step] at hstep
      split at hstep
      · next hp =>
          have hout : s.inside (.poster p) = false := by rw [Pool.inside, hp]; rfl
          obtain rfl := Option.some.inj hstep
          exact h.movePoster ⟨rfl, rfl, rfl, rfl, rfl⟩ rfl rfl rfl (h.mutex.stay hout.symm) nofun
      · exact nomatch hstep
  | destroy =>
      rw [ThreadPool.step] at hstep
      split at hstep
      · next hd =>
          have hout : s.inside .destructor = false := by rw [Pool.inside, hd]; rfl
          obtain rfl := Option.some.inj hstep
          exact h.moveDestructor rfl id rfl rfl rfl rfl rfl (h.mutex.stay hout.symm) h.pushing
      · exact nomatch hstep
  | worker w => exact h.worker_step hstep
  | poster p => exact h.poster_step hstep
  | destructor => exact h.destructor_step hstep

omit [DecidableEq Worker] [DecidableEq Poster] in
theorem inv_initial : Inv (initial : Pool Worker Poster) where
  mutex := Guards.open_of_outside (fun agent => by cases agent <;> rfl)
  inOrder := ⟨rfl, nofun, nofun⟩
  hand_taken := nofun
  hand_once := nofun
  executed_nodup := List.nodup_nil
  executed_taken := nofun
  taken_kept := nofun
  scanning := nofun
  leaving := nofun
  pushing := nofun

theorem inv_of_reachable (hreach : (tinyThreadPool Worker Poster).Reachable s) : Inv s :=
  hreach.invariant (P := Inv) (fun _ hstart => hstart ▸ inv_initial)
    (fun _ _ _ h hstep => h.step hstep)

end Steps

/-! ## The shutdown -/

/-- What is promised of the tasks, at any moment. -/
structure Orderly (s : Pool Worker Poster) : Prop where
  /-- Once the workers have exited, every accepted task that blocks the shutdown was run, once. -/
  blocking : (∀ w, s.worker w = .exited) →
    ∀ task, s.posted[task]? = some .blockShutdown → s.executed.count task = 1
  at_most_once : ∀ task, s.executed.count task ≤ 1
  /-- What a stopped pool retrieves of the other tasks is never run. -/
  skipped : ∀ r ∈ s.retrieved, s.posted[r.task]? = some .skipOnShutdown → r.running = false →
    r.task ∉ s.executed
  only_accepted : ∀ task ∈ s.executed, ∃ r ∈ s.retrieved, r.task = task ∧ task < s.posted.length
  posting_order : s.retrieved.map Retrieval.task <+: List.range s.posted.length
  exits : ∀ w, s.worker w = .exited →
    s.running = false ∧ ∀ entry ∈ s.taskQueue, entry.2 ≠ .blockShutdown

theorem InOrder.retrieved_nodup (h : InOrder s) : (s.retrieved.map Retrieval.task).Nodup := by
  have hnodup : (s.retrieved.map Retrieval.task ++ s.taskQueue.map Prod.fst).Nodup := by
    rw [h.order]
    exact List.nodup_range
  exact (List.nodup_append.mp hnodup).1

theorem InOrder.retrieval_unique (h : InOrder s) {r r' : Retrieval} (hr : r ∈ s.retrieved)
    (hr' : r' ∈ s.retrieved) (htask : r.task = r'.task) : r = r' :=
  List.inj_on_of_nodup_map h.retrieved_nodup hr hr' htask

namespace Inv

theorem count_executed (h : Inv s) (htask : task ∈ s.executed) : s.executed.count task = 1 :=
  List.count_eq_one_of_mem h.executed_nodup htask

theorem skipped_not_executed (h : Inv s) {r : Retrieval} (hr : r ∈ s.retrieved)
    (hskip : s.posted[r.task]? = some .skipOnShutdown) (hstopped : r.running = false) :
    r.task ∉ s.executed := by
  intro hexec
  obtain ⟨hposted, htaken⟩ := h.inOrder.logged r hr
  have hbehavior : r.behavior = .skipOnShutdown := Option.some.inj (hposted.symm.trans hskip)
  -- it was executed, so it was taken; but it was skipped
  obtain ⟨r', hr', hrtask⟩ := List.mem_map.mp (h.executed_taken r.task hexec)
  obtain ⟨hr'mem, hr'taken⟩ := List.mem_filter.mp hr'
  obtain rfl := h.inOrder.retrieval_unique hr hr'mem hrtask.symm
  rw [htaken.mpr ⟨hstopped, hbehavior⟩] at hr'taken
  exact nomatch hr'taken

/-- Behind the exit of all workers, nothing is queued and nothing is in a hand. -/
theorem blocking_executed (h : Inv s) [Nonempty Worker] (hexited : ∀ w, s.worker w = .exited)
    (htask : s.posted[task]? = some .blockShutdown) : task ∈ s.executed := by
  obtain ⟨w⟩ := ‹Nonempty Worker›
  have hempty : s.taskQueue = [] := (h.leaving w (by rw [hexited w]; rfl)).2
  have hmem : task ∈ s.retrieved.map Retrieval.task := by
    have horder := h.inOrder.order
    rw [hempty, List.map_nil, List.append_nil] at horder
    rw [horder]
    exact List.mem_range.mpr (List.getElem?_eq_some_iff.mp htask).1
  obtain ⟨r, hr, rfl⟩ := List.mem_map.mp hmem
  obtain ⟨hposted, htaken⟩ := h.inOrder.logged r hr
  have hbehavior : r.behavior = .blockShutdown := Option.some.inj (hposted.symm.trans htask)
  have hrtaken : r.taken = true := by
    by_contra hnot
    have hskip := (htaken.mp (Bool.eq_false_of_not_eq_true hnot)).2
    rw [hbehavior] at hskip
    exact nomatch hskip
  rcases h.taken_kept r.task (List.mem_map.mpr ⟨r, List.mem_filter.mpr ⟨hr, hrtaken⟩, rfl⟩) with
    hexec | ⟨v, hv⟩
  · exact hexec
  · rw [hexited v] at hv
    exact nomatch hv

theorem orderly [Nonempty Worker] (h : Inv s) : Orderly s where
  blocking hexited task htask := h.count_executed (h.blocking_executed hexited htask)
  at_most_once := List.nodup_iff_count_le_one.mp h.executed_nodup
  skipped r hr hskip hstopped := h.skipped_not_executed hr hskip hstopped
  only_accepted task htask := by
    obtain ⟨r, hr, rfl⟩ := List.mem_map.mp (h.executed_taken task htask)
    have hmem := (List.mem_filter.mp hr).1
    exact ⟨r, hmem, rfl, (List.getElem?_eq_some_iff.mp (h.inOrder.logged r hmem).1).1⟩
  posting_order := ⟨s.taskQueue.map Prod.fst, h.inOrder.order⟩
  exits w hw := by
    obtain ⟨hstopped, hempty⟩ := h.leaving w (by rw [hw]; rfl)
    exact ⟨hstopped, by simp [hempty]⟩

end Inv

/-- **The shutdown is orderly**, for any workers and callers and any order of their steps. -/
theorem shutdown_orderly [DecidableEq Worker] [DecidableEq Poster] [Nonempty Worker]
    (hreach : (tinyThreadPool Worker Poster).Reachable s) : Orderly s :=
  (inv_of_reachable hreach).orderly

/-- Two tasks are posted that may be skipped and then one that blocks.  The pool is stopped while
the first one runs, the second one is skipped, and a late caller is refused. -/
def stopWhileRunning : List (Action Bool Unit) :=
  let post (behavior : TaskShutdownBehavior) : List (Action Bool Unit) :=
    .post () behavior :: List.replicate 4 (.poster ())
  post .skipOnShutdown ++ List.replicate 5 (Action.worker true) ++ post .skipOnShutdown ++
    post .blockShutdown ++ Action.destroy :: List.replicate 3 Action.destructor ++
    List.replicate 7 (Action.worker false) ++
    Action.post () .blockShutdown :: List.replicate 3 (Action.poster ()) ++
    List.replicate 5 (Action.worker true)

theorem shutdown_orderly_stopWhileRunning :
    ∃ s, (tinyThreadPool Bool Unit).run initial stopWhileRunning = some s ∧
      s.executed = [0, 2] ∧ s.worker true = .exited ∧ Orderly s := by
  have hfacts : ((tinyThreadPool Bool Unit).run initial stopWhileRunning).map
      (fun s => (s.executed, s.worker true)) = some ([0, 2], .exited) := rfl
  obtain ⟨s, hrun, hs⟩ := Option.map_eq_some_iff.mp hfacts
  obtain ⟨hexecuted, hworker⟩ := Prod.ext_iff.mp hs
  exact ⟨s, hrun, hexecuted, hworker, shutdown_orderly ⟨initial, stopWhileRunning, rfl, hrun⟩⟩

end Eureka.ThreadPool

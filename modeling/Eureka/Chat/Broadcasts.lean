import Eureka.Chat.Room

/-!
# Where a broadcast arrives

A handler of a message sends it to every client that is in the room from the
`Range` on, once, whatever the other goroutines do in between.

* `Effect`: what a piece can do, said once for all the invariants;
* `Fresh`: nothing is under way for packets that are still to be received;
* `Reached`, `Tracked.step`: the message of one handler at one client, from
  the start of the handler to its return.
-/

namespace Eureka.Chat

open Transition

variable {Conn : Type} [DecidableEq Conn]

/-! ## What the pieces change -/

namespace Room

/-- The sessions, the goroutines and the queues are the same. -/
structure Same (room room' : Room Conn) : Prop where
  sessions : room'.sessions = room.sessions
  tasks : room'.tasks = room.tasks
  ranges : room'.ranges = room.ranges
  outPackets : room'.outPackets = room.outPackets

/-- What a piece does to the sessions, the goroutines and the queues. -/
inductive Effect (room : Room Conn) : Piece Conn → Room Conn → Prop
  | quiet {piece : Piece Conn} {room' : Room Conn} : Same room room' → Effect room piece room'
  | announce {piece : Piece Conn} {conn : Conn} {callback : Callback} {room' : Room Conn} :
      Same (room.beginRange (.connection conn) callback) room' → Effect room piece room'
  | store {conn : Conn} {room' : Room Conn} :
      Same (room.store conn) room' → Effect room (.store conn) room'
  | recv {conn : Conn} {packet : Packet} :
      Effect room (.recv conn packet)
        { room with tasks := room.tasks ++ [⟨conn, packet, .started⟩] }
  | delete {conn : Conn} {room' : Room Conn} :
      Same (room.delete conn) room' → Effect room (.delete conn) room'
  | setStage {piece : Piece Conn} {i : ℕ} {task : Task Conn} {stage : Stage} {room' : Room Conn} :
      room.tasks[i]? = some task →
      (task.packet.type = messagePacket → task.stage = .started ∧ stage = .loaded) →
      Same (room.setStage i task stage) room' → Effect room piece room'
  | range {i : ℕ} {ts : Bytes} {task : Task Conn} :
      room.tasks[i]? = some task → task.ready → task.packet.ranges →
      Effect room (.range i ts) ((room.setStage i task .ranging).beginRange (.handler i)
        (room.callback task ts))
  | reply {i : ℕ} {task : Task Conn} {data : Bytes} :
      room.tasks[i]? = some task → task.stage = .replying data →
      Effect room (.reply i)
        ((room.setStage i task .returned).send (.handler i) task.conn data)
  | visit {goroutine : Goroutine Conn} {client : Conn} {iteration : Iteration Conn}
      {callback : Callback} :
      room.ranges goroutine = some (iteration, callback) →
      client ∈ iteration.met → client ∉ iteration.visited →
      Effect room (.visit goroutine client) (room.call goroutine client
        { iteration with visited := client :: iteration.visited } callback)
  | endRange {goroutine : Goroutine Conn} {iteration : Iteration Conn} {callback : Callback} :
      room.ranges goroutine = some (iteration, callback) → iteration.Done →
      Effect room (.endRange goroutine) (room.endRange goroutine callback)

theorem loads_of_message {packet : Packet} (hmessage : packet.type = messagePacket) :
    packet.loads = true := by
  rw [Packet.loads, hmessage, decide_eq_true rfl, Bool.true_or]

theorem ranges_of_message {packet : Packet} (hmessage : packet.type = messagePacket) :
    packet.ranges = true := by
  rw [Packet.ranges, hmessage, decide_eq_true rfl, Bool.true_or]

theorem effect_load {room found : Room Conn} {piece : Piece Conn} {conn : Conn}
    (hfound : Effect room piece found) : Effect room piece (room.load conn found) := by
  rw [load]
  split
  · exact hfound
  · exact .quiet ⟨rfl, rfl, rfl, rfl⟩

theorem effect_prepare {room : Room Conn} {piece : Piece Conn} {i : ℕ} {task : Task Conn}
    (htask : room.tasks[i]? = some task) (hranges : ¬ task.packet.ranges) (ts : Bytes) :
    Effect room piece (room.prepare i task ts) := by
  have hstage {stage : Stage} : task.packet.type = messagePacket →
      task.stage = .started ∧ stage = .loaded := by
    intro hmessage
    exact absurd (ranges_of_message hmessage) hranges
  rw [prepare]
  split
  · exact .quiet ⟨rfl, rfl, rfl, rfl⟩
  all_goals exact .setStage htask hstage ⟨rfl, rfl, rfl, rfl⟩

theorem effect_of_step {room room' : Room Conn} {piece : Piece Conn}
    (hstep : room.step piece = some room') : Effect room piece room' := by
  rw [step.eq_def] at hstep
  split at hstep
  · cases hstep
  cases piece with
  | accept conn | recvError conn =>
      dsimp only at hstep
      split_ifs at hstep
      cases hstep
      exact .quiet ⟨rfl, rfl, rfl, rfl⟩
  | join conn ts | leave conn ts =>
      dsimp only at hstep
      split_ifs at hstep
      cases hstep
      exact .announce ⟨rfl, rfl, rfl, rfl⟩
  | store conn =>
      dsimp only at hstep
      split_ifs at hstep
      cases hstep
      exact .store ⟨rfl, rfl, rfl, rfl⟩
  | recv conn packet =>
      dsimp only at hstep
      split_ifs at hstep
      cases hstep
      rw [dispatch]
      split
      · exact .recv
      · exact .quiet ⟨rfl, rfl, rfl, rfl⟩
  | disconnectLoad conn =>
      dsimp only at hstep
      split_ifs at hstep
      cases hstep
      exact effect_load (.quiet ⟨rfl, rfl, rfl, rfl⟩)
  | delete conn =>
      dsimp only at hstep
      split_ifs at hstep
      cases hstep
      exact .delete ⟨rfl, rfl, rfl, rfl⟩
  | load i =>
      dsimp only at hstep
      split at hstep
      · next task htask =>
          split_ifs at hstep with hload
          cases hstep
          exact effect_load (.setStage htask (fun _ => ⟨hload.2, rfl⟩) ⟨rfl, rfl, rfl, rfl⟩)
      · cases hstep
  | range i ts =>
      dsimp only at hstep
      split at hstep
      · next task htask =>
          split_ifs at hstep with hrange
          cases hstep
          exact .range htask hrange.1 hrange.2
      · cases hstep
  | prepare i ts =>
      dsimp only at hstep
      split at hstep
      · next task htask =>
          split_ifs at hstep with hprepare
          cases hstep
          exact effect_prepare htask hprepare.2 ts
      · cases hstep
  | reply i =>
      dsimp only at hstep
      split at hstep
      · next task htask =>
          split at hstep
          · next data hstage =>
              cases hstep
              exact .reply htask hstage
          · cases hstep
      · cases hstep
  | visit goroutine client =>
      dsimp only at hstep
      split at hstep
      · next iteration callback hrange =>
          split at hstep
          · next iteration' hvisit =>
              cases hstep
              obtain ⟨⟨hmet, hvisited⟩, rfl⟩ := Iteration.visit_eq_some_iff.mp hvisit
              exact .visit hrange hmet hvisited
          · cases hstep
      · cases hstep
  | endRange goroutine =>
      dsimp only at hstep
      split at hstep
      · next iteration callback hrange =>
          split_ifs at hstep with hdone
          cases hstep
          exact .endRange hrange hdone
      · cases hstep

/-! ## Queues -/

/-- What the goroutines have sent to a client, in the order of its queue. -/
def queuedBy (room : Room Conn) (client : Conn) (senders : List (Goroutine Conn)) :
    List (Queued Conn) :=
  (room.outPackets client).filter (·.sender ∈ senders)

theorem queuedBy_congr {room room' : Room Conn} (hout : room'.outPackets = room.outPackets)
    (client : Conn) (senders : List (Goroutine Conn)) :
    room'.queuedBy client senders = room.queuedBy client senders := by
  rw [queuedBy, queuedBy, hout]

theorem outPackets_send_self (room : Room Conn) (sender : Goroutine Conn) (client : Conn)
    (data : Bytes) :
    (room.send sender client data).outPackets client =
      room.outPackets client ++ [⟨sender, ⟨messagePacket, data⟩⟩] :=
  Function.update_self _ _ _

theorem outPackets_send_of_ne {client conn : Conn} (hne : client ≠ conn) (room : Room Conn)
    (sender : Goroutine Conn) (data : Bytes) :
    (room.send sender conn data).outPackets client = room.outPackets client :=
  Function.update_of_ne hne _ _

theorem queuedBy_send {sender : Goroutine Conn} {senders : List (Goroutine Conn)}
    (hmem : sender ∈ senders) (room : Room Conn) (client : Conn) (data : Bytes) :
    (room.send sender client data).queuedBy client senders =
      room.queuedBy client senders ++ [⟨sender, ⟨messagePacket, data⟩⟩] := by
  rw [queuedBy, outPackets_send_self, List.filter_append, queuedBy, List.filter_singleton,
    decide_eq_true hmem, cond_true]

theorem queuedBy_send_of_ne {client conn : Conn} (hne : client ≠ conn) (room : Room Conn)
    (sender : Goroutine Conn) (senders : List (Goroutine Conn)) (data : Bytes) :
    (room.send sender conn data).queuedBy client senders = room.queuedBy client senders := by
  rw [queuedBy, outPackets_send_of_ne hne, queuedBy]

theorem queuedBy_send_of_notMem {sender : Goroutine Conn} {senders : List (Goroutine Conn)}
    (hmem : sender ∉ senders) (room : Room Conn) (client conn : Conn) (data : Bytes) :
    (room.send sender conn data).queuedBy client senders = room.queuedBy client senders := by
  by_cases heq : client = conn
  · rw [← heq, queuedBy, outPackets_send_self, List.filter_append, List.filter_singleton,
      decide_eq_false hmem, cond_false, List.append_nil, queuedBy]
  · exact queuedBy_send_of_ne heq room sender senders data

/-! ## Calls of `Range` -/

section Ranges

variable {goroutine other : Goroutine Conn} {client : Conn} {iteration : Iteration Conn}

theorem ranges_beginRange_self (room : Room Conn) (callback : Callback) :
    (room.beginRange goroutine callback).ranges goroutine =
      some (.start room.sessions, callback) :=
  Function.update_self _ _ _

theorem ranges_beginRange_of_ne (hne : other ≠ goroutine) (room : Room Conn)
    (callback : Callback) : (room.beginRange goroutine callback).ranges other = room.ranges other :=
  Function.update_of_ne hne _ _

theorem sessions_call (room : Room Conn) (callback : Callback) :
    (room.call goroutine client iteration callback).sessions = room.sessions := by
  cases callback <;> rfl

theorem tasks_call (room : Room Conn) (callback : Callback) :
    (room.call goroutine client iteration callback).tasks = room.tasks := by
  cases callback <;> rfl

theorem ranges_call_send (room : Room Conn) (data : Bytes) :
    (room.call goroutine client iteration (.send data)).ranges goroutine =
      some (iteration, .send data) :=
  Function.update_self _ _ _

theorem ranges_call_of_ne (hne : other ≠ goroutine) (room : Room Conn) (callback : Callback) :
    (room.call goroutine client iteration callback).ranges other = room.ranges other := by
  cases callback <;> exact Function.update_of_ne hne _ _

theorem queuedBy_call_of_notMem {senders : List (Goroutine Conn)} (hmem : goroutine ∉ senders)
    (room : Room Conn) (callback : Callback) (conn : Conn) :
    (room.call goroutine client iteration callback).queuedBy conn senders =
      room.queuedBy conn senders := by
  cases callback with
  | send data => exact queuedBy_send_of_notMem hmem _ conn client data
  | members str => rfl

theorem queuedBy_call_of_ne {conn : Conn} (hne : conn ≠ client) (room : Room Conn)
    (callback : Callback) (senders : List (Goroutine Conn)) :
    (room.call goroutine client iteration callback).queuedBy conn senders =
      room.queuedBy conn senders := by
  cases callback with
  | send data => exact queuedBy_send_of_ne hne _ goroutine senders data
  | members str => rfl

theorem sessions_endRange (room : Room Conn) (callback : Callback) :
    (room.endRange goroutine callback).sessions = room.sessions := by
  rw [endRange.eq_def]
  split
  · rfl
  · split <;> rfl

theorem outPackets_endRange (room : Room Conn) (callback : Callback) :
    (room.endRange goroutine callback).outPackets = room.outPackets := by
  rw [endRange.eq_def]
  split
  · rfl
  · split <;> rfl

theorem ranges_endRange (room : Room Conn) (callback : Callback) :
    (room.endRange goroutine callback).ranges = Function.update room.ranges goroutine none := by
  rw [endRange.eq_def]
  split
  · rfl
  · split <;> rfl

theorem length_tasks_endRange (room : Room Conn) (callback : Callback) :
    (room.endRange goroutine callback).tasks.length = room.tasks.length := by
  rw [endRange.eq_def]
  split
  · rfl
  · split
    · rfl
    · exact List.length_set

theorem getElem?_tasks_endRange {i : ℕ} (hne : .handler i ≠ goroutine) (room : Room Conn)
    (callback : Callback) : (room.endRange goroutine callback).tasks[i]? = room.tasks[i]? := by
  rw [endRange.eq_def]
  split
  · rfl
  · next k =>
      split
      · rfl
      · refine List.getElem?_set_ne fun heq => hne ?_
        rw [heq]

theorem endRange_handler {i : ℕ} {room : Room Conn} {task : Task Conn}
    (htask : room.tasks[i]? = some task) (callback : Callback) :
    room.endRange (.handler i) callback =
      (room.setRange (.handler i) none).setStage i task (afterRange callback) := by
  rw [endRange.eq_def]
  dsimp only
  rw [htask]

end Ranges

/-! ## Packets that are still to be received -/

/-- Nothing has been done for a packet that is still to be received. -/
def Fresh (room : Room Conn) : Prop :=
  ∀ i, room.tasks.length ≤ i →
    room.ranges (.handler i) = none ∧ ∀ client, room.queuedBy client [.handler i] = []

theorem Fresh.congr {room room' : Room Conn} (h : room.Fresh)
    (hlength : room.tasks.length ≤ room'.tasks.length)
    (hranges : ∀ i, room'.tasks.length ≤ i → room.ranges (.handler i) = none →
      room'.ranges (.handler i) = none)
    (hqueued : ∀ i, room'.tasks.length ≤ i → room.ranges (.handler i) = none →
      ∀ client, room'.queuedBy client [.handler i] = room.queuedBy client [.handler i]) :
    room'.Fresh := by
  intro i hi
  obtain ⟨hnone, hempty⟩ := h i (hlength.trans hi)
  exact ⟨hranges i hi hnone, fun client => (hqueued i hi hnone client).trans (hempty client)⟩

theorem Fresh.same {room room' : Room Conn} (h : room.Fresh) (hsame : Same room room') :
    room'.Fresh := by
  refine h.congr (by rw [hsame.tasks]) (fun i _ hnone => ?_) fun i _ _ client => ?_
  · rw [hsame.ranges, hnone]
  · exact queuedBy_congr hsame.outPackets client _

theorem Fresh.effect {room room' : Room Conn} {piece : Piece Conn} (h : room.Fresh)
    (heffect : Effect room piece room') : room'.Fresh := by
  cases heffect with
  | quiet hsame => exact h.same hsame
  | @announce _ conn callback _ hsame =>
      have hbegin : (room.beginRange (.connection conn) callback).Fresh := by
        refine h.congr le_rfl (fun i _ hnone => ?_) fun _ _ _ _ => rfl
        rw [ranges_beginRange_of_ne (by simp), hnone]
      exact hbegin.same hsame
  | @store conn _ hsame =>
      have hstore : (room.store conn).Fresh := by
        refine h.congr le_rfl (fun i _ hnone => ?_) fun _ _ _ _ => rfl
        exact congrArg (Option.map _) hnone
      exact hstore.same hsame
  | @delete conn _ hsame =>
      have hdelete : (room.delete conn).Fresh := by
        refine h.congr le_rfl (fun i _ hnone => ?_) fun _ _ _ _ => rfl
        exact congrArg (Option.map _) hnone
      exact hdelete.same hsame
  | recv =>
      refine h.congr ?_ (fun _ _ hnone => hnone) fun _ _ _ _ => rfl
      rw [List.length_append]
      exact Nat.le_add_right _ _
  | @setStage _ i task stage _ _ _ hsame =>
      have hset : (room.setStage i task stage).Fresh :=
        h.congr List.length_set.ge (fun _ _ hnone => hnone) fun _ _ _ _ => rfl
      exact hset.same hsame
  | @range k ts task htask _ _ =>
      refine h.congr List.length_set.ge (fun i hi hnone => ?_) fun _ _ _ _ => rfl
      have hk : k < room.tasks.length := (List.getElem?_eq_some_iff.mp htask).1
      have hlength : (room.tasks.set k { task with stage := .ranging }).length ≤ i := hi
      rw [List.length_set] at hlength
      have hne : (.handler i : Goroutine Conn) ≠ .handler k := by
        intro heq
        cases heq
        omega
      exact (Function.update_of_ne hne _ _).trans hnone
  | @reply k task data htask hstage =>
      refine h.congr List.length_set.ge (fun _ _ hnone => hnone) fun i hi _ client => ?_
      have hk : k < room.tasks.length := (List.getElem?_eq_some_iff.mp htask).1
      have hlength : (room.tasks.set k { task with stage := .returned }).length ≤ i := hi
      rw [List.length_set] at hlength
      have hne : (.handler k : Goroutine Conn) ≠ .handler i := by
        intro heq
        cases heq
        omega
      exact queuedBy_send_of_notMem (by simpa using hne) _ _ _ _
  | @visit goroutine client iteration callback hrange _ _ =>
      have hne {i : ℕ} (hnone : room.ranges (.handler i) = none) : goroutine ≠ .handler i := by
        rintro rfl
        rw [hrange] at hnone
        cases hnone
      refine h.congr (by rw [tasks_call]) (fun i _ hnone => ?_) fun i _ hnone client => ?_
      · rw [ranges_call_of_ne (hne hnone).symm, hnone]
      · exact queuedBy_call_of_notMem (by simpa using hne hnone) _ _ _
  | @endRange goroutine iteration callback hrange _ =>
      refine h.congr (by rw [length_tasks_endRange]) (fun i _ hnone => ?_) fun i _ _ client => ?_
      · have hne : (.handler i : Goroutine Conn) ≠ goroutine := by
          rintro rfl
          rw [hrange] at hnone
          cases hnone
        rw [ranges_endRange, Function.update_of_ne hne, hnone]
      · exact queuedBy_congr (outPackets_endRange _ _) client _

theorem fresh_empty : (empty : Room Conn).Fresh := fun _ _ => ⟨rfl, fun _ => rfl⟩

theorem fresh_of_run {pieces : List (Piece Conn)} {start room : Room Conn} (h : start.Fresh)
    (hrun : (chatRoom Conn).run start pieces = some room) : room.Fresh :=
  System.run_invariant (fun _ _ _ h hstep => h.effect (effect_of_step hstep)) h hrun

end Room

/-! ## One message at one client -/

/-- The text of the message, with some time and some name. -/
def Task.Says (task : Task Conn) (data : Bytes) : Prop :=
  ∃ ts name, data = messageText ts name task.packet.data

/-- The message of the `i`th handler, as `Send` gets it. -/
def messageOf (i : ℕ) (data : Bytes) : Queued Conn := ⟨.handler i, ⟨messagePacket, data⟩⟩

/-- How far the handler of a message is, and what it has sent to a client that is in the room. -/
inductive Reached (client : Conn) (i : ℕ) (task : Task Conn) :
    Option (Iteration Conn × Callback) → List (Queued Conn) → Prop
  | ahead : task.stage = .started ∨ task.stage = .loaded → Reached client i task none []
  | underway {iteration : Iteration Conn} {data : Bytes} :
      task.stage = .ranging → task.Says data → client ∈ iteration.lasting →
      Reached client i task (some (iteration, .send data))
        (if client ∈ iteration.visited then [messageOf i data] else [])
  | sent {data : Bytes} :
      task.stage = .returned → task.Says data → Reached client i task none [messageOf i data]

namespace Reached

variable {client conn : Conn} {i : ℕ} {task : Task Conn} {iteration : Iteration Conn}
  {callback : Callback} {range : Option (Iteration Conn × Callback)} {queued : List (Queued Conn)}

theorem goOn (h : Reached client i task (some (iteration, callback)) queued)
    {iteration' : Iteration Conn}
    (hlasting : client ∈ iteration.lasting → client ∈ iteration'.lasting)
    (hvisited : client ∈ iteration'.visited ↔ client ∈ iteration.visited) :
    Reached client i task (some (iteration', callback)) queued := by
  cases h with
  | @underway _ data hstage htext hclient =>
      have hreached : Reached client i task (some (iteration', .send data))
          (if client ∈ iteration'.visited then [messageOf i data] else []) :=
        .underway hstage htext (hlasting hclient)
      rwa [if_congr hvisited rfl rfl] at hreached

theorem store (h : Reached client i task range queued) (conn : Conn) :
    Reached client i task (range.map fun range => (range.1.store conn, range.2)) queued := by
  cases range with
  | none => exact h
  | some range => exact h.goOn id Iff.rfl

theorem remove (h : Reached client i task range queued) (hne : client ≠ conn) :
    Reached client i task (range.map fun range => (range.1.remove conn, range.2)) queued := by
  cases range with
  | none => exact h
  | some range =>
      exact h.goOn (fun hlasting => Iteration.mem_lasting_remove hlasting hne) Iff.rfl

theorem load (h : Reached client i task range queued) (hstage : task.stage = .started) :
    Reached client i { task with stage := .loaded } range queued := by
  cases h with
  | ahead => exact .ahead (.inr rfl)
  | underway hranging => rw [hstage] at hranging; cases hranging
  | sent hreturned => rw [hstage] at hreturned; cases hreturned

theorem beginRange (h : Reached client i task range queued) (hstage : task.stage = .loaded)
    {sessions : List Conn} (hclient : client ∈ sessions) {data : Bytes} (htext : task.Says data) :
    Reached client i { task with stage := .ranging } (some (.start sessions, .send data))
      queued := by
  cases h with
  | ahead =>
      have hreached : Reached client i { task with stage := .ranging }
          (some (.start sessions, .send data)) (if client ∈ [] then [messageOf i data] else []) :=
        .underway rfl htext hclient
      exact hreached
  | underway hranging => rw [hstage] at hranging; cases hranging
  | sent hreturned => rw [hstage] at hreturned; cases hreturned

/-- The `Range` comes to the client. -/
theorem visit (h : Reached client i task (some (iteration, callback)) queued)
    (hvisited : client ∉ iteration.visited) :
    ∃ data, callback = .send data ∧
      Reached client i task
        (some ({ iteration with visited := client :: iteration.visited }, .send data))
        (queued ++ [messageOf i data]) := by
  cases h with
  | @underway _ data hstage htext hlasting =>
      have hreached : Reached client i task
          (some ({ iteration with visited := client :: iteration.visited }, .send data))
          (if client ∈ client :: iteration.visited then [messageOf i data] else []) :=
        .underway hstage htext hlasting
      rw [if_pos (List.mem_cons_self ..)] at hreached
      refine ⟨data, rfl, ?_⟩
      rwa [if_neg hvisited]

theorem eq_send (h : Reached client i task (some (iteration, callback)) queued) :
    ∃ data, callback = .send data := by
  cases h with
  | underway => exact ⟨_, rfl⟩

/-- The `Range` comes to another session. -/
theorem visit_other (h : Reached client i task (some (iteration, callback)) queued)
    (hne : client ≠ conn) :
    Reached client i task
      (some ({ iteration with visited := conn :: iteration.visited }, callback)) queued :=
  h.goOn id (List.mem_cons.trans (or_iff_right hne))

theorem endRange (h : Reached client i task (some (iteration, callback)) queued)
    (hdone : iteration.Done) :
    Reached client i { task with stage := Room.afterRange callback } none queued := by
  cases h with
  | underway hstage htext hlasting =>
      rw [if_pos (hdone client hlasting)]
      exact .sent rfl htext

theorem not_replying (h : Reached client i task range queued) {data : Bytes} :
    task.stage ≠ .replying data := by
  intro hreplying
  cases h with
  | ahead hstage => rcases hstage with hstage | hstage <;> rw [hreplying] at hstage <;> cases hstage
  | underway hstage => rw [hreplying] at hstage; cases hstage
  | sent hstage => rw [hreplying] at hstage; cases hstage

theorem length_le (h : Reached client i task range queued) : queued.length ≤ 1 := by
  cases h with
  | ahead => exact Nat.zero_le 1
  | underway =>
      split
      · exact le_rfl
      · exact Nat.zero_le 1
  | sent => exact le_rfl

end Reached

/-- The client is in the room, and the message is where its handler is. -/
structure Tracked (room : Room Conn) (client : Conn) (i : ℕ) : Prop where
  connected : client ∈ room.sessions
  reached : ∀ task, room.tasks[i]? = some task → task.packet.type = messagePacket →
    Reached client i task (room.ranges (.handler i)) (room.queuedBy client [.handler i])

namespace Tracked

variable {room room' : Room Conn} {client : Conn} {i : ℕ}

theorem congr (h : Tracked room client i) (hsessions : client ∈ room'.sessions)
    (htask : room'.tasks[i]? = room.tasks[i]?)
    (hranges : room'.ranges (.handler i) = room.ranges (.handler i))
    (hqueued : room'.queuedBy client [.handler i] = room.queuedBy client [.handler i]) :
    Tracked room' client i := by
  refine ⟨hsessions, ?_⟩
  rw [htask, hranges, hqueued]
  exact h.reached

theorem same (h : Tracked room client i) (hsame : Room.Same room room') :
    Tracked room' client i := by
  refine h.congr ?_ ?_ ?_ (Room.queuedBy_congr hsame.outPackets client _)
  · rw [hsame.sessions]
    exact h.connected
  · rw [hsame.tasks]
  · rw [hsame.ranges]

theorem recv (h : Tracked room client i) (hfresh : room.Fresh) (conn : Conn) (packet : Packet) :
    Tracked { room with tasks := room.tasks ++ [⟨conn, packet, .started⟩] } client i := by
  refine ⟨h.connected, fun task htask hmessage => ?_⟩
  dsimp only at htask
  by_cases hi : i < room.tasks.length
  · rw [List.getElem?_append_left hi] at htask
    exact h.reached task htask hmessage
  · rw [List.getElem?_append_right (Nat.le_of_not_lt hi)] at htask
    obtain rfl := List.mem_singleton.mp (List.mem_of_getElem? htask)
    obtain ⟨hnone, hempty⟩ := hfresh i (Nat.le_of_not_lt hi)
    show Reached client i _ (room.ranges (.handler i)) (room.queuedBy client [.handler i])
    rw [hnone, hempty client]
    exact .ahead (.inl rfl)

omit [DecidableEq Conn] in
theorem eq_of_getElem?_set {tasks : List (Task Conn)} {task task' new : Task Conn}
    (htask : tasks[i]? = some task) (hset : (tasks.set i new)[i]? = some task') : task' = new := by
  rw [List.getElem?_set_self (List.getElem?_eq_some_iff.mp htask).1] at hset
  exact (Option.some.inj hset).symm

theorem setStage (h : Tracked room client i) {k : ℕ} {task : Task Conn} {stage : Stage}
    (htask : room.tasks[k]? = some task)
    (hstage : task.packet.type = messagePacket → task.stage = .started ∧ stage = .loaded) :
    Tracked (room.setStage k task stage) client i := by
  by_cases hk : k = i
  · subst hk
    refine ⟨h.connected, fun task' htask' hmessage => ?_⟩
    obtain rfl := eq_of_getElem?_set htask htask'
    obtain ⟨hstarted, rfl⟩ := hstage hmessage
    exact (h.reached task htask hmessage).load hstarted
  · exact h.congr h.connected (List.getElem?_set_ne hk) rfl rfl

theorem range (h : Tracked room client i) {k : ℕ} {task : Task Conn}
    (htask : room.tasks[k]? = some task) (hready : task.ready) (ts : Bytes) :
    Tracked ((room.setStage k task .ranging).beginRange (.handler k) (room.callback task ts))
      client i := by
  by_cases hk : k = i
  · subst hk
    refine ⟨h.connected, fun task' htask' hmessage => ?_⟩
    obtain rfl := eq_of_getElem?_set htask htask'
    have hloaded : task.stage = .loaded := by
      rw [Task.ready, Room.loads_of_message hmessage, if_pos rfl] at hready
      exact of_decide_eq_true hready
    have htext : task.Says (messageText ts (room.name task.conn) task.packet.data) :=
      ⟨ts, room.name task.conn, rfl⟩
    rw [Room.ranges_beginRange_self, Room.callback, if_pos hmessage]
    exact (h.reached task htask hmessage).beginRange hloaded h.connected htext
  · have hne : (.handler i : Goroutine Conn) ≠ .handler k := by
      rintro heq
      cases heq
      exact hk rfl
    exact h.congr h.connected (List.getElem?_set_ne hk) (Room.ranges_beginRange_of_ne hne _ _) rfl

theorem reply (h : Tracked room client i) {k : ℕ} {task : Task Conn} {data : Bytes}
    (htask : room.tasks[k]? = some task) (hstage : task.stage = .replying data) :
    Tracked ((room.setStage k task .returned).send (.handler k) task.conn data) client i := by
  by_cases hk : k = i
  · subst hk
    refine ⟨h.connected, fun task' htask' hmessage => ?_⟩
    obtain rfl := eq_of_getElem?_set htask htask'
    exact absurd hstage (h.reached task htask hmessage).not_replying
  · have hne : (.handler k : Goroutine Conn) ∉ [.handler i] := by simpa using hk
    exact h.congr h.connected (List.getElem?_set_ne hk) rfl
      (Room.queuedBy_send_of_notMem hne _ _ _ _)

/-- The `Range` of some goroutine comes to some session. -/
theorem visit (h : Tracked room client i) {goroutine : Goroutine Conn} {other : Conn}
    {iteration : Iteration Conn} {callback : Callback}
    (hrange : room.ranges goroutine = some (iteration, callback))
    (hvisited : other ∉ iteration.visited) :
    Tracked (room.call goroutine other
      { iteration with visited := other :: iteration.visited } callback) client i := by
  have hsessions : client ∈ (room.call goroutine other
      { iteration with visited := other :: iteration.visited } callback).sessions := by
    rw [Room.sessions_call]
    exact h.connected
  by_cases hgoroutine : goroutine = .handler i
  · subst hgoroutine
    refine ⟨hsessions, fun task htask hmessage => ?_⟩
    rw [Room.tasks_call] at htask
    have hreached := h.reached task htask hmessage
    rw [hrange] at hreached
    by_cases hclient : client = other
    · subst hclient
      obtain ⟨data, rfl, hvisit⟩ := hreached.visit hvisited
      rw [Room.ranges_call_send, Room.call, Room.queuedBy_send (List.mem_singleton_self _)]
      exact hvisit
    · obtain ⟨data, rfl⟩ := hreached.eq_send
      rw [Room.ranges_call_send, Room.queuedBy_call_of_ne hclient]
      exact hreached.visit_other hclient
  · have hmem : goroutine ∉ [.handler i] := by simpa using hgoroutine
    exact h.congr hsessions (by rw [Room.tasks_call])
      (Room.ranges_call_of_ne (Ne.symm hgoroutine) _ _) (Room.queuedBy_call_of_notMem hmem _ _ _)

theorem endRange (h : Tracked room client i) {goroutine : Goroutine Conn}
    {iteration : Iteration Conn} {callback : Callback}
    (hrange : room.ranges goroutine = some (iteration, callback)) (hdone : iteration.Done) :
    Tracked (room.endRange goroutine callback) client i := by
  have hsessions : client ∈ (room.endRange goroutine callback).sessions := by
    rw [Room.sessions_endRange]
    exact h.connected
  have hqueued : (room.endRange goroutine callback).queuedBy client [.handler i] =
      room.queuedBy client [.handler i] :=
    Room.queuedBy_congr (Room.outPackets_endRange _ _) client _
  by_cases hgoroutine : goroutine = .handler i
  · subst hgoroutine
    refine ⟨hsessions, fun task' htask' hmessage => ?_⟩
    have hi := (List.getElem?_eq_some_iff.mp htask').1
    rw [Room.length_tasks_endRange] at hi
    have htask := List.getElem?_eq_getElem hi
    rw [Room.endRange_handler htask] at htask'
    obtain rfl := eq_of_getElem?_set htask htask'
    have hreached := h.reached _ htask hmessage
    rw [hrange] at hreached
    rw [Room.ranges_endRange, Function.update_self, hqueued]
    exact hreached.endRange hdone
  · refine h.congr hsessions (Room.getElem?_tasks_endRange (Ne.symm hgoroutine) _ _) ?_ hqueued
    rw [Room.ranges_endRange, Function.update_of_ne (Ne.symm hgoroutine)]

/-- **One piece.**  As long as the client stays, the message is where its handler is. -/
theorem step (h : Tracked room client i) (hfresh : room.Fresh) {piece : Piece Conn}
    (hstays : piece ≠ .delete client) (hstep : room.step piece = some room') :
    Tracked room' client i := by
  cases Room.effect_of_step hstep with
  | quiet hsame => exact h.same hsame
  | @announce _ conn callback _ hsame =>
      have hbegin : Tracked (room.beginRange (.connection conn) callback) client i := by
        exact h.congr h.connected rfl (Room.ranges_beginRange_of_ne (by simp) room callback) rfl
      exact hbegin.same hsame
  | @store conn _ hsame =>
      have hstore : Tracked (room.store conn) client i := by
        refine ⟨List.mem_append_left _ h.connected, fun task htask hmessage => ?_⟩
        exact (h.reached task htask hmessage).store conn
      exact hstore.same hsame
  | @delete conn _ hsame =>
      have hne : client ≠ conn := by
        rintro rfl
        exact hstays rfl
      have hdelete : Tracked (room.delete conn) client i := by
        refine ⟨List.mem_filter.mpr ⟨h.connected, decide_eq_true hne⟩, fun task htask hmessage => ?_⟩
        exact (h.reached task htask hmessage).remove hne
      exact hdelete.same hsame
  | @recv conn packet => exact h.recv hfresh conn packet
  | setStage htask hstage hsame => exact (h.setStage htask hstage).same hsame
  | @range _ ts _ htask hready _ => exact h.range htask hready ts
  | reply htask hstage => exact h.reply htask hstage
  | visit hrange _ hvisited => exact h.visit hrange hvisited
  | endRange hrange hdone => exact h.endRange hrange hdone

theorem run {pieces : List (Piece Conn)} (h : Tracked room client i) (hfresh : room.Fresh)
    (hstays : Piece.delete client ∉ pieces)
    (hrun : (chatRoom Conn).run room pieces = some room') : Tracked room' client i := by
  induction pieces generalizing room with
  | nil =>
      cases hrun
      exact h
  | cons piece pieces ih =>
      obtain ⟨mid, hmid, hrest⟩ := System.run_cons_eq_some.mp hrun
      obtain ⟨hpiece, hstay⟩ := not_or.mp (List.mem_cons.not.mp hstays)
      have hfresh' : mid.Fresh := hfresh.effect (Room.effect_of_step hmid)
      exact ih (h.step hfresh (Ne.symm hpiece) hmid) hfresh' hstay hrest

end Tracked

/-! ## Packets of tasks -/

omit [DecidableEq Conn] in
theorem exists_task_of_set {tasks : List (Task Conn)} {i k : ℕ} {task old : Task Conn}
    (htask : tasks[i]? = some task) (hold : tasks[k]? = some old) (stage : Stage) :
    ∃ task', (tasks.set k { old with stage := stage })[i]? = some task' ∧
      task'.packet = task.packet := by
  by_cases hk : k = i
  · subst hk
    obtain rfl := Option.some.inj (htask.symm.trans hold)
    exact ⟨_, List.getElem?_set_self (List.getElem?_eq_some_iff.mp htask).1, rfl⟩
  · exact ⟨task, (List.getElem?_set_ne hk).trans htask, rfl⟩

theorem exists_task_of_step {room room' : Room Conn} {piece : Piece Conn} {i : ℕ} {task : Task Conn}
    (hstep : room.step piece = some room') (htask : room.tasks[i]? = some task) :
    ∃ task', room'.tasks[i]? = some task' ∧ task'.packet = task.packet := by
  cases Room.effect_of_step hstep with
  | quiet hsame | announce hsame | store hsame | delete hsame =>
      rw [hsame.tasks]
      exact ⟨task, htask, rfl⟩
  | recv =>
      refine ⟨task, ?_, rfl⟩
      exact (List.getElem?_append_left (List.getElem?_eq_some_iff.mp htask).1).trans htask
  | setStage hold _ hsame =>
      rw [hsame.tasks]
      exact exists_task_of_set htask hold _
  | range hold _ _ => exact exists_task_of_set htask hold _
  | reply hold _ => exact exists_task_of_set htask hold _
  | visit _ _ _ =>
      rw [Room.tasks_call]
      exact ⟨task, htask, rfl⟩
  | @endRange goroutine _ callback _ _ =>
      by_cases hne : .handler i = goroutine
      · rw [← hne, Room.endRange_handler htask]
        exact exists_task_of_set htask htask _
      · rw [Room.getElem?_tasks_endRange hne]
        exact ⟨task, htask, rfl⟩

/-- The packet of the `i`th handler is a message, as far as there is a handler. -/
def IsMessage (room : Room Conn) (i : ℕ) : Prop :=
  ∀ task, room.tasks[i]? = some task → task.packet.type = messagePacket

theorem exists_task_of_run {pieces : List (Piece Conn)} {start room : Room Conn} {i : ℕ}
    {task : Task Conn} (hrun : (chatRoom Conn).run start pieces = some room)
    (htask : start.tasks[i]? = some task) :
    ∃ task', room.tasks[i]? = some task' ∧ task'.packet = task.packet := by
  refine System.run_invariant
    (P := fun room => ∃ task', room.tasks[i]? = some task' ∧ task'.packet = task.packet)
    ?_ ⟨task, htask, rfl⟩ hrun
  rintro mid piece mid' ⟨task', htask', hpacket⟩ hstep
  obtain ⟨task'', htask'', hpacket'⟩ := exists_task_of_step hstep htask'
  exact ⟨task'', htask'', hpacket'.trans hpacket⟩

theorem isMessage_of_run {pieces : List (Piece Conn)} {start room : Room Conn} {i : ℕ}
    (hrun : (chatRoom Conn).run start pieces = some room) (hmessage : IsMessage room i) :
    IsMessage start i := by
  intro task htask
  obtain ⟨task', htask', hpacket⟩ := exists_task_of_run hrun htask
  rw [← hpacket]
  exact hmessage task' htask'

end Eureka.Chat

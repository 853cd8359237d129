import Eureka.Chat.Broadcasts

/-!
# Messages that overtake

Each packet has a goroutine of its own, and nothing orders the goroutines, also
when their packets come from one client.  Two messages arrive once each at every
client that is in the room, in the order in which the two calls of `Range` come
to the client; the second message may be the first to arrive.

* `InOrder`: the queue of the client, with the first message in front;
* `broadcasts_once`: both messages, once each, and when they are in order;
* `message_overtaken`: a run in which they are not.
-/

namespace Eureka.Chat

open Transition

variable {Conn : Type} [DecidableEq Conn]

/-- The client's queue grows at its end, by a `Range` that comes to the client or by a reply. -/
theorem outPackets_of_step {room room' : Room Conn} {piece : Piece Conn}
    (hstep : room.step piece = some room') (client : Conn) :
    room'.outPackets client = room.outPackets client ∨
      ∃ sender data,
        room'.outPackets client = room.outPackets client ++ [⟨sender, ⟨messagePacket, data⟩⟩] ∧
        (piece = .visit sender client ∨ ∃ k task, sender = .handler k ∧
          room.tasks[k]? = some task ∧ task.stage = .replying data) := by
  cases Room.effect_of_step hstep with
  | quiet hsame | announce hsame | store hsame | delete hsame =>
      exact .inl (congrFun hsame.outPackets client)
  | recv => exact .inl rfl
  | setStage _ _ hsame => exact .inl (congrFun hsame.outPackets client)
  | range => exact .inl rfl
  | @reply k task data htask hstage =>
      by_cases hclient : client = task.conn
      · subst hclient
        exact .inr ⟨_, data, Room.outPackets_send_self _ _ _ _, .inr ⟨k, task, rfl, htask, hstage⟩⟩
      · exact .inl (Room.outPackets_send_of_ne hclient _ _ _)
  | @visit goroutine other iteration callback _ _ _ =>
      cases callback with
      | members str => exact .inl rfl
      | send data =>
          by_cases hclient : client = other
          · subst hclient
            exact .inr ⟨_, data, Room.outPackets_send_self _ _ _ _, .inl rfl⟩
          · exact .inl (Room.outPackets_send_of_ne hclient _ _ _)
  | endRange => exact .inl (congrFun (Room.outPackets_endRange _ _) client)

theorem queuedBy_of_append {room room' : Room Conn} {client : Conn} {queued : Queued Conn}
    (hout : room'.outPackets client = room.outPackets client ++ [queued])
    (senders : List (Goroutine Conn)) :
    room'.queuedBy client senders =
      room.queuedBy client senders ++ if queued.sender ∈ senders then [queued] else [] := by
  rw [Room.queuedBy, hout, List.filter_append, List.filter_singleton, Room.queuedBy]
  by_cases hmem : queued.sender ∈ senders
  · rw [decide_eq_true hmem, cond_true, if_pos hmem]
  · rw [decide_eq_false hmem, cond_false, if_neg hmem]

/-! ## Two handlers of messages -/

/-- The client is in the room, and both messages are where their handlers are. -/
structure Watched (room : Room Conn) (client : Conn) (i j : ℕ) : Prop where
  fresh : room.Fresh
  first : Tracked room client i
  second : Tracked room client j

namespace Watched

variable {room room' : Room Conn} {client : Conn} {i j : ℕ} {piece : Piece Conn}

theorem step (h : Watched room client i j) (hstays : piece ≠ .delete client)
    (hstep : room.step piece = some room') : Watched room' client i j where
  fresh := h.fresh.effect (Room.effect_of_step hstep)
  first := h.first.step h.fresh hstays hstep
  second := h.second.step h.fresh hstays hstep

theorem length_le (h : Watched room client i j) (hmessage : IsMessage room i) :
    (room.queuedBy client [.handler i]).length ≤ 1 := by
  cases htask : room.tasks[i]? with
  | none =>
      rw [(h.fresh i (List.getElem?_eq_none_iff.mp htask)).2 client]
      exact Nat.zero_le 1
  | some task => exact (h.first.reached task htask (hmessage task htask)).length_le

/-- One of the two messages is sent to the client when the `Range` of its handler comes there, and
in no other way. -/
theorem grows (h : Watched room client i j) (hmessages : IsMessage room i ∧ IsMessage room j)
    (hstep : room.step piece = some room') :
    (∀ senders ⊆ [.handler i, .handler j],
        room'.queuedBy client senders = room.queuedBy client senders) ∨
      ∃ sender data, (sender = .handler i ∨ sender = .handler j) ∧ piece = .visit sender client ∧
        room'.outPackets client = room.outPackets client ++ [⟨sender, ⟨messagePacket, data⟩⟩] := by
  rcases outPackets_of_step hstep client with hout | ⟨sender, data, hout, hpiece⟩
  · refine .inl fun senders _ => ?_
    rw [Room.queuedBy, hout, Room.queuedBy]
  · by_cases hsender : sender = .handler i ∨ sender = .handler j
    · refine .inr ⟨sender, data, hsender, ?_, hout⟩
      rcases hpiece with hpiece | ⟨k, task, rfl, htask, hreplying⟩
      · exact hpiece
      · -- the handler of a message does not reply
        exfalso
        rcases hsender with hk | hk <;> cases hk
        · exact (h.first.reached task htask (hmessages.1 task htask)).not_replying hreplying
        · exact (h.second.reached task htask (hmessages.2 task htask)).not_replying hreplying
    · refine .inl fun senders hsenders => ?_
      have hmem : sender ∉ senders := by
        intro hmem
        simpa [hsender] using hsenders hmem
      rw [queuedBy_of_append hout, if_neg hmem, List.append_nil]

end Watched

/-! ## In order -/

/-- The first message is in front of the second, and there before it. -/
structure InOrder (room : Room Conn) (client : Conn) (i j : ℕ) : Prop where
  both : room.queuedBy client [.handler i, .handler j] =
    room.queuedBy client [.handler i] ++ room.queuedBy client [.handler j]
  leads : room.queuedBy client [.handler i] = [] → room.queuedBy client [.handler j] = []

/-- The `Range` of the second handler comes to the client when the client has the first message. -/
def ReachesFirst (client : Conn) (i j : ℕ) (room : Room Conn) (piece : Piece Conn) : Prop :=
  piece = .visit (.handler j) client → room.queuedBy client [.handler i] ≠ []

instance (client : Conn) (i j : ℕ) (room : Room Conn) (piece : Piece Conn) :
    Decidable (ReachesFirst client i j room piece) :=
  inferInstanceAs (Decidable (_ → _))

section Order

variable {room room' : Room Conn} {client : Conn} {i j : ℕ} {piece : Piece Conn}

theorem InOrder.step (h : InOrder room client i j) (hne : i ≠ j) (hw : Watched room client i j)
    (hw' : Watched room' client i j) (hmessages : IsMessage room i ∧ IsMessage room j)
    (hmessage' : IsMessage room' i) (hreaches : ReachesFirst client i j room piece)
    (hstep : room.step piece = some room') : InOrder room' client i j := by
  rcases hw.grows hmessages hstep with hsame | ⟨sender, data, hsender, hpiece, hout⟩
  · have hfirst := hsame [.handler i] (by simp)
    have hsecond := hsame [.handler j] (by simp)
    refine ⟨?_, ?_⟩
    · rw [hsame _ (List.Subset.refl _), hfirst, hsecond]
      exact h.both
    · rw [hfirst, hsecond]
      exact h.leads
  · have hqueued := queuedBy_of_append hout
    rcases hsender with rfl | rfl
    · -- the first message comes once, so it has not been there, and neither has the second
      have hfirst := hqueued [.handler i]
      rw [if_pos (List.mem_singleton_self _)] at hfirst
      have hnone : room.queuedBy client [.handler i] = [] := by
        have hlength := hw'.length_le hmessage'
        rw [hfirst, List.length_append, List.length_singleton] at hlength
        exact List.length_eq_zero_iff.mp (by omega)
      have hsecond := hqueued [.handler j]
      rw [if_neg (by simpa using hne), List.append_nil, h.leads hnone] at hsecond
      refine ⟨?_, ?_⟩
      · rw [hqueued, if_pos (by simp), h.both, h.leads hnone, hnone, hfirst, hsecond, hnone]
        rfl
      · intro _
        exact hsecond
    · have hfirst := hqueued [.handler i]
      rw [if_neg (by simpa using hne.symm), List.append_nil] at hfirst
      refine ⟨?_, ?_⟩
      · have hsecond := hqueued [.handler j]
        rw [if_pos (List.mem_singleton_self _)] at hsecond
        rw [hqueued, if_pos (by simp), h.both, hfirst, hsecond, List.append_assoc]
      · intro hempty
        rw [hfirst] at hempty
        exact absurd hempty (hreaches hpiece)

/-- The client has the two messages in some order. -/
theorem queuedBy_perm (hne : i ≠ j) (room : Room Conn) (client : Conn) :
    (room.queuedBy client [.handler i, .handler j]).Perm
      (room.queuedBy client [.handler i] ++ room.queuedBy client [.handler j]) := by
  have hsplit := List.filter_append_perm (fun queued => queued.sender = .handler i)
    (room.queuedBy client [.handler i, .handler j])
  rw [Room.queuedBy, List.filter_filter, List.filter_filter] at hsplit
  refine (hsplit.symm.trans (.of_eq ?_))
  rw [Room.queuedBy, Room.queuedBy]
  congr 1
  · refine List.filter_congr fun queued _ => ?_
    by_cases hi : queued.sender = .handler i <;> simp [hi]
  · refine List.filter_congr fun queued _ => ?_
    by_cases hj : queued.sender = .handler j
    · simp [hj, hne.symm]
    · by_cases hi : queued.sender = .handler i <;> simp [hi, hj, hne]

theorem queuedBy_prefix_of_run {pieces : List (Piece Conn)} {start : Room Conn}
    (hrun : (chatRoom Conn).run start pieces = some room) (client : Conn)
    (senders : List (Goroutine Conn)) :
    start.queuedBy client senders <+: room.queuedBy client senders := by
  refine System.run_invariant
    (P := fun room => start.queuedBy client senders <+: room.queuedBy client senders)
    ?_ List.prefix_rfl hrun
  intro mid piece mid' hprefix hstep
  refine hprefix.trans ?_
  rcases outPackets_of_step hstep client with hout | ⟨sender, data, hout, -⟩
  · rw [Room.queuedBy, Room.queuedBy, hout]
  · rw [queuedBy_of_append hout]
    exact List.prefix_append _ _

/-! ## Runs -/

theorem inOrder_of_run {pieces : List (Piece Conn)} {start : Room Conn} (hne : i ≠ j)
    (hw : Watched start client i j) (hstays : Piece.delete client ∉ pieces)
    (hmessages : IsMessage room i ∧ IsMessage room j)
    (hrun : (chatRoom Conn).run start pieces = some room) (h : InOrder start client i j)
    (hsteps : (chatRoom Conn).EachStep (ReachesFirst client i j) start pieces) :
    InOrder room client i j := by
  induction pieces generalizing start with
  | nil =>
      cases hrun
      exact h
  | cons piece pieces ih =>
      have hstart : IsMessage start i ∧ IsMessage start j :=
        ⟨isMessage_of_run hrun hmessages.1, isMessage_of_run hrun hmessages.2⟩
      obtain ⟨mid, hmid, hrun⟩ := System.run_cons_eq_some.mp hrun
      obtain ⟨hpiece, hstays⟩ := not_or.mp (List.mem_cons.not.mp hstays)
      have hw' := hw.step (Ne.symm hpiece) hmid
      have h' := h.step hne hw hw' hstart (isMessage_of_run hrun hmessages.1) hsteps.1 hmid
      exact ih hw' hstays hrun h' (hsteps.2 mid hmid)

/-- The `Range` of the second handler sends the second message. -/
theorem Watched.visit_second (h : Watched room client i j) (hmessage : IsMessage room j)
    (hstep : room.step (.visit (.handler j) client) = some room') :
    ∃ data, room'.outPackets client = room.outPackets client ++ [messageOf j data] := by
  rw [Room.step.eq_def] at hstep
  split at hstep
  · cases hstep
  dsimp only at hstep
  split at hstep
  · next iteration callback hrange =>
      split at hstep
      · next iteration' hvisit =>
          cases hstep
          have hj : j < room.tasks.length := by
            by_contra hj
            rw [(h.fresh j (Nat.le_of_not_lt hj)).1] at hrange
            cases hrange
          have htask := List.getElem?_eq_getElem hj
          have hreached := h.second.reached _ htask (hmessage _ htask)
          rw [hrange] at hreached
          obtain ⟨⟨-, hvisited⟩, -⟩ := Iteration.visit_eq_some_iff.mp hvisit
          obtain ⟨data, rfl, -⟩ := hreached.visit hvisited
          exact ⟨data, Room.outPackets_send_self _ _ _ _⟩
      · cases hstep
  · cases hstep

theorem eachStep_of_order {pieces : List (Piece Conn)} {start : Room Conn} (hne : i ≠ j)
    (hw : Watched start client i j) (hstays : Piece.delete client ∉ pieces)
    (hmessages : IsMessage room i ∧ IsMessage room j)
    (hrun : (chatRoom Conn).run start pieces = some room) {text text' : Bytes}
    (horder : room.queuedBy client [.handler i, .handler j] =
      [messageOf i text, messageOf j text']) :
    (chatRoom Conn).EachStep (ReachesFirst client i j) start pieces := by
  induction pieces generalizing start with
  | nil => trivial
  | cons piece pieces ih =>
      have hsecond : IsMessage start j := isMessage_of_run hrun hmessages.2
      obtain ⟨mid, hmid, hrest⟩ := System.run_cons_eq_some.mp hrun
      obtain ⟨hpiece, hstay⟩ := not_or.mp (List.mem_cons.not.mp hstays)
      refine ⟨?_, fun mid' hmid' => ?_⟩
      · rintro rfl hnone
        obtain ⟨data, hout⟩ := hw.visit_second hsecond hmid
        have hprefix := queuedBy_prefix_of_run hrest client [.handler i, .handler j]
        rw [queuedBy_of_append hout, if_pos (by simp [messageOf]), horder] at hprefix
        -- the packet at the head is the first message, also when it is the one just sent
        cases hqueued : start.queuedBy client [.handler i, .handler j] with
        | nil =>
            rw [hqueued, List.nil_append] at hprefix
            have hhead := (List.cons_prefix_cons.mp hprefix).1
            cases hhead
            exact hne rfl
        | cons queued rest =>
            have hmem : queued ∈ start.outPackets client := by
              have hhead : queued ∈ start.queuedBy client [.handler i, .handler j] := by
                rw [hqueued]
                exact List.mem_cons_self ..
              exact (List.mem_filter.mp hhead).1
            rw [hqueued, List.cons_append] at hprefix
            obtain ⟨rfl, -⟩ := List.cons_prefix_cons.mp hprefix
            have hfirst : messageOf i text ∈ start.queuedBy client [.handler i] :=
              List.mem_filter.mpr ⟨hmem, by simp [messageOf]⟩
            rw [hnone] at hfirst
            exact List.not_mem_nil hfirst
      · obtain rfl := Option.some.inj (hmid.symm.trans hmid')
        exact ih (hw.step (Ne.symm hpiece) hmid) hstay hrest

theorem Tracked.exists_message (h : Tracked room client i) {task : Task Conn}
    (htask : room.tasks[i]? = some task) (hmessage : task.packet.type = messagePacket)
    (hreturned : task.stage = .returned) :
    ∃ text, task.Says text ∧ room.queuedBy client [.handler i] = [messageOf i text] := by
  have hreached := h.reached task htask hmessage
  generalize room.ranges (.handler i) = range at hreached
  generalize hqueued : room.queuedBy client [.handler i] = queued at hreached ⊢
  cases hreached with
  | ahead hstage => rcases hstage with hstage | hstage <;> rw [hreturned] at hstage <;> cases hstage
  | underway hstage => rw [hreturned] at hstage; cases hstage
  | sent _ hsays => exact ⟨_, hsays, rfl⟩

theorem tracked_of_new (hjoined : client ∈ room.sessions) (hnew : room.tasks.length ≤ i) :
    Tracked room client i := by
  refine ⟨hjoined, fun task htask => ?_⟩
  rw [List.getElem?_eq_none hnew] at htask
  cases htask

theorem inOrder_of_new (hne : i ≠ j) (hfresh : room.Fresh) (hi : room.tasks.length ≤ i)
    (hj : room.tasks.length ≤ j) (client : Conn) : InOrder room client i j := by
  have hfirst := (hfresh i hi).2 client
  have hsecond := (hfresh j hj).2 client
  have hboth := queuedBy_perm hne room client
  rw [hfirst, hsecond] at hboth
  refine ⟨?_, fun _ => hsecond⟩
  rw [hfirst, hsecond]
  exact hboth.eq_nil

theorem Watched.run {pieces : List (Piece Conn)} {start : Room Conn} (h : Watched start client i j)
    (hstays : Piece.delete client ∉ pieces)
    (hrun : (chatRoom Conn).run start pieces = some room) : Watched room client i j where
  fresh := Room.fresh_of_run h.fresh hrun
  first := h.first.run h.fresh hstays hrun
  second := h.second.run h.fresh hstays hrun

/-- **Both messages, once each.**  When the handlers of two packets have returned, every client that
was in the room before the first of them was received, and has not left it, has got each of the two
messages once.  The first is in front exactly if the `Range` of the second handler has come to the
client when the first message was there. -/
theorem broadcasts_once {before pieces : List (Piece Conn)} {start : Room Conn}
    {first second : Task Conn} (hbefore : (chatRoom Conn).run .empty before = some start)
    (hrun : (chatRoom Conn).run start pieces = some room) (hjoined : client ∈ start.sessions)
    (hstays : Piece.delete client ∉ pieces) (hnew : start.tasks.length ≤ i) (hij : i < j)
    (hfirst : room.tasks[i]? = some first) (hsecond : room.tasks[j]? = some second)
    (hmessages : first.packet.type = messagePacket ∧ second.packet.type = messagePacket)
    (hreturned : first.stage = .returned ∧ second.stage = .returned) :
    ∃ text text', first.Says text ∧ second.Says text' ∧
      (room.queuedBy client [.handler i, .handler j]).Perm
        [messageOf i text, messageOf j text'] ∧
      (room.queuedBy client [.handler i, .handler j] = [messageOf i text, messageOf j text'] ↔
        (chatRoom Conn).EachStep (ReachesFirst client i j) start pieces) := by
  have hne : i ≠ j := hij.ne
  have hnew' : start.tasks.length ≤ j := hnew.trans hij.le
  have hfresh : start.Fresh := Room.fresh_of_run Room.fresh_empty hbefore
  have hw : Watched start client i j :=
    ⟨hfresh, tracked_of_new hjoined hnew, tracked_of_new hjoined hnew'⟩
  have hw' : Watched room client i j := hw.run hstays hrun
  have hmessages' : IsMessage room i ∧ IsMessage room j := by
    constructor
    · intro task htask
      rw [← Option.some.inj (hfirst.symm.trans htask)]
      exact hmessages.1
    · intro task htask
      rw [← Option.some.inj (hsecond.symm.trans htask)]
      exact hmessages.2
  obtain ⟨text, hsays, hqueued⟩ := hw'.first.exists_message hfirst hmessages.1 hreturned.1
  obtain ⟨text', hsays', hqueued'⟩ := hw'.second.exists_message hsecond hmessages.2 hreturned.2
  have hperm := queuedBy_perm hne room client
  rw [hqueued, hqueued'] at hperm
  refine ⟨text, text', hsays, hsays', hperm, ?_, fun hsteps => ?_⟩
  · exact eachStep_of_order hne hw hstays hmessages' hrun
  · have horder := inOrder_of_run hne hw hstays hmessages' hrun
      (inOrder_of_new hne hfresh hnew hnew' client) hsteps
    rw [horder.both, hqueued, hqueued']
    rfl

end Order

/-! ## A message that is overtaken -/

/-- Two clients that have joined the chat. -/
def joined : List (Piece ℕ) :=
  [.accept 0, .join 0 [], .endRange (.connection 0), .store 0,
    .accept 1, .join 1 [], .visit (.connection 1) 0, .endRange (.connection 1), .store 1]

/-- Client `0` sends two messages.  The handler of the second comes to client `1` at the end and
otherwise runs in front of the first one. -/
def overtaking : List (Piece ℕ) :=
  [.recv 0 ⟨messagePacket, [97]⟩, .recv 0 ⟨messagePacket, [98]⟩, .load 0, .load 1, .range 1 [],
    .visit (.handler 1) 0, .range 0 [], .visit (.handler 0) 1, .visit (.handler 1) 1,
    .endRange (.handler 1), .visit (.handler 0) 0, .endRange (.handler 0)]

theorem broadcasts_once_overtaking :
    ∃ start room : Room ℕ, (chatRoom ℕ).run .empty joined = some start ∧
      (chatRoom ℕ).run start overtaking = some room ∧
      ∃ text text', (⟨0, ⟨messagePacket, [97]⟩, .returned⟩ : Task ℕ).Says text ∧
        (⟨0, ⟨messagePacket, [98]⟩, .returned⟩ : Task ℕ).Says text' ∧
        (room.queuedBy 1 [.handler 0, .handler 1]).Perm
          [messageOf 0 text, messageOf 1 text'] ∧
        (room.queuedBy 1 [.handler 0, .handler 1] = [messageOf 0 text, messageOf 1 text'] ↔
          (chatRoom ℕ).EachStep (ReachesFirst 1 0 1) start overtaking) :=
  ⟨_, _, rfl, rfl, @broadcasts_once ℕ _ _ 1 0 1 joined overtaking _ _ _ rfl rfl (by decide)
    (by decide) le_rfl Nat.one_pos rfl rfl ⟨rfl, rfl⟩ ⟨rfl, rfl⟩⟩

/-- Client `0` gets its own two messages in the other order. -/
theorem message_overtaken :
    ¬ ∀ (before pieces : List (Piece ℕ)) (start room : Room ℕ) (client i j : ℕ)
      (first second : Task ℕ), (chatRoom ℕ).run .empty before = some start →
      (chatRoom ℕ).run start pieces = some room → client ∈ start.sessions →
      Piece.delete client ∉ pieces → start.tasks.length ≤ i → i < j →
      room.tasks[i]? = some first → room.tasks[j]? = some second → first.conn = second.conn →
      first.packet.type = messagePacket ∧ second.packet.type = messagePacket →
      first.stage = .returned ∧ second.stage = .returned →
      ∃ text text', room.queuedBy client [.handler i, .handler j] =
        [messageOf i text, messageOf j text'] := by
  intro h
  obtain ⟨text, text', horder⟩ := h joined overtaking _ _ 0 0 1 _ _ rfl rfl (by decide) (by decide)
    le_rfl Nat.one_pos rfl rfl rfl ⟨rfl, rfl⟩ ⟨rfl, rfl⟩
  have hsenders : ([.handler 1, .handler 0] : List (Goroutine ℕ)) = [.handler 0, .handler 1] :=
    congrArg (List.map Queued.sender) horder
  cases hsenders

end Eureka.Chat

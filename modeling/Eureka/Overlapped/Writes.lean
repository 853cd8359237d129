import Eureka.NetworkBuffer.Queue
import Eureka.Overlapped.Connection

/-!
# Stability of posted writes

A `SendInLoop` writes into the output buffer whether or not a write is
outstanding.  That leaves the posted range alone only if the message fits behind
the readable bytes, or the vector grows inside its capacity; otherwise the range
is copied to the front of the vector or to another block.

* `Tracked`: what holds of every state;
* `sendInLoop_iff`: a message keeps the posted range in place exactly when it fits;
* `stable_iff`: a run is stable throughout exactly when all its messages fit;
* `second_message_not_stable`: the default buffer and two messages of 600 bytes.
-/

namespace Eureka.Overlapped

open EventLoop NetworkBuffer Transition

namespace Connection

variable {c c' : Connection}

/-- The posted range is where the readable bytes are, and memory still holds
there what was posted; and the stream is the sent messages. -/
structure Stable (c : Connection) : Prop where
  range : ∀ flight ∈ c.flight,
    flight.address = c.block.base + c.outputBuf.readerIndex ∧
      c.readStorage flight.address flight.bytes.length = some flight.bytes
  stream : c.transmitted ++ c.outputBuf.readable = c.sent.flatten

/-- The message fits behind the readable bytes, or the vector grows inside its capacity. -/
def Fits (c : Connection) (msg : Bytes) : Prop :=
  msg.length ≤ c.outputBuf.writableSize ∨
    (c.outputBuf.readerIndex + c.outputBuf.writableSize < defaultPrependSize + msg.length ∧
      c.outputBuf.writerIndex + msg.length ≤ c.block.capacity)

instance (c : Connection) (msg : Bytes) : Decidable (c.Fits msg) :=
  inferInstanceAs (Decidable (_ ∨ _))

/-- The condition on a step: a message that reaches the buffer while a write is
outstanding fits. -/
def Roomy {Thread : Type} (c : Connection) : Action Thread → Prop
  | .send .loop msg _ => c.outstandingWrites ≠ 0 → c.Fits msg
  | .send (.other _) _ _ => True
  | .runTask _ => c.outstandingWrites ≠ 0 → ∀ msg ∈ c.pendingTasks.head?, c.Fits msg
  | .writeCompletion _ _ => True

instance {Thread : Type} (c : Connection) : (action : Action Thread) → Decidable (c.Roomy action)
  | .send .loop msg _ => inferInstanceAs <| Decidable <| c.outstandingWrites ≠ 0 → c.Fits msg
  | .send (.other _) _ _ => .isTrue trivial
  | .runTask _ => inferInstanceAs <| Decidable <|
      c.outstandingWrites ≠ 0 → ∀ msg ∈ c.pendingTasks.head?, c.Fits msg
  | .writeCompletion _ _ => .isTrue trivial

/-- What holds of every state, stable or not. -/
structure Tracked (c : Connection) : Prop where
  valid : c.outputBuf.Valid
  size_le : c.outputBuf.buf.length ≤ c.block.capacity
  outstanding : c.outstandingWrites = if c.flight.isSome then 1 else 0
  flight_le : ∀ flight ∈ c.flight, flight.bytes.length ≤ c.outputBuf.readable.length
  tasks_fit : ∀ msg ∈ c.pendingTasks, msg.length ≤ maxSize

/-! ## Memory -/

theorem readStorage_reader (hvalid : c.outputBuf.Valid) {size : ℕ}
    (hsize : size ≤ c.outputBuf.readable.length) :
    c.readStorage (c.block.base + c.outputBuf.readerIndex) size
      = some (c.outputBuf.readable.take size) := by
  have hreader := hvalid.reader_le_writer
  have hwriter := hvalid.writer_le_size
  rw [hvalid.length_readable, hvalid.readableSize_eq] at hsize
  rw [readStorage, if_pos (Nat.le_add_right _ _), Nat.add_sub_cancel_left,
    slice_eq (by omega), Buffer.readable, List.drop_take, List.take_take, Nat.min_eq_left hsize]

theorem Stable.bytes_eq (hstable : c.Stable) (hc : c.Tracked) {flight : Flight}
    (hflight : c.flight = some flight) :
    flight.bytes = c.outputBuf.readable.take flight.bytes.length := by
  obtain ⟨haddress, hread⟩ := hstable.range flight hflight
  rw [haddress, readStorage_reader hc.valid (hc.flight_le flight hflight)] at hread
  exact (Option.some.inj hread).symm

/-- `PostWrite` posts what is readable then. -/
theorem postWrite_range (hvalid : c.outputBuf.Valid) :
    ∀ flight ∈ c.postWrite.flight,
      flight.address = c.postWrite.block.base + c.postWrite.outputBuf.readerIndex ∧
        c.postWrite.readStorage flight.address flight.bytes.length = some flight.bytes := by
  intro flight hflight
  obtain rfl := Option.some.inj hflight
  refine ⟨rfl, ?_⟩
  dsimp only
  have hle : (c.outputBuf.readable.take (c.outputBuf.readableSize % 2 ^ 32)).length
      ≤ c.outputBuf.readable.length := List.length_take_le' _ _
  refine (readStorage_reader (c := c.postWrite) hvalid hle).trans ?_
  rw [show c.postWrite.outputBuf = c.outputBuf from rfl, List.length_take, List.take_eq_take_iff.mpr]
  rw [Nat.min_assoc, Nat.min_self]

theorem Tracked.postWrite (hvalid : c.outputBuf.Valid)
    (hsize : c.outputBuf.buf.length ≤ c.block.capacity) (hidle : c.outstandingWrites = 0)
    (htasks : ∀ msg ∈ c.pendingTasks, msg.length ≤ maxSize) : c.postWrite.Tracked := by
  refine ⟨hvalid, hsize, ?_, ?_, htasks⟩
  · simp only [Connection.postWrite, hidle, Option.isSome_some, if_true, zero_add]
  · intro flight hflight
    obtain rfl := Option.some.inj hflight
    exact List.length_take_le' _ _

/-! ## Messages -/

theorem Block.hold_eq_some {block grown held : Block} {size : ℕ}
    (hhold : block.hold size grown = some held) :
    (size ≤ block.capacity ∧ held = block) ∨
      (block.capacity < size ∧ size ≤ grown.capacity ∧ grown.Disjoint block ∧ held = grown) := by
  unfold Block.hold at hhold
  split at hhold
  · next hfits => exact .inl ⟨hfits, (Option.some.inj hhold).symm⟩
  · next hshort =>
    split at hhold
    · next hgrown =>
      exact .inr ⟨not_le.mp hshort, hgrown.1, hgrown.2, (Option.some.inj hhold).symm⟩
    · cases hhold

theorem Block.size_le_of_hold {block grown held : Block} {size : ℕ}
    (hhold : block.hold size grown = some held) : size ≤ held.capacity := by
  rcases Block.hold_eq_some hhold with ⟨hfits, rfl⟩ | ⟨-, hfits, -, rfl⟩
  · exact hfits
  · exact hfits

/-- Two blocks that are not empty and live together have different addresses. -/
theorem Block.base_ne {block other : Block} (hdisjoint : block.Disjoint other)
    (hblock : 0 < block.capacity) (hother : 0 < other.capacity) : block.base ≠ other.base := by
  rcases hdisjoint with hbelow | habove
  · omega
  · omega

/-- The parts of a `SendInLoop`. -/
theorem sendInLoop_spec (hvalid : c.outputBuf.Valid) {msg : Bytes} {grown : Block}
    (hmsg : msg.length ≤ maxSize) (hsend : c.sendInLoop msg grown = some c') :
    ∃ b block, c.outputBuf.write msg = (b, .done ()) ∧ b.Valid ∧
      b.readable = c.outputBuf.readable ++ msg ∧ c.block.hold b.buf.length grown = some block ∧
      c' = if c.outstandingWrites = 0 then
          { c with outputBuf := b, block := block, sent := c.sent ++ [msg] }.postWrite
        else { c with outputBuf := b, block := block, sent := c.sent ++ [msg] } := by
  rcases Buffer.write_spec hvalid hmsg with ⟨b, hwrite, hb, hreadable⟩ | ⟨hwrite, -⟩
  · simp only [sendInLoop, hwrite, Option.map_eq_some_iff] at hsend
    obtain ⟨block, hhold, hsend⟩ := hsend
    exact ⟨b, block, hwrite, hb, hreadable, hhold, hsend.symm⟩
  · simp only [sendInLoop, hwrite] at hsend
    cases hsend

/-- A message that fits leaves the block and the reader index as they are, and any
other message gives the readable bytes another address. -/
theorem fits_or_address_ne (hc : c.Tracked) {msg : Bytes} {grown block : Block} {b : Buffer}
    (hmsg : msg.length ≤ maxSize) (hwrite : c.outputBuf.write msg = (b, .done ()))
    (hhold : c.block.hold b.buf.length grown = some block) :
    (c.Fits msg ∧ block = c.block ∧ b.readerIndex = c.outputBuf.readerIndex) ∨
      (¬ c.Fits msg ∧ block.base + b.readerIndex ≠ c.block.base + c.outputBuf.readerIndex) := by
  have hsize := hc.size_le
  have hprepend := hc.valid.prepend_le_size
  unfold defaultPrependSize at hprepend
  rcases Buffer.write_placement hc.valid hmsg hwrite with ⟨hroom, hreader, hlength⟩ |
    ⟨hshort, hgrow, hreader, hlength⟩ | ⟨hshort, hmove, hreader, hlength⟩
  · rcases Block.hold_eq_some hhold with ⟨-, hsame⟩ | ⟨hlarge, -, -, -⟩
    · exact .inl ⟨.inl hroom, hsame, hreader⟩
    · omega
  · rcases Block.hold_eq_some hhold with ⟨hfits, hsame⟩ | ⟨hlarge, hgrown, hdisjoint, hnew⟩
    · exact .inl ⟨.inr ⟨hgrow, hlength ▸ hfits⟩, hsame, hreader⟩
    · -- the vector got another block, and the reader index is the same
      have hne := Block.base_ne hdisjoint (by omega) (by omega)
      refine .inr ⟨?_, by rw [hnew, hreader]; omega⟩
      rintro (hroom | ⟨-, hfits⟩)
      · omega
      · omega
  · rcases Block.hold_eq_some hhold with ⟨-, hsame⟩ | ⟨hlarge, -, -, -⟩
    · -- the block is the same, and the reader index was not the first possible one
      refine .inr ⟨?_, by rw [hsame, hreader]; omega⟩
      rintro (hroom | ⟨hgrow, -⟩)
      · omega
      · omega
    · omega

theorem Tracked.sendInLoop (hc : c.Tracked) {msg : Bytes} {grown : Block}
    (hmsg : msg.length ≤ maxSize) (hsend : c.sendInLoop msg grown = some c') : c'.Tracked := by
  obtain ⟨b, block, -, hb, hreadable, hhold, rfl⟩ := sendInLoop_spec hc.valid hmsg hsend
  have hcapacity := Block.size_le_of_hold hhold
  split
  · next hidle => exact Tracked.postWrite hb hcapacity hidle hc.tasks_fit
  · refine ⟨hb, hcapacity, hc.outstanding, ?_, hc.tasks_fit⟩
    intro flight hflight
    dsimp only
    rw [hreadable, List.length_append]
    exact (hc.flight_le flight hflight).trans (Nat.le_add_right _ _)

/-- **A message** keeps the connection stable exactly when no write is outstanding
or the message fits. -/
theorem sendInLoop_iff (hc : c.Tracked) (hstable : c.Stable) {msg : Bytes} {grown : Block}
    (hmsg : msg.length ≤ maxSize) (hsend : c.sendInLoop msg grown = some c') :
    c'.Stable ↔ (c.outstandingWrites ≠ 0 → c.Fits msg) := by
  obtain ⟨b, block, hwrite, hb, hreadable, hhold, rfl⟩ := sendInLoop_spec hc.valid hmsg hsend
  have hstream : c.transmitted ++ b.readable = (c.sent ++ [msg]).flatten := by
    rw [hreadable, ← List.append_assoc, hstable.stream, List.flatten_concat]
  split
  · next hidle =>
    refine iff_of_true ⟨?_, hstream⟩ (absurd hidle)
    exact postWrite_range (c := { c with outputBuf := b, block := block, sent := c.sent ++ [msg] }) hb
  next hbusy =>
  obtain ⟨flight, hflight⟩ : ∃ flight, c.flight = some flight := by
    refine Option.isSome_iff_exists.mp ?_
    by_contra hnone
    exact hbusy (by rw [hc.outstanding, if_neg hnone])
  have haddress := (hstable.range flight hflight).1
  rcases fits_or_address_ne hc hmsg hwrite hhold with ⟨hfits, hblock, hreader⟩ | ⟨hnot, hne⟩
  · refine iff_of_true ⟨?_, hstream⟩ fun _ => hfits
    intro flight' hflight'
    obtain rfl : flight = flight' := Option.some.inj (hflight.symm.trans hflight')
    subst hblock
    have hle := hc.flight_le flight hflight
    have hle' : flight.bytes.length ≤ b.readable.length := by
      rw [hreadable, List.length_append]
      exact hle.trans (Nat.le_add_right _ _)
    have hread := readStorage_reader (c := { c with outputBuf := b, sent := c.sent ++ [msg] }) hb hle'
    dsimp only at hread ⊢
    rw [hreader, ← haddress, hreadable, List.take_append_of_le_length hle,
      ← hstable.bytes_eq hc hflight] at hread
    exact ⟨hreader ▸ haddress, hread⟩
  · -- the posted address is the old one
    refine iff_of_false ?_ fun hcond => hnot (hcond hbusy)
    intro hstable'
    exact hne ((hstable'.range flight hflight).1.symm.trans haddress)

/-! ## Completions -/

/-- The parts of a `HandleWriteCompletion`. -/
theorem handleWriteCompletion_spec (hc : c.Tracked) {n : ℕ} {garbage : Bytes}
    (hcomplete : c.handleWriteCompletion n garbage = some c') :
    ∃ flight b, c.flight = some flight ∧ n ≤ flight.bytes.length ∧ b.Valid ∧
      b.buf = c.outputBuf.buf ∧ b.readable = c.outputBuf.readable.drop n ∧
      c' = if b.readableSize > 0 then
          { c with
            outputBuf := b, outstandingWrites := 0, flight := none
            transmitted := c.transmitted ++
              (c.readStorage flight.address n).getD garbage }.postWrite
        else
          { c with
            outputBuf := b, outstandingWrites := 0, flight := none
            transmitted := c.transmitted ++ (c.readStorage flight.address n).getD garbage } := by
  unfold handleWriteCompletion at hcomplete
  split at hcomplete
  · cases hcomplete
  next flight hflight =>
  split at hcomplete
  · next hn =>
    have hidle : c.outstandingWrites - 1 = 0 := by
      rw [hc.outstanding, hflight]
      rfl
    have hle := hn.1.trans (hc.flight_le flight hflight)
    rcases Buffer.consume_spec hc.valid n with ⟨-, b, hconsume, hb, hreadable⟩ | ⟨hlt, -⟩
    · simp only [hconsume, hidle] at hcomplete
      refine ⟨flight, b, hflight, hn.1, hb, (Buffer.consume_placement hc.valid hconsume).1,
        hreadable, ?_⟩
      split at hcomplete
      · next hmore =>
        rw [if_pos hmore]
        exact (Option.some.inj hcomplete).symm
      · next hdone =>
        rw [if_neg hdone]
        exact (Option.some.inj hcomplete).symm
    · omega
  · cases hcomplete

theorem Tracked.handleWriteCompletion (hc : c.Tracked) {n : ℕ} {garbage : Bytes}
    (hcomplete : c.handleWriteCompletion n garbage = some c') : c'.Tracked := by
  obtain ⟨flight, b, hflight, hn, hb, hbuf, hreadable, rfl⟩ := handleWriteCompletion_spec hc hcomplete
  have hsize : b.buf.length ≤ c.block.capacity := hbuf ▸ hc.size_le
  split
  · exact Tracked.postWrite hb hsize rfl hc.tasks_fit
  · exact ⟨hb, hsize, rfl, nofun, hc.tasks_fit⟩

/-- **A completion** keeps the connection stable: it transmits the first of the
readable bytes and posts the rest where it is. -/
theorem Stable.handleWriteCompletion (hc : c.Tracked) (hstable : c.Stable) {n : ℕ}
    {garbage : Bytes} (hcomplete : c.handleWriteCompletion n garbage = some c') : c'.Stable := by
  obtain ⟨flight, b, hflight, hn, hb, hbuf, hreadable, rfl⟩ := handleWriteCompletion_spec hc hcomplete
  have hle := hn.trans (hc.flight_le flight hflight)
  have hchunk : (c.readStorage flight.address n).getD garbage = c.outputBuf.readable.take n := by
    rw [(hstable.range flight hflight).1, readStorage_reader hc.valid hle, Option.getD_some]
  have hstream : c.transmitted ++ c.outputBuf.readable.take n ++ b.readable = c.sent.flatten := by
    rw [hreadable, List.append_assoc, List.take_append_drop]
    exact hstable.stream
  rw [hchunk]
  split
  · refine ⟨?_, hstream⟩
    exact postWrite_range
      (c := { c with
        outputBuf := b, outstandingWrites := 0, flight := none
        transmitted := c.transmitted ++ c.outputBuf.readable.take n }) hb
  · exact ⟨nofun, hstream⟩

/-! ## Runs -/

theorem Tracked.runTask_cases (hc : c.Tracked) {grown : Block}
    (hrun : c.runTask grown = some c') :
    ∃ msg rest, c.pendingTasks = msg :: rest ∧ msg.length ≤ maxSize ∧
      { c with pendingTasks := rest }.Tracked ∧
      { c with pendingTasks := rest }.sendInLoop msg grown = some c' := by
  rw [runTask] at hrun
  split at hrun
  · cases hrun
  · next msg rest htasks =>
    have hfit := hc.tasks_fit
    rw [htasks, List.forall_mem_cons] at hfit
    exact ⟨msg, rest, htasks, hfit.1,
      ⟨hc.valid, hc.size_le, hc.outstanding, hc.flight_le, hfit.2⟩, hrun⟩

theorem Tracked.step {Thread : Type} (hc : c.Tracked) {action : Action Thread}
    (hstep : (writes Thread).step c action = some c') : c'.Tracked := by
  cases action with
  | send caller msg grown =>
      simp only [writes, Option.ite_none_right_eq_some] at hstep
      obtain ⟨hmsg, hstep⟩ := hstep
      cases caller with
      | loop => exact hc.sendInLoop hmsg hstep
      | other thread =>
          obtain rfl := Option.some.inj hstep
          refine ⟨hc.valid, hc.size_le, hc.outstanding, hc.flight_le, ?_⟩
          intro msg' hmem
          rcases List.mem_append.mp hmem with hmem | hmem
          · exact hc.tasks_fit msg' hmem
          · exact List.mem_singleton.mp hmem ▸ hmsg
  | runTask grown =>
      obtain ⟨msg, rest, -, hmsg, hrest, hsend⟩ := hc.runTask_cases hstep
      exact hrest.sendInLoop hmsg hsend
  | writeCompletion n garbage => exact hc.handleWriteCompletion hstep

/-- **One step** keeps the connection stable exactly when it is roomy. -/
theorem step_iff {Thread : Type} (hc : c.Tracked) (hstable : c.Stable) {action : Action Thread}
    (hstep : (writes Thread).step c action = some c') : c'.Stable ↔ c.Roomy action := by
  cases action with
  | send caller msg grown =>
      simp only [writes, Option.ite_none_right_eq_some] at hstep
      obtain ⟨hmsg, hstep⟩ := hstep
      cases caller with
      | loop => exact sendInLoop_iff hc hstable hmsg hstep
      | other thread =>
          obtain rfl := Option.some.inj hstep
          exact iff_of_true ⟨hstable.range, hstable.stream⟩ trivial
  | runTask grown =>
      obtain ⟨msg, rest, htasks, hmsg, hrest, hsend⟩ := hc.runTask_cases hstep
      refine (sendInLoop_iff hrest ⟨hstable.range, hstable.stream⟩ hmsg hsend).trans ?_
      rw [Roomy, htasks]
      simp only [List.head?_cons, Option.mem_def, Option.some.injEq, forall_eq']
      rfl
  | writeCompletion n garbage =>
      exact iff_of_true (hstable.handleWriteCompletion hc hstep) trivial

theorem tracked_of_start {Thread : Type} (hstart : (writes Thread).start c) :
    c.Tracked ∧ c.Stable := by
  obtain ⟨b, block, hconstruct, hcapacity, rfl⟩ := hstart
  obtain ⟨hb, hempty⟩ := valid_of_construct (by decide) hconstruct
  exact ⟨⟨hb, hcapacity, rfl, nofun, nofun⟩, ⟨nofun, hempty⟩⟩

end Connection

open Connection

/-- **Stable writes.**  The posted ranges stay in place throughout a run, and the
stream stays that of the messages, exactly when every message that reaches the
buffer during a write fits. -/
theorem stable_iff {Thread : Type} {c₀ c : Connection} {actions : List (Action Thread)}
    (hstart : (writes Thread).start c₀) (hrun : (writes Thread).run c₀ actions = some c) :
    (writes Thread).Always Stable c₀ actions ↔ (writes Thread).EachStep Roomy c₀ actions := by
  obtain ⟨htracked, hstable⟩ := tracked_of_start hstart
  exact System.always_iff_eachStep (I := Tracked) (fun _ _ _ hc hstep => hc.step hstep)
    (fun _ _ _ hc hstable hstep => step_iff hc hstable hstep) htracked hstable hrun

/-- A connection with the default buffer, in a block of its size. -/
def established : Connection :=
  ⟨⟨List.replicate 1032 0, 8, 8⟩, ⟨4096, 1032⟩, 0, none, [], [], []⟩

theorem established_start (Thread : Type) : (writes Thread).start established :=
  ⟨_, _, rfl, List.length_replicate.le, rfl⟩

/-- A message of another thread reaches the buffer during a write, which is then
completed in two parts. -/
theorem stable_iff_two_messages :
    (writes Unit).Always Stable established
      [.send .loop [1, 2, 3] ⟨0, 0⟩, .send (.other ()) [4] ⟨0, 0⟩, .runTask ⟨0, 0⟩,
        .writeCompletion 2 [0, 0], .writeCompletion 2 [0, 0]] := by
  obtain ⟨c, hrun⟩ := Option.isSome_iff_exists.mp
    (show ((writes Unit).run established
      [.send .loop [1, 2, 3] ⟨0, 0⟩, .send (.other ()) [4] ⟨0, 0⟩, .runTask ⟨0, 0⟩,
        .writeCompletion 2 [0, 0], .writeCompletion 2 [0, 0]]).isSome = true by decide +kernel)
  exact (stable_iff (established_start Unit) hrun).mpr (by decide +kernel)

/-- The second of two messages of 600 bytes moves the vector to another block
while the first one is written; its bytes are not what is transmitted. -/
theorem second_message_not_stable :
    (∃ c, (writes Unit).run established
        [.send .loop (List.replicate 600 1) ⟨0, 0⟩,
          .send .loop (List.replicate 600 2) ⟨8192, 2064⟩] = some c ∧ ¬ c.Stable) ∧
    ∃ c, (writes Unit).run established
        [.send .loop (List.replicate 600 1) ⟨0, 0⟩,
          .send .loop (List.replicate 600 2) ⟨8192, 2064⟩,
          .writeCompletion 600 (List.replicate 600 255)] = some c ∧
      c.transmitted = List.replicate 600 255 := by
  constructor
  · have hfacts : ((writes Unit).run established
        [.send .loop (List.replicate 600 1) ⟨0, 0⟩,
          .send .loop (List.replicate 600 2) ⟨8192, 2064⟩]).map
            (fun c => (c.flight, c.block.base, c.outputBuf.readerIndex))
        = some (some ⟨4104, List.replicate 600 1⟩, 8192, 8) := by decide +kernel
    obtain ⟨c, hrun, hfacts⟩ := Option.map_eq_some_iff.mp hfacts
    simp only [Prod.mk.injEq] at hfacts
    obtain ⟨hflight, hbase, hreader⟩ := hfacts
    refine ⟨c, hrun, fun hstable => ?_⟩
    have haddress : 4104 = c.block.base + c.outputBuf.readerIndex :=
      (hstable.range _ hflight).1
    omega
  · exact Option.map_eq_some_iff.mp
      (show ((writes Unit).run established
        [.send .loop (List.replicate 600 1) ⟨0, 0⟩,
          .send .loop (List.replicate 600 2) ⟨8192, 2064⟩,
          .writeCompletion 600 (List.replicate 600 255)]).map Connection.transmitted
        = some (List.replicate 600 255) by decide +kernel)

end Eureka.Overlapped

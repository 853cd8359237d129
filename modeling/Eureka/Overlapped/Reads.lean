import Eureka.NetworkBuffer.Operations
import Eureka.NetworkBuffer.Queue
import Eureka.Overlapped.Connection

/-!
# Closed by the peer

`HandleReadCompletion` takes a completion with no bytes for the end of the
stream.  That is right while no read has an empty receive area; but the input
buffer never grows, so that a handler that leaves bytes in a full buffer makes
`PostRead` post such a read.

* `consumeEach_spec`: what a message handler leaves in the input buffer;
* `Receiver.handleMessage_iff`: the next read has an empty area exactly if the
  buffer is full and the handler leaves bytes in it;
* `closedByPeer_iff`: a run is closed by the peer only, exactly when every
  completion that fills the receive area is consumed with all that is unread;
* `full_buffer_closes`: 1024 bytes that the handler leaves, and one more.
-/

namespace Eureka.Overlapped

open NetworkBuffer Transition

/-- The input buffer keeps its size, and it is empty only at its front. -/
structure InputValid (b : Buffer) : Prop where
  valid : b.Valid
  length_eq : b.buf.length = defaultInitialSize + defaultPrependSize
  reset : b.readable = [] → b.writerIndex = defaultPrependSize

variable {b b' : Buffer}

/-! ## The message handler -/

/-- A message handler consumes the sum of its amounts; what is left stays in place. -/
theorem consumeEach_spec (hb : InputValid b) {amounts : List ℕ}
    (hconsume : consumeEach b amounts = some b') :
    InputValid b' ∧ amounts.sum ≤ b.readable.length ∧
      b'.readable = b.readable.drop amounts.sum ∧
      (b'.readable ≠ [] → b'.writerIndex = b.writerIndex) := by
  induction amounts generalizing b with
  | nil =>
      obtain rfl := Option.some.inj hconsume
      exact ⟨hb, Nat.zero_le _, rfl, fun _ => rfl⟩
  | cons amount amounts ih =>
      rw [consumeEach] at hconsume
      rcases Buffer.consume_spec hb.valid amount with ⟨hle, mid, hmid, hvalid, hreadable⟩ |
        ⟨-, hfailed⟩
      · simp only [hmid] at hconsume
        obtain ⟨hbuf, hplace⟩ := Buffer.consume_placement hb.valid hmid
        have hinput : InputValid mid := by
          refine ⟨hvalid, hbuf ▸ hb.length_eq, ?_⟩
          intro hempty
          rcases hplace with ⟨hlt, -⟩ | ⟨-, hreset⟩
          · rw [hreadable, List.drop_eq_nil_iff] at hempty
            omega
          · exact hreset
        obtain ⟨hb', hsum, hrest, hstay⟩ := ih hinput hconsume
        rw [hreadable, List.length_drop] at hsum
        rw [hreadable, List.drop_drop] at hrest
        rw [List.sum_cons]
        refine ⟨hb', by omega, hrest, ?_⟩
        intro hne
        refine (hstay hne).trans ?_
        rcases hplace with ⟨-, hsame⟩ | ⟨hall, -⟩
        · exact hsame
        · -- nothing would be left
          refine absurd (hrest.trans (List.drop_eq_nil_of_le ?_)) hne
          omega
      · simp only [hfailed] at hconsume
        cases hconsume

/-- The receive area behind an input buffer is empty exactly if the buffer is full
and not read to its end. -/
theorem InputValid.writableSize_eq_zero (hb : InputValid b) :
    b.writableSize = 0 ↔
      b.readable ≠ [] ∧ b.writerIndex = defaultInitialSize + defaultPrependSize := by
  have hwriter := hb.valid.writer_le_size
  rw [hb.valid.writableSize_eq, hb.length_eq]
  rw [hb.length_eq] at hwriter
  constructor
  · intro hfull
    refine ⟨?_, by omega⟩
    intro hempty
    rw [hb.reset hempty, defaultInitialSize] at hfull
    omega
  · rintro ⟨-, hfull⟩
    omega

theorem InputValid.area_eq (hb : InputValid b) : b.writableSize % 2 ^ 32 = b.writableSize := by
  have hlength := hb.length_eq
  unfold defaultInitialSize defaultPrependSize at hlength
  rw [hb.valid.writableSize_eq]
  omega

theorem receive_spec (hb : InputValid b) {bytes buf : Bytes} (hroom : bytes.length ≤ b.writableSize)
    (hbytes : bytes ≠ []) (hput : overwrite b.buf b.writerIndex bytes = some buf)
    (hend : { b with buf := buf }.endWrite bytes.length = (b', .done ())) :
    InputValid b' ∧ b'.readable = b.readable ++ bytes ∧
      b'.writerIndex = b.writerIndex + bytes.length := by
  -- the system does what a `Write` does that has room
  have hwrite : b.write bytes = (b', .done ()) := by
    simp only [Buffer.write, Buffer.reserveWritable, ge_iff_le, hroom, if_true, Result.andThen,
      hput, hend]
  have hmax : bytes.length ≤ maxSize := by
    have hwritable := hb.valid.writableSize_eq
    have hsize := hb.valid.size_le_max
    omega
  rcases Buffer.write_spec hb.valid hmax with ⟨mid, hmid, hvalid, hreadable⟩ | ⟨hfailed, -⟩
  · obtain rfl : mid = b' := (Prod.mk.inj (hmid.symm.trans hwrite)).1
    rcases Buffer.write_placement hb.valid hmax hwrite with ⟨-, hreader, hlength⟩ |
      ⟨hshort, -⟩ | ⟨hshort, -⟩
    · refine ⟨⟨hvalid, hlength.trans hb.length_eq, ?_⟩, hreadable, ?_⟩
      · intro hempty
        exact absurd (List.append_eq_nil_iff.mp (hreadable.symm.trans hempty)).2 hbytes
      · -- the reader index stays, and there are so many bytes more
        have hcount := congrArg List.length hreadable
        rw [List.length_append, hvalid.length_readable, hb.valid.length_readable,
          hvalid.readableSize_eq, hb.valid.readableSize_eq, hreader] at hcount
        have hbefore := hb.valid.reader_le_writer
        have hafter := hvalid.reader_le_writer
        omega
    · omega
    · omega
  · rw [hwrite] at hfailed
    cases hfailed

namespace Receiver

variable {r r' : Receiver}

/-- `HandleClose` is invoked only if the peer has closed its side, and a read that
is not a probe has a receive area. -/
structure ClosedByPeer (r : Receiver) : Prop where
  closed : r.closed = true → r.peerClosed = true
  area : r.readEvent = .read → r.posted ≠ some 0

/-- The condition on a step: if a completion fills the receive area, the message
handler consumes all that is unread. -/
def Emptied (r : Receiver) : ReadAction → Prop
  | .peerSends _ => True
  | .peerCloses => True
  | .readCompletion n amounts =>
      r.readEvent = .read → n = r.inputBuf.writableSize →
        r.inputBuf.readable.length + n ≤ amounts.sum

instance (r : Receiver) : (action : ReadAction) → Decidable (r.Emptied action)
  | .peerSends _ => .isTrue trivial
  | .peerCloses => .isTrue trivial
  | .readCompletion n amounts => inferInstanceAs <| Decidable <|
      r.readEvent = .read → n = r.inputBuf.writableSize →
        r.inputBuf.readable.length + n ≤ amounts.sum

/-- What holds of every state. -/
structure Tracked (r : Receiver) : Prop where
  input : InputValid r.inputBuf
  event : r.readEvent ≠ .write
  probe : r.readEvent = .readProbe → r.inputBuf.readable = []
  posted : r.readEvent = .read → ∀ area ∈ r.posted, area = r.inputBuf.writableSize

/-! ## One completion -/

/-- The message handler and `PostRead`. -/
theorem handleMessage_spec (hinput : InputValid r.inputBuf) {amounts : List ℕ}
    (hmessage : r.handleMessage amounts = some r') :
    ∃ b, InputValid b ∧ amounts.sum ≤ r.inputBuf.readable.length ∧
      b.readable = r.inputBuf.readable.drop amounts.sum ∧
      (b.readable ≠ [] → b.writerIndex = r.inputBuf.writerIndex) ∧ r.readEvent = .read ∧
      r' = { r with inputBuf := b, posted := some b.writableSize } := by
  obtain ⟨b, hconsume, hpost⟩ := Option.bind_eq_some_iff.mp hmessage
  obtain ⟨hb, hsum, hreadable, hstay⟩ := consumeEach_spec hinput hconsume
  simp only [postRead, Option.ite_none_right_eq_some, Option.some.injEq, hb.area_eq] at hpost
  exact ⟨b, hb, hsum, hreadable, hstay, hpost.1, hpost.2.symm⟩

/-- **The next read** has a receive area exactly if the buffer is not full or the
handler consumes all that is unread. -/
theorem handleMessage_iff (hinput : InputValid r.inputBuf) {amounts : List ℕ}
    (hmessage : r.handleMessage amounts = some r') :
    r'.posted ≠ some 0 ↔
      (r.inputBuf.writerIndex = defaultInitialSize + defaultPrependSize →
        r.inputBuf.readable.length ≤ amounts.sum) := by
  obtain ⟨b, hb, hsum, hreadable, hstay, -, rfl⟩ := handleMessage_spec hinput hmessage
  have hleft : b.readable = [] ↔ r.inputBuf.readable.length ≤ amounts.sum := by
    rw [hreadable, List.drop_eq_nil_iff]
  rw [show (some b.writableSize ≠ some 0) ↔ ¬ b.writableSize = 0 from not_congr Option.some_inj,
    hb.writableSize_eq_zero, ← hleft]
  constructor
  · intro harea hfull
    by_contra hne
    exact harea ⟨hne, (hstay hne).trans hfull⟩
  · rintro hempty ⟨hne, hfull⟩
    exact hne (hempty ((hstay hne).symm.trans hfull))

theorem tracked_of_handleMessage (hinput : InputValid r.inputBuf) {amounts : List ℕ}
    (hmessage : r.handleMessage amounts = some r') : r'.Tracked := by
  obtain ⟨b, hb, -, -, -, hevent, rfl⟩ := handleMessage_spec hinput hmessage
  refine ⟨hb, ?_, ?_, ?_⟩
  · rw [hevent]
    exact nofun
  · exact fun hprobe => absurd (hevent.symm.trans hprobe) nofun
  · intro _ area harea
    exact (Option.some.inj harea).symm

/-- A completion of the probe, a completion with no bytes, or one with bytes that
are received behind the readable ones. -/
theorem complete_cases (hr : r.Tracked) {n : ℕ} {amounts : List ℕ}
    (hcomplete : r.complete n amounts = some r') :
    (r.readEvent = .readProbe ∧
      { r with posted := none, incoming := r.incoming.drop n, readEvent := .read }.handleMessage
        amounts = some r') ∨
    (r.readEvent = .read ∧ n = 0 ∧ ∃ area, r.posted = some area ∧
      (area = 0 ∨ r.peerClosed = true) ∧
      r' = { r with posted := none, incoming := r.incoming.drop 0, closed := true }) ∨
    (r.readEvent = .read ∧ 0 < n ∧ n ≤ r.inputBuf.writableSize ∧
      ∃ b, InputValid b ∧ b.readable.length = r.inputBuf.readable.length + n ∧
        b.writerIndex = r.inputBuf.writerIndex + n ∧
        { r with posted := none, incoming := r.incoming.drop n, inputBuf := b }.handleMessage
          amounts = some r') := by
  unfold complete at hcomplete
  split at hcomplete
  · cases hcomplete
  next area harea =>
  simp only [Option.ite_none_right_eq_some] at hcomplete
  obtain ⟨⟨hnarea, hn, hzero⟩, hcomplete⟩ := hcomplete
  have hlength : (r.incoming.take n).length = n := List.length_take_of_le hn
  unfold handleReadCompletion at hcomplete
  cases hevent : r.readEvent with
  | readProbe =>
      simp only [hevent] at hcomplete
      exact .inl ⟨rfl, hcomplete⟩
  | write => exact absurd hevent hr.event
  | read =>
      simp only [hevent, hlength] at hcomplete
      split at hcomplete
      · next hn0 =>
        subst hn0
        refine .inr (.inl ⟨rfl, rfl, area, harea, ?_, (Option.some.inj hcomplete).symm⟩)
        exact (hzero rfl).imp And.left And.right
      · next hpos =>
        split at hcomplete
        · cases hcomplete
        · next buf hput =>
          have hroom : n ≤ r.inputBuf.writableSize := hr.posted hevent area harea ▸ hnarea
          split at hcomplete
          · next b _ hend =>
            have hbytes : r.incoming.take n ≠ [] := by
              rw [← List.length_pos_iff_ne_nil, hlength]
              omega
            rw [← hlength] at hend
            obtain ⟨hb, hreadable, hwriter⟩ := receive_spec hr.input (hlength.symm ▸ hroom) hbytes
              hput hend
            rw [hlength] at hwriter
            refine .inr (.inr ⟨rfl, by omega, hroom, b, hb, ?_, hwriter, hcomplete⟩)
            rw [hreadable, List.length_append, hlength]
          · cases hcomplete
          · cases hcomplete
          · cases hcomplete

theorem Tracked.step (hr : r.Tracked) {action : ReadAction} (hstep : reads.step r action = some r') :
    r'.Tracked := by
  cases action with
  | peerSends bytes =>
      simp only [reads] at hstep
      split at hstep
      · cases hstep
      · obtain rfl := Option.some.inj hstep
        exact ⟨hr.input, hr.event, hr.probe, hr.posted⟩
  | peerCloses =>
      obtain rfl := Option.some.inj hstep
      exact ⟨hr.input, hr.event, hr.probe, hr.posted⟩
  | readCompletion n amounts =>
      rcases complete_cases hr hstep with ⟨-, hmessage⟩ | ⟨-, -, _, -, -, rfl⟩ |
        ⟨-, -, -, b, hb, -, -, hmessage⟩
      · refine tracked_of_handleMessage ?_ hmessage
        exact hr.input
      · exact ⟨hr.input, hr.event, hr.probe, fun _ => nofun⟩
      · exact tracked_of_handleMessage hb hmessage

/-- **A completion** leaves the connection to be closed by the peer exactly when it
is emptied. -/
theorem onComplete_iff (hr : r.Tracked) (hpeer : r.ClosedByPeer) {n : ℕ} {amounts : List ℕ}
    (hcomplete : r.complete n amounts = some r') :
    r'.ClosedByPeer ↔ r.Emptied (.readCompletion n amounts) := by
  rcases complete_cases hr hcomplete with ⟨hevent, hmessage⟩ |
    ⟨hevent, rfl, area, hposted, hzero, rfl⟩ |
    ⟨hevent, hpos, hroom, b, hb, hlength, hwriter, hmessage⟩
  · -- nothing was received, and nothing was unread before
    have hempty := hr.probe hevent
    set probed : Receiver :=
      { r with posted := none, incoming := r.incoming.drop n, readEvent := .read } with hprobed
    have hinput : InputValid probed.inputBuf := hr.input
    have harea : r'.posted ≠ some 0 := by
      refine (handleMessage_iff hinput hmessage).mpr fun _ => ?_
      rw [show probed.inputBuf.readable = [] from hempty]
      exact Nat.zero_le _
    obtain ⟨_, -, -, -, -, -, rfl⟩ := handleMessage_spec hinput hmessage
    refine iff_of_true ⟨hpeer.closed, fun _ => harea⟩ ?_
    intro hread
    rw [hevent] at hread
    cases hread
  · -- the area was not empty, so that the peer has closed
    have hnonempty : area ≠ 0 := by
      rintro rfl
      exact hpeer.area hevent hposted
    refine iff_of_true ⟨fun _ => hzero.resolve_left hnonempty, fun _ => nofun⟩ ?_
    intro _ hfull
    exact absurd ((hr.posted hevent area hposted).trans hfull.symm) hnonempty
  · have harea := handleMessage_iff hb hmessage
    obtain ⟨mid, -, -, -, -, -, rfl⟩ := handleMessage_spec hb hmessage
    have hfull : n = r.inputBuf.writableSize ↔
        b.writerIndex = defaultInitialSize + defaultPrependSize := by
      have hwriter_le := hr.input.valid.writer_le_size
      rw [hr.input.valid.writableSize_eq, ← hr.input.length_eq, hwriter]
      omega
    rw [Emptied, hfull, ← hlength]
    constructor
    · intro hafter _
      exact harea.mp (hafter.area hevent)
    · intro hemptied
      exact ⟨hpeer.closed, fun _ => harea.mpr (hemptied hevent)⟩

/-- **One step** leaves the connection to be closed by the peer exactly when it is
emptied. -/
theorem step_iff (hr : r.Tracked) (hpeer : r.ClosedByPeer) {action : ReadAction}
    (hstep : reads.step r action = some r') : r'.ClosedByPeer ↔ r.Emptied action := by
  cases action with
  | peerSends bytes =>
      simp only [reads] at hstep
      split at hstep
      · cases hstep
      · obtain rfl := Option.some.inj hstep
        exact iff_of_true ⟨hpeer.closed, hpeer.area⟩ trivial
  | peerCloses =>
      obtain rfl := Option.some.inj hstep
      exact iff_of_true ⟨fun _ => rfl, hpeer.area⟩ trivial
  | readCompletion n amounts => exact onComplete_iff hr hpeer hstep

theorem tracked_of_start (hstart : reads.start r) : r.Tracked ∧ r.ClosedByPeer := by
  obtain ⟨b, hconstruct, rfl⟩ := hstart
  obtain ⟨hb, hempty⟩ := valid_of_construct (by decide) hconstruct
  obtain rfl := Option.some.inj hconstruct
  refine ⟨⟨⟨hb, List.length_replicate, fun _ => rfl⟩, nofun, fun _ => hempty, nofun⟩, ?_⟩
  exact ⟨nofun, nofun⟩

end Receiver

open Receiver

/-- **Closed by the peer.**  Throughout a run `HandleClose` is invoked only if the
peer has closed its side, and every read has a receive area, exactly when each
completion that fills the area is consumed with all that is unread. -/
theorem closedByPeer_iff {r₀ r : Receiver} {actions : List ReadAction} (hstart : reads.start r₀)
    (hrun : reads.run r₀ actions = some r) :
    reads.Always ClosedByPeer r₀ actions ↔ reads.EachStep Emptied r₀ actions := by
  obtain ⟨htracked, hpeer⟩ := tracked_of_start hstart
  exact System.always_iff_eachStep (I := Tracked) (fun _ _ _ hr hstep => hr.step hstep)
    (fun _ _ _ hr hpeer hstep => step_iff hr hpeer hstep) htracked hpeer hrun

/-- An established connection, behind its `PostReadProbe`. -/
def probing : Receiver := ⟨⟨List.replicate 1032 0, 8, 8⟩, .readProbe, some 0, [], false, false⟩

theorem probing_start : reads.start probing := ⟨_, rfl, rfl⟩

/-- Five bytes in two completions, and then the peer closes its side. -/
theorem closedByPeer_iff_two_reads :
    reads.Always ClosedByPeer probing
      [.peerSends [1, 2, 3, 4, 5], .readCompletion 0 [], .readCompletion 3 [1],
        .readCompletion 2 [2, 2], .peerCloses, .readCompletion 0 []] := by
  obtain ⟨r, hrun⟩ := Option.isSome_iff_exists.mp
    (show (reads.run probing
      [.peerSends [1, 2, 3, 4, 5], .readCompletion 0 [], .readCompletion 3 [1],
        .readCompletion 2 [2, 2], .peerCloses, .readCompletion 0 []]).isSome = true
      by decide +kernel)
  exact (closedByPeer_iff probing_start hrun).mpr (by decide +kernel)

/-- The peer sends 1025 bytes, and the message handler leaves the first 1024: the
next read has no receive area, and its completion closes the connection. -/
theorem full_buffer_closes :
    ∃ r, reads.run probing
        [.peerSends (List.replicate 1025 1), .readCompletion 0 [], .readCompletion 1024 [],
          .readCompletion 0 []] = some r ∧
      r.closed = true ∧ r.peerClosed = false := by
  have hfacts : (reads.run probing
      [.peerSends (List.replicate 1025 1), .readCompletion 0 [], .readCompletion 1024 [],
        .readCompletion 0 []]).map (fun r => (r.closed, r.peerClosed)) = some (true, false) := by
    decide +kernel
  obtain ⟨r, hrun, hfacts⟩ := Option.map_eq_some_iff.mp hfacts
  simp only [Prod.mk.injEq] at hfacts
  exact ⟨r, hrun, hfacts⟩

end Eureka.Overlapped

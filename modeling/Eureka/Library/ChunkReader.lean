import Mathlib.Data.List.Basic

/-!
# Buffered reading of a stream in chunks

A stream delivers its data in chunks, one for each read; a read that delivers
nothing is done again and is not listed.  A buffered reader keeps what it has
read and not yet handed out in a buffer of a fixed size.  The operations are
those of Go's `bufio.Reader` and `io.ReadFull`.

What a caller sees depends only on what remains of the stream, and not on how
it is cut into chunks:

* `peek_spec`: when enough remains, `peek` puts the front of it into the buffer;
* `readFull_spec`: when enough remains, `readFull` takes the front of it.

A caller who keeps a slice of the buffer sees more: what a later read puts there.
`BufReader` is a reader with its whole buffer, and is a `ChunkReader` to everyone
else (`readFull_toChunkReader`); `getD_buf_readFull` is what such a slice shows
behind a read.
-/

namespace Eureka

structure ChunkReader (α : Type) where
  buffered : List α
  chunks : List (List α)

inductive ReadError
  | eof
  | unexpectedEOF
  | bufferFull
  deriving DecidableEq, Repr

namespace ChunkReader

variable {α : Type}

/-- What has not been handed out. -/
def remaining (r : ChunkReader α) : List α := r.buffered ++ r.chunks.flatten

/-- The chunks when this is left of the first one. -/
def unread (rest : List α) (chunks : List (List α)) : List (List α) :=
  match rest with
  | [] => chunks
  | _ => rest :: chunks

/-- Reads into the buffer until it holds `n` items or is full. -/
def fillLoop (size n : ℕ) : List α → List (List α) → ChunkReader α
  | buffered, [] => ⟨buffered, []⟩
  | buffered, chunk :: chunks =>
      if n ≤ buffered.length ∨ size ≤ buffered.length then ⟨buffered, chunk :: chunks⟩
      else
        let room := size - buffered.length
        if chunk.length ≤ room then fillLoop size n (buffered ++ chunk) chunks
        else ⟨buffered ++ chunk.take room, chunk.drop room :: chunks⟩

/-- The first items, which stay in the buffer. -/
def peek (size n : ℕ) (r : ChunkReader α) : Option ReadError × ChunkReader α :=
  let filled := fillLoop size n r.buffered r.chunks
  if size < n then (some .bufferFull, filled)
  else if filled.buffered.length < n then (some .eof, filled)
  else (none, filled)

/-- Passes over items that are in the buffer. -/
def discard (n : ℕ) (r : ChunkReader α) : ChunkReader α := ⟨r.buffered.drop n, r.chunks⟩

/-- Reads `need` items with an empty buffer, behind the ones that have been read.  A read of at
least the size of the buffer goes past the buffer. -/
def readChunks (size : ℕ) : ℕ → List α → List (List α) → List α × Option ReadError × ChunkReader α
  | _, got, [] => (got, some (if got.isEmpty then .eof else .unexpectedEOF), ⟨[], []⟩)
  | need, got, chunk :: chunks =>
      if chunk.length < need then readChunks size (need - chunk.length) (got ++ chunk) chunks
      else if size ≤ need then
        (got ++ chunk.take need, none, ⟨[], unread (chunk.drop need) chunks⟩)
      else
        (got ++ chunk.take need, none,
          ⟨(chunk.take size).drop need, unread (chunk.drop size) chunks⟩)

/-- Reads `need` items. -/
def readFull (size need : ℕ) (r : ChunkReader α) : List α × Option ReadError × ChunkReader α :=
  if need ≤ r.buffered.length then (r.buffered.take need, none, ⟨r.buffered.drop need, r.chunks⟩)
  else readChunks size (need - r.buffered.length) r.buffered r.chunks

@[simp] theorem flatten_unread (rest : List α) (chunks : List (List α)) :
    (unread rest chunks).flatten = rest ++ chunks.flatten := by
  cases rest <;> rfl

/-! ## Peeking -/

theorem remaining_fillLoop (size n : ℕ) (buffered : List α) (chunks : List (List α)) :
    (fillLoop size n buffered chunks).remaining = buffered ++ chunks.flatten := by
  induction chunks generalizing buffered with
  | nil => rfl
  | cons chunk chunks ih =>
      rw [fillLoop]
      split_ifs with hstop
      · rfl
      · dsimp only
        split_ifs with hroom
        · rw [ih, List.append_assoc]
          rfl
        · show buffered ++ chunk.take _ ++ (chunk.drop _ ++ chunks.flatten) = _
          rw [List.append_assoc, ← List.append_assoc (chunk.take _), List.take_append_drop]
          rfl

theorem le_length_fillLoop {size n : ℕ} (hsize : n ≤ size) {buffered : List α}
    {chunks : List (List α)} (hn : n ≤ (buffered ++ chunks.flatten).length) :
    n ≤ (fillLoop size n buffered chunks).buffered.length := by
  induction chunks generalizing buffered with
  | nil => simpa [fillLoop] using hn
  | cons chunk chunks ih =>
      rw [fillLoop]
      split_ifs with hstop
      · rcases hstop with hstop | hstop
        · exact hstop
        · exact Nat.le_trans hsize hstop
      · dsimp only
        split_ifs with hroom
        · exact ih (by rwa [List.append_assoc])
        · rw [List.length_append, List.length_take]
          omega

/-- When enough remains, the front of it is in the buffer and nothing is handed out. -/
theorem peek_spec {size n : ℕ} (hsize : n ≤ size) {r : ChunkReader α}
    (hn : n ≤ r.remaining.length) :
    ∃ r', r.peek size n = (none, r') ∧ r'.remaining = r.remaining ∧
      r'.buffered.take n = r.remaining.take n ∧ n ≤ r'.buffered.length := by
  have hremaining := remaining_fillLoop size n r.buffered r.chunks
  have hlength := le_length_fillLoop hsize hn
  refine ⟨fillLoop size n r.buffered r.chunks, ?_, hremaining, ?_, hlength⟩
  · rw [peek, if_neg (Nat.not_lt.mpr hsize), if_neg (Nat.not_lt.mpr hlength)]
  · calc (fillLoop size n r.buffered r.chunks).buffered.take n
        = (fillLoop size n r.buffered r.chunks).remaining.take n :=
          (List.take_append_of_le_length hlength).symm
      _ = r.remaining.take n := congrArg (List.take n) hremaining

theorem remaining_discard {n : ℕ} {r : ChunkReader α} (hn : n ≤ r.buffered.length) :
    (r.discard n).remaining = r.remaining.drop n := by
  rw [remaining, remaining, List.drop_append_of_le_length hn]
  rfl

/-! ## Reading -/

theorem readChunks_spec (size : ℕ) {need : ℕ} (got : List α) {chunks : List (List α)}
    (hpos : 0 < need) (hneed : need ≤ chunks.flatten.length) :
    ∃ r', readChunks size need got chunks = (got ++ chunks.flatten.take need, none, r') ∧
      r'.remaining = chunks.flatten.drop need := by
  induction chunks generalizing need got with
  | nil =>
      rw [List.flatten_nil, List.length_nil] at hneed
      omega
  | cons chunk chunks ih =>
      rw [List.flatten_cons, List.length_append] at hneed
      rw [readChunks]
      split_ifs with hshort hlarge
      · obtain ⟨r', hread, hremaining⟩ :=
          ih (got ++ chunk) (Nat.sub_pos_of_lt hshort) (by omega)
        refine ⟨r', ?_, ?_⟩
        · rw [hread, List.append_assoc, List.flatten_cons, List.take_append,
            List.take_of_length_le (Nat.le_of_lt hshort)]
        · rw [hremaining, List.flatten_cons, List.drop_append,
            List.drop_eq_nil_of_le (Nat.le_of_lt hshort), List.nil_append]
      · have hle := Nat.not_lt.mp hshort
        refine ⟨_, by rw [List.flatten_cons, List.take_append_of_le_length hle], ?_⟩
        rw [remaining, flatten_unread, List.nil_append, List.flatten_cons,
          List.drop_append_of_le_length hle]
      · have hle := Nat.not_lt.mp hshort
        refine ⟨_, by rw [List.flatten_cons, List.take_append_of_le_length hle], ?_⟩
        have hcut : (chunk.take size).drop need ++ chunk.drop size = chunk.drop need := by
          rw [← List.drop_append_of_le_length (by rw [List.length_take]; omega),
            List.take_append_drop]
        rw [remaining, flatten_unread, ← List.append_assoc, hcut, List.flatten_cons,
          List.drop_append_of_le_length hle]

theorem readFull_spec (size : ℕ) {need : ℕ} {r : ChunkReader α}
    (hneed : need ≤ r.remaining.length) :
    ∃ r', r.readFull size need = (r.remaining.take need, none, r') ∧
      r'.remaining = r.remaining.drop need := by
  rw [readFull]
  split_ifs with hbuffered
  · refine ⟨⟨r.buffered.drop need, r.chunks⟩, ?_, ?_⟩
    · rw [remaining, List.take_append_of_le_length hbuffered]
    · rw [remaining, remaining, List.drop_append_of_le_length hbuffered]
  · have hle := Nat.le_of_lt (Nat.not_le.mp hbuffered)
    rw [remaining, List.length_append] at hneed
    have hrest : need - r.buffered.length ≤ r.chunks.flatten.length := by omega
    obtain ⟨r', hread, hremaining⟩ :=
      readChunks_spec size r.buffered (Nat.sub_pos_of_lt (Nat.not_le.mp hbuffered)) hrest
    refine ⟨r', ?_, ?_⟩
    · rw [hread, remaining, List.take_append, List.take_of_length_le hle]
    · rw [hremaining, remaining, List.drop_append, List.drop_eq_nil_of_le hle, List.nil_append]

theorem length_readChunks {size need : ℕ} {got got' : List α} {chunks : List (List α)}
    {r' : ChunkReader α} (hread : readChunks size need got chunks = (got', none, r')) :
    got'.length = got.length + need := by
  induction chunks generalizing need got with
  | nil => cases hread
  | cons chunk chunks ih =>
      rw [readChunks] at hread
      split_ifs at hread with hshort hlarge
      · rw [ih hread, List.length_append]
        omega
      · cases hread
        rw [List.length_append, List.length_take]
        omega
      · cases hread
        rw [List.length_append, List.length_take]
        omega

theorem length_readFull {size need : ℕ} {got : List α} {r r' : ChunkReader α}
    (hread : r.readFull size need = (got, none, r')) : got.length = need := by
  rw [readFull] at hread
  split_ifs at hread with hbuffered
  · cases hread
    rw [List.length_take]
    omega
  · rw [length_readChunks hread]
    omega

end ChunkReader

/-! ## The buffer -/

/-- A reader with the whole of its buffer: in front of what it holds are the items that it has
handed out, and behind it are older ones. -/
structure BufReader (α : Type) extends ChunkReader α where
  front : List α
  back : List α

namespace BufReader

variable {α : Type}

def buf (b : BufReader α) : List α := b.front ++ b.buffered ++ b.back

/-- Where the next item is in the buffer. -/
def pos (b : BufReader α) : ℕ := b.front.length

/-- `Peek`.  If it reads, it first slides what it holds to the front. -/
def peek (size n : ℕ) (b : BufReader α) : Option ReadError × BufReader α :=
  let (e, filled) := b.toChunkReader.peek size n
  if n ≤ b.buffered.length ∨ size ≤ b.buffered.length then (e, b)
  else (e, ⟨filled, [], b.buf.drop filled.buffered.length⟩)

/-- `Discard`. -/
def discard (n : ℕ) (b : BufReader α) : BufReader α :=
  ⟨b.toChunkReader.discard n, b.front ++ b.buffered.take n, b.back⟩

/-- The reads of an `io.ReadFull` with an empty buffer.  One of at least the size of the buffer goes
past it, and any other one fills it anew. -/
def readChunks (size : ℕ) : ℕ → List α → List α → List α → List (List α) →
    List α × Option ReadError × BufReader α
  | _, got, front, back, [] =>
      (got, some (if got.isEmpty then .eof else .unexpectedEOF), ⟨⟨[], []⟩, front, back⟩)
  | need, got, front, back, chunk :: chunks =>
      if size ≤ need then
        if chunk.length < need then
          readChunks size (need - chunk.length) (got ++ chunk) front back chunks
        else
          (got ++ chunk.take need, none,
            ⟨⟨[], ChunkReader.unread (chunk.drop need) chunks⟩, front, back⟩)
      else
        let refill := chunk.take size
        let back := (front ++ back).drop refill.length
        if chunk.length < need then
          readChunks size (need - chunk.length) (got ++ chunk) refill back chunks
        else
          (got ++ refill.take need, none,
            ⟨⟨refill.drop need, ChunkReader.unread (chunk.drop size) chunks⟩, refill.take need,
              back⟩)

/-- `io.ReadFull` of `need` items. -/
def readFull (size need : ℕ) (b : BufReader α) : List α × Option ReadError × BufReader α :=
  if need ≤ b.buffered.length then (b.buffered.take need, none, b.discard need)
  else readChunks size (need - b.buffered.length) b.buffered (b.front ++ b.buffered) b.back b.chunks

/-! ### The reader without its buffer -/

theorem peek_toChunkReader (size n : ℕ) (b : BufReader α) :
    (b.peek size n).1 = (b.toChunkReader.peek size n).1 ∧
      (b.peek size n).2.toChunkReader = (b.toChunkReader.peek size n).2 := by
  have hpeek : (b.toChunkReader.peek size n).2 =
      ChunkReader.fillLoop size n b.buffered b.chunks := by
    unfold ChunkReader.peek
    dsimp only
    split_ifs <;> rfl
  unfold peek
  dsimp only
  split_ifs with henough
  · refine ⟨rfl, ?_⟩
    rw [hpeek]
    -- the loop does not start
    cases hchunks : b.chunks with
    | nil => rw [ChunkReader.fillLoop, ← hchunks]
    | cons chunk chunks => rw [ChunkReader.fillLoop, if_pos henough, ← hchunks]
  · exact ⟨rfl, rfl⟩

theorem readChunks_toChunkReader (size need : ℕ) (got front back : List α)
    (chunks : List (List α)) :
    ChunkReader.readChunks size need got chunks =
      ((readChunks size need got front back chunks).1,
        (readChunks size need got front back chunks).2.1,
        (readChunks size need got front back chunks).2.2.toChunkReader) := by
  induction chunks generalizing need got front back with
  | nil => rfl
  | cons chunk chunks ih =>
      rw [ChunkReader.readChunks, readChunks]
      by_cases hlarge : size ≤ need
      · simp only [if_pos hlarge]
        split_ifs
        · exact ih _ _ _ _
        · rfl
      · simp only [if_neg hlarge]
        split_ifs
        · exact ih _ _ _ _
        · rw [List.take_take, Nat.min_eq_left (by omega)]

/-- **A caller who takes only the items does not see the buffer.** -/
theorem readFull_toChunkReader (size need : ℕ) (b : BufReader α) :
    b.toChunkReader.readFull size need =
      ((b.readFull size need).1, (b.readFull size need).2.1,
        (b.readFull size need).2.2.toChunkReader) := by
  unfold readFull ChunkReader.readFull
  split_ifs
  · rfl
  · exact readChunks_toChunkReader size _ _ _ _ _

/-! ### The buffer behind a read -/

/-- What the reads of an `io.ReadFull` with an empty buffer put into it, one after the other. -/
def refills (size : ℕ) : ℕ → List (List α) → List (List α)
  | _, [] => []
  | need, chunk :: chunks =>
      if size ≤ need then
        if chunk.length < need then refills size (need - chunk.length) chunks else []
      else if chunk.length < need then
        chunk.take size :: refills size (need - chunk.length) chunks
      else [chunk.take size]

/-- The refills of an `io.ReadFull` of `need` items: none, if the buffer holds them. -/
def refillsFor (size need : ℕ) (b : BufReader α) : List (List α) :=
  if need ≤ b.buffered.length then [] else refills size (need - b.buffered.length) b.chunks

/-- What is at a place of the buffer behind refills, each of which overwrites the front of it. -/
def itemBehind (i : ℕ) (refills : List (List α)) (item : α) : α :=
  refills.foldl (fun item refill => refill.getD i item) item

theorem getD_refill (refill buf : List α) (i : ℕ) (item : α) :
    (refill ++ buf.drop refill.length).getD i item = refill.getD i (buf.getD i item) := by
  simp only [List.getD_eq_getElem?_getD]
  rcases Nat.lt_or_ge i refill.length with hlt | hge
  · rw [List.getElem?_append_left hlt, List.getElem?_eq_getElem hlt]
    rfl
  · rw [List.getElem?_append_right hge, List.getElem?_drop, List.getElem?_eq_none hge,
      Nat.add_sub_cancel' hge]
    rfl

theorem getD_buf_readChunks (size need : ℕ) (got front back : List α) (chunks : List (List α))
    (i : ℕ) (item : α) :
    (readChunks size need got front back chunks).2.2.buf.getD i item =
      itemBehind i (refills size need chunks) ((front ++ back).getD i item) := by
  induction chunks generalizing need got front back with
  | nil => rw [readChunks, buf, List.append_nil, refills, itemBehind, List.foldl_nil]
  | cons chunk chunks ih =>
      rw [readChunks, refills]
      split_ifs with hlarge hshort hshort
      · exact ih _ _ _ _
      · rw [buf, List.append_nil, itemBehind, List.foldl_nil]
      · dsimp only
        rw [ih, getD_refill, itemBehind, itemBehind, List.foldl_cons]
      · dsimp only
        rw [buf, List.take_append_drop, getD_refill, itemBehind, List.foldl_cons, List.foldl_nil]

/-- **A slice of the buffer behind a read** shows what the last refill that reaches so far has put
there. -/
theorem getD_buf_readFull (size need : ℕ) (b : BufReader α) (i : ℕ) (item : α) :
    (b.readFull size need).2.2.buf.getD i item =
      itemBehind i (b.refillsFor size need) (b.buf.getD i item) := by
  unfold readFull refillsFor
  split_ifs
  · show ((b.front ++ b.buffered.take need) ++ b.buffered.drop need ++ b.back).getD i item = _
    rw [List.append_assoc b.front, List.take_append_drop]
    rfl
  · exact getD_buf_readChunks size _ _ _ _ _ i item

end BufReader

end Eureka

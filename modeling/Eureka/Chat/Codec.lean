import Eureka.Bytes
import Eureka.Library.ChunkReader
import Eureka.Library.Endian

/-!
# The packets of the chat

A packet is a byte for its type, two bytes for the length of its data and the
data.  `encode` does not check the length: it keeps the low sixteen bits.
`decode` takes these bits for a signed number and refuses one that is not
positive.  The header is a slice of the reader's buffer; its type is looked at
again behind the read of the data, which may have filled the buffer anew.
-/

namespace Eureka.Chat

open Endian

def headerSize : ℕ := 3

def packetTypeStart : Byte := 1

def commandPacket : Int8 := 1

def messagePacket : Int8 := 2

/-- The constant repeats the one in front of it. -/
def packetTypeEnd : Byte := 2

/-- The buffer size of `bufio.NewReader`. -/
def readerSize : ℕ := 4096

structure Packet where
  type : Int8
  data : Bytes
  deriving DecidableEq

/-- `int16` of an unsigned value. -/
def int16 (n : ℕ) : Int :=
  if n % 65536 < 32768 then (n % 65536 : ℕ) else (n % 65536 : ℕ) - 65536

/-! ## Encoding -/

/-- What `Encode` puts into its buffer, which every call finds empty. -/
def encodeBuf (packet : Packet) : Bytes :=
  packet.type.toUInt8 :: (networkBytes 2 (packet.data.length % 65536) ++ packet.data)

/-- `Encode`.  The stream takes what is written, or an error is returned. -/
def encode (accepts : Bytes → Bool) (stream : Bytes) (packet : Packet) : Option Bytes :=
  let written := stream ++ encodeBuf packet
  if accepts written then some written else none

/-! ## Decoding -/

/-- The loop of `ensureDecodeBufSize`. -/
def doubled : ℕ → ℕ → ℕ → ℕ
  | 0, bufLen, _ => bufLen
  | fuel + 1, bufLen, required =>
      if bufLen < required then doubled fuel (bufLen * 2) required else bufLen

theorem le_doubled (fuel bufLen required : ℕ) : bufLen ≤ doubled fuel bufLen required := by
  induction fuel generalizing bufLen with
  | zero => exact le_rfl
  | succ fuel ih =>
      rw [doubled]
      split
      · exact (Nat.le_mul_of_pos_right bufLen Nat.two_pos).trans (ih (bufLen * 2))
      · exact le_rfl

/-- The loop comes to its end: a round adds at least one to the length. -/
theorem required_le_doubled {fuel bufLen required : ℕ} (hpos : 0 < bufLen)
    (hfuel : required ≤ bufLen + fuel) : required ≤ doubled fuel bufLen required := by
  induction fuel generalizing bufLen with
  | zero => exact hfuel
  | succ fuel ih =>
      rw [doubled]
      split
      · exact ih (by omega) (by omega)
      · omega

/-- `ensureDecodeBufSize`, as the buffer of which it returns the front. -/
def ensureDecodeBufSize (decodeBuf : Bytes) (required : ℕ) : Bytes :=
  let bufLen := doubled required decodeBuf.length required
  if decodeBuf.length < bufLen then List.replicate bufLen 0 else decodeBuf

theorem length_ensureDecodeBufSize (decodeBuf : Bytes) (required : ℕ) :
    (ensureDecodeBufSize decodeBuf required).length =
      doubled required decodeBuf.length required := by
  have hle := le_doubled required decodeBuf.length required
  rw [ensureDecodeBufSize]
  split
  · exact List.length_replicate
  · omega

/-- Data written over the front of a buffer. -/
def overwrite (buf data : Bytes) : Bytes := data ++ buf.drop data.length

theorem length_le_overwrite (buf data : Bytes) : buf.length ≤ (overwrite buf data).length := by
  rw [overwrite, List.length_append, List.length_drop]
  omega

/-- The reading side of a `Codec`. -/
structure Codec where
  decoder : BufReader Byte
  decodeBuf : Bytes
  decodeBuf_pos : 0 < decodeBuf.length

inductive DecodeError
  | read (e : ReadError)
  | invalidPacketType
  | invalidDataLength
  deriving DecidableEq, Repr

namespace Codec

/-- `NewCodec`, on a stream that comes in these chunks. -/
def new (chunks : List Bytes) : Codec :=
  ⟨⟨⟨[], chunks⟩, [], List.replicate readerSize 0⟩, List.replicate 16 0, by decide⟩

/-- The buffer for data of this length, which fit into it. -/
def ensure (c : Codec) (required : ℕ) : { buf : Bytes // required ≤ buf.length } :=
  ⟨ensureDecodeBufSize c.decodeBuf required, by
    rw [length_ensureDecodeBufSize]
    exact required_le_doubled c.decodeBuf_pos (Nat.le_add_left _ _)⟩

theorem ensure_pos (c : Codec) (required : ℕ) : 0 < (c.ensure required).val.length := by
  rw [ensure, length_ensureDecodeBufSize]
  exact c.decodeBuf_pos.trans_le (le_doubled _ _ _)

/-- The codec behind a read into the buffer. -/
def filled (c : Codec) (required : ℕ) (data : Bytes) (decoder : BufReader Byte) : Codec where
  decoder := decoder
  decodeBuf := overwrite (c.ensure required).val data
  decodeBuf_pos := (c.ensure_pos required).trans_le (length_le_overwrite _ _)

def decode (c : Codec) : Except DecodeError Packet × Codec :=
  match c.decoder.peek readerSize headerSize with
  | (some e, decoder) => (.error (.read e), { c with decoder := decoder })
  | (none, decoder) =>
      -- `header` is the slice of the reader's buffer that begins at this place
      let header := decoder.pos
      let type := decoder.buf.getD header 0
      if type < packetTypeStart ∨ type > packetTypeEnd then
        (.error .invalidPacketType, { c with decoder := decoder })
      else
        let dataLen := int16 (ofNetworkBytes ((decoder.buf.drop header).take headerSize).tail)
        if dataLen ≤ 0 then (.error .invalidDataLength, { c with decoder := decoder })
        else
          match (decoder.discard headerSize).readFull readerSize dataLen.toNat with
          | (data, some e, decoder) => (.error (.read e), c.filled dataLen.toNat data decoder)
          | (data, none, decoder) =>
              let codec := c.filled dataLen.toNat data decoder
              (.ok ⟨(decoder.buf.getD header 0).toInt8, codec.decodeBuf.take dataLen.toNat⟩, codec)

/-- So many calls of `Decode`, none of which reports an error. -/
def decodeAll : ℕ → Codec → Except DecodeError (List Packet × Codec)
  | 0, c => .ok ([], c)
  | n + 1, c =>
      match c.decode with
      | (.error e, _) => .error e
      | (.ok packet, c) => (decodeAll n c).map fun (packets, c) => (packet :: packets, c)

end Codec

end Eureka.Chat

/-!
## The round trip of the chat packets

The decoder returns the packets that have been encoded if and only if the data of
each have between 1 and 32767 bytes and the type of each is still in the reader's
buffer when its data have been read (`decodes_iff`).  Data of another length are
encoded without an error, but the decoder never returns them: it refuses a length
that is not positive, and a length that does not fit into sixteen bits has been cut
off.  A type is lost when the data come in another chunk than the header.
-/

namespace Eureka.Chat

open Endian

/-- The lengths that pass through the header. -/
def Fits (packet : Packet) : Prop := 1 ≤ packet.data.length ∧ packet.data.length ≤ 32767

theorem int16_of_fits {n : ℕ} (hn : n ≤ 32767) : int16 n = n := by
  rw [int16]
  split <;> omega

theorem int16_le (n : ℕ) : int16 n ≤ 32767 := by
  rw [int16]
  split <;> omega

/-! ## One packet -/

section Front

variable (packet : Packet) (rest : Bytes)

theorem take_encodeBuf : (encodeBuf packet ++ rest).take headerSize =
    packet.type.toUInt8 :: networkBytes 2 (packet.data.length % 65536) := by
  have hlength : (networkBytes 2 (packet.data.length % 65536)).length = 2 :=
    length_networkBytes _ _
  rw [encodeBuf, List.cons_append, headerSize, List.take_succ_cons, List.append_assoc,
    List.take_append_of_le_length hlength.ge, List.take_of_length_le hlength.le]

theorem drop_encodeBuf : (encodeBuf packet ++ rest).drop headerSize = packet.data ++ rest := by
  have hlength : (networkBytes 2 (packet.data.length % 65536)).length = 2 :=
    length_networkBytes _ _
  rw [encodeBuf, List.cons_append, headerSize, List.drop_succ_cons, List.append_assoc]
  exact List.drop_left' hlength

theorem headerSize_le_encodeBuf : headerSize ≤ (encodeBuf packet ++ rest).length := by
  rw [encodeBuf, List.cons_append, List.length_cons, List.length_append, List.length_append,
    length_networkBytes, headerSize]
  omega

end Front

/-- The reader behind a packet. -/
def readerBehind (decoder : BufReader Byte) (packet : Packet) : BufReader Byte :=
  (((decoder.peek readerSize headerSize).2.discard headerSize).readFull readerSize
    packet.data.length).2.2

/-- What is in front of the header of a packet when its data have been read: its type, unless the
reads of the data have put something else there. -/
def typeBehind (decoder : BufReader Byte) (packet : Packet) : Byte :=
  let peeked := (decoder.peek readerSize headerSize).2
  BufReader.itemBehind peeked.pos
    ((peeked.discard headerSize).refillsFor readerSize packet.data.length) packet.type.toUInt8

theorem decode_encodeBuf {c : Codec} {packet : Packet} {rest : Bytes}
    (htype : packet.type = commandPacket ∨ packet.type = messagePacket) (hfits : Fits packet)
    (hremaining : c.decoder.remaining = encodeBuf packet ++ rest) :
    ∃ c', c.decode = (.ok ⟨(typeBehind c.decoder packet).toInt8, packet.data⟩, c') ∧
      c'.decoder = readerBehind c.decoder packet ∧ c'.decoder.remaining = rest := by
  obtain ⟨hpos, hle⟩ := hfits
  obtain ⟨peeked, hpeek, hpeeked, htake, hbuffered⟩ :=
    ChunkReader.peek_spec (show headerSize ≤ readerSize by decide)
      (hremaining ▸ headerSize_le_encodeBuf packet rest)
  rw [hremaining, take_encodeBuf] at htake
  obtain ⟨herror, hview⟩ := BufReader.peek_toChunkReader readerSize headerSize c.decoder
  simp only [hpeek] at herror hview
  have hpeekEq : c.decoder.peek readerSize headerSize =
      (none, (c.decoder.peek readerSize headerSize).2) := Prod.ext herror rfl
  generalize hdecoder : (c.decoder.peek readerSize headerSize).2 = decoder at hview hpeekEq
  rw [← hview] at hpeeked htake hbuffered
  -- the header in the buffer
  have hslice : (decoder.buf.drop decoder.pos).take headerSize = decoder.buffered.take headerSize := by
    rw [BufReader.buf, BufReader.pos, List.append_assoc, List.drop_left,
      List.take_append_of_le_length hbuffered]
  have hheader : decoder.buf.getD decoder.pos 0 = packet.type.toUInt8 := by
    rw [htake] at hslice
    have hhead := congrArg (fun header : Bytes => header.getD 0 0) hslice
    simpa [headerSize, List.getD_eq_getElem?_getD] using hhead
  -- the data
  have hdiscarded : (decoder.discard headerSize).remaining = packet.data ++ rest := by
    calc (decoder.discard headerSize).remaining
        = decoder.remaining.drop headerSize := ChunkReader.remaining_discard hbuffered
      _ = packet.data ++ rest := by rw [hpeeked, hremaining, drop_encodeBuf]
  have hlength : packet.data.length ≤ (decoder.discard headerSize).remaining.length := by
    rw [hdiscarded, List.length_append]
    exact Nat.le_add_right _ _
  obtain ⟨behind, hread, hbehind⟩ := ChunkReader.readFull_spec readerSize hlength
  rw [hdiscarded, List.take_left, BufReader.readFull_toChunkReader, Prod.mk.injEq,
    Prod.mk.injEq] at hread
  rw [hdiscarded, List.drop_left] at hbehind
  obtain ⟨hdata, hnone, hbehindView⟩ := hread
  have hreadEq : (decoder.discard headerSize).readFull readerSize packet.data.length =
      (packet.data, none, readerBehind c.decoder packet) := by
    rw [readerBehind, hdecoder]
    exact Prod.ext hdata (Prod.ext hnone rfl)
  have htypeBehind : (readerBehind c.decoder packet).buf.getD decoder.pos 0 =
      typeBehind c.decoder packet := by
    rw [readerBehind, typeBehind, hdecoder, BufReader.getD_buf_readFull, ← hheader]
    refine congrArg (BufReader.itemBehind _ _) ?_
    show ((decoder.front ++ decoder.buffered.take headerSize) ++ decoder.buffered.drop headerSize
      ++ decoder.back).getD _ 0 = _
    rw [List.append_assoc decoder.front, List.take_append_drop]
    rfl
  have hvalid : ¬ (packet.type.toUInt8 < packetTypeStart ∨ packet.type.toUInt8 > packetTypeEnd) := by
    rcases htype with htype | htype <;> rw [htype] <;> decide
  have hdataLen : int16 (ofNetworkBytes (networkBytes 2 (packet.data.length % 65536))) =
      packet.data.length := by
    have hmod : packet.data.length % 65536 % 256 ^ 2 = packet.data.length := by omega
    rw [ofNetworkBytes_networkBytes, hmod, int16_of_fits hle]
  have hpositive : ¬ ((packet.data.length : Int) ≤ 0) := by omega
  refine ⟨c.filled packet.data.length packet.data (readerBehind c.decoder packet), ?_, rfl, ?_⟩
  · rw [Codec.decode, hpeekEq]
    dsimp only
    rw [hheader, hslice, htake, List.tail_cons, if_neg hvalid, hdataLen, if_neg hpositive,
      Int.toNat_natCast, hreadEq]
    dsimp only
    rw [htypeBehind]
    have hdata : (c.filled packet.data.length packet.data
        (readerBehind c.decoder packet)).decodeBuf.take packet.data.length = packet.data :=
      List.take_left
    rw [hdata]
  · show (readerBehind c.decoder packet).toChunkReader.remaining = rest
    rw [readerBehind, hdecoder, hbehindView, hbehind]

theorem fits_of_decode {c c' : Codec} {packet : Packet} (hdecode : c.decode = (.ok packet, c')) :
    Fits packet := by
  rw [Codec.decode] at hdecode
  split at hdecode
  · cases hdecode
  · next decoder _ =>
      dsimp only at hdecode
      split_ifs at hdecode with htype hlength
      · cases hdecode
      · cases hdecode
      · have hle := int16_le
          (ofNetworkBytes ((decoder.buf.drop decoder.pos).take headerSize).tail)
        split at hdecode
        · cases hdecode
        · next data behind hread =>
            have hview := BufReader.readFull_toChunkReader readerSize
              (int16 (ofNetworkBytes
                ((decoder.buf.drop decoder.pos).take headerSize).tail)).toNat
              (decoder.discard headerSize)
            rw [hread] at hview
            have hdata := ChunkReader.length_readFull hview
            cases hdecode
            show 1 ≤ ((overwrite _ data).take _).length ∧ ((overwrite _ data).take _).length ≤ 32767
            rw [overwrite, List.take_left' hdata, hdata]
            omega

/-! ## All packets -/

theorem fits_of_decodeAll {n : ℕ} {c c' : Codec} {packets : List Packet}
    (hdecode : c.decodeAll n = .ok (packets, c')) : ∀ packet ∈ packets, Fits packet := by
  induction n generalizing c packets with
  | zero =>
      cases hdecode
      exact fun packet hpacket => absurd hpacket List.not_mem_nil
  | succ n ih =>
      rw [Codec.decodeAll] at hdecode
      split at hdecode
      · cases hdecode
      · next packet behind hpacket =>
          cases hrest : Codec.decodeAll n behind with
          | error e =>
              rw [hrest] at hdecode
              cases hdecode
          | ok result =>
              rw [hrest] at hdecode
              cases hdecode
              exact List.forall_mem_cons.mpr ⟨fits_of_decode hpacket, ih hrest⟩

/-- The type of every packet is still there when its data have been read. -/
def KeepsTypes : BufReader Byte → List Packet → Prop
  | _, [] => True
  | decoder, packet :: packets =>
      typeBehind decoder packet = packet.type.toUInt8 ∧
        KeepsTypes (readerBehind decoder packet) packets

instance decidableKeepsTypes : (decoder : BufReader Byte) → (packets : List Packet) →
    Decidable (KeepsTypes decoder packets)
  | _, [] => .isTrue trivial
  | decoder, packet :: packets =>
      have := decidableKeepsTypes (readerBehind decoder packet) packets
      inferInstanceAs (Decidable (_ ∧ _))

theorem toInt8_eq_iff {type : Byte} {packet : Packet} :
    type.toInt8 = packet.type ↔ type = packet.type.toUInt8 := by
  constructor
  · intro htype
    rw [← htype, UInt8.toUInt8_toInt8]
  · intro htype
    rw [htype, Int8.toInt8_toUInt8]

theorem decodeAll_encoded_iff {packets : List Packet} {c : Codec} {rest : Bytes}
    (htypes : ∀ packet ∈ packets, packet.type = commandPacket ∨ packet.type = messagePacket)
    (hfits : ∀ packet ∈ packets, Fits packet)
    (hremaining : c.decoder.remaining = packets.flatMap encodeBuf ++ rest) :
    (∃ c', c.decodeAll packets.length = .ok (packets, c') ∧ c'.decoder.remaining = rest) ↔
      KeepsTypes c.decoder packets := by
  induction packets generalizing c with
  | nil => exact iff_of_true ⟨c, rfl, hremaining⟩ trivial
  | cons packet packets ih =>
      obtain ⟨htype, htypes⟩ := List.forall_mem_cons.mp htypes
      obtain ⟨hfit, hfits⟩ := List.forall_mem_cons.mp hfits
      rw [List.flatMap_cons, List.append_assoc] at hremaining
      obtain ⟨behind, hdecode, hreader, hbehind⟩ := decode_encodeBuf htype hfit hremaining
      rw [List.length_cons, Codec.decodeAll, hdecode, KeepsTypes, ← hreader,
        ← ih htypes hfits hbehind, ← toInt8_eq_iff]
      dsimp only
      constructor
      · rintro ⟨c', hall, hrest⟩
        cases hbehindAll : Codec.decodeAll packets.length behind with
        | error e =>
            rw [hbehindAll] at hall
            cases hall
        | ok result =>
            obtain ⟨decoded, last⟩ := result
            rw [hbehindAll] at hall
            obtain ⟨hpackets, rfl⟩ := Prod.mk.inj (Except.ok.inj hall)
            obtain ⟨hpacket, rfl⟩ := List.cons.inj hpackets
            exact ⟨congrArg Packet.type hpacket, last, rfl, hrest⟩
      · rintro ⟨hkept, c', hall, hrest⟩
        refine ⟨c', ?_, hrest⟩
        rw [hall, hkept]
        rfl

/-- What a sequence of calls of `Encode`, none of which reports an error, writes. -/
theorem foldlM_encode {accepts : Bytes → Bool} {packets : List Packet} {stream stream' : Bytes}
    (hencode : packets.foldlM (encode accepts) stream = some stream') :
    stream' = stream ++ packets.flatMap encodeBuf := by
  induction packets generalizing stream with
  | nil =>
      cases hencode
      exact (List.append_nil _).symm
  | cons packet packets ih =>
      rw [List.foldlM_cons, encode] at hencode
      by_cases haccepts : accepts (stream ++ encodeBuf packet)
      · rw [if_pos haccepts] at hencode
        rw [ih hencode, List.flatMap_cons, List.append_assoc]
      · rw [if_neg haccepts] at hencode
        cases hencode

/-- A codec that reads these chunks decodes exactly these packets, with no error and no byte left
over. -/
def Decodes (chunks : List Bytes) (packets : List Packet) : Prop :=
  ∃ c, (Codec.new chunks).decodeAll packets.length = .ok (packets, c) ∧ c.decoder.remaining = []

/-- **The round trip.**  The packets that have been encoded without an error are decoded if and
only if the length of each fits and the chunks leave the type of each in the reader's buffer. -/
theorem decodes_iff (accepts : Bytes → Bool) (packets : List Packet) (stream : Bytes)
    (chunks : List Bytes)
    (htypes : ∀ packet ∈ packets, packet.type = commandPacket ∨ packet.type = messagePacket)
    (hencode : packets.foldlM (encode accepts) [] = some stream)
    (hchunks : chunks.flatten = stream) :
    Decodes chunks packets ↔
      (∀ packet ∈ packets, 1 ≤ packet.data.length ∧ packet.data.length ≤ 32767) ∧
        KeepsTypes ⟨⟨[], chunks⟩, [], List.replicate readerSize 0⟩ packets := by
  have hremaining : (Codec.new chunks).decoder.remaining = packets.flatMap encodeBuf ++ [] := by
    calc (Codec.new chunks).decoder.remaining
        = chunks.flatten := rfl
      _ = packets.flatMap encodeBuf := hchunks.trans (foldlM_encode hencode)
      _ = packets.flatMap encodeBuf ++ [] := (List.append_nil _).symm
  constructor
  · rintro ⟨c, hdecode, hrest⟩
    have hfits := fits_of_decodeAll hdecode
    exact ⟨hfits, (decodeAll_encoded_iff htypes hfits hremaining).mp ⟨c, hdecode, hrest⟩⟩
  · rintro ⟨hfits, hkeeps⟩
    exact (decodeAll_encoded_iff htypes hfits hremaining).mpr hkeeps

/-- Two packets that come in three chunks. -/
theorem decodes_iff_chunks :
    Decodes [[1, 0], [1, 65, 2, 0, 2], [66, 67]] [⟨1, [65]⟩, ⟨2, [66, 67]⟩] ↔
      (∀ packet ∈ ([⟨1, [65]⟩, ⟨2, [66, 67]⟩] : List Packet),
        1 ≤ packet.data.length ∧ packet.data.length ≤ 32767) ∧
        KeepsTypes ⟨⟨[], [[1, 0], [1, 65, 2, 0, 2], [66, 67]]⟩, [], List.replicate readerSize 0⟩
          [⟨1, [65]⟩, ⟨2, [66, 67]⟩] :=
  decodes_iff (fun _ => true) _ _ _ (by decide) rfl (by decide)

/-- A packet without data is encoded, and the decoder refuses it. -/
theorem empty_refused :
    ¬ ∀ (accepts : Bytes → Bool) (packets : List Packet) (stream : Bytes) (chunks : List Bytes),
      (∀ packet ∈ packets, packet.type = commandPacket ∨ packet.type = messagePacket) →
      packets.foldlM (encode accepts) [] = some stream → chunks.flatten = stream →
      Decodes chunks packets := by
  intro h
  obtain ⟨c, hdecode, -⟩ := h (fun _ => true) [⟨1, []⟩] [1, 0, 0] [[1, 0, 0]] (by decide) rfl rfl
  exact absurd (fits_of_decodeAll hdecode ⟨1, []⟩ List.mem_cons_self).1 (by decide)

/-- A message whose data come in the next chunk: they stand where its type has been. -/
example : (Codec.new [[2, 0, 1], [65]]).decode.1 = .ok ⟨65, [65]⟩ := by decide

end Eureka.Chat

import Eureka.Bytes
import Eureka.Library.Endian
import Eureka.Library.Slice

/-!
# The reply of a DNS server

`parseResponse` with its helpers, on a slice of which nothing is known.  The
response is a slice of the buffer that the datagram was read into, so there is
array behind its end, and the slice expressions may reach there.  A string is the
list of its bytes.
-/

namespace Eureka.DnsClient

open Endian

def headerSize : ℕ := 12

def recordTypeARecord : ℕ := 0x01

def recordTypeCNAME : ℕ := 0x05

/-- `binary.BigEndian.Uint16`. -/
def uint16 (b : Slice Byte) : Checked ℕ := do
  let b1 ← b.index 1
  let b0 ← b.index 0
  return ofNetworkBytes [b0, b1]

/-- `binary.BigEndian.Uint32`. -/
def uint32 (b : Slice Byte) : Checked ℕ := do
  let b3 ← b.index 3
  let b2 ← b.index 2
  let b1 ← b.index 1
  let b0 ← b.index 0
  return ofNetworkBytes [b0, b1, b2, b3]

/-- The loop over the sections, from the one that starts at `i` on. -/
def resolveSections (data : Slice Byte) (i : ℕ) (sections : List Bytes) : Checked (List Bytes) :=
  if i < data.length then do
    let secLen ← data.index i
    if secLen = 0 then
      return sections
    else do
      let text ← data.slice (i + 1) (i + 1 + secLen.toNat)
      resolveSections data (i + 1 + secLen.toNat) (sections ++ [text.toList])
  else
    return sections
termination_by data.length - i

def resolveSectionDataAsString (data : Slice Byte) : Checked Bytes := do
  let sections ← resolveSections data 0 []
  return List.intercalate (ascii ".") sections

def resolveSectionDataAsIPAddr (data : Slice Byte) : Checked Bytes :=
  if data.length ≠ 4 then
    throw (.message "data should be 4-byte ip addr")
  else do
    let b0 ← data.index 0
    let b1 ← data.index 1
    let b2 ← data.index 2
    let b3 ← data.index 3
    return ascii (".".intercalate [toString b0, toString b1, toString b2, toString b3])

structure DnsRecord where
  type : ℕ
  ttl : ℕ
  name : Bytes
  value : Bytes

structure DnsReply where
  authorativeAnswer : Bool
  records : List DnsRecord

/-- Where the answers start: four bytes behind the first zero byte behind the header, or behind the
start of the response if there is none. -/
def answersStart (resp : Slice Byte) : ℕ :=
  match (List.range' headerSize (resp.length - headerSize)).find? (fun i => resp.elem i = 0) with
  | some i => i + 1 + 4
  | none => 0 + 4

/-- What a record says: its text, by the type of the record. -/
def readValue (resp : Slice Byte) (recordType cursor valueLen : ℕ) : Checked Bytes :=
  if recordType = recordTypeARecord then do
    let data ← resp.slice cursor (cursor + valueLen)
    resolveSectionDataAsIPAddr data
  else if recordType = recordTypeCNAME then do
    let data ← resp.slice cursor (cursor + valueLen)
    resolveSectionDataAsString data
  else
    return []

/-- The loop over the answers. -/
def readRecords (resp : Slice Byte) : ℕ → ℕ → DnsReply → Checked (Except String DnsReply)
  | 0, _, reply => return .ok reply
  | ansCount + 1, cursor, reply => do
      let first ← resp.index cursor
      if first &&& 0xC0 ≠ 0xC0 then
        return .error "answer doesn't use compression"
      else do
        let second ← resp.index (cursor + 1)
        let nameData ← resp.sliceFrom (ofNetworkBytes [first &&& 0x3F, second])
        let name ← resolveSectionDataAsString nameData
        let typeData ← resp.slice (cursor + 2) (cursor + 2 + 2)
        let recordType ← uint16 typeData
        -- the class, two bytes from `cursor + 4` on, is not looked at
        let ttlData ← resp.slice (cursor + 6) (cursor + 6 + 4)
        let ttl ← uint32 ttlData
        let lenData ← resp.slice (cursor + 10) (cursor + 10 + 2)
        let valueLen ← uint16 lenData
        let value ← readValue resp recordType (cursor + 12) valueLen
        readRecords resp ansCount (cursor + 12 + valueLen)
          { reply with records := reply.records ++ [⟨recordType, ttl, name, value⟩] }

def parseResponse (resp : Slice Byte) : Checked (Except String DnsReply) := do
  let flag1 ← resp.index 2
  let flag2 ← resp.index 3
  if flag1 &&& 0x80 = 0 then
    return .error "not a answer reply"
  else if flag1 >>> 1 &&& 0x1 ≠ 0 then
    return .error "response data was truncated"
  else if flag2 &&& 0x80 = 0 then
    return .error "remote server doesn't support recursive query"
  else if flag2 &&& 0x0F ≠ 0 then
    return .error "error response"
  else do
    let countData ← resp.slice 6 8
    let ansCount ← uint16 countData
    readRecords resp ansCount (answersStart resp)
      { authorativeAnswer := flag1 >>> 2 &&& 0x1 ≠ 0, records := [] }

end Eureka.DnsClient

/-!
## Which responses are parsed

`parseResponse` checks the flags and the compression of the names, and no length.
It comes to an end exactly if all that it meets lies in the response or, where it
takes slices, in the array behind it:

* `returns_resolveSections`, `returns_readRecords`: the two loops, against what
  they meet on their way;
* `parseResponse_returns_iff`: the whole response.
-/

namespace Eureka.DnsClient

open Endian

variable {data resp : Slice Byte} {i j cursor : ℕ}

/-! ## Sections -/

/-- From the section at `start` on, the loop comes to a section at this place. -/
inductive SectionAt (data : Slice Byte) (start : ℕ) : ℕ → Prop
  | first : SectionAt data start start
  | next {i : ℕ} : SectionAt data start i → i < data.length → data.elem i ≠ 0 →
      SectionAt data start (i + 1 + (data.elem i).toNat)

theorem sectionAt_iff : SectionAt data i j ↔
    j = i ∨ (i < data.length ∧ data.elem i ≠ 0) ∧
      SectionAt data (i + 1 + (data.elem i).toNat) j := by
  constructor
  · intro h
    induction h with
    | first => exact .inl rfl
    | next _ hlt hne ih =>
        rcases ih with rfl | ⟨hstart, hrest⟩
        · exact .inr ⟨⟨hlt, hne⟩, .first⟩
        · exact .inr ⟨hstart, hrest.next hlt hne⟩
  · rintro (rfl | ⟨⟨hlt, hne⟩, hrest⟩)
    · exact .first
    · induction hrest with
      | first => exact SectionAt.first.next hlt hne
      | next _ hlt' hne' ih => exact ih.next hlt' hne'

/-- Every section that is met ends in the array. -/
def SectionsFit (data : Slice Byte) (start : ℕ) : Prop :=
  ∀ i, SectionAt data start i → i < data.length → i + 1 + (data.elem i).toNat ≤ data.cap

theorem sectionsFit_iff : SectionsFit data i ↔
    (i < data.length → data.elem i ≠ 0 →
      i + 1 + (data.elem i).toNat ≤ data.cap ∧ SectionsFit data (i + 1 + (data.elem i).toNat)) := by
  constructor
  · intro h hlt hne
    refine ⟨h i .first hlt, fun j hj => h j ?_⟩
    exact sectionAt_iff.mpr (.inr ⟨⟨hlt, hne⟩, hj⟩)
  · intro h j hj hlt
    rcases sectionAt_iff.mp hj with rfl | ⟨⟨hlt', hne⟩, hrest⟩
    · by_cases hzero : data.elem j = 0
      · rw [hzero]
        exact Nat.le_trans hlt data.length_le_cap
      · exact (h hlt hzero).1
    · exact (h hlt' hne).2 j hrest hlt

theorem returns_resolveSections (sections : List Bytes) :
    Returns (resolveSections data i sections) ↔ SectionsFit data i := by
  fun_induction resolveSections data i sections with
  | case1 i sections hlt ih =>
      rw [sectionsFit_iff, Slice.returns_index_bind]
      by_cases hzero : data.elem i = 0
      · simp [hlt, hzero]
      · rw [if_neg hzero, Slice.returns_slice_bind, ih]
        simp [hlt, hzero]
  | case2 i sections hlt =>
      rw [sectionsFit_iff]
      simp [hlt]

theorem returns_resolveSectionDataAsString :
    Returns (resolveSectionDataAsString data) ↔ SectionsFit data 0 := by
  rw [← returns_resolveSections [], resolveSectionDataAsString, returns_bind]
  simp only [returns_pure, and_true]
  rfl

theorem returns_resolveSectionDataAsIPAddr :
    Returns (resolveSectionDataAsIPAddr data) ↔ data.length = 4 := by
  rw [resolveSectionDataAsIPAddr]
  split
  · next hlength => simp [hlength]
  · next hlength =>
      simp only [not_not] at hlength
      simp [Slice.returns_index_bind, Slice.returns_index, hlength]

/-! ## Records -/

/-- The record at this place has a compressed name. -/
def Compressed (resp : Slice Byte) (cursor : ℕ) : Prop :=
  resp.elem cursor &&& 0xC0 = 0xC0

def nameOffset (resp : Slice Byte) (cursor : ℕ) : ℕ :=
  ofNetworkBytes [resp.elem cursor &&& 0x3F, resp.elem (cursor + 1)]

def recordType (resp : Slice Byte) (cursor : ℕ) : ℕ :=
  ofNetworkBytes [resp.elem (cursor + 2), resp.elem (cursor + 3)]

def valueLen (resp : Slice Byte) (cursor : ℕ) : ℕ :=
  ofNetworkBytes [resp.elem (cursor + 10), resp.elem (cursor + 11)]

/-- What the record at this place says lies in the array. -/
structure ValueFits (resp : Slice Byte) (cursor : ℕ) : Prop where
  address : recordType resp cursor = recordTypeARecord →
    valueLen resp cursor = 4 ∧ cursor + 12 + 4 ≤ resp.cap
  canonicalName : recordType resp cursor = recordTypeCNAME →
    cursor + 12 + valueLen resp cursor ≤ resp.cap ∧
      SectionsFit (resp.window (cursor + 12) (cursor + 12 + valueLen resp cursor)) 0

/-- The record at this place, with a compressed name. -/
structure RecordFits (resp : Slice Byte) (cursor : ℕ) : Prop where
  second : cursor + 1 < resp.length
  offset : nameOffset resp cursor ≤ resp.length
  name : SectionsFit (resp.window (nameOffset resp cursor) resp.length) 0
  fields : cursor + 12 ≤ resp.cap
  value : ValueFits resp cursor

/-- From the record at `start` on, the record with this number is at this place. -/
inductive RecordAt (resp : Slice Byte) (start : ℕ) : ℕ → ℕ → Prop
  | first : RecordAt resp start 0 start
  | next {k cursor : ℕ} : RecordAt resp start k cursor → Compressed resp cursor →
      RecordAt resp start (k + 1) (cursor + 12 + valueLen resp cursor)

/-- Each of these records begins in the response and fits. -/
def RecordsFit (resp : Slice Byte) (count start : ℕ) : Prop :=
  ∀ k < count, ∀ cursor, RecordAt resp start k cursor →
    cursor < resp.length ∧ (Compressed resp cursor → RecordFits resp cursor)

theorem recordAt_succ {k start : ℕ} : RecordAt resp start (k + 1) cursor ↔
    Compressed resp start ∧ RecordAt resp (start + 12 + valueLen resp start) k cursor := by
  constructor
  · intro h
    generalize hn : k + 1 = n at h
    induction h generalizing k with
    | first => exact nomatch hn
    | @next k' cursor' hprev hcompressed ih =>
        obtain rfl : k = k' := Nat.succ.inj hn
        cases hprev with
        | first => exact ⟨hcompressed, .first⟩
        | next hprev hc =>
            obtain ⟨hstart, hrest⟩ := ih rfl
            exact ⟨hstart, hrest.next hcompressed⟩
  · rintro ⟨hstart, hrest⟩
    induction hrest with
    | first => exact RecordAt.first.next hstart
    | next _ hcompressed ih => exact ih.next hcompressed

theorem recordsFit_succ {count start : ℕ} : RecordsFit resp (count + 1) start ↔
    start < resp.length ∧ (Compressed resp start →
      RecordFits resp start ∧ RecordsFit resp count (start + 12 + valueLen resp start)) := by
  constructor
  · intro h
    obtain ⟨hlt, hfits⟩ := h 0 count.succ_pos start .first
    refine ⟨hlt, fun hstart => ⟨hfits hstart, fun k hk cursor hcursor => ?_⟩⟩
    exact h (k + 1) (Nat.succ_lt_succ hk) cursor (recordAt_succ.mpr ⟨hstart, hcursor⟩)
  · rintro ⟨hlt, h⟩ k hk cursor hcursor
    cases k with
    | zero =>
        cases hcursor
        exact ⟨hlt, fun hstart => (h hstart).1⟩
    | succ k =>
        obtain ⟨hstart, hrest⟩ := recordAt_succ.mp hcursor
        exact (h hstart).2 k (Nat.lt_of_succ_lt_succ hk) cursor hrest

theorem uint16_window {low : ℕ} (hcap : low + 2 ≤ resp.cap) :
    uint16 (resp.window low (low + 2)) = .ok (ofNetworkBytes [resp.elem low, resp.elem (low + 1)]) := by
  simp only [uint16, bind_eq_ok, Slice.index_eq_ok, resp.length_window hcap, Slice.elem_window]
  exact ⟨_, ⟨by omega, rfl⟩, _, ⟨by omega, rfl⟩, rfl⟩

theorem returns_uint16_bind {α : Type} {low : ℕ} {f : ℕ → Checked α} :
    Returns (resp.slice low (low + 2) >>= fun field => uint16 field >>= f) ↔
      low + 2 ≤ resp.cap ∧ Returns (f (ofNetworkBytes [resp.elem low, resp.elem (low + 1)])) := by
  rw [Slice.returns_slice_bind, and_iff_right (Nat.le_add_right low 2)]
  refine and_congr_right fun hcap => ?_
  rw [returns_bind, uint16_window hcap]
  exact ⟨fun ⟨_, heq, h⟩ => Except.ok.inj heq ▸ h, fun h => ⟨_, rfl, h⟩⟩

theorem returns_uint32_bind {α : Type} {low : ℕ} {f : ℕ → Checked α} {P : Prop}
    (hf : ∀ n, Returns (f n) ↔ P) :
    Returns (resp.slice low (low + 4) >>= fun field => uint32 field >>= f) ↔
      low + 4 ≤ resp.cap ∧ P := by
  rw [Slice.returns_slice_bind, and_iff_right (Nat.le_add_right low 4)]
  refine and_congr_right fun hcap => ?_
  rw [returns_bind_of_forall hf]
  simp [uint32, Slice.returns_index_bind, Slice.returns_index, resp.length_window hcap]

theorem returns_readValue : Returns (readValue resp (recordType resp cursor) (cursor + 12)
    (valueLen resp cursor)) ↔ ValueFits resp cursor := by
  rw [readValue]
  split
  · next haddress =>
      rw [Slice.returns_slice_bind, returns_resolveSectionDataAsIPAddr]
      constructor
      · rintro ⟨⟨-, hcap⟩, hlength⟩
        rw [resp.length_window hcap, Nat.add_sub_cancel_left] at hlength
        refine ⟨fun _ => ⟨hlength, hlength ▸ hcap⟩, fun hname => ?_⟩
        rw [haddress] at hname
        exact nomatch hname
      · intro h
        obtain ⟨hlength, hcap⟩ := h.address haddress
        rw [hlength, resp.length_window hcap]
        omega
  · next haddress =>
      split
      · next hname =>
          rw [Slice.returns_slice_bind, returns_resolveSectionDataAsString,
            and_iff_right (Nat.le_add_right _ _)]
          exact ⟨fun h => ⟨fun heq => absurd heq haddress, fun _ => h⟩,
            fun h => h.canonicalName hname⟩
      · next hname =>
          exact iff_of_true (returns_pure _)
            ⟨fun heq => absurd heq haddress, fun heq => absurd heq hname⟩

theorem returns_readRecords (count : ℕ) (reply : DnsReply) :
    Returns (readRecords resp count cursor reply) ↔ RecordsFit resp count cursor := by
  induction count generalizing cursor reply with
  | zero => exact iff_of_true (returns_pure _) (fun k hk => absurd hk k.not_lt_zero)
  | succ count ih =>
      rw [readRecords, Slice.returns_index_bind, recordsFit_succ]
      refine and_congr_right fun hlt => ?_
      by_cases hcompressed : Compressed resp cursor
      · have hkeep : ¬ (resp.elem cursor &&& 0xC0 ≠ 0xC0) := not_not.mpr hcompressed
        -- the fields behind the name, and all further records
        have hfields : ∀ rest : ℕ → Bytes → DnsReply,
            Returns (do
              let lenData ← resp.slice (cursor + 10) (cursor + 10 + 2)
              let valueLen ← uint16 lenData
              let value ← readValue resp (recordType resp cursor) (cursor + 12) valueLen
              readRecords resp count (cursor + 12 + valueLen) (rest valueLen value)) ↔
            cursor + 12 ≤ resp.cap ∧ ValueFits resp cursor ∧
              RecordsFit resp count (cursor + 12 + valueLen resp cursor) := by
          intro rest
          rw [returns_uint16_bind, returns_bind_of_forall fun value => ih _]
          exact and_congr_right fun _ => and_congr_left fun _ => returns_readValue
        rw [if_neg hkeep, Slice.returns_index_bind, Slice.returns_sliceFrom_bind]
        have hname (f : Bytes → Checked (Except String DnsReply))
            (hf : ∀ name, Returns (f name) ↔ cursor + 2 + 2 ≤ resp.cap ∧ cursor + 6 + 4 ≤ resp.cap ∧
              cursor + 12 ≤ resp.cap ∧ ValueFits resp cursor ∧
                RecordsFit resp count (cursor + 12 + valueLen resp cursor)) :
            cursor + 1 < resp.length ∧ nameOffset resp cursor ≤ resp.length ∧
              Returns (resolveSectionDataAsString
                (resp.window (nameOffset resp cursor) resp.length) >>= f) ↔
            (Compressed resp cursor → RecordFits resp cursor ∧
              RecordsFit resp count (cursor + 12 + valueLen resp cursor)) := by
          rw [returns_bind_of_forall hf, returns_resolveSectionDataAsString]
          constructor
          · rintro ⟨hsecond, hoffset, hsections, -, -, hcap, hvalue, hrest⟩ -
            exact ⟨⟨hsecond, hoffset, hsections, hcap, hvalue⟩, hrest⟩
          · intro h
            obtain ⟨⟨hsecond, hoffset, hsections, hcap, hvalue⟩, hrest⟩ := h hcompressed
            exact ⟨hsecond, hoffset, hsections, by omega, by omega, hcap, hvalue, hrest⟩
        refine hname _ fun name => ?_
        rw [returns_uint16_bind]
        exact and_congr_right fun _ => returns_uint32_bind fun ttl =>
          hfields fun _ value => { reply with
            records := reply.records ++ [⟨recordType resp cursor, ttl, name, value⟩] }
      · have hstop : resp.elem cursor &&& 0xC0 ≠ 0xC0 := hcompressed
        rw [if_pos hstop]
        exact iff_of_true (returns_pure _) fun h => absurd h hcompressed

/-! ## Responses -/

/-- The flags are those of a whole answer to a recursive query, without an error. -/
def Answered (resp : Slice Byte) : Prop :=
  resp.elem 2 &&& 0x80 ≠ 0 ∧ resp.elem 2 >>> 1 &&& 0x1 = 0 ∧
    resp.elem 3 &&& 0x80 ≠ 0 ∧ resp.elem 3 &&& 0x0F = 0

def answerCount (resp : Slice Byte) : ℕ :=
  ofNetworkBytes [resp.elem 6, resp.elem 7]

/-- All of the response that is looked at is there. -/
structure Readable (resp : Slice Byte) : Prop where
  flags : 4 ≤ resp.length
  count : Answered resp → 8 ≤ resp.cap
  records : Answered resp → RecordsFit resp (answerCount resp) (answersStart resp)

/-- **A response is parsed, to a reply or to an error, exactly if it is readable.** -/
theorem parseResponse_returns_iff : Returns (parseResponse resp) ↔ Readable resp := by
  rw [parseResponse, Slice.returns_index_bind, Slice.returns_index_bind]
  constructor
  · rintro ⟨-, hlength, hrest⟩
    refine ⟨hlength, fun h => ?_, fun h => ?_⟩ <;> obtain ⟨hqr, htc, hra, hrcode⟩ := h <;>
      rw [if_neg hqr, if_neg (not_not.mpr htc), if_neg hra, if_neg (not_not.mpr hrcode),
        returns_uint16_bind, returns_readRecords] at hrest
    · exact hrest.1
    · exact hrest.2
  · intro h
    refine ⟨Nat.lt_of_succ_lt h.flags, h.flags, ?_⟩
    split
    · exact returns_pure _
    · next hqr =>
        split
        · exact returns_pure _
        · next htc =>
            split
            · exact returns_pure _
            · next hra =>
                split
                · exact returns_pure _
                · next hrcode =>
                    have hanswered : Answered resp := ⟨hqr, not_not.mp htc, hra, not_not.mp hrcode⟩
                    rw [returns_uint16_bind, returns_readRecords]
                    exact ⟨h.count hanswered, h.records hanswered⟩

/-- An empty datagram, in the buffer it was read into, is not parsed. -/
theorem parseResponse_panics_of_empty :
    ¬ ∀ resp : Slice Byte, resp.length ≤ 512 → Returns (parseResponse resp) := by
  intro h
  obtain ⟨reply, heq⟩ := h ⟨List.replicate 512 0, 0, Nat.zero_le _⟩ (Nat.zero_le _)
  exact nomatch heq

/-! ## Replies -/

end Eureka.DnsClient

import Eureka.DnsClient.Safety

/-!
# A reply comes back as it was sent

A response with the question that `newQuerySection` writes, and A records whose
names are compressed to the one in that question.  Three walks through the same
bytes have to agree: the question is written label by label, its end is found by
its zero byte, and the name of each record is read from byte 12 on.

* `resolveSections_writeSections`: the sections are read as they were written;
* `answersStart_eq`: the answers start where the question ends;
* `readRecords_encode`: the loop over the records.
-/

namespace Eureka.DnsClient

open Endian

def dot : Byte := 46

/-! ## What is written -/

def writeSections (sections : List Bytes) : Bytes :=
  sections.flatMap fun text => UInt8.ofNat text.length :: text

/-- What `newQuerySection` appends to the packet. -/
def newQuerySection (domain : Bytes) : Bytes :=
  writeSections (domain.splitOn dot) ++ [0x00] ++ networkBytes 2 0x0001 ++ networkBytes 2 0x0001

/-- A name of labels with 1 to 63 bytes, none of them zero. -/
structure Domain where
  name : Bytes
  length_pos : ∀ label ∈ name.splitOn dot, 0 < label.length
  length_le : ∀ label ∈ name.splitOn dot, label.length ≤ 63
  zero_not_mem : ∀ label ∈ name.splitOn dot, 0 ∉ label

/-- The header of an answer to a recursive query, without an error; the count of its answers is that
of the records. -/
structure SuccessHeader where
  id : ℕ
  flag1 : Byte
  flag2 : Byte
  qdCount : ℕ
  nsCount : ℕ
  arCount : ℕ
  qr : flag1 &&& 0x80 ≠ 0
  tc : flag1 >>> 1 &&& 0x1 = 0
  ra : flag2 &&& 0x80 ≠ 0
  rcode : flag2 &&& 0x0F = 0

def SuccessHeader.encode (header : SuccessHeader) (anCount : ℕ) : Bytes :=
  networkBytes 2 header.id ++ [header.flag1, header.flag2] ++ networkBytes 2 header.qdCount ++
    networkBytes 2 anCount ++ networkBytes 2 header.nsCount ++ networkBytes 2 header.arCount

structure ARecord where
  ttl : UInt32
  address : Fin 4 → Byte

namespace ARecord

/-- The name is that at byte 12. -/
def encode (r : ARecord) : Bytes :=
  [0xC0, 0x0C] ++ networkBytes 2 recordTypeARecord ++ networkBytes 2 0x0001 ++
    networkBytes 4 r.ttl.toNat ++ networkBytes 2 4 ++ List.ofFn r.address

def dotted (r : ARecord) : Bytes :=
  ascii (".".intercalate ((List.ofFn r.address).map toString))

/-- The record as it is to be read. -/
def toDnsRecord (r : ARecord) (domain : Domain) : DnsRecord :=
  ⟨recordTypeARecord, r.ttl.toNat, domain.name, r.dotted⟩

end ARecord

def response (header : SuccessHeader) (domain : Domain) (records : List ARecord) : Bytes :=
  header.encode records.length ++ newQuerySection domain.name ++ records.flatMap ARecord.encode

/-! ## Sections -/

variable {data resp : Slice Byte} {i cursor : ℕ} {domain : Domain}

theorem resolveSections_writeSections {labels sections : List Bytes}
    (hpos : ∀ label ∈ labels, 0 < label.length) (hle : ∀ label ∈ labels, label.length ≤ 63)
    (hdata : data.Holds i (writeSections labels ++ [0x00])) :
    resolveSections data i sections = .ok (sections ++ labels) := by
  induction labels generalizing i sections with
  | nil =>
      obtain ⟨⟨hlt, hzero⟩, -⟩ := hdata
      rw [resolveSections, if_pos hlt, data.index_of_lt hlt, ok_bind, if_pos hzero, List.append_nil]
      rfl
  | cons label labels ih =>
      have hlabel := hpos label (List.mem_cons_self ..)
      have hbound := hle label (List.mem_cons_self ..)
      have hnat : (UInt8.ofNat label.length).toNat = label.length := by
        rw [UInt8.toNat_ofNat']
        omega
      have hne : UInt8.ofNat label.length ≠ 0 := by
        intro heq
        rw [heq] at hnat
        exact hlabel.ne hnat
      rw [writeSections, List.flatMap_cons, List.cons_append, List.cons_append,
        List.append_assoc] at hdata
      obtain ⟨⟨hlt, hlength⟩, hdata⟩ := hdata
      obtain ⟨htext, hrest⟩ := Slice.holds_append.mp hdata
      have hcap : i + 1 + label.length ≤ data.cap :=
        (htext.le_length (List.ne_nil_of_length_pos hlabel)).trans data.length_le_cap
      rw [resolveSections, if_pos hlt, data.index_of_lt hlt, ok_bind, hlength, if_neg hne, hnat,
        data.slice_of_le (Nat.le_add_right _ _) hcap, ok_bind, htext.toList_window hcap,
        ih (fun label' hmem => hpos label' (List.mem_cons_of_mem label hmem))
          (fun label' hmem => hle label' (List.mem_cons_of_mem label hmem)) hrest,
        List.append_assoc, List.singleton_append]

theorem resolveSectionDataAsString_newQuerySection
    (hdata : data.Holds 0 (newQuerySection domain.name)) :
    resolveSectionDataAsString data = .ok domain.name := by
  obtain ⟨hdata, -⟩ := Slice.holds_append.mp (Slice.holds_append.mp hdata).1
  rw [resolveSectionDataAsString,
    resolveSections_writeSections domain.length_pos domain.length_le hdata, ok_bind, List.nil_append]
  exact congrArg Except.ok (List.intercalate_splitOn dot)

/-! ## The end of the question -/

theorem ne_zero_of_mem_writeSections {labels : List Bytes} {byte : Byte}
    (hpos : ∀ label ∈ labels, 0 < label.length) (hle : ∀ label ∈ labels, label.length ≤ 63)
    (hzero : ∀ label ∈ labels, 0 ∉ label) (hbyte : byte ∈ writeSections labels) : byte ≠ 0 := by
  rintro rfl
  obtain ⟨label, hlabel, hmem⟩ := List.mem_flatMap.mp hbyte
  rcases List.mem_cons.mp hmem with heq | hmem
  · have hnat := congrArg UInt8.toNat heq
    rw [UInt8.toNat_ofNat'] at hnat
    have hlabel_pos := hpos label hlabel
    have hlabel_le := hle label hlabel
    have hsmall : label.length % 2 ^ 8 = label.length := Nat.mod_eq_of_lt (by omega)
    rw [hsmall, UInt8.toNat_zero] at hnat
    omega
  · exact hzero label hlabel hmem

theorem find?_range'_eq_zero {text : Bytes} {count : ℕ} (htext : ∀ byte ∈ text, byte ≠ 0)
    (hdata : data.Holds i (text ++ [0x00])) (hcount : text.length < count) :
    (List.range' i count).find? (fun i => data.elem i = 0) = some (i + text.length) := by
  induction text generalizing i count with
  | nil =>
      obtain ⟨count, rfl⟩ := Nat.exists_eq_succ_of_ne_zero hcount.ne'
      rw [List.range'_succ]
      exact List.find?_cons_of_pos (decide_eq_true hdata.1.2)
  | cons byte text ih =>
      obtain ⟨count, rfl⟩ := Nat.exists_eq_succ_of_ne_zero (Nat.ne_zero_of_lt hcount)
      have hne : decide (data.elem i = 0) = false := by
        rw [decide_eq_false_iff_not, hdata.1.2]
        exact htext byte (List.mem_cons_self ..)
      rw [List.range'_succ, List.find?_cons, hne,
        ih (fun byte' hmem => htext byte' (List.mem_cons_of_mem byte hmem)) hdata.2
          (Nat.lt_of_succ_lt_succ hcount), List.length_cons]
      exact congrArg some (by omega)

theorem answersStart_eq (hdata : resp.Holds headerSize (newQuerySection domain.name)) :
    answersStart resp = headerSize + (newQuerySection domain.name).length := by
  obtain ⟨hname, -⟩ := Slice.holds_append.mp (Slice.holds_append.mp hdata).1
  have hlength := hname.le_length (List.append_ne_nil_of_right_ne_nil _ (List.cons_ne_nil _ _))
  rw [List.length_append, List.length_singleton] at hlength
  have hcount : (writeSections (domain.name.splitOn dot)).length < resp.length - headerSize := by
    omega
  have hfind := find?_range'_eq_zero (fun byte => ne_zero_of_mem_writeSections domain.length_pos
    domain.length_le domain.zero_not_mem) hname hcount
  rw [answersStart, hfind]
  simp only [newQuerySection, List.length_append, length_networkBytes, List.length_singleton]
  omega

/-! ## Records -/

theorem uint16_networkBytes {α : Type} {low n : ℕ} {f : ℕ → Checked α} (hn : n < 2 ^ 16)
    (h : resp.Holds low (networkBytes 2 n)) :
    (resp.slice low (low + 2) >>= fun field => uint16 field >>= f) = f n := by
  obtain ⟨hslice, -, hfield⟩ := h.slice (length_networkBytes _ n) (List.cons_ne_nil _ _)
  have hread : ofNetworkBytes (networkBytes 2 n) = n := by
    rw [ofNetworkBytes_networkBytes]
    exact Nat.mod_eq_of_lt hn
  rw [hslice, ok_bind, uint16,
    hfield.index (i := 1) (by simp), ok_bind, hfield.index (i := 0) (by simp), ok_bind]
  exact congrArg f hread

theorem uint32_networkBytes {α : Type} {low n : ℕ} {f : ℕ → Checked α} (hn : n < 2 ^ 32)
    (h : resp.Holds low (networkBytes 4 n)) :
    (resp.slice low (low + 4) >>= fun field => uint32 field >>= f) = f n := by
  obtain ⟨hslice, -, hfield⟩ := h.slice (length_networkBytes _ n) (List.cons_ne_nil _ _)
  have hread : ofNetworkBytes (networkBytes 4 n) = n := by
    rw [ofNetworkBytes_networkBytes]
    exact Nat.mod_eq_of_lt hn
  rw [hslice, ok_bind, uint32,
    hfield.index (i := 3) (by simp), ok_bind, hfield.index (i := 2) (by simp), ok_bind,
    hfield.index (i := 1) (by simp), ok_bind, hfield.index (i := 0) (by simp), ok_bind]
  exact congrArg f hread

theorem readValue_address {r : ARecord} (h : resp.Holds cursor (List.ofFn r.address)) :
    readValue resp recordTypeARecord cursor 4 = .ok r.dotted := by
  obtain ⟨hslice, hlength, hdata⟩ := h.slice List.length_ofFn (List.cons_ne_nil _ _)
  rw [readValue, if_pos rfl, hslice, ok_bind, resolveSectionDataAsIPAddr,
    if_neg (not_not.mpr hlength), hdata.index (i := 0) (by simp), ok_bind,
    hdata.index (i := 1) (by simp), ok_bind, hdata.index (i := 2) (by simp), ok_bind,
    hdata.index (i := 3) (by simp), ok_bind]
  rfl

theorem holds_encode {r : ARecord} (h : resp.Holds cursor r.encode) :
    resp.index cursor = .ok 0xC0 ∧ resp.index (cursor + 1) = .ok 0x0C ∧
      resp.Holds (cursor + 2) (networkBytes 2 recordTypeARecord) ∧
      resp.Holds (cursor + 6) (networkBytes 4 r.ttl.toNat) ∧
      resp.Holds (cursor + 10) (networkBytes 2 4) ∧
      resp.Holds (cursor + 12) (List.ofFn r.address) := by
  simp only [ARecord.encode, Slice.holds_append, List.length_append, length_networkBytes,
    List.length_cons, List.length_nil] at h
  obtain ⟨⟨⟨⟨⟨hname, htype⟩, -⟩, httl⟩, hlength⟩, haddress⟩ := h
  exact ⟨hname.index (i := 0) (by decide), hname.index (i := 1) (by decide), htype, httl, hlength,
    haddress⟩

theorem length_encode (r : ARecord) : r.encode.length = 16 := by
  simp [ARecord.encode]

theorem readRecords_encode (hquestion : resp.Holds headerSize (newQuerySection domain.name))
    {records : List ARecord} {reply : DnsReply}
    (hdata : resp.Holds cursor (records.flatMap ARecord.encode)) :
    readRecords resp records.length cursor reply = .ok (.ok { reply with
      records := reply.records ++ records.map fun r => r.toDnsRecord domain }) := by
  induction records generalizing cursor reply with
  | nil =>
      rw [List.map_nil, List.append_nil]
      rfl
  | cons r records ih =>
      obtain ⟨hrecord, hrest⟩ := Slice.holds_append.mp hdata
      have hrest : resp.Holds (cursor + 12 + 4) (records.flatMap ARecord.encode) := by
        rw [length_encode] at hrest
        exact hrest
      obtain ⟨hfirst, hsecond, htype, httl, hlength, haddress⟩ := holds_encode hrecord
      have hname : ∃ nameData, resp.sliceFrom (ofNetworkBytes [0xC0 &&& 0x3F, 0x0C]) = .ok nameData ∧
          resolveSectionDataAsString nameData = .ok domain.name := by
        have hle := hquestion.le_length
          (List.append_ne_nil_of_right_ne_nil _ (List.cons_ne_nil _ _))
        refine ⟨_, resp.slice_of_le ((Nat.le_add_right _ _).trans hle) resp.length_le_cap, ?_⟩
        exact resolveSectionDataAsString_newQuerySection
          (hquestion.window (i := 0) hle resp.length_le_cap)
      obtain ⟨nameData, hslice, hread⟩ := hname
      rw [List.length_cons, readRecords, hfirst, ok_bind, if_neg (by decide), hsecond, ok_bind,
        hslice, ok_bind, hread, ok_bind, uint16_networkBytes (by decide) htype,
        uint32_networkBytes r.ttl.toNat_lt httl, uint16_networkBytes (by decide) hlength,
        readValue_address haddress, ok_bind, ih hrest, List.append_assoc]
      rfl

/-! ## Responses -/

variable {header : SuccessHeader} {records : List ARecord}

theorem holds_response (h : resp.Holds 0 (response header domain records)) :
    resp.index 2 = .ok header.flag1 ∧ resp.index 3 = .ok header.flag2 ∧
      resp.Holds 6 (networkBytes 2 records.length) ∧
      resp.Holds headerSize (newQuerySection domain.name) ∧
      resp.Holds (headerSize + (newQuerySection domain.name).length)
        (records.flatMap ARecord.encode) := by
  obtain ⟨hmessage, hrecords⟩ := Slice.holds_append.mp h
  obtain ⟨hheader, hquestion⟩ := Slice.holds_append.mp hmessage
  simp only [SuccessHeader.encode, Slice.holds_append, List.length_append, length_networkBytes,
    List.length_cons, List.length_nil, Nat.zero_add] at hheader hquestion hrecords
  obtain ⟨⟨⟨⟨⟨-, hflags⟩, -⟩, hanswers⟩, -⟩, -⟩ := hheader
  exact ⟨hflags.index (i := 0) (by simp), hflags.index (i := 1) (by simp), hanswers, hquestion,
    hrecords⟩

/-- **A reply comes back as it was sent**, with its records in order. -/
theorem parseResponse_response (hcount : records.length ≤ 65535)
    (hresp : resp.toList = response header domain records) :
    parseResponse resp = .ok (.ok ⟨header.flag1 >>> 2 &&& 0x1 ≠ 0,
      records.map fun r => r.toDnsRecord domain⟩) := by
  obtain ⟨hflag1, hflag2, hanswers, hquestion, hrecords⟩ :=
    holds_response (Slice.holds_of_toList hresp)
  rw [parseResponse, hflag1, ok_bind, hflag2, ok_bind, if_neg header.qr,
    if_neg (not_not.mpr header.tc), if_neg header.ra, if_neg (not_not.mpr header.rcode),
    uint16_networkBytes (Nat.lt_succ_of_le hcount) hanswers, answersStart_eq hquestion,
    readRecords_encode hquestion hrecords, List.nil_append]

/-- An authoritative answer to the question for `a.bc`, with two addresses. -/
theorem parseResponse_response_two :
    ∃ (header : SuccessHeader) (domain : Domain) (records : List ARecord) (resp : Slice Byte),
      resp.toList = response header domain records ∧ resp.length = 54 ∧
      parseResponse resp = .ok (.ok ⟨true, [⟨1, 300, ascii "a.bc", ascii "127.0.0.1"⟩,
        ⟨1, 4294967295, ascii "a.bc", ascii "10.20.0.255"⟩]⟩) := by
  let header : SuccessHeader := ⟨7, 0x85, 0x80, 1, 0, 0, by decide, by decide, by decide, by decide⟩
  let domain : Domain := ⟨ascii "a.bc", by decide, by decide, by decide⟩
  let records : List ARecord := [⟨300, ![127, 0, 0, 1]⟩, ⟨4294967295, ![10, 20, 0, 255]⟩]
  let resp : Slice Byte := ⟨response header domain records, _, le_refl _⟩
  have hresp : resp.toList = response header domain records := List.take_length
  have hfirst : ARecord.dotted ⟨300, ![127, 0, 0, 1]⟩ = ascii "127.0.0.1" := by decide
  have hsecond : ARecord.dotted ⟨4294967295, ![10, 20, 0, 255]⟩ = ascii "10.20.0.255" := by
    decide
  refine ⟨header, domain, records, resp, hresp, by decide, ?_⟩
  have hflag : decide (header.flag1 >>> 2 &&& 0x1 ≠ 0) = true := by decide
  rw [parseResponse_response (by decide) hresp, hflag, ← hfirst, ← hsecond]
  rfl

end Eureka.DnsClient

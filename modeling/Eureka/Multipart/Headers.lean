import Eureka.Multipart.Reader

/-!
# The headers of a part

A part as it is sent: its name and its file name in quotes, its content type if
there is one, and the order of the two headers.

* `readHeader_dispositionLine`, `readHeader_typeLine`: one line;
* `consumeHeaders_headerText`: what is written in front of the data is read back,
  whatever comes behind it.
-/

namespace Eureka.Multipart

open TextSearch Consumer

/-! ## Stripping -/

theorem strip_append {chars before core after : Bytes} (hbefore : ∀ c ∈ before, c ∈ chars)
    (hafter : ∀ c ∈ after, c ∈ chars) (hne : core ≠ []) (hhead : core.head hne ∉ chars)
    (hlast : core.getLast hne ∉ chars) : strip chars (before ++ (core ++ after)) = core := by
  obtain ⟨first, rest, rfl⟩ := List.exists_cons_of_ne_nil hne
  have hfront : (before ++ (first :: rest ++ after)).dropWhile (· ∈ chars) =
      first :: rest ++ after := by
    rw [List.dropWhile_append_of_pos (by simpa using hbefore), List.cons_append,
      List.dropWhile_cons_of_neg (by simpa using hhead)]
  have hback : (first :: rest ++ after).rdropWhile (· ∈ chars) = first :: rest := by
    rw [List.rdropWhile, List.reverse_append,
      List.dropWhile_append_of_pos (by simpa using hafter)]
    change (first :: rest).rdropWhile (· ∈ chars) = _
    exact List.rdropWhile_eq_self_iff.mpr fun _ => by simpa using hlast
  rw [strip, hfront, hback]

theorem strip_ne_nil {chars text : Bytes} (h : ∃ c ∈ text, c ∉ chars) : strip chars text ≠ [] := by
  obtain ⟨c, hc, hchars⟩ := h
  intro hnil
  rw [strip, List.rdropWhile_eq_nil_iff] at hnil
  rw [← List.takeWhile_append_dropWhile (p := (· ∈ chars)) (l := text), List.mem_append] at hc
  apply hchars
  rcases hc with htake | hdrop
  · simpa using List.mem_takeWhile_imp htake
  · simpa using hnil c hdrop

/-! ## Parts that are sent -/

def quoted (text : Bytes) : Bytes := ascii "\"" ++ (text ++ ascii "\"")

/-- A text that can stand in quotes. -/
structure Quotable (text : Bytes) : Prop where
  ne_nil : text ≠ []
  quote : 34 ∉ text
  semicolon : 59 ∉ text
  carriage_return : 13 ∉ text
  line_feed : 10 ∉ text

/-- A content type is not blank. -/
structure TypeText (text : Bytes) : Prop where
  not_blank : ∃ c ∈ text, c ≠ 32
  carriage_return : 13 ∉ text
  line_feed : 10 ∉ text

/-- A part as it is sent; `typeFirst` is the order of its headers. -/
structure Part where
  name : Bytes
  filename : Option Bytes
  contentType : Option Bytes
  typeFirst : Bool
  data : Bytes
  name_ok : Quotable name
  filename_ok : ∀ text, filename = some text → Quotable text
  contentType_ok : ∀ text, contentType = some text → TypeText text

namespace Part

/-- The parameters of the content disposition, without the semicolons between them. -/
def params (part : Part) : List Bytes :=
  [ascii " form-data", ascii " " ++ (paramName ++ quoted part.name)] ++
    match part.filename with
    | none => []
    | some filename => [ascii " " ++ (paramFilename ++ quoted filename)]

def dispositionLine (part : Part) : Bytes :=
  ascii "Content-Disposition: form-data; name=" ++ quoted part.name ++
    match part.filename with
    | none => []
    | some filename => ascii "; filename=" ++ quoted filename

def typeLine (contentType : Bytes) : Bytes := ascii "Content-Type: " ++ contentType

/-- The lines of the headers, in their order. -/
def headerLines (part : Part) : List Bytes :=
  match part.contentType with
  | none => [part.dispositionLine]
  | some contentType =>
      if part.typeFirst then [typeLine contentType, part.dispositionLine]
      else [part.dispositionLine, typeLine contentType]

/-- The headers and the empty line behind them. -/
def headerText (part : Part) : Bytes :=
  part.headerLines.flatMap (· ++ newline) ++ newline

theorem dispositionLine_eq (part : Part) :
    part.dispositionLine = hdrContentDisposition ++ [59].intercalate part.params := by
  have hname : ascii "Content-Disposition: form-data; name=" =
      hdrContentDisposition ++ (ascii " form-data" ++ (59 :: (ascii " " ++ paramName))) := by decide
  have hfilename : ascii "; filename=" = 59 :: (ascii " " ++ paramFilename) := by decide
  rw [dispositionLine, params, hname]
  cases part.filename with
  | none => simp [List.intercalate]
  | some filename => simp [List.intercalate, hfilename]

theorem dispositionLine_ne_nil (part : Part) : part.dispositionLine ≠ [] := by
  rw [dispositionLine_eq]
  exact List.append_ne_nil_of_left_ne_nil (by decide) _

theorem typeLine_ne_nil (text : Bytes) : typeLine text ≠ [] :=
  List.append_ne_nil_of_left_ne_nil (by decide) _

theorem cr_notMem_quoted {text : Bytes} (h : Quotable text) : 13 ∉ quoted text := by
  have hfixed : (13 : Byte) ∉ ascii "\"" := by decide
  simp [quoted, h.carriage_return, hfixed]

theorem cr_notMem_dispositionLine (part : Part) : 13 ∉ part.dispositionLine := by
  have hname := cr_notMem_quoted part.name_ok
  have hfixed : (13 : Byte) ∉ ascii "Content-Disposition: form-data; name=" := by decide
  rw [dispositionLine]
  cases hpart : part.filename with
  | none => simp [hname, hfixed]
  | some filename =>
      have hfilename := cr_notMem_quoted (part.filename_ok filename hpart)
      have hfixed' : (13 : Byte) ∉ ascii "; filename=" := by decide
      simp [hname, hfixed, hfilename, hfixed']

theorem cr_notMem_typeLine {text : Bytes} (h : TypeText text) : 13 ∉ typeLine text := by
  have hfixed : (13 : Byte) ∉ ascii "Content-Type: " := by decide
  simp [typeLine, h.carriage_return, hfixed]

/-! ## The parameters -/

theorem strip_param {key value : Bytes} (hne : key ≠ []) (hkey : key.head hne ≠ 32) :
    strip (ascii " ") (ascii " " ++ (key ++ quoted value)) = key ++ quoted value := by
  have hblank : ascii " " = [32] := by decide
  have hquote : ascii "\"" = [34] := by decide
  have h : strip (ascii " ") (ascii " " ++ (key ++ quoted value ++ [])) = key ++ quoted value := by
    apply strip_append (fun c hc => hc) (List.forall_mem_nil _)
      (List.append_ne_nil_of_left_ne_nil hne _)
    · simpa [hblank, List.head_append_of_ne_nil hne] using hkey
    · simp [hblank, quoted, hquote]
  simpa using h

theorem strip_quoted {value : Bytes} (h : Quotable value) :
    strip (ascii "\"") (quoted value) = value := by
  have hquote : ascii "\"" = [34] := by decide
  have hnot : ∀ c ∈ value, c ∉ ascii "\"" := by
    intro c hc hmem
    rw [hquote, List.mem_singleton] at hmem
    exact h.quote (hmem ▸ hc)
  exact strip_append (fun c hc => hc) (fun c hc => hc) h.ne_nil
    (hnot _ (List.head_mem h.ne_nil)) (hnot _ (List.getLast_mem h.ne_nil))

theorem param_ok (key : Bytes) {value : Bytes} (hkey : (59 : Byte) ∉ key) (h : Quotable value) :
    ascii " " ++ (key ++ quoted value) ≠ [] ∧ 59 ∉ ascii " " ++ (key ++ quoted value) := by
  have hblank : ascii " " = [32] := by decide
  have hquote : ascii "\"" = [34] := by decide
  simp [hblank, quoted, hquote, hkey, h.semicolon]

theorem params_ok (part : Part) : ∀ token ∈ part.params, token ≠ [] ∧ (59 : Byte) ∉ token := by
  have htype : ascii " form-data" ≠ [] ∧ (59 : Byte) ∉ ascii " form-data" := by decide
  have hname := param_ok paramName (by decide) part.name_ok
  intro token htoken
  rw [params] at htoken
  cases hpart : part.filename with
  | none =>
      simp only [hpart, List.append_nil, List.mem_cons, List.not_mem_nil, or_false] at htoken
      rcases htoken with rfl | rfl
      · exact htype
      · exact hname
  | some filename =>
      have hfilename := param_ok paramFilename (by decide) (part.filename_ok filename hpart)
      simp only [hpart, List.cons_append, List.nil_append, List.mem_cons, List.not_mem_nil,
        or_false] at htoken
      rcases htoken with rfl | rfl | rfl
      · exact htype
      · exact hname
      · exact hfilename

/-! ## One line -/

variable {esl : EslStrings} (hesl : esl.Lawful) {line v : StringView} {header : ContentHeader}
include hesl

theorem map_trim_split (part : Part) {value : StringView}
    (hvalue : value.text = [59].intercalate part.params) :
    ((esl.split value (ascii ";")).map fun token => esl.trim token (ascii " ")).map View.text =
      part.params.map (strip (ascii " ")) := by
  have hdelim : ascii ";" = [59] := by decide
  rw [hdelim, ← hesl.split_text value 59 part.params (List.cons_ne_nil _ _) part.params_ok hvalue,
    List.map_map, List.map_map]
  exact List.map_congr_left fun token _ => hesl.trim_text token (ascii " ")

theorem removePrefix_quoted {param : StringView} {key value : Bytes} (h : Quotable value)
    (hparam : param.text = key ++ quoted value) :
    esl.startsWith param.text key = true ∧ ∃ rest, param.removePrefix key.length = .ok rest ∧
      (esl.trim rest (ascii "\"")).text = value := by
  have hprefix : key <+: param.text := ⟨quoted value, hparam.symm⟩
  obtain ⟨rest, hrest, -, -, htext⟩ := View.removePrefix_spec hprefix.length_le
  refine ⟨(hesl.startsWith_iff _ _).mpr hprefix, rest, hrest, ?_⟩
  rw [hesl.trim_text, htext, hparam, List.drop_left, strip_quoted h]

theorem readHeader_dispositionLine (part : Part) (header : ContentHeader)
    (hline : line.text = part.dispositionLine) :
    ∃ header', readHeader esl line header = .ok (some header') ∧ header'.name.text = part.name ∧
      header'.filename.text = part.filename.getD header.filename.text := by
  have hstarts : esl.startsWithIgnoreAsciiCase line.text hdrContentDisposition = true := by
    rw [hesl.startsWithIgnoreAsciiCase_iff, hline, dispositionLine_eq, List.map_append]
    exact List.prefix_append _ _
  have hlength : hdrContentDisposition.length ≤ line.text.length := by
    rw [hline, dispositionLine_eq, List.length_append]
    exact Nat.le_add_right _ _
  obtain ⟨value, hvalue, -, htext⟩ := View.substrFrom_spec hlength
  rw [hline, dispositionLine_eq, List.drop_left] at htext
  have hparams := map_trim_split hesl part htext
  have hform : strip (ascii " ") (ascii " form-data") = ascii "form-data" := by decide
  have hname : strip (ascii " ") (ascii " " ++ (paramName ++ quoted part.name)) =
      paramName ++ quoted part.name := strip_param (by decide) (by decide)
  rw [readHeader, if_pos hstarts, readHeaderContentDisposition, hvalue, View.ok_bind]
  generalize (esl.split value (ascii ";")).map (fun token => esl.trim token (ascii " ")) = found
    at hparams ⊢
  rw [params] at hparams
  cases hpart : part.filename with
  | none =>
      rw [hpart, List.append_nil, List.map_cons, List.map_cons, List.map_nil, hform, hname] at hparams
      obtain ⟨type, _, rfl, htype, hrest⟩ := List.map_eq_cons_iff.mp hparams
      obtain ⟨name, _, rfl, hname, hrest⟩ := List.map_eq_cons_iff.mp hrest
      obtain rfl := List.map_eq_nil_iff.mp hrest
      obtain ⟨hkey, rest, hrun, hvalue⟩ := removePrefix_quoted hesl part.name_ok hname
      have hequals : esl.equalsIgnoreAsciiCase type.text (ascii "form-data") = true := by
        rw [hesl.equalsIgnoreAsciiCase_iff, htype]
      dsimp only
      rw [if_pos ⟨hequals, hkey⟩, hrun, View.ok_bind]
      exact ⟨_, rfl, hvalue, rfl⟩
  | some filename =>
      have hfile : strip (ascii " ") (ascii " " ++ (paramFilename ++ quoted filename)) =
          paramFilename ++ quoted filename := strip_param (by decide) (by decide)
      rw [hpart, List.cons_append, List.cons_append, List.nil_append, List.map_cons, List.map_cons,
        List.map_cons, List.map_nil, hform, hname, hfile] at hparams
      obtain ⟨type, _, rfl, htype, hrest⟩ := List.map_eq_cons_iff.mp hparams
      obtain ⟨name, _, rfl, hname, hrest⟩ := List.map_eq_cons_iff.mp hrest
      obtain ⟨file, _, rfl, hfile, hrest⟩ := List.map_eq_cons_iff.mp hrest
      obtain rfl := List.map_eq_nil_iff.mp hrest
      obtain ⟨hkey, rest, hrun, hvalue⟩ := removePrefix_quoted hesl part.name_ok hname
      obtain ⟨hkey', rest', hrun', hvalue'⟩ :=
        removePrefix_quoted hesl (part.filename_ok filename hpart) hfile
      have hequals : esl.equalsIgnoreAsciiCase type.text (ascii "form-data") = true := by
        rw [hesl.equalsIgnoreAsciiCase_iff, htype]
      dsimp only
      rw [if_pos ⟨hequals, hkey⟩, if_pos hkey', hrun', View.ok_bind, hrun, View.ok_bind]
      exact ⟨_, rfl, hvalue, hvalue'⟩

theorem readHeader_typeLine {text : Bytes} (h : TypeText text) (header : ContentHeader)
    (hline : line.text = typeLine text) :
    ∃ header', readHeader esl line header = .ok (some header') ∧ header'.name = header.name ∧
      header'.filename = header.filename := by
  have htypeLine : typeLine text = hdrContentType ++ (ascii " " ++ text) := by
    have hfixed : ascii "Content-Type: " = hdrContentType ++ ascii " " := by decide
    rw [typeLine, hfixed, List.append_assoc]
  have hother : ¬ esl.startsWithIgnoreAsciiCase line.text hdrContentDisposition = true := by
    rw [hesl.startsWithIgnoreAsciiCase_iff, hline]
    intro hprefix
    -- the two names differ behind `Content-`
    have htake := List.prefix_iff_eq_take.mp hprefix
    have hnine := congrArg (List.take 9) htake
    rw [List.take_take, typeLine, List.map_append, List.take_append_of_le_length (by decide)] at hnine
    exact absurd hnine (by decide)
  have hstarts : esl.startsWithIgnoreAsciiCase line.text hdrContentType = true := by
    rw [hesl.startsWithIgnoreAsciiCase_iff, hline, htypeLine, List.map_append]
    exact List.prefix_append _ _
  have hlength : hdrContentType.length ≤ line.text.length := by
    rw [hline, htypeLine, List.length_append]
    exact Nat.le_add_right _ _
  obtain ⟨value, hvalue, -, htext⟩ := View.substrFrom_spec hlength
  rw [hline, htypeLine, List.drop_left] at htext
  have hne : (esl.trim value (ascii " ")).text ≠ [] := by
    obtain ⟨c, hc, hblank⟩ := h.not_blank
    have hchars : ascii " " = [32] := by decide
    rw [hesl.trim_text, htext]
    refine strip_ne_nil ⟨c, List.mem_append_right _ hc, ?_⟩
    rwa [hchars, List.mem_singleton]
  rw [readHeader, if_neg hother, if_pos hstarts, readHeaderContentType, hvalue, View.ok_bind]
  dsimp only
  rw [if_neg hne]
  exact ⟨_, rfl, rfl, rfl⟩

/-! ## The lines in the body -/

omit hesl in
theorem newline_eq : newline = [13, 10] := by decide

omit hesl in
theorem find_newline {text rest : Bytes} (htext : 13 ∉ text) :
    find (text ++ (newline ++ rest)) newline 0 = some text.length := by
  refine find_eq_some_iff.mpr ⟨⟨Nat.zero_le _, ?_, ?_⟩, ?_⟩
  · rw [List.length_append]
    exact Nat.le_add_right _ _
  · rw [List.drop_left]
    exact List.prefix_append _ _
  · intro i _ hi hprefix
    rw [List.drop_append_of_le_length hi.le, List.drop_eq_getElem_cons hi, newline_eq] at hprefix
    -- the line would have a carriage return at this place
    have hfirst : (13 : Byte) = text[i] := (List.cons_prefix_cons.mp hprefix).1
    apply htext
    rw [hfirst]
    exact List.getElem_mem hi

theorem consumeAny_append {data rest : Bytes} (hv : v.text = data ++ rest) :
    ∃ w, consumeAny esl data v = .ok (some (), w) ∧ w.text = rest := by
  have hstarts : esl.startsWith v.text data = true := by
    rw [hesl.startsWith_iff, hv]
    exact List.prefix_append _ _
  rw [consumeAny, view_bind, if_pos hstarts]
  exact skip_append hv

theorem consumeAny_of_not_prefix {data : Bytes} (hv : ¬ data <+: v.text) :
    consumeAny esl data v = .ok (none, v) := by
  rw [consumeAny, view_bind, if_neg (mt (hesl.startsWith_iff _ _).mp hv)]
  rfl

omit hesl in
theorem consumeContentHeader_append {text rest : Bytes} {P : ContentHeader → Prop}
    (htext : 13 ∉ text) (hv : v.text = text ++ (newline ++ rest))
    (hread : ∀ line : StringView, line.text = text →
      ∃ header', readHeader esl line header = .ok (some header') ∧ P header') :
    ∃ header' w, consumeContentHeader esl header v = .ok (some header', w) ∧ w.text = rest ∧
      P header' := by
  obtain ⟨line, hline, -, -, hlineText⟩ := View.substr_spec (Nat.zero_le v.text.length) text.length
  rw [List.drop_zero, hv, List.take_left] at hlineText
  obtain ⟨header', hheader', hP⟩ := hread line hlineText
  obtain ⟨w, hskip, hw⟩ := skip_append (hv.trans (List.append_assoc _ _ _).symm)
  rw [List.length_append, ← hlineText] at hskip
  refine ⟨header', w, ?_, hw, hP⟩
  rw [consumeContentHeader, view_bind, hv, find_newline htext]
  dsimp only
  rw [lift_bind hline, lift_bind hheader']
  dsimp only
  rw [bind_of_some hskip]
  rfl

/-- A header line is not taken for the empty line. -/
theorem consumeSecondHeader_of_line {text rest : Bytes} (htext : 13 ∉ text) (hne : text ≠ [])
    (hv : v.text = text ++ rest) :
    consumeSecondHeader esl header v = consumeContentHeader esl header v := by
  obtain ⟨first, text, rfl⟩ := List.exists_cons_of_ne_nil hne
  have hstarts : ¬ esl.startsWith v.text newline = true := by
    rw [hesl.startsWith_iff, hv, newline_eq]
    intro hprefix
    apply htext
    rw [(List.cons_prefix_cons.mp hprefix).1]
    exact List.mem_cons_self
  rw [consumeSecondHeader, view_bind, if_neg hstarts]

theorem consumeSecondHeader_newline {rest : Bytes} (hv : v.text = newline ++ rest) :
    consumeSecondHeader esl header v = .ok (some header, v) := by
  have hstarts : esl.startsWith v.text newline = true := by
    rw [hesl.startsWith_iff, hv]
    exact List.prefix_append _ _
  rw [consumeSecondHeader, view_bind, if_pos hstarts]
  rfl

theorem consumeHeaders_headerText (part : Part) {rest : Bytes}
    (hv : v.text = part.headerText ++ rest) :
    ∃ first second w w', consumeContentHeader esl {} v = .ok (some first, w) ∧
      consumeSecondHeader esl first w = .ok (some second, w') ∧ w'.text = newline ++ rest ∧
      second.name.text = part.name ∧ second.filename.text = part.filename.getD [] := by
  cases hpart : part.contentType with
  | none =>
      have htext : part.headerText ++ rest =
          part.dispositionLine ++ (newline ++ (newline ++ rest)) := by
        simp [headerText, headerLines, hpart]
      obtain ⟨first, w, hrun, hw, hfirst⟩ := consumeContentHeader_append
        part.cr_notMem_dispositionLine (hv.trans htext)
        fun line => readHeader_dispositionLine hesl part {}
      exact ⟨first, first, w, w, hrun, consumeSecondHeader_newline hesl hw, hw, hfirst⟩
  | some text =>
      have htype := part.contentType_ok text hpart
      by_cases hfirst : part.typeFirst = true
      · have htext : part.headerText ++ rest = typeLine text ++
            (newline ++ (part.dispositionLine ++ (newline ++ (newline ++ rest)))) := by
          simp [headerText, headerLines, hpart, hfirst]
        obtain ⟨first, w, hrun, hw, hname, hfilename⟩ := consumeContentHeader_append
          (cr_notMem_typeLine htype) (hv.trans htext) fun line => readHeader_typeLine hesl htype {}
        obtain ⟨second, w', hrun', hw', hname', hfilename'⟩ := consumeContentHeader_append
          part.cr_notMem_dispositionLine hw fun line => readHeader_dispositionLine hesl part first
        refine ⟨first, second, w, w', hrun, ?_, hw', hname', ?_⟩
        · rw [consumeSecondHeader_of_line hesl part.cr_notMem_dispositionLine
            part.dispositionLine_ne_nil hw, hrun']
        · rw [hfilename', hfilename]
          rfl
      · have htext : part.headerText ++ rest = part.dispositionLine ++
            (newline ++ (typeLine text ++ (newline ++ (newline ++ rest)))) := by
          simp [headerText, headerLines, hpart, hfirst]
        obtain ⟨first, w, hrun, hw, hname, hfilename⟩ := consumeContentHeader_append
          part.cr_notMem_dispositionLine (hv.trans htext)
          fun line => readHeader_dispositionLine hesl part {}
        obtain ⟨second, w', hrun', hw', hname', hfilename'⟩ := consumeContentHeader_append
          (cr_notMem_typeLine htype) hw fun line => readHeader_typeLine hesl htype first
        refine ⟨first, second, w, w', hrun, ?_, hw', hname' ▸ hname, hfilename' ▸ hfilename⟩
        rw [consumeSecondHeader_of_line hesl (cr_notMem_typeLine htype) (typeLine_ne_nil text) hw,
          hrun']

/-- **The headers of a part are read back**; what is left are its data and what follows. -/
theorem consumePart_headerText (part : Part) (boundary : Bytes) {rest : Bytes}
    (hv : v.text = newline ++ (part.headerText ++ rest)) :
    ∃ (found : ContentHeader) (w : StringView), w.text = rest ∧ found.name.text = part.name ∧
      found.filename.text = part.filename.getD [] ∧
      consumePart esl boundary v = (consumeDataPart esl boundary >>= fun partData =>
        if partData.text = [] then fail else pure { found with data := partData }) w := by
  obtain ⟨v₁, hrun₁, hv₁⟩ := consumeAny_append hesl hv
  obtain ⟨first, found, v₂, v₃, hrun₂, hrun₃, hv₃, hname, hfilename⟩ :=
    consumeHeaders_headerText hesl part hv₁
  obtain ⟨w, hrun₄, hw⟩ := consumeAny_append hesl hv₃
  have hne : ¬ found.name.text = [] := by
    rw [hname]
    exact part.name_ok.ne_nil
  refine ⟨found, w, hw, hname, hfilename, ?_⟩
  rw [consumePart, bind_of_some hrun₁, bind_of_some hrun₂, bind_of_some hrun₃, if_neg hne,
    bind_of_some hrun₄]

end Part

end Eureka.Multipart

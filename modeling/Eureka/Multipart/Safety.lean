import Eureka.Multipart.Reader

/-!
# The reader stays within the body

Every consumer takes off the front of the body only, and what it hands out lies
in what it has taken off.  The data of a part end where the body goes on, so that
the data of the next one lie behind them.

* `findDashedBoundary_spec`: the search ends, at least two bytes into the text;
* `consumePart_safe`, `readNextPart_spec`: one part;
* `calls_spec`, `readParts_spec`: any number of calls, and the loop of the parser.
-/

namespace Eureka.Multipart

open TextSearch Consumer

variable {esl : EslStrings} {boundary : Bytes}

/-! ## The boundary -/

variable (esl) in
theorem findDashedBoundaryFrom_spec (str : StringView) (hboundary : boundary ≠ []) {fuel pos : ℕ}
    (hpos : pos ≤ str.text.length) (hfuel : str.text.length < fuel + pos) :
    ∃ found, findDashedBoundaryFrom esl str boundary fuel pos = .ok found ∧
      ∀ i ∈ found, newline.length ≤ i ∧ i ≤ str.text.length := by
  have hlength : 0 < boundary.length := List.length_pos_of_ne_nil hboundary
  induction fuel generalizing pos with
  | zero => omega
  | succ fuel ih =>
      rw [findDashedBoundaryFrom]
      cases hfind : find str.text boundary pos with
      | none => exact ⟨none, rfl, by simp⟩
      | some xpos =>
          obtain ⟨⟨hle, hend, hprefix⟩, -⟩ := find_eq_some_iff.mp hfind
          have hroom : xpos + boundary.length ≤ str.text.length := by
            have hprefix_le := hprefix.length_le
            rw [List.length_drop] at hprefix_le
            omega
          have hdelim : delimPrefix.length = 4 := rfl
          have hdashes : dashes.length = 2 := rfl
          have hnewline : newline.length = 2 := rfl
          dsimp only
          split
          · exact ⟨none, rfl, by simp⟩
          · have hback : xpos - delimPrefix.length ≤ str.text.length := by omega
            obtain ⟨tail, htail, -, -⟩ := View.substrFrom_spec hback
            simp only [htail, bind, Except.bind]
            split
            · refine ⟨some (xpos - dashes.length), rfl, ?_⟩
              rintro i ⟨⟩
              omega
            · exact ih hroom (by omega)

/-! ## The headers -/

/-- All that a header says lies in the body. -/
structure ContentHeader.LiesIn (header : ContentHeader) (body : StringView) : Prop where
  name : body.Piece header.name
  filename : body.Piece header.filename
  contentType : body.Piece header.contentType

variable {body line v : StringView} {header : ContentHeader}

section Lawful

variable (hesl : esl.Lawful)
include hesl

theorem length_le_of_startsWith {text start : Bytes} (h : esl.startsWith text start = true) :
    start.length ≤ text.length :=
  ((hesl.startsWith_iff text start).mp h).length_le

theorem length_le_of_startsWithIgnoreAsciiCase {text start : Bytes}
    (h : esl.startsWithIgnoreAsciiCase text start = true) : start.length ≤ text.length := by
  have hle := ((hesl.startsWithIgnoreAsciiCase_iff text start).mp h).length_le
  rwa [List.length_map, List.length_map] at hle

theorem readHeaderContentType_spec (hline : body.Piece line) (hheader : header.LiesIn body)
    (hlength : hdrContentType.length ≤ line.text.length) :
    ∃ result, readHeaderContentType esl line header = .ok result ∧
      ∀ header' ∈ result, header'.LiesIn body := by
  obtain ⟨value, hvalue, hpiece, -⟩ := View.substrFrom_spec hlength
  simp only [readHeaderContentType, hvalue, bind, Except.bind]
  split
  · exact ⟨none, rfl, by simp⟩
  · refine ⟨_, rfl, ?_⟩
    rintro header' ⟨⟩
    exact ⟨hheader.name, hheader.filename,
      hline.trans (hpiece.trans (hesl.trim_piece value (ascii " ")))⟩

theorem removePrefix_param {param : StringView} {key : Bytes} (hparam : body.Piece param)
    (hkey : esl.startsWith param.text key = true) :
    ∃ value, param.removePrefix key.length = .ok value ∧
      body.Piece (esl.trim value (ascii "\"")) := by
  obtain ⟨value, hvalue, htail, -, -⟩ :=
    View.removePrefix_spec (length_le_of_startsWith hesl hkey)
  exact ⟨value, hvalue, hparam.trans (htail.piece.trans (hesl.trim_piece value _))⟩

theorem readHeaderContentDisposition_spec (hline : body.Piece line) (hheader : header.LiesIn body)
    (hlength : hdrContentDisposition.length ≤ line.text.length) :
    ∃ result, readHeaderContentDisposition esl line header = .ok result ∧
      ∀ header' ∈ result, header'.LiesIn body := by
  obtain ⟨value, hvalue, hpiece, -⟩ := View.substrFrom_spec hlength
  have hparams : ∀ param ∈ (esl.split value (ascii ";")).map fun token => esl.trim token (ascii " "),
      body.Piece param := by
    intro param hparam
    obtain ⟨token, htoken, rfl⟩ := List.mem_map.mp hparam
    exact hline.trans (hpiece.trans ((hesl.split_piece value _ token htoken).trans
      (hesl.trim_piece token _)))
  simp only [readHeaderContentDisposition, hvalue, bind, Except.bind]
  generalize (esl.split value (ascii ";")).map (fun token => esl.trim token (ascii " ")) = params
    at hparams
  split
  next type name =>
    split
    next hkeys =>
      obtain ⟨name', hname', hname⟩ := removePrefix_param hesl (hparams name (by simp)) hkeys.2
      simp only [hname']
      refine ⟨_, rfl, ?_⟩
      rintro header' ⟨⟩
      exact ⟨hname, hheader.filename, hheader.contentType⟩
    next => exact ⟨none, rfl, by simp⟩
  next type name filename =>
    split
    next hkeys =>
      split
      next hkey =>
        obtain ⟨name', hname', hname⟩ := removePrefix_param hesl (hparams name (by simp)) hkeys.2
        obtain ⟨filename', hfilename', hfilename⟩ :=
          removePrefix_param hesl (hparams filename (by simp)) hkey
        simp only [hname', hfilename']
        refine ⟨_, rfl, ?_⟩
        rintro header' ⟨⟩
        exact ⟨hname, hfilename, hheader.contentType⟩
      next => exact ⟨none, rfl, by simp⟩
    next => exact ⟨none, rfl, by simp⟩
  next => exact ⟨none, rfl, by simp⟩

theorem readHeader_spec (hline : body.Piece line) (hheader : header.LiesIn body) :
    ∃ result, readHeader esl line header = .ok result ∧
      ∀ header' ∈ result, header'.LiesIn body := by
  rw [readHeader]
  split
  next hdisposition =>
    exact readHeaderContentDisposition_spec hesl hline hheader
      (length_le_of_startsWithIgnoreAsciiCase hesl hdisposition)
  next =>
    split
    next htype =>
      exact readHeaderContentType_spec hesl hline hheader
        (length_le_of_startsWithIgnoreAsciiCase hesl htype)
    next => exact ⟨none, rfl, by simp⟩

/-! ## Consuming the body -/

theorem consumeAny_safe (data : Bytes) :
    SafeAt v (consumeAny esl data) fun _ w =>
      v.text = data ++ w.text ∧ w.offset = v.offset + data.length := by
  refine safeAt_view_bind ?_
  split
  next hstarts =>
    refine safeAt_skip (length_le_of_startsWith hesl hstarts) fun w _ hoffset htext => ⟨?_, hoffset⟩
    obtain ⟨rest, hrest⟩ := (hesl.startsWith_iff _ _).mp hstarts
    rw [htext, ← hrest, List.drop_left]
  next => exact safeAt_fail

theorem consumeContentHeader_safe (hv : body.Piece v) (hheader : header.LiesIn body) :
    SafeAt v (consumeContentHeader esl header) fun header' _ => header'.LiesIn body := by
  refine safeAt_view_bind ?_
  cases hfind : find v.text newline 0 with
  | none => exact safeAt_fail
  | some pos =>
      obtain ⟨⟨-, hle, hprefix⟩, -⟩ := find_eq_some_iff.mp hfind
      obtain ⟨line, hline, hpiece, -, htext⟩ := View.substr_spec (Nat.zero_le v.text.length) pos
      obtain ⟨result, hresult, hlies⟩ := readHeader_spec hesl (hv.trans hpiece) hheader
      refine safeAt_lift_bind hline (safeAt_lift_bind hresult ?_)
      cases result with
      | none => exact safeAt_fail
      | some header' =>
          have hroom : line.text.length + newline.length ≤ v.text.length := by
            have hprefix_le := hprefix.length_le
            rw [List.length_drop] at hprefix_le
            rw [htext, List.drop_zero, List.length_take_of_le hle]
            omega
          have hskip : SafeAt v (skip (line.text.length + newline.length)) fun _ _ => True :=
            safeAt_skip hroom fun _ _ _ _ => trivial
          exact hskip.bind fun _ _ _ _ => safeAt_pure (hlies header' rfl)

theorem consumeSecondHeader_safe (hv : body.Piece v) (hheader : header.LiesIn body) :
    SafeAt v (consumeSecondHeader esl header) fun header' _ => header'.LiesIn body := by
  refine safeAt_view_bind ?_
  split
  next => exact safeAt_pure hheader
  next => exact consumeContentHeader_safe hesl hv hheader

omit hesl in
variable (esl) in
theorem findDashedBoundary_spec (str : StringView) (hboundary : boundary ≠ []) :
    ∃ found, findDashedBoundary esl str boundary = .ok found ∧
      ∀ i ∈ found, newline.length ≤ i ∧ i ≤ str.text.length :=
  findDashedBoundaryFrom_spec esl str hboundary (Nat.zero_le _) (Nat.lt_succ_self _)

omit hesl in
theorem consumeDataPart_safe (hboundary : boundary ≠ []) :
    SafeAt v (consumeDataPart esl boundary) fun data w =>
      data.text ≠ [] → v.Piece data ∧ data.stop ≤ w.offset := by
  obtain ⟨found, hfound, hrange⟩ := findDashedBoundary_spec esl v hboundary
  refine safeAt_view_bind (safeAt_lift_bind hfound ?_)
  cases found with
  | none => exact safeAt_pure fun hne => absurd rfl hne
  | some pos =>
      obtain ⟨hnewline, hle⟩ := hrange pos rfl
      obtain ⟨front, hfront, hpiece, hfrom, htext⟩ :=
        View.substr_spec (Nat.zero_le v.text.length) pos
      have hlength : front.text.length = pos := by
        rw [htext, List.drop_zero, List.length_take_of_le hle]
      obtain ⟨data, hdata, hpiece', hoffset, htext'⟩ :=
        View.removeSuffix_spec (hlength.symm ▸ hnewline)
      have hstop : data.stop ≤ v.offset + pos := by
        rw [View.stop, hoffset, hfrom, htext', List.length_take, hlength]
        omega
      have hskip : SafeAt v (skip pos) fun _ w => data.stop ≤ w.offset :=
        safeAt_skip hle fun w _ hw _ => hw ▸ hstop
      refine safeAt_lift_bind hfront (safeAt_lift_bind hdata (hskip.bind fun _ w _ hw => ?_))
      exact safeAt_pure fun _ => ⟨hpiece.trans hpiece', hw⟩

/-- All that a part says lies in the body, and its data in the stretch that was read. -/
structure ContentPart.LiesIn (part : ContentPart) (body : StringView) (start stop : ℕ) : Prop where
  header : part.toContentHeader.LiesIn body
  data : body.Piece part.data
  start_le : start ≤ part.data.offset
  le_stop : part.data.stop ≤ stop

theorem consumePart_safe (hoffset : body.offset = 0) (hv : body.Piece v)
    (hboundary : boundary ≠ []) :
    SafeAt v (consumePart esl boundary) fun part w => part.LiesIn body v.offset w.offset := by
  have hnull : ContentHeader.LiesIn {} body :=
    ⟨View.null_piece hoffset, View.null_piece hoffset, View.null_piece hoffset⟩
  refine (consumeAny_safe hesl newline).bind fun _ v₁ h₁ _ => ?_
  have hv₁ := hv.trans h₁.piece
  refine (consumeContentHeader_safe hesl hv₁ hnull).bind fun header v₂ h₂ hheader => ?_
  have hv₂ := hv₁.trans h₂.piece
  refine (consumeSecondHeader_safe hesl hv₂ hheader).bind fun header' v₃ h₃ hheader' => ?_
  split
  next => exact safeAt_fail
  next =>
    refine (consumeAny_safe hesl newline).bind fun _ v₄ h₄ _ => ?_
    refine (consumeDataPart_safe hboundary).bind fun data v₅ h₅ hdata => ?_
    split
    next => exact safeAt_fail
    next hne =>
      obtain ⟨hpiece, hstop⟩ := hdata hne
      have htail := h₁.trans (h₂.trans (h₃.trans h₄))
      exact safeAt_pure ⟨hheader', hv.trans (htail.piece.trans hpiece),
        htail.offset_le.trans hpiece.offset_le, hstop⟩

/-! ## Reading parts -/

theorem consumeDelimiter_safe (boundary : Bytes) :
    SafeAt v (consumeDelimiter esl boundary) fun _ w => w.text.length < v.text.length := by
  refine (consumeAny_safe hesl dashes).bind fun _ v₁ _ h₁ => ?_
  obtain ⟨result, w, hrun, htail, -⟩ := consumeAny_safe (v := v₁) hesl boundary
  refine ⟨result, w, hrun, htail, fun _ _ => ?_⟩
  have hle := htail.length_le
  have hdashes : dashes.length = 2 := rfl
  rw [h₁.1, List.length_append, hdashes]
  omega

omit hesl in
/-- What a call of `read_next_part` does. -/
structure Reads (body : StringView) (r r' : MultipartReader) (part : Option ContentPart) : Prop where
  tail : r.body.Tail r'.body
  boundary : r'.boundary = r.boundary
  shorter : part.isSome → r'.body.text.length < r.body.text.length
  lies : ∀ p ∈ part, p.LiesIn body r.body.offset r'.body.offset
  ready : r'.status = .ready ↔ part.isSome

theorem readNextPart_spec {r : MultipartReader} (hoffset : body.offset = 0)
    (hr : body.Piece r.body) (hboundary : r.boundary ≠ []) :
    ∃ part r', r.readNextPart esl = .ok (part, r') ∧ Reads body r r' part := by
  rw [MultipartReader.readNextPart]
  split
  next hstatus => exact ⟨none, r, rfl, .refl _, rfl, by simp, by simp, by simpa using hstatus⟩
  next hstatus =>
    obtain ⟨delimited, v₁, hrun₁, h₁, hshort⟩ := consumeDelimiter_safe hesl r.boundary (v := r.body)
    rw [hrun₁, View.ok_bind]
    cases delimited with
    | none => exact ⟨none, _, rfl, h₁, rfl, by simp, by simp, by simp⟩
    | some delimited =>
        obtain ⟨last, v₂, hrun₂, h₂, -⟩ := consumeAny_safe hesl dashes (v := v₁)
        dsimp only
        rw [hrun₂, View.ok_bind]
        cases last with
        | some last =>
            refine ⟨none, _, rfl, h₁.trans h₂, rfl, by simp, by simp, ?_⟩
            dsimp only
            split <;> simp
        | none =>
            have htail := h₁.trans h₂
            obtain ⟨part, v₃, hrun₃, h₃, hpart⟩ :=
              consumePart_safe hesl hoffset (hr.trans htail.piece) hboundary
            dsimp only
            rw [hrun₃, View.ok_bind]
            cases part with
            | none => exact ⟨none, _, rfl, htail.trans h₃, rfl, by simp, by simp, by simp⟩
            | some part =>
                obtain ⟨hheader, hdata, hstart, hstop⟩ := hpart part rfl
                refine ⟨some part, _, rfl, htail.trans h₃, rfl, fun _ => ?_, ?_, by simp⟩
                · exact ((h₂.trans h₃).length_le).trans_lt (hshort () rfl)
                · rintro _ ⟨⟩
                  exact ⟨hheader, hdata, htail.offset_le.trans hstart, hstop⟩

/-! ## Any number of calls -/

omit hesl in
theorem ContentPart.LiesIn.mono {part : ContentPart} {start start' stop stop' : ℕ}
    (h : part.LiesIn body start stop) (hstart : start' ≤ start) (hstop : stop ≤ stop') :
    part.LiesIn body start' stop' :=
  ⟨h.header, h.data, hstart.trans h.start_le, h.le_stop.trans hstop⟩

omit hesl in
theorem calls_of_not_ready {r : MultipartReader} (hstatus : r.status ≠ .ready) (count : ℕ) :
    r.calls esl count = .ok (List.replicate count none, r) := by
  induction count with
  | zero => rfl
  | succ count ih =>
      rw [MultipartReader.calls, MultipartReader.readNextPart, if_pos hstatus, View.ok_bind]
      dsimp only
      rw [ih]
      rfl

omit hesl in
/-- What so many calls do. -/
structure Calls (body : StringView) (r r' : MultipartReader) (results : List (Option ContentPart)) :
    Prop where
  tail : r.body.Tail r'.body
  lies : ∀ part ∈ results.reduceOption, part.LiesIn body r.body.offset r'.body.offset
  /-- The data are in order and do not overlap. -/
  ordered : results.reduceOption.Pairwise fun part next => part.data.stop ≤ next.data.offset
  not_ready : none ∈ results → r'.status ≠ .ready

omit hesl in
theorem Calls.cons {r r₁ r' : MultipartReader} {part : Option ContentPart}
    {results : List (Option ContentPart)} (hread : Reads body r r₁ part)
    (hcalls : Calls body r₁ r' results) (hstay : part = none → r' = r₁) :
    Calls body r r' (part :: results) := by
  have hlater : ∀ next ∈ results.reduceOption, next.LiesIn body r.body.offset r'.body.offset :=
    fun next hnext => (hcalls.lies next hnext).mono hread.tail.offset_le (le_refl _)
  have hready : none ∈ part :: results → r'.status ≠ .ready := by
    intro hmem
    rcases List.mem_cons.mp hmem with rfl | hmem
    · rw [hstay rfl]
      exact fun hready => Bool.false_ne_true (hread.ready.mp hready)
    · exact hcalls.not_ready hmem
  cases part with
  | none => exact ⟨hread.tail.trans hcalls.tail, hlater, hcalls.ordered, hready⟩
  | some part =>
      have hpart := hread.lies part rfl
      refine ⟨hread.tail.trans hcalls.tail, ?_, ?_, hready⟩
      · intro next hnext
        rcases List.mem_cons.mp hnext with rfl | hnext
        · exact hpart.mono (le_refl _) hcalls.tail.offset_le
        · exact hlater next hnext
      · refine List.pairwise_cons.mpr ⟨fun next hnext => ?_, hcalls.ordered⟩
        exact hpart.le_stop.trans (hcalls.lies next hnext).start_le

theorem calls_spec {r : MultipartReader} (hoffset : body.offset = 0) (hr : body.Piece r.body)
    (hboundary : r.boundary ≠ []) (count : ℕ) :
    ∃ results r', r.calls esl count = .ok (results, r') ∧ Calls body r r' results := by
  induction count generalizing r with
  | zero => exact ⟨[], r, rfl, .refl _, by simp, by simp, by simp⟩
  | succ count ih =>
      obtain ⟨part, r₁, hrun, hread⟩ := readNextPart_spec hesl hoffset hr hboundary
      obtain ⟨results, r', hrest, hcalls⟩ :=
        ih (hr.trans hread.tail.piece) (hread.boundary ▸ hboundary)
      refine ⟨part :: results, r', ?_, .cons hread hcalls ?_⟩
      · rw [MultipartReader.calls, hrun, View.ok_bind]
        dsimp only
        rw [hrest]
        rfl
      · rintro rfl
        have hstatus : r₁.status ≠ .ready := fun hready =>
          Bool.false_ne_true (hread.ready.mp hready)
        rw [calls_of_not_ready hstatus] at hrest
        cases hrest
        rfl

/-! ## Forms -/

omit hesl in
/-- All that a form holds are stretches of the body. -/
structure MultipartForm.LiesIn (form : MultipartForm) (body : Bytes) : Prop where
  values : ∀ name value, form.values.lookup name = some value → name <:+: body ∧ value <:+: body
  files : ∀ name file, form.files.lookup name = some file →
    name <:+: body ∧ file.filename <:+: body ∧ file.data <:+: body

omit hesl in
theorem lookup_emplace {V : Type} {P : Bytes → V → Prop} {table : AList fun _ : Bytes => V}
    (htable : ∀ name value, table.lookup name = some value → P name value) {key : Bytes} {new : V}
    (hnew : P key new) {name : Bytes} {value : V}
    (hlookup : (emplace table key new).lookup name = some value) : P name value := by
  rw [emplace] at hlookup
  split at hlookup
  next => exact htable name value hlookup
  next =>
    by_cases hname : name = key
    · subst hname
      rw [AList.lookup_insert, Option.some.injEq] at hlookup
      exact hlookup ▸ hnew
    · rw [AList.lookup_insert_ne hname] at hlookup
      exact htable name value hlookup

omit hesl in
theorem MultipartForm.LiesIn.addPart {form : MultipartForm} {part : ContentPart} {start stop : ℕ}
    (hform : form.LiesIn body.text) (hpart : part.LiesIn body start stop) :
    (form.addPart part).LiesIn body.text := by
  have hname := hpart.header.name.isInfix
  have hfilename := hpart.header.filename.isInfix
  have hdata := hpart.data.isInfix
  rw [MultipartForm.addPart]
  split
  next => exact ⟨fun _ _ => lookup_emplace hform.values ⟨hname, hdata⟩, hform.files⟩
  next => exact ⟨hform.values, fun _ _ => lookup_emplace hform.files ⟨hname, hfilename, hdata⟩⟩

theorem readParts_spec {r : MultipartReader} {form : MultipartForm} {fuel : ℕ}
    (hoffset : body.offset = 0) (hr : body.Piece r.body) (hboundary : r.boundary ≠ [])
    (hform : form.LiesIn body.text) (hfuel : r.body.text.length < fuel) :
    ∃ form' r', readParts esl fuel r form = .ok (form', r') ∧ form'.LiesIn body.text := by
  induction fuel generalizing r form with
  | zero => exact absurd hfuel (Nat.not_lt_zero _)
  | succ fuel ih =>
      obtain ⟨part, r₁, hrun, hread⟩ := readNextPart_spec hesl hoffset hr hboundary
      rw [readParts, hrun, View.ok_bind]
      cases part with
      | none => exact ⟨form, r₁, rfl, hform⟩
      | some part =>
          refine ih (hr.trans hread.tail.piece) (hread.boundary ▸ hboundary)
            (hform.addPart (hread.lies part rfl)) ?_
          exact (hread.shorter rfl).trans_le (Nat.le_of_lt_succ hfuel)

end Lawful

/-! ## The parser -/

/-- What the parser and its reader guarantee on any input. -/
structure ParsesSafely (esl : EslStrings) (body boundary : Bytes) : Prop where
  /-- Both loops end, and all operations stay within the views. -/
  returns : ∃ result, parseMultipartForm esl body boundary = .ok result
  rejects : body = [] ∨ boundary = [] →
    ∃ message, parseMultipartForm esl body boundary = .ok (.error message)
  form : ∀ form, parseMultipartForm esl body boundary = .ok (.ok form) → form.LiesIn body
  calls : ∀ r, MultipartReader.new body boundary = .ok r → ∀ count, ∃ results r',
    r.calls esl count = .ok (results, r') ∧ Calls ⟨0, body⟩ r r' results
  stays : ∀ r count results r', MultipartReader.new body boundary = .ok r →
    r.calls esl count = .ok (results, r') → none ∈ results →
      (r'.status = .done ∨ r'.status = .malformed) ∧
        ∀ more, r'.calls esl more = .ok (List.replicate more none, r')

theorem new_eq_ok {body : Bytes} {r : MultipartReader} :
    MultipartReader.new body boundary = .ok r ↔
      body ≠ [] ∧ boundary ≠ [] ∧ r = { body := ⟨0, body⟩, boundary } := by
  rw [MultipartReader.new]
  split
  next hbody => simp [hbody]
  next hbody =>
    split
    next hboundary => simp [hboundary]
    next hboundary => simp [hbody, hboundary, eq_comm]

theorem calls_new {body : Bytes} {r : MultipartReader} (hesl : esl.Lawful)
    (hnew : MultipartReader.new body boundary = .ok r) (count : ℕ) :
    ∃ results r', r.calls esl count = .ok (results, r') ∧ Calls ⟨0, body⟩ r r' results := by
  obtain ⟨-, hboundary, rfl⟩ := new_eq_ok.mp hnew
  exact calls_spec hesl rfl (View.Tail.refl ⟨0, body⟩).piece hboundary count

theorem readParts_new {body : Bytes} {r : MultipartReader} (hesl : esl.Lawful)
    (hnew : MultipartReader.new body boundary = .ok r) :
    ∃ form r', readParts esl (body.length + 1) r ⟨∅, ∅⟩ = .ok (form, r') ∧ form.LiesIn body := by
  have hempty : MultipartForm.LiesIn ⟨∅, ∅⟩ (View.text ⟨0, body⟩) := ⟨by simp, by simp⟩
  obtain ⟨-, hboundary, rfl⟩ := new_eq_ok.mp hnew
  exact readParts_spec hesl rfl (View.Tail.refl ⟨0, body⟩).piece hboundary hempty
    (Nat.lt_succ_self _)

/-- **The parser is safe on any input.** -/
theorem parse_safe (hesl : esl.Lawful) (body boundary : Bytes) :
    ParsesSafely esl body boundary := by
  refine ⟨?_, ?_, ?_, ?_, ?_⟩
  · rw [parseMultipartForm]
    cases hnew : MultipartReader.new body boundary with
    | error message => exact ⟨_, rfl⟩
    | ok r =>
        obtain ⟨form, r', hrun, -⟩ := readParts_new hesl hnew
        dsimp only
        rw [hrun, View.ok_bind]
        dsimp only
        split
        next => exact ⟨_, rfl⟩
        next => exact ⟨_, rfl⟩
  · intro h
    rw [parseMultipartForm]
    cases hnew : MultipartReader.new body boundary with
    | error message => exact ⟨message, rfl⟩
    | ok r =>
        obtain ⟨hbody, hboundary, -⟩ := new_eq_ok.mp hnew
        exact absurd h (not_or.mpr ⟨hbody, hboundary⟩)
  · intro form hform
    rw [parseMultipartForm] at hform
    cases hnew : MultipartReader.new body boundary with
    | error message =>
        rw [hnew] at hform
        cases hform
    | ok r =>
        obtain ⟨form', r', hrun, hlies⟩ := readParts_new hesl hnew
        rw [hnew] at hform
        dsimp only at hform
        rw [hrun, View.ok_bind] at hform
        dsimp only at hform
        split at hform
        next => cases hform
        next =>
          cases hform
          exact hlies
  · intro r hnew count
    exact calls_new hesl hnew count
  · intro r count results r' hnew hrun hmem
    obtain ⟨results', s, hrun', hcalls⟩ := calls_new hesl hnew count
    rw [hrun, Except.ok.injEq, Prod.mk.injEq] at hrun'
    obtain ⟨rfl, rfl⟩ := hrun'
    have hstatus := hcalls.not_ready hmem
    refine ⟨?_, calls_of_not_ready hstatus⟩
    cases hcase : r'.status with
    | ready => exact absurd hcase hstatus
    | done => exact .inl rfl
    | malformed => exact .inr rfl

/-- A part without a file name, and the end. -/
def oneField : Bytes :=
  ascii "--b\r\nContent-Disposition: form-data; name=\"n\"\r\n\r\nv\r\n--b--\r\n"

theorem parse_safe_oneField : ParsesSafely plain oneField (ascii "b") :=
  parse_safe plain_lawful oneField (ascii "b")

end Eureka.Multipart

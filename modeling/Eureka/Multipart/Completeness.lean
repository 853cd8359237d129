import Eureka.Multipart.Delimiters
import Eureka.Multipart.Headers

/-!
# Which forms are read back

A form is read back part by part up to the first one whose data are empty or do
not delimit themselves.  There the reader gives up, or takes the data for other
ones, which stay in the form.

* `readNextPart_readable`, `readNextPart_not_readable`: one part;
* `readParts_iff`: the loop over all parts, against those that were read before;
* `parse_complete_iff`: the whole form.
-/

namespace Eureka.Multipart

open TextSearch Consumer

/-! ## What is sent -/

def serialize (boundary : Bytes) : List Part → Bytes
  | [] => dashes ++ (boundary ++ (dashes ++ newline))
  | part :: parts =>
      dashes ++ (boundary ++ (newline ++ (part.headerText ++
        (part.data ++ (newline ++ serialize boundary parts)))))

/-- The data are there, and the search stops behind them. -/
def Readable (boundary : Bytes) (part : Part) : Prop :=
  part.data ≠ [] ∧ Delimits boundary part.data

variable {boundary : Bytes} {part : Part} {parts : List Part}

theorem serialize_eq (boundary : Bytes) (parts : List Part) :
    ∃ rest, serialize boundary parts = dashes ++ (boundary ++ rest) := by
  cases parts with
  | nil => exact ⟨_, rfl⟩
  | cons part parts => exact ⟨_, rfl⟩

/-! ## One part -/

variable {esl : EslStrings} {r : MultipartReader}

section Lawful

variable (hesl : esl.Lawful)
include hesl

theorem consumeDelimiter_append {v : StringView} {rest : Bytes}
    (hv : v.text = dashes ++ (boundary ++ rest)) :
    ∃ w, consumeDelimiter esl boundary v = .ok (some (), w) ∧ w.text = rest := by
  obtain ⟨v₁, hrun₁, hv₁⟩ := Part.consumeAny_append hesl hv
  obtain ⟨w, hrun, hw⟩ := Part.consumeAny_append hesl hv₁
  exact ⟨w, (bind_of_some hrun₁).trans hrun, hw⟩

theorem readNextPart_end (hstatus : r.status = .ready)
    (hbody : r.body.text = serialize r.boundary []) :
    ∃ r', r.readNextPart esl = .ok (none, r') ∧ r'.status = .done := by
  obtain ⟨v₁, hrun₁, hv₁⟩ := consumeDelimiter_append hesl hbody
  obtain ⟨w, hrun, hw⟩ := Part.consumeAny_append hesl hv₁
  rw [MultipartReader.readNextPart, if_neg (not_not.mpr hstatus), hrun₁, View.ok_bind]
  dsimp only
  rw [hrun, View.ok_bind]
  exact ⟨_, rfl, if_pos hw⟩

theorem readNextPart_part (hboundary : r.boundary ≠ []) (hstatus : r.status = .ready)
    (hbody : r.body.text = serialize r.boundary (part :: parts)) :
    ∃ (header : ContentHeader) (found w : StringView), header.name.text = part.name ∧
      header.filename.text = part.filename.getD [] ∧
      r.readNextPart esl = (if found.text = [] then
        .ok (none, { r with body := w, status := .malformed })
      else .ok (some { header with data := found }, { r with body := w, status := .ready })) ∧
      (part.data ≠ [] → (found.text = part.data ↔ Delimits r.boundary part.data)) ∧
      (part.data ≠ [] → found.text = part.data → w.text = serialize r.boundary parts) := by
  obtain ⟨rest, hrest⟩ := serialize_eq r.boundary parts
  have hclosing : newline ++ serialize r.boundary parts = closing r.boundary ++ rest := by
    have hprefix : newline ++ dashes = delimPrefix := by decide
    rw [hrest, closing, ← hprefix]
    simp only [List.append_assoc]
  rw [serialize, hclosing] at hbody
  obtain ⟨v₁, hrun₁, hv₁⟩ := consumeDelimiter_append hesl hbody
  have hnewline : ¬ dashes <+: v₁.text := by
    intro hprefix
    rw [hv₁, Part.newline_eq] at hprefix
    exact absurd (List.cons_prefix_cons.mp hprefix).1 (by decide)
  obtain ⟨header, v₂, hv₂, hname, hfilename, hrun₂⟩ :=
    Part.consumePart_headerText hesl part r.boundary hv₁
  obtain ⟨found, w, hrun₃, hiff, hw⟩ :=
    consumeDataPart_iff hesl hboundary (hv₂.trans (List.append_assoc _ _ _).symm)
  refine ⟨header, found, w, hname, hfilename, ?_, hiff, fun hne heq => ?_⟩
  · rw [MultipartReader.readNextPart, if_neg (not_not.mpr hstatus), hrun₁, View.ok_bind]
    dsimp only
    rw [Part.consumeAny_of_not_prefix hesl hnewline, View.ok_bind]
    dsimp only
    rw [hrun₂, bind_of_some hrun₃]
    split
    next => rfl
    next => rfl
  · rw [hw hne heq, hrest]

/-- What is read of a part, and its data. -/
structure Found (part : Part) (data : Bytes) (found : ContentPart) : Prop where
  name : found.name.text = part.name
  filename : found.filename.text = part.filename.getD []
  data : found.data.text = data

theorem readNextPart_readable (hboundary : r.boundary ≠ []) (hstatus : r.status = .ready)
    (hbody : r.body.text = serialize r.boundary (part :: parts))
    (hreadable : Readable r.boundary part) :
    ∃ found r', r.readNextPart esl = .ok (some found, r') ∧ Found part part.data found ∧
      r'.status = .ready ∧ r'.boundary = r.boundary ∧
      r'.body.text = serialize r.boundary parts := by
  obtain ⟨header, found, w, hname, hfilename, hrun, hiff, hw⟩ :=
    readNextPart_part hesl hboundary hstatus hbody
  obtain ⟨hne, hdelimits⟩ := hreadable
  have hdata := (hiff hne).mpr hdelimits
  rw [if_neg (hdata ▸ hne)] at hrun
  exact ⟨_, _, hrun, ⟨hname, hfilename, hdata⟩, rfl, rfl, hw hne hdata⟩

theorem readNextPart_not_readable (hboundary : r.boundary ≠ []) (hstatus : r.status = .ready)
    (hbody : r.body.text = serialize r.boundary (part :: parts))
    (hreadable : ¬ Readable r.boundary part) :
    (∃ r', r.readNextPart esl = .ok (none, r') ∧ r'.status = .malformed) ∨
      ∃ found r' data, r.readNextPart esl = .ok (some found, r') ∧ Found part data found ∧
        data ≠ part.data := by
  obtain ⟨header, found, w, hname, hfilename, hrun, hiff, -⟩ :=
    readNextPart_part hesl hboundary hstatus hbody
  by_cases hempty : found.text = []
  · rw [if_pos hempty] at hrun
    exact .inl ⟨_, hrun, rfl⟩
  · rw [if_neg hempty] at hrun
    refine .inr ⟨_, _, found.text, hrun, ⟨hname, hfilename, rfl⟩, fun hdata => hreadable ?_⟩
    have hne : part.data ≠ [] := hdata ▸ hempty
    exact ⟨hne, (hiff hne).mp hdata⟩

end Lawful

/-! ## Forms -/

/-- The form holds these parts with their data, and nothing else. -/
structure MultipartForm.Holds (form : MultipartForm) (parts : List Part) : Prop where
  values : ∀ name value, form.values.lookup name = some value ↔
    ∃ part ∈ parts, part.name = name ∧ part.filename = none ∧ part.data = value
  files : ∀ name file, form.files.lookup name = some file ↔
    ∃ part ∈ parts, part.name = name ∧ part.filename = some file.filename ∧ part.data = file.data

theorem lookup_emplace_of_some {V : Type} {table : AList fun _ : Bytes => V} {key name : Bytes}
    {new value : V} (h : table.lookup name = some value) :
    (emplace table key new).lookup name = some value := by
  rw [emplace]
  split
  next => exact h
  next hkey =>
    have hne : name ≠ key := by
      rintro rfl
      exact hkey (AList.lookup_isSome.mp (by rw [h]; rfl))
    rw [AList.lookup_insert_ne hne, h]

theorem lookup_emplace_iff {V : Type} {table : AList fun _ : Bytes => V} {key name : Bytes}
    {new value : V} (hkey : key ∉ table) :
    (emplace table key new).lookup name = some value ↔
      table.lookup name = some value ∨ name = key ∧ new = value := by
  rw [emplace, if_neg hkey]
  by_cases hname : name = key
  · subst hname
    have hnone : table.lookup name = none := AList.lookup_eq_none.mpr hkey
    rw [AList.lookup_insert, hnone, Option.some.injEq]
    simp
  · rw [AList.lookup_insert_ne hname]
    simp [hname]

variable {form form' : MultipartForm} {found : ContentPart} {data : Bytes}

theorem addPart_of_none (h : Found part data found) (hfilename : part.filename = none) :
    form.addPart found = { form with values := emplace form.values part.name data } := by
  have hempty : found.filename.text = [] := by
    rw [h.filename, hfilename]
    rfl
  rw [MultipartForm.addPart, if_pos hempty, h.name, h.data]

theorem addPart_of_some (h : Found part data found) {filename : Bytes}
    (hfilename : part.filename = some filename) :
    form.addPart found = { form with files := emplace form.files part.name ⟨filename, data⟩ } := by
  have hname : found.filename.text = filename := by
    rw [h.filename, hfilename]
    rfl
  have hne : ¬ found.filename.text = [] := by
    rw [hname]
    exact (part.filename_ok filename hfilename).ne_nil
  rw [MultipartForm.addPart, if_neg hne, h.name, h.data, hname]

variable {done : List Part}

theorem MultipartForm.Holds.not_mem_values (h : form.Holds done)
    (hnew : ∀ other ∈ done, other.name ≠ part.name) : part.name ∉ form.values := by
  intro hmem
  obtain ⟨value, hvalue⟩ := Option.isSome_iff_exists.mp (AList.lookup_isSome.mpr hmem)
  obtain ⟨other, hother, hname, -⟩ := (h.values part.name value).mp hvalue
  exact hnew other hother hname

theorem MultipartForm.Holds.not_mem_files (h : form.Holds done)
    (hnew : ∀ other ∈ done, other.name ≠ part.name) : part.name ∉ form.files := by
  intro hmem
  obtain ⟨file, hfile⟩ := Option.isSome_iff_exists.mp (AList.lookup_isSome.mpr hmem)
  obtain ⟨other, hother, hname, -⟩ := (h.files part.name file).mp hfile
  exact hnew other hother hname

theorem exists_mem_concat {P : Part → Prop} :
    (∃ other ∈ done ++ [part], P other) ↔ (∃ other ∈ done, P other) ∨ P part := by
  simp only [List.mem_append, List.mem_singleton, or_and_right, exists_or, exists_eq_left]

theorem MultipartForm.Holds.addPart (h : form.Holds done)
    (hnew : ∀ other ∈ done, other.name ≠ part.name) (hfound : Found part part.data found) :
    (form.addPart found).Holds (done ++ [part]) := by
  cases hfilename : part.filename with
  | none =>
      rw [addPart_of_none hfound hfilename]
      refine ⟨fun name value => ?_, fun name file => ?_⟩
      · rw [lookup_emplace_iff (h.not_mem_values hnew), h.values, exists_mem_concat]
        simp only [hfilename, true_and, eq_comm (a := name)]
      · rw [h.files, exists_mem_concat]
        simp [hfilename]
  | some filename =>
      rw [addPart_of_some hfound hfilename]
      refine ⟨fun name value => ?_, fun name file => ?_⟩
      · rw [h.values, exists_mem_concat]
        simp [hfilename]
      · rw [lookup_emplace_iff (h.not_mem_files hnew), h.files, exists_mem_concat]
        cases file
        simp only [hfilename, File.mk.injEq, Option.some.injEq, eq_comm (a := name)]

/-- What is in the first form is in the second one. -/
structure Extends (form form' : MultipartForm) : Prop where
  values : ∀ name value, form.values.lookup name = some value →
    form'.values.lookup name = some value
  files : ∀ name file, form.files.lookup name = some file → form'.files.lookup name = some file

/-- Nothing that was read is overwritten. -/
theorem readParts_extends {fuel : ℕ} {r' : MultipartReader}
    (h : readParts esl fuel r form = .ok (form', r')) : Extends form form' := by
  induction fuel generalizing r form with
  | zero => cases h
  | succ fuel ih =>
      rw [readParts] at h
      cases hread : r.readNextPart esl with
      | error fault =>
          rw [hread] at h
          cases h
      | ok result =>
          obtain ⟨part, r₁⟩ := result
          rw [hread, View.ok_bind] at h
          cases part with
          | none =>
              cases h
              exact ⟨fun _ _ h => h, fun _ _ h => h⟩
          | some part =>
              have hrest := ih h
              rw [MultipartForm.addPart] at hrest
              split at hrest
              next =>
                exact ⟨fun name value hvalue => hrest.values name value (lookup_emplace_of_some hvalue),
                  hrest.files⟩
              next =>
                exact ⟨hrest.values,
                  fun name file hfile => hrest.files name file (lookup_emplace_of_some hfile)⟩

theorem MultipartForm.Holds.not_holds (h : form.Holds done)
    (hnew : ∀ other ∈ done, other.name ≠ part.name) (hfound : Found part data found)
    (hdata : data ≠ part.data) (hextends : Extends (form.addPart found) form')
    (hnodup : ((done ++ part :: parts).map Part.name).Nodup) :
    ¬ form'.Holds (done ++ part :: parts) := by
  intro hholds
  have honly : ∀ other ∈ done ++ part :: parts, other.name = part.name → other = part :=
    fun other hother => List.inj_on_of_nodup_map hnodup hother
      (List.mem_append_right _ List.mem_cons_self)
  cases hfilename : part.filename with
  | none =>
      rw [addPart_of_none hfound hfilename] at hextends
      obtain ⟨other, hother, hname, -, hvalue⟩ := (hholds.values part.name data).mp
        (hextends.values part.name data
          ((lookup_emplace_iff (h.not_mem_values hnew)).mpr (.inr ⟨rfl, rfl⟩)))
      rw [honly other hother hname] at hvalue
      exact hdata hvalue.symm
  | some filename =>
      rw [addPart_of_some hfound hfilename] at hextends
      obtain ⟨other, hother, hname, -, hvalue⟩ := (hholds.files part.name ⟨filename, data⟩).mp
        (hextends.files part.name ⟨filename, data⟩
          ((lookup_emplace_iff (h.not_mem_files hnew)).mpr (.inr ⟨rfl, rfl⟩)))
      rw [honly other hother hname] at hvalue
      exact hdata hvalue.symm

/-! ## All parts -/

theorem readParts_iff (hesl : esl.Lawful) {fuel : ℕ} (hboundary : r.boundary ≠ [])
    (hstatus : r.status = .ready) (hbody : r.body.text = serialize r.boundary parts)
    (hholds : form.Holds done) (hnodup : ((done ++ parts).map Part.name).Nodup)
    (hfuel : parts.length < fuel) :
    (∃ form' r', readParts esl fuel r form = .ok (form', r') ∧ r'.status = .done ∧
      form'.Holds (done ++ parts)) ↔ ∀ part ∈ parts, Readable r.boundary part := by
  induction fuel generalizing r form done parts with
  | zero => exact absurd hfuel (Nat.not_lt_zero _)
  | succ fuel ih =>
      cases parts with
      | nil =>
          obtain ⟨r', hrun, hdone⟩ := readNextPart_end hesl hstatus hbody
          refine iff_of_true ⟨form, r', ?_, hdone, by rwa [List.append_nil]⟩ (List.forall_mem_nil _)
          rw [readParts, hrun]
          rfl
      | cons part parts =>
          have hnew : ∀ other ∈ done, other.name ≠ part.name := by
            rw [List.map_append, List.nodup_append'] at hnodup
            intro other hother hname
            exact hnodup.2.2 (List.mem_map_of_mem hother)
              (hname ▸ List.mem_cons_self)
          by_cases hreadable : Readable r.boundary part
          · obtain ⟨found, r₁, hrun, hfound, hstatus₁, hboundary₁, hbody₁⟩ :=
              readNextPart_readable hesl hboundary hstatus hbody hreadable
            have hsplit : done ++ part :: parts = done ++ [part] ++ parts := by
              rw [List.append_assoc, List.singleton_append]
            rw [readParts, hrun, View.ok_bind, List.forall_mem_cons, and_iff_right hreadable, hsplit]
            rw [← hboundary₁] at hboundary hbody₁ ⊢
            exact ih hboundary hstatus₁ hbody₁ (hholds.addPart hnew hfound) (hsplit ▸ hnodup)
              (Nat.lt_of_succ_lt_succ hfuel)
          · refine iff_of_false ?_ fun h => hreadable (h part List.mem_cons_self)
            rintro ⟨form', r', hrun, hdone, hholds'⟩
            rcases readNextPart_not_readable hesl hboundary hstatus hbody hreadable with
              ⟨r₁, hread, hmalformed⟩ | ⟨found, r₁, data, hread, hfound, hdata⟩
            · rw [readParts, hread, View.ok_bind] at hrun
              cases hrun
              rw [hmalformed] at hdone
              cases hdone
            · rw [readParts, hread, View.ok_bind] at hrun
              exact hholds.not_holds hnew hfound hdata (readParts_extends hrun) hnodup hholds'

/-! ## The whole form -/

theorem length_le_serialize (boundary : Bytes) (parts : List Part) :
    parts.length ≤ (serialize boundary parts).length := by
  induction parts with
  | nil => exact Nat.zero_le _
  | cons part parts ih =>
      have hdashes : dashes.length = 2 := rfl
      simp only [serialize, List.length_append, List.length_cons]
      omega

theorem parse_eq_ok_iff {body : Bytes} (hnew : MultipartReader.new body boundary = .ok r) :
    parseMultipartForm esl body boundary = .ok (.ok form) ↔
      ∃ r', readParts esl (body.length + 1) r ⟨∅, ∅⟩ = .ok (form, r') ∧ r'.status = .done := by
  rw [parseMultipartForm, hnew]
  dsimp only
  cases hrun : readParts esl (body.length + 1) r ⟨∅, ∅⟩ with
  | error fault =>
      refine iff_of_false (fun h => ?_) fun h => ?_
      · cases h
      · obtain ⟨r', h, -⟩ := h
        cases h
  | ok result =>
      obtain ⟨form', r'⟩ := result
      rw [View.ok_bind]
      dsimp only
      split
      next hstatus =>
        refine iff_of_false (fun h => ?_) fun h => ?_
        · cases h
        · obtain ⟨r'', h, hdone⟩ := h
          cases h
          exact hstatus hdone
      next hstatus =>
        constructor
        · intro h
          cases h
          exact ⟨r', rfl, not_not.mp hstatus⟩
        · rintro ⟨r'', h, -⟩
          cases h
          rfl

/-- **Completeness**: a form of parts with different names is read back exactly if no data are empty
and all of them delimit themselves. -/
theorem parse_complete_iff (hesl : esl.Lawful) (hboundary : boundary ≠ [])
    (hnodup : (parts.map Part.name).Nodup) :
    (∃ form, parseMultipartForm esl (serialize boundary parts) boundary = .ok (.ok form) ∧
      form.Holds parts) ↔ ∀ part ∈ parts, Readable boundary part := by
  obtain ⟨rest, hserialize⟩ := serialize_eq boundary parts
  have hbody : serialize boundary parts ≠ [] := by
    rw [hserialize]
    exact List.append_ne_nil_of_left_ne_nil (by decide) _
  have hnew := new_eq_ok.mpr ⟨hbody, hboundary, rfl⟩
  have hempty : MultipartForm.Holds ⟨∅, ∅⟩ [] := ⟨by simp, by simp⟩
  have hiff := readParts_iff (r := { body := ⟨0, serialize boundary parts⟩, boundary }) hesl
    hboundary rfl rfl hempty hnodup (Nat.lt_succ_of_le (length_le_serialize boundary parts))
  rw [← hiff]
  simp only [parse_eq_ok_iff hnew]
  constructor
  · rintro ⟨form, ⟨r', hrun, hdone⟩, hholds⟩
    exact ⟨form, r', hrun, hdone, hholds⟩
  · rintro ⟨form, r', hrun, hdone, hholds⟩
    exact ⟨form, ⟨r', hrun, hdone⟩, hholds⟩

theorem quotable_of_forall {text : Bytes} (h : text ≠ [])
    (hchars : ∀ c ∈ text, c ≠ 34 ∧ c ≠ 59 ∧ c ≠ 13 ∧ c ≠ 10) : Quotable text where
  ne_nil := h
  quote hmem := (hchars 34 hmem).1 rfl
  semicolon hmem := (hchars 59 hmem).2.1 rfl
  carriage_return hmem := (hchars 13 hmem).2.2.1 rfl
  line_feed hmem := (hchars 10 hmem).2.2.2 rfl

/-- A part without a file name and a content type. -/
def field (data : Bytes) : Part where
  name := ascii "n"
  filename := none
  contentType := none
  typeFirst := false
  data := data
  name_ok := quotable_of_forall (by decide) (by decide +kernel)
  filename_ok := by simp
  contentType_ok := by simp

theorem parse_complete_iff_field : ∃ form, parseMultipartForm plain
    (serialize (ascii "b") [field (ascii "v")]) (ascii "b") = .ok (.ok form) ∧
      form.Holds [field (ascii "v")] := by
  have hdelimits : Delimits (ascii "b") (ascii "v") :=
    ⟨[], .next (by decide) (.missing (by decide)), List.forall_mem_nil _⟩
  have hnodup : ([field (ascii "v")].map Part.name).Nodup := List.nodup_singleton (ascii "n")
  refine (parse_complete_iff plain_lawful (by decide) hnodup).mpr ?_
  exact List.forall_mem_singleton.mpr ⟨List.cons_ne_nil _ _, hdelimits⟩

/-- The boundary is `b`, and the data begin with that letter. -/
theorem parse_not_complete : parseMultipartForm plain
    (serialize (ascii "b") [field (ascii "bv")]) (ascii "b") =
      .ok (.error "malformed request body") := by
  rfl

end Eureka.Multipart

import Eureka.Bytes
import Eureka.Library.View
import Eureka.Library.TextSearch

/-!
# Strings and the multipart reader

The functions of `esl::strings` that the multipart reader uses are a parameter;
`EslStrings.Lawful` says what they do.  They hand out views of what they are
given.  `plain_lawful`: there are such functions.
-/

namespace Eureka.Multipart

abbrev StringView := View Byte

/-- The functions of `esl::strings` that the reader uses. -/
structure EslStrings where
  startsWith : Bytes → Bytes → Bool
  startsWithIgnoreAsciiCase : Bytes → Bytes → Bool
  equalsIgnoreAsciiCase : Bytes → Bytes → Bool
  trim : StringView → Bytes → StringView
  split : StringView → Bytes → List StringView

def asciiLower (c : Byte) : Byte := if 65 ≤ c ∧ c ≤ 90 then c + 32 else c

/-- A text without the given characters at its edges. -/
def strip (chars text : Bytes) : Bytes :=
  (text.dropWhile (· ∈ chars)).rdropWhile (· ∈ chars)

/-- The functions do what their names say.  Which tokens `split` makes is not said where one of them
is empty. -/
structure EslStrings.Lawful (esl : EslStrings) : Prop where
  startsWith_iff : ∀ text start, esl.startsWith text start = true ↔ start <+: text
  startsWithIgnoreAsciiCase_iff : ∀ text start,
    esl.startsWithIgnoreAsciiCase text start = true ↔ start.map asciiLower <+: text.map asciiLower
  equalsIgnoreAsciiCase_iff : ∀ text other,
    esl.equalsIgnoreAsciiCase text other = true ↔ text.map asciiLower = other.map asciiLower
  trim_piece : ∀ (v : StringView) (chars : Bytes), v.Piece (esl.trim v chars)
  trim_text : ∀ (v : StringView) (chars : Bytes), (esl.trim v chars).text = strip chars v.text
  split_piece : ∀ (v : StringView) (delim : Bytes), ∀ w ∈ esl.split v delim, v.Piece w
  split_text : ∀ (v : StringView) (delim : Byte) (tokens : List Bytes), tokens ≠ [] →
    (∀ token ∈ tokens, token ≠ [] ∧ delim ∉ token) → v.text = [delim].intercalate tokens →
      (esl.split v [delim]).map View.text = tokens

/-! ## Functions that do so -/

/-- The tokens, with a delimiter of one byte between them, in a text that begins at this place. -/
def placeTokens : ℕ → List Bytes → List StringView
  | _, [] => []
  | offset, token :: tokens => ⟨offset, token⟩ :: placeTokens (offset + token.length + 1) tokens

def plain : EslStrings where
  startsWith text start := start.isPrefixOf text
  startsWithIgnoreAsciiCase text start := (start.map asciiLower).isPrefixOf (text.map asciiLower)
  equalsIgnoreAsciiCase text other := text.map asciiLower = other.map asciiLower
  trim v chars := ⟨v.offset + (v.text.takeWhile (· ∈ chars)).length, strip chars v.text⟩
  split v delim :=
    match delim with
    | [c] => placeTokens v.offset (v.text.splitOn c)
    | _ => [v]

theorem strip_piece (v : StringView) (chars : Bytes) :
    v.Piece ⟨v.offset + (v.text.takeWhile (· ∈ chars)).length, strip chars v.text⟩ := by
  refine ⟨v.text.takeWhile (· ∈ chars), (v.text.dropWhile (· ∈ chars)).rtakeWhile (· ∈ chars),
    ?_, rfl⟩
  rw [strip, List.rdropWhile_append_rtakeWhile, List.takeWhile_append_dropWhile]

theorem placeTokens_piece {delim : Byte} {tokens : List Bytes} {offset : ℕ} {w : StringView}
    (hw : w ∈ placeTokens offset tokens) : View.Piece ⟨offset, [delim].intercalate tokens⟩ w := by
  induction tokens generalizing offset with
  | nil => exact absurd hw List.not_mem_nil
  | cons token tokens ih =>
      cases tokens with
      | nil =>
          obtain rfl := List.mem_singleton.mp hw
          exact ⟨[], [], by simp [List.intercalate], rfl⟩
      | cons next tokens =>
          have hjoin : [delim].intercalate (token :: next :: tokens) =
              token ++ [delim] ++ [delim].intercalate (next :: tokens) := by
            rw [List.intercalate_cons_cons, List.append_assoc]
          rw [hjoin]
          rcases List.mem_cons.mp hw with rfl | hw
          · exact ⟨[], [delim] ++ [delim].intercalate (next :: tokens), by
              rw [List.append_assoc]; rfl, rfl⟩
          · have htail : View.Tail ⟨offset, token ++ [delim] ++ [delim].intercalate (next :: tokens)⟩
                ⟨offset + token.length + 1, [delim].intercalate (next :: tokens)⟩ :=
              ⟨token ++ [delim], rfl, by rw [List.length_append]; rfl⟩
            exact htail.piece.trans (ih hw)

theorem map_text_placeTokens (offset : ℕ) (tokens : List Bytes) :
    (placeTokens offset tokens).map View.text = tokens := by
  induction tokens generalizing offset with
  | nil => rfl
  | cons token tokens ih => rw [placeTokens, List.map_cons, ih]

theorem plain_lawful : plain.Lawful where
  startsWith_iff _ _ := List.isPrefixOf_iff_prefix
  startsWithIgnoreAsciiCase_iff _ _ := List.isPrefixOf_iff_prefix
  equalsIgnoreAsciiCase_iff _ _ := decide_eq_true_iff
  trim_piece := strip_piece
  trim_text _ _ := rfl
  split_piece v delim w hw := by
    rcases delim with _ | ⟨c, _ | ⟨d, delim⟩⟩
    · exact List.mem_singleton.mp hw ▸ (View.Tail.refl v).piece
    · have hpiece : View.Piece ⟨v.offset, [c].intercalate (v.text.splitOn c)⟩ w :=
        placeTokens_piece hw
      rwa [List.intercalate_splitOn] at hpiece
    · exact List.mem_singleton.mp hw ▸ (View.Tail.refl v).piece
  split_text v delim tokens hne htokens htext := by
    show (placeTokens v.offset (v.text.splitOn delim)).map View.text = tokens
    rw [map_text_placeTokens, htext]
    exact List.splitOn_intercalate delim (fun token htoken => (htokens token htoken).2) hne

end Eureka.Multipart

/-!
## The multipart reader

`multipart_reader` takes the parts off the front of a request body: the dashed
boundary, one or two content headers, an empty line, and the data up to the next
dashed boundary.  All texts it hands out are views of the body.  A view that is
shortened by more than its length, and a loop that does not come to its end, are
faults.
-/

namespace Eureka.Multipart

open TextSearch

def newline : Bytes := ascii "\r\n"
def dashes : Bytes := ascii "--"
def hdrContentDisposition : Bytes := ascii "Content-Disposition:"
def hdrContentType : Bytes := ascii "Content-Type:"
def paramName : Bytes := ascii "name="
def paramFilename : Bytes := ascii "filename="

/-- `delim_prefix` of `find_dashed_boundary`. -/
def delimPrefix : Bytes := ascii "\r\n--"

/-! ## Parts and forms -/

structure ContentHeader where
  name : StringView := .null
  filename : StringView := .null
  contentType : StringView := .null
deriving DecidableEq

structure ContentPart extends ContentHeader where
  data : StringView
deriving DecidableEq

structure File where
  filename : Bytes
  data : Bytes
deriving DecidableEq

structure MultipartForm where
  values : AList fun _ : Bytes => Bytes
  files : AList fun _ : Bytes => File

/-- `unordered_map::emplace`. -/
def emplace {V : Type} (table : AList fun _ : Bytes => V) (key : Bytes) (value : V) :
    AList fun _ : Bytes => V :=
  if key ∈ table then table else table.insert key value

def MultipartForm.addPart (form : MultipartForm) (part : ContentPart) : MultipartForm :=
  if part.filename.text = [] then
    { form with values := emplace form.values part.name.text part.data.text }
  else
    { form with files := emplace form.files part.name.text ⟨part.filename.text, part.data.text⟩ }

inductive ReadStatus
  | ready
  | done
  | malformed
deriving DecidableEq, Repr

structure MultipartReader where
  body : StringView
  boundary : Bytes
  status : ReadStatus := .ready
deriving DecidableEq

/-- The constructor, with the texts of its exceptions. -/
def MultipartReader.new (body boundary : Bytes) : Except String MultipartReader :=
  if body = [] then .error "empty body"
  else if boundary = [] then .error "invalid boundary"
  else .ok { body := ⟨0, body⟩, boundary }

section Reader

variable (esl : EslStrings)

/-! ## The boundary -/

/-- The loop of `find_dashed_boundary`; `none` is `npos`. -/
def findDashedBoundaryFrom (str : StringView) (boundary : Bytes) :
    ℕ → ℕ → Except ViewFault (Option ℕ)
  | 0, _ => .error .endless
  | fuel + 1, pos =>
      match find str.text boundary pos with
      | none => .ok none
      | some xpos =>
          if xpos < delimPrefix.length then .ok none
          else do
            let tail ← str.substrFrom (xpos - delimPrefix.length)
            if esl.startsWith tail.text delimPrefix then
              return some (xpos - dashes.length)
            else
              findDashedBoundaryFrom str boundary fuel (xpos + boundary.length)

/-- Position of the first `--boundary` that a line begins with. -/
def findDashedBoundary (str : StringView) (boundary : Bytes) : Except ViewFault (Option ℕ) :=
  findDashedBoundaryFrom esl str boundary (str.text.length + 1) 0

/-! ## The headers -/

def readHeaderContentType (headerLine : StringView) (partHeader : ContentHeader) :
    Except ViewFault (Option ContentHeader) := do
  let value ← headerLine.substrFrom hdrContentType.length
  let typeValue := esl.trim value (ascii " ")
  if typeValue.text = [] then
    return none
  else
    return some { partHeader with contentType := typeValue }

def readHeaderContentDisposition (headerLine : StringView) (partHeader : ContentHeader) :
    Except ViewFault (Option ContentHeader) := do
  let value ← headerLine.substrFrom hdrContentDisposition.length
  match (esl.split value (ascii ";")).map fun token => esl.trim token (ascii " ") with
  | [type, name] =>
      if esl.equalsIgnoreAsciiCase type.text (ascii "form-data") ∧
          esl.startsWith name.text paramName then do
        let name ← name.removePrefix paramName.length
        return some { partHeader with name := esl.trim name (ascii "\"") }
      else
        return none
  | [type, name, filename] =>
      if esl.equalsIgnoreAsciiCase type.text (ascii "form-data") ∧
          esl.startsWith name.text paramName then
        if esl.startsWith filename.text paramFilename then do
          let filename ← filename.removePrefix paramFilename.length
          let name ← name.removePrefix paramName.length
          return some { partHeader with
            filename := esl.trim filename (ascii "\"")
            name := esl.trim name (ascii "\"") }
        else
          return none
      else
        return none
  | _ => return none

/-- The header of one line. -/
def readHeader (headerLine : StringView) (partHeader : ContentHeader) :
    Except ViewFault (Option ContentHeader) :=
  if esl.startsWithIgnoreAsciiCase headerLine.text hdrContentDisposition then
    readHeaderContentDisposition esl headerLine partHeader
  else if esl.startsWithIgnoreAsciiCase headerLine.text hdrContentType then
    readHeaderContentType esl headerLine partHeader
  else
    .ok none

/-! ## Consuming the body -/

open Consumer

def consumeAny (data : Bytes) : Consumer Byte Unit := do
  let body ← view
  if esl.startsWith body.text data then skip data.length else fail

/-- The dashed boundary. -/
def consumeDelimiter (boundary : Bytes) : Consumer Byte Unit := do
  consumeAny esl dashes
  consumeAny esl boundary

def consumeContentHeader (partHeader : ContentHeader) : Consumer Byte ContentHeader := do
  let body ← view
  match find body.text newline 0 with
  | none => fail
  | some pos => do
      let headerLine ← lift (body.substr 0 pos)
      match ← lift (readHeader esl headerLine partHeader) with
      | none => fail
      | some partHeader => do
          skip (headerLine.text.length + newline.length)
          return partHeader

def consumeDataPart (boundary : Bytes) : Consumer Byte StringView := do
  let body ← view
  match ← lift (findDashedBoundary esl body boundary) with
  | none => return .null
  | some pos => do
      let data ← lift (body.substr 0 pos)
      let data ← lift (data.removeSuffix newline.length)
      skip pos
      return data

/-- The second header, if the headers do not end with the first one. -/
def consumeSecondHeader (partHeader : ContentHeader) : Consumer Byte ContentHeader := do
  let body ← view
  if esl.startsWith body.text newline then return partHeader
  else consumeContentHeader esl partHeader

/-- The part of `read_next_part` behind the dashed boundary. -/
def consumePart (boundary : Bytes) : Consumer Byte ContentPart := do
  consumeAny esl newline
  let partHeader ← consumeContentHeader esl {}
  let partHeader ← consumeSecondHeader esl partHeader
  if partHeader.name.text = [] then fail
  else do
    consumeAny esl newline
    let partData ← consumeDataPart esl boundary
    if partData.text = [] then fail
    else return { partHeader with data := partData }

namespace MultipartReader

/-- `read_next_part`: the part, if it returns true, and the reader behind it. -/
def readNextPart (r : MultipartReader) : Except ViewFault (Option ContentPart × MultipartReader) :=
  if r.status ≠ .ready then .ok (none, r)
  else do
    let (delimited, body) ← consumeDelimiter esl r.boundary r.body
    match delimited with
    | none => return (none, { r with body, status := .malformed })
    | some () => do
        let (last, body) ← consumeAny esl dashes body
        match last with
        | some () =>
            return (none, { r with
              body, status := if body.text = newline then .done else .malformed })
        | none => do
            let (part, body) ← consumePart esl r.boundary body
            match part with
            | none => return (none, { r with body, status := .malformed })
            | some part => return (some part, { r with body, status := .ready })

/-- What so many calls of `read_next_part` return. -/
def calls (r : MultipartReader) : ℕ → Except ViewFault (List (Option ContentPart) × MultipartReader)
  | 0 => .ok ([], r)
  | count + 1 => do
      let (part, r) ← r.readNextPart esl
      let (parts, r) ← r.calls count
      return (part :: parts, r)

end MultipartReader

/-- The loop of `parse_multipart_form`. -/
def readParts : ℕ → MultipartReader → MultipartForm → Except ViewFault (MultipartForm × MultipartReader)
  | 0, _, _ => .error .endless
  | fuel + 1, r, form => do
      let (part, r) ← r.readNextPart esl
      match part with
      | none => return (form, r)
      | some part => readParts fuel r (form.addPart part)

/-- The form, or the text of an exception. -/
def parseMultipartForm (body boundary : Bytes) : Except ViewFault (Except String MultipartForm) :=
  match MultipartReader.new body boundary with
  | .error message => .ok (.error message)
  | .ok r => do
      let (form, r) ← readParts esl (body.length + 1) r ⟨∅, ∅⟩
      if r.status ≠ .done then
        return .error "malformed request body"
      else
        return .ok form

end Reader

end Eureka.Multipart

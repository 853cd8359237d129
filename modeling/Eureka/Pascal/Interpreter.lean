import Eureka.Pascal.Evaluator
import Eureka.Pascal.Unclosed

/-!
# Runs of the Pascal interpreter

`interpret` parses the text and visits the tree.  It returns for every text and
every symbol table, with two exceptions (`interpret_returns_iff`):

* the text has a comment that is not closed behind the beginning of a program.
  The parser asks for the token behind that beginning and `skipComments` does
  not come to an end;
* the text is a program that divides by zero when it runs from the table.
-/

namespace Eureka.Pascal

open Lexer (prepend)

/-- `newInterpreter`, given by what its lexer delivers. -/
def newInterpreter (text : Bytes) : Option Lexer := Lexer.new text

inductive InterpretError
  | parse (e : ParseError)
  | eval (e : EvalError)

inductive Interpreted
  | returned (result : Int64) (err : Option InterpretError) (table : SymbolTable)
  | panicked
  | endless
  | outOfFuel

def interpret (lexer : Lexer) (table : SymbolTable) : Interpreted :=
  match parse lexer with
  | .error (.error e) => .returned 0 (some (.parse e)) table
  | .error .endless => .endless
  | .error .outOfFuel => .outOfFuel
  | .ok ast =>
      match visit ast table with
      | none => .panicked
      | some ((result, err), table) => .returned result (err.map .eval) table

/-! ## The tokens of a text -/

/-- No token is of the kind that stands for the end. -/
def Lexer.NoEOF : Lexer → Prop
  | .token tok ahead => tok.kind ≠ .tokEOF ∧ ahead.NoEOF
  | _ => True

theorem reserved_kind_ne_eof : ∀ keyword ∈ reserved, keyword.kind ≠ .tokEOF := by
  decide

theorem fixedTokens_kind_ne_eof : ∀ tok ∈ fixedTokens, tok.kind ≠ .tokEOF := by decide

theorem literal_kind_ne_eof (real : Prop) [Decidable real] :
    (if real then Kind.tokLiteralReal else Kind.tokLiteralInteger) ≠ .tokEOF := by
  split <;> nofun

theorem lexToken_kind_ne_eof {ch : Byte} {text rest : Bytes} {tok : Token}
    (htoken : lexToken ch text = .token tok rest) : tok.kind ≠ .tokEOF := by
  rw [lexToken] at htoken
  split_ifs at htoken with hdigit hid
  · obtain ⟨rfl, -⟩ := Scanned.token.inj htoken
    exact literal_kind_ne_eof _
  · dsimp only [lexIdentifier] at htoken
    split at htoken
    · next keyword hfind =>
        obtain ⟨rfl, -⟩ := Scanned.token.inj htoken
        exact reserved_kind_ne_eof keyword (List.mem_of_find?_eq_some hfind)
    · obtain ⟨rfl, -⟩ := Scanned.token.inj htoken
      intro heof
      cases heof
  · split at htoken
    · next tok' hfind =>
        obtain ⟨rfl, -⟩ := Scanned.token.inj htoken
        exact fixedTokens_kind_ne_eof tok' (List.mem_of_find?_eq_some hfind)
    · cases htoken

/-- All tokens ahead of the end are of this sort. -/
def Lexer.Forall (p : Token → Prop) : Lexer → Prop
  | .token tok ahead => p tok ∧ ahead.Forall p
  | _ => True

theorem Lexer.noEOF_iff_forall (lexer : Lexer) :
    lexer.NoEOF ↔ lexer.Forall fun tok => tok.kind ≠ .tokEOF := by
  induction lexer with
  | token tok ahead ih => exact and_congr_right fun _ => ih
  | _ => exact Iff.rfl

/-- What holds of every token that a text can begin with holds of all tokens of a text. -/
theorem forall_of_lexFrom {p : Token → Prop}
    (hlexToken : ∀ ch ahead tok rest, lexToken ch (ch :: ahead) = .token tok rest → p tok)
    {fuel : ℕ} {text : Bytes} {lexer : Lexer} (hlex : lexFrom fuel text = some lexer) :
    lexer.Forall p := by
  induction fuel generalizing text lexer with
  | zero => cases hlex
  | succ fuel ih =>
      rw [lexFrom] at hlex
      cases hnext : nextToken text with
      | token tok rest =>
          rw [hnext] at hlex
          obtain ⟨ahead, hahead, rfl⟩ := Option.map_eq_some_iff.mp hlex
          obtain ⟨ch, behind, -, htoken⟩ := exists_lexToken hnext
          exact ⟨hlexToken ch behind tok rest htoken, ih hahead⟩
      | eof => rw [hnext] at hlex; cases hlex; trivial
      | unknown value => rw [hnext] at hlex; cases hlex; trivial
      | endless => rw [hnext] at hlex; cases hlex; trivial

theorem forall_of_newInterpreter {p : Token → Prop}
    (hlexToken : ∀ ch ahead tok rest, lexToken ch (ch :: ahead) = .token tok rest → p tok)
    {text : Bytes} {lexer : Lexer} (hnew : newInterpreter text = some lexer) : lexer.Forall p := by
  rw [newInterpreter, Lexer.new] at hnew
  split at hnew
  · cases hnew
  · exact forall_of_lexFrom hlexToken hnew

theorem newInterpreter_ne_endless {text : Bytes} {lexer : Lexer}
    (hnew : newInterpreter text = some lexer) : lexer ≠ .endless := by
  rintro rfl
  rw [newInterpreter, Lexer.new] at hnew
  split at hnew
  · cases hnew
  · next hne => exact hne hnew

/-- The lexer of an interpreter has come to a token or to the end of the text. -/
theorem newInterpreter_spec {text : Bytes} {lexer : Lexer}
    (hnew : newInterpreter text = some lexer) : lexer ≠ .endless ∧ lexer.NoEOF := by
  refine ⟨newInterpreter_ne_endless hnew, lexer.noEOF_iff_forall.mpr ?_⟩
  exact forall_of_newInterpreter (fun _ _ _ _ htoken => lexToken_kind_ne_eof htoken) hnew

/-- Where the current token is the end of the text, the lexer has nothing more. -/
theorem eq_eof_of_noEOF {ts : List Token} {rest : Lexer} (hno : (prepend ts rest).NoEOF)
    (hne : rest ≠ .endless) (heof : rest.currentToken.kind = .tokEOF) : rest = .eof := by
  induction ts with
  | nil =>
      cases rest with
      | token tok ahead => exact absurd heof hno.1
      | eof => rfl
      | unknown value => cases heof
      | endless => exact absurd rfl hne
  | cons tok ts ih => exact ih hno.2

/-! ## When `interpret` returns -/

/-- **The interpreter returns exactly when** no comment that is not closed stands behind the
beginning of a program and the text is not a program that divides by zero. -/
theorem interpret_returns_iff (text : Bytes) (table : SymbolTable) (lexer : Lexer)
    (hnew : newInterpreter text = some lexer) :
    (∃ result err table', interpret lexer table = .returned result err table') ↔
      (¬ ∃ ts, lexer = prepend ts .endless ∧ BeginsProgram ts) ∧
        ¬ ∃ ts tree, lexer = prepend ts .eof ∧ Derives .program ts tree ∧
          DividesByZero table tree := by
  obtain ⟨hlexer, hno⟩ := newInterpreter_spec hnew
  have hendless := parse_endless_iff hlexer
  have houtcome := parse_outcome lexer
  constructor
  · rintro ⟨result, err, table', hreturned⟩
    constructor
    · intro hcomment
      rw [interpret, hendless.mpr hcomment] at hreturned
      cases hreturned
    · rintro ⟨ts, tree, rfl, hderives, hdivides⟩
      have hparse : parse (prepend ts .eof) = .ok tree := parse_of_derives nofun rfl hderives
      rw [interpret, hparse] at hreturned
      dsimp only at hreturned
      rw [visit_of_dividesByZero hdivides] at hreturned
      cases hreturned
  · rintro ⟨hcomment, hdivides⟩
    match hparse : parse lexer, houtcome with
    | .error (.error e), _ => exact ⟨0, some (.parse e), table, by rw [interpret, hparse]⟩
    | .error .endless, _ => exact absurd (hendless.mp hparse) hcomment
    | .ok tree, ⟨ts, rest, heq, heof, hne, hderives⟩ =>
        subst heq
        obtain rfl := eq_eof_of_noEOF hno hne heof
        match hvisit : visit tree table with
        | none =>
            have hzero := (visit_eq_none_iff tree table).mp hvisit
            exact absurd ⟨ts, tree, rfl, hderives, hzero⟩ hdivides
        | some ((result, err), table') =>
            exact ⟨result, err.map .eval, table', by rw [interpret, hparse]; dsimp only; rw [hvisit]⟩

/-- `BEGIN x := 1 END.` -/
def assignmentText : Bytes := ascii "BEGIN x := 1 END."

def assignmentLexer : Lexer :=
  prepend [⟨.tokBegin, ascii "BEGIN"⟩, ⟨.tokSymbol, ascii "x"⟩, assignToken, oneToken, endToken,
    dotToken] .eof

theorem interpret_returns_iff_assignment :
    (∃ result err table',
        interpret assignmentLexer (fun _ => none) = .returned result err table') ↔
      (¬ ∃ ts, assignmentLexer = prepend ts .endless ∧ BeginsProgram ts) ∧
        ¬ ∃ ts tree, assignmentLexer = prepend ts .eof ∧ Derives .program ts tree ∧
          DividesByZero (fun _ => none) tree :=
  interpret_returns_iff assignmentText (fun _ => none) assignmentLexer (by decide)

def quotientLexer : Lexer :=
  prepend [⟨.tokBegin, ascii "BEGIN"⟩, ⟨.tokSymbol, ascii "x"⟩, assignToken, oneToken,
    ⟨.tokDivInteger, ascii "/"⟩, ⟨.tokLiteralInteger, ascii "0"⟩, endToken, dotToken] .eof

/-- `BEGIN x := 1 / 0 END.` panics. -/
theorem interpret_panics :
    ¬ ∀ (text : Bytes) (table : SymbolTable) (lexer : Lexer),
      newInterpreter text = some lexer →
        ∃ result err table', interpret lexer table = .returned result err table' := by
  intro h
  have hnew : newInterpreter (ascii "BEGIN x := 1 / 0 END.") = some quotientLexer := by
    decide
  obtain ⟨result, err, table', hreturned⟩ := h _ (fun _ => none) quotientLexer hnew
  have hpanics : interpret quotientLexer (fun _ => none) = .panicked := by rfl
  rw [hpanics] at hreturned
  cases hreturned

end Eureka.Pascal

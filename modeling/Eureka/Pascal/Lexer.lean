import Eureka.Bytes

/-!
# The lexer of the Pascal interpreter

`nextToken` reads the next token of a text.  The parser asks for tokens one by
one and never goes back, so the lexer behind it is given here as what it will
still deliver: the current token and the ones after it.  Three things can
stand at the end:

* the end of the text, which is delivered again and again;
* a character that begins no token, which is not passed and is delivered
  again and again;
* a comment that is not closed, in which `skipComments` runs for ever.
-/

namespace Eureka.Pascal

inductive Kind
  | tokLiteralInteger
  | tokLiteralReal
  | tokPlus
  | tokMinus
  | tokMul
  | tokDivInteger
  | tokDivReal
  | tokLParen
  | tokRParen
  | tokSemi
  | tokDot
  | tokColon
  | tokComma
  | tokAssign
  | tokSymbol
  | tokTypeInteger
  | tokTypeReal
  | tokBegin
  | tokEnd
  | tokProgram
  | tokVar
  | tokEOF
  | tokUnknown
  deriving DecidableEq, Repr

structure Token where
  kind : Kind
  value : Bytes
  deriving DecidableEq, Repr

/-! ## Characters -/

def isSpace (ch : Byte) : Bool := ch = 32 || ch = 9 || ch = 10 || ch = 13

/-- `unicode.IsDigit` of a byte. -/
def isDigit (ch : Byte) : Bool := 48 ≤ ch && ch ≤ 57

/-- `unicode.IsLetter` of a byte: the letters of Latin-1. -/
def isLetter (ch : Byte) : Bool :=
  (65 ≤ ch && ch ≤ 90) || (97 ≤ ch && ch ≤ 122) || ch = 0xAA || ch = 0xB5 || ch = 0xBA ||
    (0xC0 ≤ ch && ch ≠ 0xD7 && ch ≠ 0xF7)

/-- `string(ch)` of a byte: the UTF-8 encoding of the code point. -/
def stringOf (ch : Byte) : Bytes :=
  if ch < 0x80 then [ch] else [(0xC0 : Byte) ||| (ch >>> 6), (0x80 : Byte) ||| (ch &&& 0x3F)]

/-! ## Tokens -/

/-- The number at the front of the text, and the rest of the text. -/
def lexNumber (text : Bytes) : Bytes × Bytes :=
  let number := text.takeWhile isDigit
  match text.dropWhile isDigit with
  | 46 :: rest => (number ++ 46 :: rest.takeWhile isDigit, rest.dropWhile isDigit)
  | rest => (number, rest)

def inIdentifier (ch : Byte) : Bool := ch = 95 || isLetter ch

/-- The identifier at the front of the text, and the rest of the text. -/
def lexIdentifier (text : Bytes) : Bytes × Bytes :=
  ((text.takeWhile inIdentifier).flatMap stringOf, text.dropWhile inIdentifier)

/-- `_Reserved`, by the value of its tokens. -/
def reserved : List Token :=
  [⟨.tokProgram, ascii "PROGRAM"⟩, ⟨.tokVar, ascii "VAR"⟩, ⟨.tokTypeInteger, ascii "INTEGER"⟩,
    ⟨.tokTypeReal, ascii "REAL"⟩, ⟨.tokBegin, ascii "BEGIN"⟩, ⟨.tokEnd, ascii "END"⟩]

/-- What `nextToken` comes to. -/
inductive Scanned
  | token (tok : Token) (rest : Bytes)
  | eof
  | unknown (value : Bytes)
  | endless
  deriving DecidableEq, Repr

/-- The tokens of fixed characters.  The one that begins with another one comes first. -/
def fixedTokens : List Token :=
  [⟨.tokPlus, ascii "+"⟩, ⟨.tokMinus, ascii "-"⟩, ⟨.tokMul, ascii "*"⟩, ⟨.tokDivReal, ascii "//"⟩,
    ⟨.tokDivInteger, ascii "/"⟩, ⟨.tokLParen, ascii "("⟩, ⟨.tokRParen, ascii ")"⟩,
    ⟨.tokSemi, ascii ";"⟩, ⟨.tokDot, ascii "."⟩, ⟨.tokAssign, ascii ":="⟩,
    ⟨.tokColon, ascii ":"⟩, ⟨.tokComma, ascii ","⟩]

/-- The token at the front of a text that begins with neither a space nor a comment. -/
def lexToken (ch : Byte) (text : Bytes) : Scanned :=
  if isDigit ch then
    let (value, rest) := lexNumber text
    .token ⟨if value.contains 46 then .tokLiteralReal else .tokLiteralInteger, value⟩ rest
  else if inIdentifier ch then
    let (id, rest) := lexIdentifier text
    match reserved.find? fun keyword => keyword.value = id with
    | some keyword => .token keyword rest
    | none => .token ⟨.tokSymbol, id⟩ rest
  else
    match fixedTokens.find? fun tok => tok.value.isPrefixOf text with
    | some tok => .token tok (text.drop tok.value.length)
    | none => .unknown (stringOf ch)

mutual

/-- `nextToken`.  Behind every space and every comment its loop begins anew. -/
def nextToken : Bytes → Scanned
  | [] => .eof
  | ch :: rest =>
      if isSpace ch then nextToken rest
      else if ch = 123 then skipComments rest
      else lexToken ch (ch :: rest)

/-- `skipComments`, inside the comment. -/
def skipComments : Bytes → Scanned
  | [] => .endless
  | ch :: rest => if ch = 125 then nextToken rest else skipComments rest

end

/-! ## The lexer of a text -/

/-- What the lexer delivers: the current token and what is ahead. -/
inductive Lexer
  | token (tok : Token) (ahead : Lexer)
  | eof
  | unknown (value : Bytes)
  | endless
  deriving DecidableEq, Repr

/-- The tokens of a text.  It is `none` when the fuel does not suffice. -/
def lexFrom : ℕ → Bytes → Option Lexer
  | 0, _ => none
  | fuel + 1, text =>
      match nextToken text with
      | .token tok rest => (lexFrom fuel rest).map (.token tok)
      | .eof => some .eof
      | .unknown value => some (.unknown value)
      | .endless => some .endless

namespace Lexer

/-- `newLexer`; it does not return when the text begins with a comment that is not closed. -/
def new (text : Bytes) : Option Lexer :=
  match lexFrom (text.length + 1) text with
  | some endless => none
  | lexer => lexer

/-- `currentToken`.  The lexer is never inside an endless comment when it is asked. -/
def currentToken : Lexer → Token
  | token tok _ => tok
  | unknown value => ⟨.tokUnknown, value⟩
  | eof => ⟨.tokEOF, []⟩
  | endless => ⟨.tokEOF, []⟩

/-- `lexer.nextToken`; it does not return inside an endless comment. -/
def nextToken : Lexer → Option Lexer
  | token _ endless => none
  | token _ ahead => some ahead
  | unknown value => some (unknown value)
  | eof => some eof
  | endless => none

end Lexer

/-! ## Every text has its tokens -/

theorem length_dropWhile_lt {p : Byte → Bool} {ch : Byte} (hch : p ch) (text : Bytes) :
    ((ch :: text).dropWhile p).length < (ch :: text).length := by
  rw [List.dropWhile_cons_of_pos hch]
  exact Nat.lt_succ_of_le (List.dropWhile_suffix p).length_le

theorem length_lexNumber_lt {ch : Byte} (hch : isDigit ch) (text : Bytes) :
    (lexNumber (ch :: text)).2.length < (ch :: text).length := by
  have hdrop := length_dropWhile_lt hch text
  rw [lexNumber]
  split
  · next rest heq =>
      rw [heq, List.length_cons] at hdrop
      exact (List.dropWhile_suffix isDigit).length_le.trans_lt ((Nat.lt_succ_self _).trans hdrop)
  · exact hdrop

theorem fixedTokens_ne_nil : ∀ tok ∈ fixedTokens, tok.value ≠ [] := by decide

theorem length_lexToken_lt {ch : Byte} {text rest : Bytes} {tok : Token}
    (htoken : lexToken ch (ch :: text) = .token tok rest) : rest.length < (ch :: text).length := by
  rw [lexToken] at htoken
  split_ifs at htoken with hdigit hid
  · obtain ⟨-, rfl⟩ := Scanned.token.inj htoken
    exact length_lexNumber_lt hdigit text
  · have hlt := length_dropWhile_lt hid text
    dsimp only [lexIdentifier] at htoken
    split at htoken
    · obtain ⟨-, rfl⟩ := Scanned.token.inj htoken
      exact hlt
    · obtain ⟨-, rfl⟩ := Scanned.token.inj htoken
      exact hlt
  · split at htoken
    · next tok' hfind =>
        obtain ⟨-, rfl⟩ := Scanned.token.inj htoken
        have hpos := List.length_pos_iff.mpr (fixedTokens_ne_nil tok' (List.mem_of_find?_eq_some hfind))
        rw [List.length_drop]
        exact Nat.sub_lt (Nat.succ_pos _) hpos
    · cases htoken

mutual

/-- A token stands in the text behind the spaces and the comments that are passed. -/
theorem exists_lexToken {text rest : Bytes} {tok : Token} (htoken : nextToken text = .token tok rest) :
    ∃ ch ahead, (ch :: ahead).length ≤ text.length ∧ lexToken ch (ch :: ahead) = .token tok rest := by
  cases text with
  | nil => cases htoken
  | cons ch text =>
      rw [nextToken] at htoken
      split_ifs at htoken
      · obtain ⟨ch', ahead, hle, hlex⟩ := exists_lexToken htoken
        exact ⟨ch', ahead, hle.trans (Nat.le_succ _), hlex⟩
      · obtain ⟨ch', ahead, hle, hlex⟩ := exists_lexToken_of_skipComments htoken
        exact ⟨ch', ahead, hle.trans (Nat.le_succ _), hlex⟩
      · exact ⟨ch, text, le_rfl, htoken⟩

theorem exists_lexToken_of_skipComments {text rest : Bytes} {tok : Token}
    (htoken : skipComments text = .token tok rest) :
    ∃ ch ahead, (ch :: ahead).length ≤ text.length ∧ lexToken ch (ch :: ahead) = .token tok rest := by
  cases text with
  | nil => cases htoken
  | cons ch text =>
      rw [skipComments] at htoken
      split_ifs at htoken
      · obtain ⟨ch', ahead, hle, hlex⟩ := exists_lexToken htoken
        exact ⟨ch', ahead, hle.trans (Nat.le_succ _), hlex⟩
      · obtain ⟨ch', ahead, hle, hlex⟩ := exists_lexToken_of_skipComments htoken
        exact ⟨ch', ahead, hle.trans (Nat.le_succ _), hlex⟩

end

theorem length_nextToken_lt {text rest : Bytes} {tok : Token}
    (htoken : nextToken text = .token tok rest) : rest.length < text.length := by
  obtain ⟨ch, ahead, hle, hlex⟩ := exists_lexToken htoken
  exact (length_lexToken_lt hlex).trans_le hle

end Eureka.Pascal

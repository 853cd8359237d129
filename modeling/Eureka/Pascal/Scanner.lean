import Eureka.Library.WhileLoop
import Eureka.Pascal.Lexer

/-!
# The scanning loops of the Pascal lexer

The lexer keeps a text and a position.  `peek` is 0 behind the end of the text, where
`advance` goes on all the same, so a loop that waits for a character has to stop at 0 as
well.  All of them do except for the one of `skipComments`.

* `collect_eq`, `scan_eq`: a loop over characters that 0 is not one of passes these and no more;
* `skipComments_eq_none`: the loop of `skipComments` runs for ever in a comment that is
  not closed;
* `nextToken_spec`: what `nextToken` comes to, in at most as many rounds of each loop as
  there are characters ahead.
-/

namespace Eureka.Pascal

open WhileLoop

/-- `lexer`, with its text and its position. -/
structure Scanner where
  text : Bytes
  pos : ℕ
  tok : Token
deriving DecidableEq, Repr

namespace Scanner

/-- `newLexer`, before its first call of `nextToken`. -/
def init (text : Bytes) : Scanner := ⟨text, 0, ⟨.tokEOF, []⟩⟩

def peek (l : Scanner) : Byte := l.text.getD l.pos 0

def peekNext (l : Scanner) : Byte := l.text.getD (l.pos + 1) 0

def advance (l : Scanner) : Scanner := { l with pos := l.pos + 1 }

def skipSpace (fuel : ℕ) (l : Scanner) : Option Scanner :=
  whileLoop (fun l => isSpace l.peek) advance fuel l

def skipComments (fuel : ℕ) (l : Scanner) : Option Scanner := do
  let l ← whileLoop (fun l => l.peek ≠ 125) advance fuel l
  return l.advance

/-- A loop that appends the characters it passes to a text. -/
def collect (p : Byte → Bool) (fuel : ℕ) (collected : Bytes) (l : Scanner) :
    Option (Bytes × Scanner) :=
  whileLoop (fun (_, l) => p l.peek)
    (fun (collected, l) => (collected ++ stringOf l.peek, l.advance)) fuel (collected, l)

def lexNumber (fuel : ℕ) (l : Scanner) : Option (Bytes × Scanner) := do
  let (number, l) ← collect isDigit fuel [] l
  if l.peek = 46 then collect isDigit fuel (number ++ [46]) l.advance
  else return (number, l)

def lexIdentifier (fuel : ℕ) (l : Scanner) : Option (Bytes × Scanner) :=
  collect inIdentifier fuel [] l

/-- A token of fixed characters: it is set, and the lexer advances once for each of them. -/
def emit (l : Scanner) (tok : Token) : Option Scanner :=
  some { l with pos := l.pos + tok.value.length, tok }

/-- `nextToken`. -/
def nextToken : ℕ → Scanner → Option Scanner
  | 0, _ => none
  | fuel + 1, l =>
      if l.pos < l.text.length then
        let ch := l.peek
        if isSpace ch then do
          let l ← l.skipSpace fuel
          nextToken fuel l
        else if ch = 123 then do
          let l ← l.skipComments fuel
          nextToken fuel l
        else if isDigit ch then do
          let (value, l) ← l.lexNumber fuel
          let kind := if value.contains 46 then .tokLiteralReal else .tokLiteralInteger
          return { l with tok := ⟨kind, value⟩ }
        else if ch = 43 then l.emit ⟨.tokPlus, ascii "+"⟩
        else if ch = 45 then l.emit ⟨.tokMinus, ascii "-"⟩
        else if ch = 42 then l.emit ⟨.tokMul, ascii "*"⟩
        -- the longer token first
        else if ch = 47 ∧ l.peekNext = 47 then l.emit ⟨.tokDivReal, ascii "//"⟩
        else if ch = 47 then l.emit ⟨.tokDivInteger, ascii "/"⟩
        else if ch = 40 then l.emit ⟨.tokLParen, ascii "("⟩
        else if ch = 41 then l.emit ⟨.tokRParen, ascii ")"⟩
        else if inIdentifier ch then do
          let (id, l) ← l.lexIdentifier fuel
          match reserved.find? fun keyword => keyword.value = id with
          | some keyword => return { l with tok := keyword }
          | none => return { l with tok := ⟨.tokSymbol, id⟩ }
        else if ch = 59 then l.emit ⟨.tokSemi, ascii ";"⟩
        else if ch = 46 then l.emit ⟨.tokDot, ascii "."⟩
        else if ch = 58 ∧ l.peekNext = 61 then l.emit ⟨.tokAssign, ascii ":="⟩
        else if ch = 58 ∧ l.peekNext ≠ 61 then l.emit ⟨.tokColon, ascii ":"⟩
        else if ch = 44 then l.emit ⟨.tokComma, ascii ","⟩
        -- the character is not passed
        else some { l with tok := ⟨.tokUnknown, stringOf ch⟩ }
      else some { l with tok := ⟨.tokEOF, []⟩ }

/-! ## Positions and characters ahead -/

/-- The characters ahead. -/
def rest (l : Scanner) : Bytes := l.text.drop l.pos

/-- Some characters ahead are passed. -/
def skip (l : Scanner) (count : ℕ) : Scanner := { l with pos := l.pos + count }

@[simp] theorem rest_skip (l : Scanner) (count : ℕ) : (l.skip count).rest = l.rest.drop count := by
  rw [rest, rest, List.drop_drop]
  rfl

@[simp] theorem rest_init (text : Bytes) : (init text).rest = text := rfl

theorem advance_eq (l : Scanner) : l.advance = l.skip 1 := rfl

theorem skip_skip (l : Scanner) (count count' : ℕ) :
    (l.skip count).skip count' = l.skip (count + count') := by
  rw [skip, skip, skip, Nat.add_assoc]

theorem peek_of_cons {l : Scanner} {ch : Byte} {behind : Bytes} (hrest : l.rest = ch :: behind) :
    l.peek = ch := by
  have hget : l.text[l.pos]? = some ch := by
    have hhead := congrArg List.head? hrest
    rwa [rest, List.head?_drop] at hhead
  rw [peek, List.getD_eq_getElem?_getD, hget]
  rfl

theorem peek_of_nil {l : Scanner} (hrest : l.rest = []) : l.peek = 0 := by
  rw [peek, List.getD_eq_default _ _ (List.drop_eq_nil_iff.mp hrest)]

theorem peek_eq (l : Scanner) : l.peek = l.rest.head?.getD 0 := by
  cases hrest : l.rest with
  | nil => exact peek_of_nil hrest
  | cons ch behind => exact peek_of_cons hrest

theorem peekNext_eq (l : Scanner) : l.peekNext = l.advance.peek := rfl

theorem pos_lt_iff {l : Scanner} : l.pos < l.text.length ↔ l.rest ≠ [] := by
  rw [rest, Ne, List.drop_eq_nil_iff, not_le]

theorem rest_ne_nil {p : Byte → Bool} {l : Scanner} (hzero : p 0 = false)
    (hpeek : p l.peek = true) : l.rest ≠ [] := by
  intro hrest
  rw [peek_of_nil hrest, hzero] at hpeek
  cases hpeek

/-! ## The loops -/

/-- What stops a loop: the 0 behind the text, or a character ahead. -/
def Stops (p : Byte → Bool) (l : Scanner) : Prop := p 0 = false ∨ ∃ ch ∈ l.rest, p ch = false

/-- The invariant of a loop that began at `l`: which characters it has passed. -/
def Passed (p : Byte → Bool) (collected : Bytes) (l : Scanner) (state : Bytes × Scanner) : Prop :=
  ∃ passed, l.rest = passed ++ state.2.rest ∧ (∀ ch ∈ passed, p ch = true) ∧
    state.2 = l.skip passed.length ∧ state.1 = collected ++ passed.flatMap stringOf

theorem passed_step {p : Byte → Bool} {collected : Bytes} {l : Scanner} (hstops : Stops p l)
    {state : Bytes × Scanner} (hpassed : Passed p collected l state)
    (hcond : p state.2.peek = true) :
    Passed p collected l (state.1 ++ stringOf state.2.peek, state.2.advance) ∧
      state.2.advance.rest.length < state.2.rest.length := by
  obtain ⟨found, l'⟩ := state
  obtain ⟨passed, hrest, hall, hscanner, hfound⟩ := hpassed
  dsimp only at *
  -- at the end of the text the condition would be false, or nothing would have stopped the loop
  have hne : l'.rest ≠ [] := by
    rcases hstops with hzero | ⟨ch, hch, hnot⟩
    · exact rest_ne_nil hzero hcond
    · intro hnil
      rw [hrest, hnil, List.append_nil] at hch
      exact Bool.false_ne_true (hnot.symm.trans (hall ch hch))
  obtain ⟨ch, behind, hahead⟩ := List.exists_cons_of_ne_nil hne
  have hpeek := peek_of_cons hahead
  have hbehind : l'.advance.rest = behind := by
    rw [advance_eq, rest_skip, hahead]
    rfl
  refine ⟨⟨passed ++ [ch], ?_, ?_, ?_, ?_⟩, ?_⟩
  · rw [hrest, hbehind, hahead, List.append_assoc]
    rfl
  · rw [List.forall_mem_append]
    refine ⟨hall, fun ch' hch' => ?_⟩
    rw [List.mem_singleton.mp hch', ← hpeek]
    exact hcond
  · dsimp only
    rw [hscanner, advance_eq, skip_skip, List.length_append]
    rfl
  · dsimp only
    rw [hfound, hpeek, List.flatMap_append, List.append_assoc]
    simp
  · rw [hbehind, hahead]
    exact Nat.lt_succ_self _

/-- **A loop over characters** ends where they do, and it passes no other ones. -/
theorem collect_eq {p : Byte → Bool} {l : Scanner} (hstops : Stops p l) {fuel : ℕ}
    (hfuel : l.rest.length < fuel) (collected : Bytes) :
    collect p fuel collected l =
      some (collected ++ (l.rest.takeWhile p).flatMap stringOf,
        l.skip (l.rest.takeWhile p).length) := by
  have hstart : Passed p collected l (collected, l) :=
    ⟨[], rfl, nofun, rfl, (List.append_nil _).symm⟩
  obtain ⟨⟨found, l'⟩, hloop, ⟨passed, hrest, hall, hscanner, hfound⟩, hcond⟩ :=
    whileLoop_rule (Passed p collected l) (fun state => state.2.rest.length)
      (fun _ hpassed hcond => passed_step hstops hpassed hcond) hstart hfuel
  dsimp only at *
  -- the loop has stopped at the end or at a character that is none of them
  have hstop : l'.rest.takeWhile p = [] := by
    cases hahead : l'.rest with
    | nil => rfl
    | cons ch behind =>
        refine List.takeWhile_cons_of_neg ?_
        rw [← peek_of_cons hahead]
        exact Bool.eq_false_iff.mp hcond
  have htake : l.rest.takeWhile p = passed := by
    rw [hrest, List.takeWhile_append_of_pos hall, hstop, List.append_nil]
  rw [collect, hloop, htake, hfound, hscanner]

theorem scan_eq {p : Byte → Bool} {l : Scanner} (hstops : Stops p l) {fuel : ℕ}
    (hfuel : l.rest.length < fuel) :
    whileLoop (fun l => p l.peek) advance fuel l = some (l.skip (l.rest.takeWhile p).length) := by
  have hmap : (collect p fuel [] l).map Prod.snd = whileLoop (fun l => p l.peek) advance fuel l := by
    rw [collect]
    refine whileLoop_map Prod.snd ?_ ?_ fuel ([], l)
    · exact fun _ => rfl
    · exact fun _ => rfl
  rw [← hmap, collect_eq hstops hfuel]
  rfl

theorem skipSpace_eq {l : Scanner} {fuel : ℕ} (hfuel : l.rest.length < fuel) :
    l.skipSpace fuel = some (l.skip (l.rest.takeWhile isSpace).length) :=
  scan_eq (.inl (by decide)) hfuel

theorem skipComments_eq {l : Scanner} {fuel : ℕ} (hfuel : l.rest.length < fuel)
    (hclosed : 125 ∈ l.rest) :
    l.skipComments fuel = some (l.skip ((l.rest.takeWhile (· ≠ 125)).length + 1)) := by
  have hscan := scan_eq (p := fun ch => ch ≠ 125) (.inr ⟨125, hclosed, by decide⟩) hfuel
  rw [skipComments, hscan]
  rfl

/-- **A comment that is not closed**: the loop is not stopped by the 0 behind the text. -/
theorem skipComments_eq_none {l : Scanner} (hopen : 125 ∉ l.rest) (fuel : ℕ) :
    l.skipComments fuel = none := by
  have hloop : whileLoop (fun l : Scanner => l.peek ≠ 125) advance fuel l = none := by
    refine whileLoop_eq_none (I := fun l => 125 ∉ l.rest) (fun l hopen => ⟨?_, ?_⟩) fuel hopen
    · refine decide_eq_true fun hpeek => ?_
      cases hahead : l.rest with
      | nil =>
          rw [peek_of_nil hahead] at hpeek
          cases hpeek
      | cons ch behind =>
          rw [peek_of_cons hahead] at hpeek
          rw [hahead, hpeek] at hopen
          exact hopen List.mem_cons_self
    · rw [advance_eq, rest_skip]
      exact fun hmem => hopen ((List.drop_suffix 1 _).subset hmem)
  rw [skipComments, hloop]
  rfl

theorem lexIdentifier_eq {l : Scanner} {fuel : ℕ} (hfuel : l.rest.length < fuel) :
    l.lexIdentifier fuel =
      some ((Pascal.lexIdentifier l.rest).1, l.skip (l.rest.takeWhile inIdentifier).length) := by
  rw [lexIdentifier, collect_eq (.inl (by decide)) hfuel]
  rfl

theorem drop_takeWhile (p : Byte → Bool) (text : Bytes) :
    text.drop (text.takeWhile p).length = text.dropWhile p := by
  have happend := List.takeWhile_append_dropWhile (p := p) (l := text)
  have hdrop := congrArg (List.drop (text.takeWhile p).length) happend
  rw [List.drop_left] at hdrop
  exact hdrop.symm

theorem stringOf_digit {ch : Byte} (hdigit : isDigit ch = true) : stringOf ch = [ch] := by
  have hle : ch ≤ 57 := of_decide_eq_true (Bool.and_eq_true_iff.mp hdigit).2
  exact if_pos (UInt8.lt_of_le_of_lt hle (by decide))

theorem flatMap_stringOf_digits (text : Bytes) :
    (text.takeWhile isDigit).flatMap stringOf = text.takeWhile isDigit := by
  have hsingle : ∀ ch ∈ text.takeWhile isDigit, stringOf ch = [ch] := fun ch hch =>
    stringOf_digit (List.mem_takeWhile_imp hch)
  rw [List.flatMap_congr hsingle]
  exact List.flatMap_singleton' _

theorem lexNumber_of_point {text fraction : Bytes} (hpoint : text.dropWhile isDigit = 46 :: fraction) :
    Pascal.lexNumber text =
      (text.takeWhile isDigit ++ 46 :: fraction.takeWhile isDigit, fraction.dropWhile isDigit) := by
  rw [Pascal.lexNumber, hpoint]
  rfl

theorem lexNumber_of_head?_ne {text : Bytes} (hpoint : (text.dropWhile isDigit).head? ≠ some 46) :
    Pascal.lexNumber text = (text.takeWhile isDigit, text.dropWhile isDigit) := by
  rw [Pascal.lexNumber]
  split
  · next fraction heq => exact absurd (congrArg List.head? heq) hpoint
  · rfl

theorem lexNumber_eq {l : Scanner} {fuel : ℕ} (hfuel : l.rest.length < fuel) :
    ∃ count ≤ l.rest.length,
      l.lexNumber fuel = some ((Pascal.lexNumber l.rest).1, l.skip count) ∧
        l.rest.drop count = (Pascal.lexNumber l.rest).2 := by
  have hdigits := collect_eq (p := isDigit) (l := l) (.inl (by decide)) hfuel []
  rw [flatMap_stringOf_digits, List.nil_append] at hdigits
  have hbehind : (l.skip (l.rest.takeWhile isDigit).length).rest = l.rest.dropWhile isDigit := by
    rw [rest_skip, drop_takeWhile]
  have hpeek := peek_eq (l.skip (l.rest.takeWhile isDigit).length)
  rw [hbehind] at hpeek
  unfold lexNumber
  rw [hdigits, Option.bind_eq_bind, Option.bind_some]
  dsimp only
  by_cases hpoint : (l.rest.dropWhile isDigit).head? = some 46
  · obtain ⟨fraction, hfraction⟩ := List.head?_eq_some_iff.mp hpoint
    have hadvance : (l.skip (l.rest.takeWhile isDigit).length).advance.rest = fraction := by
      rw [advance_eq, rest_skip, hbehind, hfraction]
      rfl
    have hlength : (l.rest.takeWhile isDigit).length + (fraction.length + 1) = l.rest.length := by
      rw [← List.length_cons, ← hfraction, ← List.length_append, List.takeWhile_append_dropWhile]
    have hshort : fraction.length < fuel := by omega
    have htaken := (List.takeWhile_prefix (l := fraction) isDigit).length_le
    rw [hpoint, Option.getD_some] at hpeek
    rw [if_pos hpeek, collect_eq (.inl (by decide)) (hadvance ▸ hshort), hadvance,
      flatMap_stringOf_digits, List.append_assoc, advance_eq, skip_skip, skip_skip,
      lexNumber_of_point hfraction]
    refine ⟨_, by omega, rfl, ?_⟩
    rw [← List.drop_drop, ← List.drop_drop, drop_takeWhile, hfraction]
    exact drop_takeWhile isDigit fraction
  · have hne : (l.skip (l.rest.takeWhile isDigit).length).peek ≠ 46 := by
      rw [hpeek]
      cases hhead : (l.rest.dropWhile isDigit).head? with
      | none => decide
      | some ch =>
          rintro rfl
          exact hpoint hhead
    rw [if_neg hne, lexNumber_of_head?_ne hpoint]
    exact ⟨_, (List.takeWhile_prefix _).length_le, rfl, drop_takeWhile isDigit l.rest⟩

/-! ## One token -/

theorem isPrefixOf_pair (first second ch : Byte) (text : Bytes) :
    [first, second].isPrefixOf (first :: ch :: text) = (second == ch) := by
  simp [List.isPrefixOf]

/-- The characters that begin a token of fixed characters. -/
def fixedFirst : Bytes := [43, 45, 42, 47, 40, 41, 59, 46, 58, 44]

theorem find?_fixedTokens_eq_none {ch : Byte} (hch : ch ∉ fixedFirst) (behind : Bytes) :
    fixedTokens.find? (fun tok => tok.value.isPrefixOf (ch :: behind)) = none := by
  have hfirst : ∀ tok ∈ fixedTokens, ∃ first ∈ fixedFirst, tok.value.head? = some first := by
    decide
  refine List.find?_eq_none.mpr fun tok htok hprefix => hch ?_
  obtain ⟨first, hmem, hhead⟩ := hfirst tok htok
  obtain ⟨more, hvalue⟩ := List.head?_eq_some_iff.mp hhead
  rw [hvalue, List.isPrefixOf_iff_prefix, List.cons_prefix_cons] at hprefix
  exact hprefix.1 ▸ hmem

theorem nextToken_fixed {l : Scanner} {ch : Byte} {behind : Bytes} (hrest : l.rest = ch :: behind)
    (hspace : isSpace ch = false) (hcomment : ch ≠ 123) (hdigit : isDigit ch = false)
    (hid : inIdentifier ch = false) (fuel : ℕ) :
    nextToken (fuel + 1) l =
      match fixedTokens.find? fun tok => tok.value.isPrefixOf (ch :: behind) with
      | some tok => l.emit tok
      | none => some { l with tok := ⟨.tokUnknown, stringOf ch⟩ } := by
  have hpos : l.pos < l.text.length := pos_lt_iff.mpr (by rw [hrest]; exact List.cons_ne_nil _ _)
  have hnext : l.peekNext = behind.head?.getD 0 := by
    rw [peekNext_eq, peek_eq, advance_eq, rest_skip, hrest]
    rfl
  rw [nextToken, if_pos hpos, peek_of_cons hrest, hnext]
  dsimp only
  rw [if_neg (Bool.eq_false_iff.mp hspace), if_neg hcomment, if_neg (Bool.eq_false_iff.mp hdigit)]
  by_cases hmem : ch ∈ fixedFirst
  · simp only [fixedFirst, List.mem_cons, List.not_mem_nil, or_false] at hmem
    rcases hmem with rfl | rfl | rfl | rfl | rfl | rfl | rfl | rfl | rfl | rfl
    · rfl
    · rfl
    · rfl
    · -- one slash or two
      cases behind with
      | nil => rfl
      | cons next behind =>
          by_cases hslash : next = 47
          · subst hslash
            rfl
          · have hpair : ([47, 47] : Bytes).isPrefixOf (47 :: next :: behind) = false :=
              (isPrefixOf_pair 47 47 next behind).trans (beq_eq_false_iff_ne.mpr (Ne.symm hslash))
            have hfind : fixedTokens.find? (fun tok => tok.value.isPrefixOf (47 :: next :: behind)) =
                some ⟨.tokDivInteger, ascii "/"⟩ := by
              change (match ([47, 47] : Bytes).isPrefixOf (47 :: next :: behind) with
                | true => some (⟨.tokDivReal, ascii "//"⟩ : Token)
                | false => some ⟨.tokDivInteger, ascii "/"⟩) = _
              rw [hpair]
            rw [hfind, if_neg (by decide), if_neg (by decide), if_neg (by decide),
              if_neg fun h => hslash h.2, if_pos rfl]
    · rfl
    · rfl
    · rfl
    · rfl
    · -- a colon alone or with an equals sign
      cases behind with
      | nil => rfl
      | cons next behind =>
          by_cases hequals : next = 61
          · subst hequals
            rfl
          · have hpair : ([58, 61] : Bytes).isPrefixOf (58 :: next :: behind) = false :=
              (isPrefixOf_pair 58 61 next behind).trans (beq_eq_false_iff_ne.mpr (Ne.symm hequals))
            have hfind : fixedTokens.find? (fun tok => tok.value.isPrefixOf (58 :: next :: behind)) =
                some ⟨.tokColon, ascii ":"⟩ := by
              change (match ([58, 61] : Bytes).isPrefixOf (58 :: next :: behind) with
                | true => some (⟨.tokAssign, ascii ":="⟩ : Token)
                | false => some ⟨.tokColon, ascii ":"⟩) = _
              rw [hpair]
            change (if (58 : Byte) = 58 ∧ next = 61 then l.emit ⟨.tokAssign, ascii ":="⟩
              else if (58 : Byte) = 58 ∧ next ≠ 61 then l.emit ⟨.tokColon, ascii ":"⟩ else _) = _
            rw [hfind, if_neg fun h => hequals h.2, if_pos ⟨rfl, hequals⟩]
    · rfl
  · have hnone := find?_fixedTokens_eq_none hmem behind
    simp only [fixedFirst, List.mem_cons, List.not_mem_nil, or_false, not_or] at hmem
    obtain ⟨h43, h45, h42, h47, h40, h41, h59, h46, h58, h44⟩ := hmem
    rw [hnone, if_neg h43, if_neg h45, if_neg h42, if_neg fun h => h47 h.1, if_neg h47, if_neg h40,
      if_neg h41, if_neg (Bool.eq_false_iff.mp hid), if_neg h59, if_neg h46, if_neg fun h => h58 h.1,
      if_neg fun h => h58 h.1, if_neg h44]

theorem nextToken_lexToken {l : Scanner} {ch : Byte} {behind : Bytes}
    (hrest : l.rest = ch :: behind) (hspace : isSpace ch = false) (hcomment : ch ≠ 123) {fuel : ℕ}
    (hfuel : l.rest.length < fuel) :
    (∃ tok rest, ∃ count ≤ l.rest.length, lexToken ch (ch :: behind) = .token tok rest ∧
        nextToken (fuel + 1) l = some { l.skip count with tok } ∧ l.rest.drop count = rest) ∨
      ∃ value, lexToken ch (ch :: behind) = .unknown value ∧
        nextToken (fuel + 1) l = some { l with tok := ⟨.tokUnknown, value⟩ } := by
  have hpos : l.pos < l.text.length := pos_lt_iff.mpr (by rw [hrest]; exact List.cons_ne_nil _ _)
  rw [lexToken]
  cases hdigit : isDigit ch with
  | true =>
      obtain ⟨count, hcount, hnumber, hdrop⟩ := lexNumber_eq hfuel
      left
      rw [if_pos rfl]
      refine ⟨_, _, count, hcount, rfl, ?_, hrest ▸ hdrop⟩
      rw [nextToken, if_pos hpos, peek_of_cons hrest]
      dsimp only
      rw [if_neg (Bool.eq_false_iff.mp hspace), if_neg hcomment, if_pos hdigit, hnumber, hrest]
      rfl
  | false =>
      rw [if_neg Bool.false_ne_true]
      cases hid : inIdentifier ch with
      | true =>
          have hfixed : ch ∉ fixedFirst := by
            have hnone : ∀ ch ∈ fixedFirst, inIdentifier ch = false := by decide +kernel
            exact fun hmem => Bool.false_ne_true ((hnone ch hmem).symm.trans hid)
          simp only [fixedFirst, List.mem_cons, List.not_mem_nil, or_false, not_or] at hfixed
          obtain ⟨h43, h45, h42, h47, h40, h41, -⟩ := hfixed
          have hcall : nextToken (fuel + 1) l =
              match reserved.find? fun keyword => keyword.value = (Pascal.lexIdentifier l.rest).1 with
              | some keyword =>
                  some { l.skip (l.rest.takeWhile inIdentifier).length with tok := keyword }
              | none =>
                  some { l.skip (l.rest.takeWhile inIdentifier).length with
                    tok := ⟨.tokSymbol, (Pascal.lexIdentifier l.rest).1⟩ } := by
            rw [nextToken, if_pos hpos, peek_of_cons hrest]
            dsimp only
            rw [if_neg (Bool.eq_false_iff.mp hspace), if_neg hcomment,
              if_neg (Bool.eq_false_iff.mp hdigit), if_neg h43, if_neg h45, if_neg h42,
              if_neg fun h => h47 h.1, if_neg h47, if_neg h40, if_neg h41, if_pos hid,
              lexIdentifier_eq hfuel]
            rfl
          left
          rw [if_pos rfl, hcall, hrest]
          have hdrop := drop_takeWhile inIdentifier (ch :: behind)
          dsimp only
          cases reserved.find? fun keyword =>
              keyword.value = (Pascal.lexIdentifier (ch :: behind)).1 with
          | some keyword => exact ⟨_, _, _, (List.takeWhile_prefix _).length_le, rfl, rfl, hdrop⟩
          | none => exact ⟨_, _, _, (List.takeWhile_prefix _).length_le, rfl, rfl, hdrop⟩
      | false =>
          rw [if_neg Bool.false_ne_true, nextToken_fixed hrest hspace hcomment hdigit hid fuel]
          cases hfind : fixedTokens.find? fun tok => tok.value.isPrefixOf (ch :: behind) with
          | some tok =>
              have hprefix := List.find?_some
                (p := fun tok : Token => tok.value.isPrefixOf (ch :: behind)) hfind
              have hcount : tok.value.length ≤ l.rest.length := by
                rw [hrest]
                exact (List.isPrefixOf_iff_prefix.mp hprefix).length_le
              exact .inl ⟨tok, _, tok.value.length, hcount, rfl, rfl, by rw [hrest]⟩
          | none => exact .inr ⟨stringOf ch, rfl, rfl⟩

/-! ## More fuel -/

theorem collect_below (p : Byte → Bool) {fuel fuel' : ℕ} (hle : fuel ≤ fuel') (collected : Bytes)
    (l : Scanner) : Below (collect p fuel collected l) (collect p fuel' collected l) :=
  whileLoop_below hle _

theorem lexNumber_below {fuel fuel' : ℕ} (hle : fuel ≤ fuel') (l : Scanner) :
    Below (l.lexNumber fuel) (l.lexNumber fuel') := by
  refine below_bind (collect_below _ hle _ _) fun (number, l) => ?_
  exact below_ite (collect_below _ hle _ _) (below_refl _)

theorem skipComments_below {fuel fuel' : ℕ} (hle : fuel ≤ fuel') (l : Scanner) :
    Below (l.skipComments fuel) (l.skipComments fuel') :=
  below_bind (whileLoop_below hle _) fun _ => below_refl _

theorem nextToken_below {fuel fuel' : ℕ} (hle : fuel ≤ fuel') (l : Scanner) :
    Below (nextToken fuel l) (nextToken fuel' l) := by
  induction fuel generalizing l fuel' with
  | zero => exact nofun
  | succ fuel ih =>
      obtain ⟨fuel', rfl⟩ := Nat.exists_eq_add_of_le' (Nat.le_trans (Nat.le_add_left 1 fuel) hle)
      have hle := Nat.le_of_succ_le_succ hle
      rw [nextToken, nextToken]
      refine below_ite ?_ (below_refl _)
      refine below_ite (below_bind (whileLoop_below hle _) fun l => ih hle l) ?_
      refine below_ite (below_bind (skipComments_below hle l) fun l => ih hle l) ?_
      refine below_ite (below_bind (lexNumber_below hle l) fun _ => below_refl _) ?_
      -- the fixed tokens take no fuel
      iterate 7 refine below_ite (below_refl _) ?_
      exact below_ite (below_bind (collect_below _ hle _ _) fun _ => below_refl _) (below_refl _)

/-! ## What a call comes to -/

theorem nextToken_spaces (text : Bytes) :
    Pascal.nextToken (text.dropWhile isSpace) = Pascal.nextToken text := by
  induction text with
  | nil => rfl
  | cons ch text ih =>
      cases hspace : isSpace ch with
      | true => rw [List.dropWhile_cons_of_pos hspace, ih, Pascal.nextToken, if_pos hspace]
      | false => rw [List.dropWhile_cons_of_neg (Bool.eq_false_iff.mp hspace)]

theorem skipComments_closed {inside behind : Bytes} (hinside : 125 ∉ inside) :
    Pascal.skipComments (inside ++ 125 :: behind) = Pascal.nextToken behind := by
  induction inside with
  | nil => rw [List.nil_append, Pascal.skipComments, if_pos rfl]
  | cons ch inside ih =>
      obtain ⟨hch, hinside⟩ := List.ne_and_not_mem_of_not_mem_cons hinside
      rw [List.cons_append, Pascal.skipComments, if_neg (Ne.symm hch), ih hinside]

theorem skipComments_open {inside : Bytes} (hinside : 125 ∉ inside) :
    Pascal.skipComments inside = .endless := by
  induction inside with
  | nil => rw [Pascal.skipComments]
  | cons ch inside ih =>
      obtain ⟨hch, hinside⟩ := List.ne_and_not_mem_of_not_mem_cons hinside
      rw [Pascal.skipComments, if_neg (Ne.symm hch), ih hinside]

theorem takeWhile_ne_append {inside : Bytes} (hinside : 125 ∉ inside) (after : Bytes) :
    (inside ++ 125 :: after).takeWhile (fun ch => ch ≠ 125) = inside := by
  have hpass : ∀ ch ∈ inside, decide (ch ≠ 125) = true := fun ch hch =>
    decide_eq_true (ne_of_mem_of_not_mem hch hinside)
  rw [List.takeWhile_append_of_pos hpass, List.takeWhile_cons_of_neg (by decide), List.append_nil]

theorem drop_append_cons (front : Bytes) (ch : Byte) (after : Bytes) :
    (front ++ ch :: after).drop (front.length + 1) = after := by
  rw [← List.drop_drop, List.drop_left]
  rfl

/-- What a call of `nextToken` comes to, if that is what the characters ahead say. -/
def ComesTo (fuel : ℕ) (l : Scanner) : Scanned → Prop
  | .token tok rest => ∃ count ≤ l.rest.length,
      nextToken fuel l = some { l.skip count with tok } ∧ l.rest.drop count = rest
  | .eof => nextToken fuel l = some { l.skip l.rest.length with tok := ⟨.tokEOF, []⟩ }
  | .unknown value => ∃ count ch behind,
      nextToken fuel l = some { l.skip count with tok := ⟨.tokUnknown, value⟩ } ∧
        l.rest.drop count = ch :: behind ∧ isSpace ch = false ∧ ch ≠ 123 ∧
          lexToken ch (ch :: behind) = .unknown value
  | .endless => nextToken fuel l = none

theorem ComesTo.skip {fuel fuel' count : ℕ} {l : Scanner} {scanned : Scanned}
    (hcall : nextToken fuel' l = nextToken fuel (l.skip count)) (hcount : count ≤ l.rest.length)
    (h : ComesTo fuel (l.skip count) scanned) : ComesTo fuel' l scanned := by
  cases scanned with
  | token tok rest =>
      obtain ⟨more, hmore, hnext, hdrop⟩ := h
      rw [rest_skip, List.drop_drop] at hdrop
      rw [rest_skip, List.length_drop] at hmore
      refine ⟨count + more, by omega, ?_, hdrop⟩
      rw [hcall, hnext, skip_skip]
  | eof =>
      have hnext : nextToken fuel (l.skip count) = _ := h
      change nextToken fuel' l = _
      rw [hcall, hnext, skip_skip, rest_skip, List.length_drop, Nat.add_sub_cancel' hcount]
  | unknown value =>
      obtain ⟨more, ch, behind, hnext, hdrop, hch⟩ := h
      rw [rest_skip, List.drop_drop] at hdrop
      refine ⟨count + more, ch, behind, ?_, hdrop, hch⟩
      rw [hcall, hnext, skip_skip]
  | endless => exact hcall.trans h

/-- **One call**: it comes to what the characters ahead say, in at most as many rounds of each loop
as there are characters ahead. -/
theorem nextToken_spec {fuel : ℕ} {l : Scanner} (hfuel : l.rest.length + 1 < fuel) :
    ComesTo fuel l (Pascal.nextToken l.rest) := by
  induction fuel generalizing l with
  | zero => exact absurd hfuel (Nat.not_lt_zero _)
  | succ fuel ih =>
      have hshort : l.rest.length < fuel := Nat.lt_of_succ_lt_succ hfuel
      cases hrest : l.rest with
      | nil =>
          have hpos : ¬ l.pos < l.text.length := fun h => pos_lt_iff.mp h hrest
          rw [Pascal.nextToken]
          change nextToken (fuel + 1) l = _
          rw [nextToken, if_neg hpos, hrest]
          rfl
      | cons ch behind =>
          have hpos : l.pos < l.text.length :=
            pos_lt_iff.mpr (by rw [hrest]; exact List.cons_ne_nil _ _)
          rw [Pascal.nextToken]
          cases hspace : isSpace ch with
          | true =>
              -- the loop takes the first character at least
              have hless := length_dropWhile_lt hspace behind
              have hahead : (l.skip (l.rest.takeWhile isSpace).length).rest =
                  (ch :: behind).dropWhile isSpace := by
                rw [rest_skip, drop_takeWhile, hrest]
              have hcall : nextToken (fuel + 1) l =
                  nextToken fuel (l.skip (l.rest.takeWhile isSpace).length) := by
                rw [nextToken, if_pos hpos, peek_of_cons hrest]
                dsimp only
                rw [if_pos hspace, skipSpace_eq hshort]
                rfl
              have hspec := ih (l := l.skip (l.rest.takeWhile isSpace).length)
                (by rw [hahead]; rw [hrest] at hshort; omega)
              rw [hahead, nextToken_spaces, Pascal.nextToken, if_pos hspace] at hspec
              rw [if_pos rfl]
              exact hspec.skip hcall (List.takeWhile_prefix _).length_le
          | false =>
              rw [if_neg Bool.false_ne_true]
              by_cases hcomment : ch = 123
              · subst hcomment
                rw [if_pos rfl]
                have hcall : nextToken (fuel + 1) l =
                    (l.skipComments fuel).bind (nextToken fuel) := by
                  rw [nextToken, if_pos hpos, peek_of_cons hrest]
                  rfl
                by_cases hclosed : 125 ∈ behind
                · obtain ⟨inside, after, rfl, hinside⟩ := List.eq_append_cons_of_mem hclosed
                  have htake : l.rest.takeWhile (fun ch => ch ≠ 125) = 123 :: inside := by
                    have hopen : 125 ∉ 123 :: inside :=
                      List.not_mem_cons_of_ne_of_not_mem (by decide) hinside
                    rw [hrest]
                    exact takeWhile_ne_append hopen after
                  have hahead : (l.skip (inside.length + 1 + 1)).rest = after := by
                    rw [rest_skip, hrest, ← List.cons_append]
                    exact drop_append_cons (123 :: inside) 125 after
                  have hskip : l.skipComments fuel = some (l.skip (inside.length + 1 + 1)) := by
                    rw [skipComments_eq hshort (by rw [hrest]; exact List.mem_cons_of_mem _ hclosed),
                      htake, List.length_cons]
                  rw [hskip, Option.bind_some] at hcall
                  have hspec := ih (l := l.skip (inside.length + 1 + 1)) (by
                    rw [hahead]
                    rw [hrest, List.length_cons, List.length_append, List.length_cons] at hshort
                    omega)
                  rw [hahead] at hspec
                  rw [skipComments_closed hinside]
                  refine hspec.skip hcall ?_
                  rw [hrest, List.length_cons, List.length_append, List.length_cons]
                  omega
                · have hopen : 125 ∉ l.rest := by
                    rw [hrest]
                    exact List.not_mem_cons_of_ne_of_not_mem (by decide) hclosed
                  rw [skipComments_open hclosed]
                  change nextToken (fuel + 1) l = none
                  rw [hcall, skipComments_eq_none hopen]
                  rfl
              · rw [if_neg hcomment]
                rcases nextToken_lexToken hrest hspace hcomment hshort with
                  ⟨tok, rest, count, hcount, htoken, hcall, hdrop⟩ | ⟨value, hunknown, hcall⟩
                · rw [htoken]
                  exact ⟨count, hcount, hcall, hdrop⟩
                · rw [hunknown]
                  exact ⟨0, ch, behind, hcall, hrest, hspace, hcomment, hunknown⟩

end Scanner

end Eureka.Pascal

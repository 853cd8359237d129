import Eureka.Pascal.Lexer

/-!
# The lexer and the parser of the calculator

`nextToken` reads one token of a text and leaves the text behind it.  At the end
of the text it delivers that end again and again, and so it does with a
character that begins no token, which it does not pass.

`Spells` says what tokens a text consists of, spaces and tabs aside;
`spells_iff` says that the lexer delivers exactly these before the end.
-/

namespace Eureka.Calc

open Pascal (isDigit stringOf)

inductive Kind
  | tokInteger
  | tokPlus
  | tokMinus
  | tokMul
  | tokDiv
  | tokLParen
  | tokRParen
  | tokEOF
  | tokUnknown
  deriving DecidableEq, Repr

structure Token where
  kind : Kind
  value : Bytes
  deriving DecidableEq, Repr

def isSpace (ch : Byte) : Bool := ch = 32 || ch = 9

/-- The tokens of one character, by their character. -/
def symbolKind (ch : Byte) : Option Kind :=
  if ch = 43 then some .tokPlus
  else if ch = 45 then some .tokMinus
  else if ch = 42 then some .tokMul
  else if ch = 47 then some .tokDiv
  else if ch = 40 then some .tokLParen
  else if ch = 41 then some .tokRParen
  else none

/-- The token at the front of a text, and the text behind it. -/
def scan : Bytes → Token × Bytes
  | [] => (⟨.tokEOF, []⟩, [])
  | ch :: rest =>
      if isSpace ch then scan rest
      else if isDigit ch then
        (⟨.tokInteger, (ch :: rest).takeWhile isDigit⟩, (ch :: rest).dropWhile isDigit)
      else
        match symbolKind ch with
        | some kind => (⟨kind, [ch]⟩, rest)
        -- the character is not passed
        | none => (⟨.tokUnknown, stringOf ch⟩, ch :: rest)

/-- The lexer, by the current token and the text behind it. -/
structure Lexer where
  rest : Bytes
  tok : Token
  deriving DecidableEq, Repr

def Lexer.nextToken (l : Lexer) : Lexer := ⟨(scan l.rest).2, (scan l.rest).1⟩

def newLexer (text : Bytes) : Lexer := Lexer.nextToken ⟨text, ⟨.tokEOF, []⟩⟩

/-! ## The first token -/

theorem isSpace_of_isDigit {ch : Byte} (h : isDigit ch) : isSpace ch = false := by
  have hle : 48 ≤ ch := by
    rw [isDigit, Bool.and_eq_true] at h
    exact of_decide_eq_true h.1
  rw [isSpace, Bool.or_eq_false_iff]
  constructor
  · exact decide_eq_false fun heq => absurd (heq ▸ hle) (by decide)
  · exact decide_eq_false fun heq => absurd (heq ▸ hle) (by decide)

theorem symbolKind_spec {ch : Byte} {kind : Kind} (h : symbolKind ch = some kind) :
    isSpace ch = false ∧ isDigit ch = false ∧ kind ≠ .tokInteger ∧ kind ≠ .tokEOF ∧
      kind ≠ .tokUnknown := by
  unfold symbolKind at h
  split_ifs at h with h1 h2 h3 h4 h5 h6
  all_goals
    cases h
    subst ch
    decide

theorem newLexer_space {ch : Byte} (hspace : isSpace ch) (rest : Bytes) :
    newLexer (ch :: rest) = newLexer rest := by
  simp only [newLexer, Lexer.nextToken, scan, if_pos hspace]

theorem newLexer_digit {ch : Byte} (hdigit : isDigit ch) (rest : Bytes) :
    newLexer (ch :: rest) =
      ⟨(ch :: rest).dropWhile isDigit, .tokInteger, (ch :: rest).takeWhile isDigit⟩ := by
  have hspace : ¬ isSpace ch = true := by rw [isSpace_of_isDigit hdigit]; nofun
  simp only [newLexer, Lexer.nextToken, scan, if_neg hspace, if_pos hdigit]

theorem newLexer_symbol {ch : Byte} {kind : Kind} (h : symbolKind ch = some kind) (rest : Bytes) :
    newLexer (ch :: rest) = ⟨rest, kind, [ch]⟩ := by
  obtain ⟨hspace, hdigit, -⟩ := symbolKind_spec h
  simp only [newLexer, Lexer.nextToken, scan, hspace, hdigit, h]
  rfl

theorem newLexer_unknown {ch : Byte} (hspace : ¬ isSpace ch) (hdigit : ¬ isDigit ch)
    (hnone : symbolKind ch = none) (rest : Bytes) :
    newLexer (ch :: rest) = ⟨ch :: rest, .tokUnknown, stringOf ch⟩ := by
  simp only [newLexer, Lexer.nextToken, scan, if_neg hspace, if_neg hdigit, hnone]

/-! ## What the lexer delivers -/

/-- The lexer delivers these tokens first, and is then the other lexer. -/
def Ahead : List Token → Lexer → Lexer → Prop
  | [], l, l' => l' = l
  | tok :: ts, l, l' => l.tok = tok ∧ Ahead ts l.nextToken l'

theorem ahead_append {ts us : List Token} {l l'' : Lexer} :
    Ahead (ts ++ us) l l'' ↔ ∃ l', Ahead ts l l' ∧ Ahead us l' l'' := by
  induction ts generalizing l with
  | nil => simp [Ahead]
  | cons tok ts ih => simp only [List.cons_append, Ahead, ih, and_assoc, exists_and_left]

/-- Not something that is delivered again and again. -/
def Token.Passed (tok : Token) : Prop := tok.kind ≠ .tokEOF ∧ tok.kind ≠ .tokUnknown

instance (tok : Token) : Decidable tok.Passed := inferInstanceAs (Decidable (_ ∧ _))

/-- What is still to be delivered: the text ahead, and the current token if it is passed. -/
def Lexer.size (l : Lexer) : ℕ := l.rest.length + if l.tok.Passed then 1 else 0

theorem size_newLexer_le (text : Bytes) : (newLexer text).size ≤ text.length := by
  induction text with
  | nil => exact le_rfl
  | cons ch rest ih =>
      by_cases hspace : isSpace ch
      · rw [newLexer_space hspace]
        exact ih.trans (Nat.le_succ _)
      by_cases hdigit : isDigit ch
      · rw [newLexer_digit hdigit, List.dropWhile_cons_of_pos hdigit, Lexer.size]
        have hdrop := (List.dropWhile_suffix isDigit (l := rest)).length_le
        split
        · exact Nat.succ_le_succ hdrop
        · exact hdrop.trans (Nat.le_succ _)
      cases hkind : symbolKind ch with
      | some kind =>
          rw [newLexer_symbol hkind, Lexer.size]
          split
          · exact le_rfl
          · exact Nat.le_succ _
      | none => rw [newLexer_unknown hspace hdigit hkind]; rfl

theorem size_nextToken_le (l : Lexer) : l.nextToken.size ≤ l.size :=
  (size_newLexer_le l.rest).trans (Nat.le_add_right _ _)

theorem size_nextToken_lt {l : Lexer} (hpassed : l.tok.Passed) : l.nextToken.size < l.size := by
  have hsize : l.size = l.rest.length + 1 := congrArg (l.rest.length + ·) (if_pos hpassed)
  rw [hsize]
  exact Nat.lt_succ_of_le (size_newLexer_le l.rest)

theorem size_le_of_ahead {ts : List Token} {l l' : Lexer} (h : Ahead ts l l') :
    l'.size ≤ l.size := by
  induction ts generalizing l with
  | nil => exact h ▸ le_rfl
  | cons tok ts ih => exact (ih h.2).trans (size_nextToken_le l)

/-! ## The tokens of a text -/

/-- The text consists of these tokens, spaces and tabs aside. -/
inductive Spells : Bytes → List Token → Prop
  | nil : Spells [] []
  | space {ch : Byte} {text : Bytes} {ts : List Token} :
      isSpace ch → Spells text ts → Spells (ch :: text) ts
  | integer {digits text : Bytes} {ts : List Token} : digits ≠ [] → digits.all isDigit →
      (∀ ch ∈ text.head?, ¬ isDigit ch) → Spells text ts →
      Spells (digits ++ text) (⟨.tokInteger, digits⟩ :: ts)
  | symbol {ch : Byte} {kind : Kind} {text : Bytes} {ts : List Token} :
      symbolKind ch = some kind → Spells text ts → Spells (ch :: text) (⟨kind, [ch]⟩ :: ts)

theorem takeWhile_of_head {text : Bytes} (h : ∀ ch ∈ text.head?, ¬ isDigit ch) :
    text.takeWhile isDigit = [] ∧ text.dropWhile isDigit = text := by
  cases text with
  | nil => exact ⟨rfl, rfl⟩
  | cons ch text =>
      have hdigit : ¬ isDigit ch := h ch rfl
      exact ⟨List.takeWhile_cons_of_neg hdigit, List.dropWhile_cons_of_neg hdigit⟩

theorem head?_dropWhile {text : Bytes} : ∀ ch ∈ (text.dropWhile isDigit).head?, ¬ isDigit ch := by
  intro ch hch
  have hnot := List.head?_dropWhile_not isDigit text
  rw [Option.mem_def.mp hch] at hnot
  exact Bool.not_eq_true _ ▸ hnot

theorem ahead_of_spells {text : Bytes} {ts : List Token} (h : Spells text ts) :
    (∀ tok ∈ ts, tok.Passed) ∧ ∃ l, Ahead ts (newLexer text) l ∧ l.tok.kind = .tokEOF := by
  induction h with
  | nil => exact ⟨nofun, newLexer [], rfl, rfl⟩
  | space hspace _ ih =>
      rw [newLexer_space hspace]
      exact ih
  | @integer digits text ts hne hdigits hhead _ ih =>
      obtain ⟨hpassed, l, hl, heof⟩ := ih
      refine ⟨List.forall_mem_cons.mpr ⟨⟨nofun, nofun⟩, hpassed⟩, l, ?_, heof⟩
      obtain ⟨hnone, hall⟩ := takeWhile_of_head hhead
      have hdigit := List.all_eq_true.mp hdigits
      have htake : (digits ++ text).takeWhile isDigit = digits := by
        rw [List.takeWhile_append_of_pos hdigit, hnone, List.append_nil]
      have hdrop : (digits ++ text).dropWhile isDigit = text := by
        rw [List.dropWhile_append_of_pos hdigit, hall]
      cases digits with
      | nil => exact absurd rfl hne
      | cons ch digits =>
          rw [List.cons_append] at htake hdrop ⊢
          rw [newLexer_digit (hdigit ch List.mem_cons_self), htake, hdrop]
          exact ⟨rfl, hl⟩
  | symbol hkind _ ih =>
      obtain ⟨hpassed, l, hl, heof⟩ := ih
      obtain ⟨-, -, -, htoken⟩ := symbolKind_spec hkind
      rw [newLexer_symbol hkind]
      exact ⟨List.forall_mem_cons.mpr ⟨htoken, hpassed⟩, l, ⟨rfl, hl⟩, heof⟩

/-- The front of a text, by induction on the spaces there. -/
theorem spells_front (text : Bytes) :
    ((newLexer text).tok.kind = .tokEOF → Spells text []) ∧
      ∀ ts, (newLexer text).tok.Passed → Spells (newLexer text).rest ts →
        Spells text ((newLexer text).tok :: ts) := by
  induction text with
  | nil => exact ⟨fun _ => .nil, fun _ hpassed => absurd rfl hpassed.1⟩
  | cons ch rest ih =>
      by_cases hspace : isSpace ch
      · rw [newLexer_space hspace]
        exact ⟨fun heof => .space hspace (ih.1 heof),
          fun ts hpassed hrest => .space hspace (ih.2 ts hpassed hrest)⟩
      by_cases hdigit : isDigit ch
      · rw [newLexer_digit hdigit]
        refine ⟨nofun, fun ts _ hrest => ?_⟩
        have hne : (ch :: rest).takeWhile isDigit ≠ [] := by
          rw [List.takeWhile_cons_of_pos hdigit]
          exact List.cons_ne_nil _ _
        have hspells := Spells.integer hne List.all_takeWhile head?_dropWhile hrest
        rwa [List.takeWhile_append_dropWhile] at hspells
      cases hkind : symbolKind ch with
      | some kind =>
          rw [newLexer_symbol hkind]
          exact ⟨fun heof => absurd heof (symbolKind_spec hkind).2.2.2.1,
            fun ts _ hrest => .symbol hkind hrest⟩
      | none =>
          rw [newLexer_unknown hspace hdigit hkind]
          -- nothing is spelled from here
          exact ⟨nofun, fun _ hpassed => absurd rfl hpassed.2⟩

theorem spells_iff {text : Bytes} {ts : List Token} :
    Spells text ts ↔
      (∀ tok ∈ ts, tok.Passed) ∧ ∃ l, Ahead ts (newLexer text) l ∧ l.tok.kind = .tokEOF := by
  constructor
  · exact ahead_of_spells
  · rintro ⟨hpassed, l, hl, heof⟩
    induction ts generalizing text with
    | nil =>
        obtain rfl : l = newLexer text := hl
        exact (spells_front text).1 heof
    | cons tok ts ih =>
        obtain ⟨rfl, hrest⟩ := hl
        rw [List.forall_mem_cons] at hpassed
        exact (spells_front text).2 ts hpassed.1 (ih hpassed.2 hrest)

end Eureka.Calc

/-!
## The parser of the calculator

The parser goes down the grammar that its comment gives, with one difference:
behind an opening parenthesis and an expression it passes one token without
looking at it.  `parse` does not look at what is left when the expression ends.
Its calls are bounded by fuel, which no text uses up.
-/

namespace Eureka.Calc

inductive Node
  | num (tok : Token)
  | binOp (tok : Token) (left right : Node)
  deriving DecidableEq, Repr

inductive Failure
  /-- Neither a number nor an opening parenthesis. -/
  | expected (got : Token)
  | outOfFuel
  deriving DecidableEq, Repr

/-- What a call returns: its tree, and the lexer behind what has been consumed. -/
abbrev Parsed := Except Failure (Node × Lexer)

def IsMulDiv (kind : Kind) : Prop := kind = .tokMul ∨ kind = .tokDiv

def IsPlusMinus (kind : Kind) : Prop := kind = .tokPlus ∨ kind = .tokMinus

instance (kind : Kind) : Decidable (IsMulDiv kind) := inferInstanceAs (Decidable (_ ∨ _))

instance (kind : Kind) : Decidable (IsPlusMinus kind) := inferInstanceAs (Decidable (_ ∨ _))

mutual

def consumeFactor : ℕ → Lexer → Parsed
  | 0, _ => .error .outOfFuel
  | fuel + 1, l =>
      if l.tok.kind = .tokInteger then .ok (.num l.tok, l.nextToken)
      else if l.tok.kind = .tokLParen then do
        let (node, l) ← expr fuel l.nextToken
        -- the token that is passed here is not checked
        return (node, l.nextToken)
      -- the end and a character that begins no token, too
      else .error (.expected l.tok)

def consumeTerm : ℕ → Lexer → Parsed
  | 0, _ => .error .outOfFuel
  | fuel + 1, l => do
      let (node, l) ← consumeFactor fuel l
      termLoop fuel node l

/-- The loop of `consumeTerm`. -/
def termLoop : ℕ → Node → Lexer → Parsed
  | 0, _, _ => .error .outOfFuel
  | fuel + 1, node, l =>
      if IsMulDiv l.tok.kind then do
        let (factor, l') ← consumeFactor fuel l.nextToken
        termLoop fuel (.binOp l.tok node factor) l'
      else .ok (node, l)

def expr : ℕ → Lexer → Parsed
  | 0, _ => .error .outOfFuel
  | fuel + 1, l => do
      let (node, l) ← consumeTerm fuel l
      exprLoop fuel node l

/-- The loop of `expr`. -/
def exprLoop : ℕ → Node → Lexer → Parsed
  | 0, _, _ => .error .outOfFuel
  | fuel + 1, node, l =>
      if IsPlusMinus l.tok.kind then do
        let (term, l') ← consumeTerm fuel l.nextToken
        exprLoop fuel (.binOp l.tok node term) l'
      else .ok (node, l)

end

/-- The fuel for all that a lexer still delivers: a token takes at most four nested calls. -/
def Lexer.fuel (l : Lexer) : ℕ := 4 * l.size + 3

/-- `parse`, by the lexer of `newParser`. -/
def parse (l : Lexer) : Except Failure Node := (expr l.fuel l).map Prod.fst

def newParser (text : Bytes) : Lexer := newLexer text

end Eureka.Calc

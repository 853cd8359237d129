import Eureka.Expression.Arithmetic
import Eureka.Library.Decimal

/-!
# A calculator with signs

`calculate` brings a formula into postfix order and evaluates it.  A `-` where an operand is
expected is kept as a pending sign, for the next literal that comes.

* `scan_written`: spaces do not matter, the loop goes from token to token;
* `reads`: behind a formula the operator stack reaches the postfix order of the formula in which
  each sign has moved to the first literal behind it;
* `evalRpn_rpn`: the postfix order is evaluated to the value of that formula;
* `value_moved`: a sign may move to the first factor of a product, but not to the first term of a
  sum;
* `calculate_value`: the formulas without such a sign are calculated.
-/

namespace Eureka.Leetcode.BasicCalculator

open Decimal Expression

/-! ## The code -/

def opPriority : Char → ℤ
  | '+' => 1
  | '-' => 1
  | '*' => 2
  | '/' => 2
  | '(' => 3
  | ')' => 3
  | _ => -1

/-- The local variables of `expr2rpn`; the top of the stack comes first. -/
structure State where
  rpn : List (List Char)
  opStack : List Char
  lastTok : List Char
  negative : Bool

/-- The loop at a closing parenthesis.  It is `none` when an empty stack is popped. -/
def closeLoop : List (List Char) → List Char → Option (List (List Char) × List Char)
  | _, [] => none
  | rpn, op :: opStack =>
      if op = '(' then some (rpn, opStack) else closeLoop (rpn ++ [[op]]) opStack

/-- The loop at an operator. -/
def operatorLoop (ch : Char) : List (List Char) → List Char → List (List Char) × List Char
  | rpn, [] => (rpn, [ch])
  | rpn, op :: opStack =>
      if op = '(' ∨ opPriority ch > opPriority op then (rpn, ch :: op :: opStack)
      else operatorLoop ch (rpn ++ [[op]]) opStack

/-- `(last_tok.empty() || !isdigit(last_tok.back())) && last_tok != ")"` -/
def expectsOperand (lastTok : List Char) : Bool :=
  lastTok.getLast?.all (fun c => !c.isDigit) && lastTok != [')']

def readSign (s : State) : State := { s with negative := !s.negative, lastTok := ['-'] }

def readNumber (s : State) (digits : List Char) : State :=
  let val := (if s.negative then ['-'] else []) ++ digits
  { s with rpn := s.rpn ++ [val], negative := false, lastTok := val }

def readOther (s : State) (ch : Char) : Option State := do
  let (rpn, opStack) ←
    if ch = '(' then some (s.rpn, ch :: s.opStack)
    else if ch = ')' then closeLoop s.rpn s.opStack
    else some (operatorLoop ch s.rpn s.opStack)
  some { s with rpn := rpn, opStack := opStack, lastTok := [ch] }

/-- The loop over what is left of the expression. -/
def scan : ℕ → State → List Char → Option State
  | 0, _, _ => none
  | _ + 1, s, [] => some s
  | fuel + 1, s, ch :: rest =>
      if ch = ' ' then scan fuel s rest
      else if ch = '-' ∧ expectsOperand s.lastTok then scan fuel (readSign s) rest
      else if ch.isDigit then
        scan fuel (readNumber s ((ch :: rest).takeWhile Char.isDigit))
          ((ch :: rest).dropWhile Char.isDigit)
      else (readOther s ch).bind fun s => scan fuel s rest

/-- The index `i` of the loop is an `int`, and to count it up behind 2^31 - 1 characters is
undefined. -/
def expr2rpn (expr : List Char) : Option (List (List Char)) :=
  if expr.length < 2 ^ 31 then do
    let s ← scan (expr.length + 1) ⟨[], [], [], false⟩ expr
    some (s.rpn ++ s.opStack.map fun op => [op])
  else none

/-- An operator takes two values from the stack. -/
def binary (f : ℤ → ℤ → Option ℤ) : List ℤ → Option (List ℤ)
  | rhs :: lhs :: stack => (f lhs rhs).map (· :: stack)
  | _ => none

/-- One round of `eval_rpn`.  It is `none` where the arithmetic of `int64_t` is undefined. -/
def evalTok (stack : List ℤ) (tok : List Char) : Option (List ℤ) :=
  if tok = ['+'] then binary (fun lhs rhs => represent 64 (lhs + rhs)) stack
  else if tok = ['-'] then binary (fun lhs rhs => represent 64 (lhs - rhs)) stack
  else if tok = ['*'] then binary (fun lhs rhs => represent 64 (lhs * rhs)) stack
  else if tok = ['/'] then
    binary (fun lhs rhs => if rhs = 0 then none else represent 64 (lhs.tdiv rhs)) stack
  else (toInteger 64 tok).map (· :: stack)

/-- A value as an `int`. -/
def narrow (v : ℤ) : ℤ := v.bmod (2 ^ 32)

def evalRpn (rpn : List (List Char)) : Option ℤ := do
  let stack ← rpn.foldlM evalTok []
  let v ← stack.head?
  some (narrow v)

def calculate (s : List Char) : Option ℤ := do
  let rpn ← expr2rpn s
  evalRpn rpn

/-! ## Formulas -/

structure Numeral where
  digits : List Char
  isDigits : IsDigits digits
  ne_nil : digits ≠ []

inductive Formula where
  | literal (numeral : Numeral)
  | paren (e : Formula)
  | neg (e : Formula)
  | bin (o : Op) (left right : Formula)

inductive Token where
  | number (numeral : Numeral)
  | symbol (ch : Char)

namespace Token

def text : Token → List Char
  | number numeral => numeral.digits
  | symbol ch => [ch]

end Token

def evalOp (o : Op) (a b : ℤ) : Option ℤ :=
  if o = .div ∧ b = 0 then none else represent 64 (o.eval a b)

namespace Formula

def IsBin : Formula → Prop
  | bin _ _ _ => True
  | _ => False

/-- The formula, which is written without parentheses around it, is read as this tree where
operators of a lower priority stand around it. -/
def Fits : ℕ → Formula → Prop
  | _, literal _ => True
  | _, paren e => Fits 0 e
  | n, neg e => ¬ e.IsBin ∧ Fits n e
  | n, bin o l r => n ≤ o.priority ∧ Fits o.priority l ∧ Fits (o.priority + 1) r

def tokens : Formula → List Token
  | literal numeral => [.number numeral]
  | paren e => .symbol '(' :: (tokens e ++ [.symbol ')'])
  | neg e => .symbol '-' :: tokens e
  | bin o l r => tokens l ++ .symbol o.char :: tokens r

/-- The value, unless some division is by zero or some value has more than 64 bits. -/
def value : Formula → Option ℤ
  | literal numeral => represent 64 (Decimal.value numeral.digits)
  | paren e => value e
  | neg e => (value e).bind fun v => represent 64 (-v)
  | bin o l r => (value l).bind fun a => (value r).bind fun b => evalOp o a b

/-- The signs, beginning with a pending one, move to the first literals behind them. -/
def moved : Bool → Formula → Formula
  | negative, literal numeral => if negative then neg (literal numeral) else literal numeral
  | negative, paren e => paren (moved negative e)
  | negative, neg e => moved (!negative) e
  | negative, bin o l r => bin o (moved negative l) (moved false r)

/-- No sum and no difference begins with the first literal of the formula, and no product or
quotient that begins with it is the least value. -/
def LeadsProduct : Formula → Prop
  | literal _ => True
  | paren e => LeadsProduct e
  | neg e => LeadsProduct e
  | bin o l r => (o = .mul ∨ o = .div) ∧ LeadsProduct l ∧ value (bin o l r) ≠ some (-2 ^ 63)

/-- Behind every sign stands a formula of which the first literal is a factor. -/
def SignsAtFactors : Formula → Prop
  | literal _ => True
  | paren e => SignsAtFactors e
  | neg e => LeadsProduct e ∧ SignsAtFactors e
  | bin _ l r => SignsAtFactors l ∧ SignsAtFactors r

/-- The postfix order, with these signs. -/
def rpn : Bool → Formula → List (List Char)
  | negative, literal numeral => [(if negative then ['-'] else []) ++ numeral.digits]
  | negative, paren e => rpn negative e
  | negative, neg e => rpn (!negative) e
  | negative, bin o l r => rpn negative l ++ rpn false r ++ [[o.char]]

end Formula

/-- A text of tokens, with spaces between them. -/
inductive Written : List Token → List Char → Prop
  | done (spaces : ℕ) : Written [] (List.replicate spaces ' ')
  | token {tokens text} (spaces : ℕ) (token : Token) : Written tokens text →
      Written (token :: tokens) (List.replicate spaces ' ' ++ (token.text ++ text))

/-! ## From token to token -/

variable {s : State} {ch : Char} {numeral : Numeral} {tokens : List Token} {text rest : List Char}

/-- What the loop does at a token. -/
def readToken (s : State) : Token → Option State
  | .number numeral => some (readNumber s numeral.digits)
  | .symbol ch => if ch = '-' ∧ expectsOperand s.lastTok then some (readSign s) else readOther s ch

/-- A symbol is neither a space nor a digit, and no number stands right behind a number. -/
structure Separated (tokens : List Token) : Prop where
  symbols : ∀ ch, .symbol ch ∈ tokens → ch ≠ ' ' ∧ ch.isDigit = false
  numbers : tokens.IsChain fun a b => ∀ m n, a = .number m → b ≠ .number n

theorem scan_spaces (fuel spaces : ℕ) (s : State) (text : List Char) :
    scan (fuel + spaces) s (List.replicate spaces ' ' ++ text) = scan fuel s text := by
  induction spaces with
  | zero => rfl
  | succ spaces ih =>
      rw [← Nat.add_assoc, List.replicate_succ, List.cons_append, scan, if_pos rfl, ih]

theorem scan_symbol {fuel : ℕ} (s : State) (hspace : ch ≠ ' ') (hdigit : ch.isDigit = false)
    (text : List Char) :
    scan (fuel + 1) s (ch :: text) =
      (readToken s (.symbol ch)).bind fun s => scan fuel s text := by
  rw [scan, if_neg hspace, readToken]
  split_ifs with hsign hnumber
  · rfl
  · rw [hdigit] at hnumber
    cases hnumber
  · rfl

theorem scan_number {fuel : ℕ} (s : State) (numeral : Numeral)
    (hrest : ∀ c, text.head? = some c → c.isDigit = false) :
    scan (fuel + 1) s (numeral.digits ++ text) =
      (readToken s (.number numeral)).bind fun s => scan fuel s text := by
  obtain ⟨digits, hdigits, hne⟩ := numeral
  obtain ⟨c, rest, rfl⟩ := List.exists_cons_of_ne_nil hne
  have hc : c.isDigit = true := hdigits c List.mem_cons_self
  have hspace : c ≠ ' ' := by
    rintro rfl
    cases hc
  have hminus : ¬ (c = '-' ∧ expectsOperand s.lastTok) := by
    rintro ⟨rfl, -⟩
    cases hc
  have htake : (c :: (rest ++ text)).takeWhile Char.isDigit = c :: rest := by
    rw [← List.cons_append, List.takeWhile_append_of_pos hdigits]
    cases text with
    | nil => rw [List.takeWhile_nil, List.append_nil]
    | cons d text =>
        rw [List.takeWhile_cons, hrest d rfl, if_neg Bool.false_ne_true, List.append_nil]
  have hdrop : (c :: (rest ++ text)).dropWhile Char.isDigit = text := by
    rw [← List.cons_append, List.dropWhile_append_of_pos hdigits]
    cases text with
    | nil => rfl
    | cons d text => rw [List.dropWhile_cons, hrest d rfl, if_neg Bool.false_ne_true]
  rw [List.cons_append, scan, if_neg hspace, if_neg hminus, if_pos hc, htake, hdrop]
  rfl

theorem Written.head_not_isDigit (h : Written tokens text) (hseparated : Separated tokens)
    (hnumber : ∀ n, tokens.head? ≠ some (.number n)) :
    ∀ c, text.head? = some c → c.isDigit = false := by
  intro c hc
  cases h with
  | done spaces =>
      cases spaces with
      | zero => cases hc
      | succ spaces =>
          obtain rfl := Option.some.inj hc
          rfl
  | token spaces token _ =>
      cases spaces with
      | succ spaces =>
          obtain rfl := Option.some.inj hc
          rfl
      | zero =>
          cases token with
          | number numeral => exact absurd rfl (hnumber numeral)
          | symbol ch =>
              obtain rfl := Option.some.inj hc
              exact (hseparated.symbols ch List.mem_cons_self).2

/-- **Spaces do not matter**: the loop goes from token to token. -/
theorem scan_written (h : Written tokens text) (hseparated : Separated tokens) {fuel : ℕ}
    (hfuel : text.length < fuel) (s : State) : scan fuel s text = tokens.foldlM readToken s := by
  induction h generalizing fuel s with
  | done spaces =>
      rw [List.length_replicate] at hfuel
      obtain ⟨fuel, rfl⟩ := Nat.exists_eq_add_of_lt hfuel
      have hspaces := scan_spaces (fuel + 1) spaces s []
      rw [List.append_nil] at hspaces
      rw [show spaces + fuel + 1 = fuel + 1 + spaces by omega, hspaces]
      rfl
  | @token tokens text spaces token hwritten ih =>
      obtain ⟨hsymbols, hnumbers⟩ := hseparated
      have hrest : Separated tokens :=
        ⟨fun ch hch => hsymbols ch (List.mem_cons_of_mem _ hch), hnumbers.tail⟩
      have hpos : 1 ≤ token.text.length := by
        cases token with
        | number numeral => exact List.length_pos_iff.mpr numeral.ne_nil
        | symbol ch => exact le_rfl
      rw [List.length_append, List.length_append, List.length_replicate] at hfuel
      obtain ⟨fuel, rfl⟩ := Nat.exists_eq_add_of_le' (show spaces + 1 ≤ fuel by omega)
      have hless : text.length < fuel := by omega
      have hfirst : scan (fuel + 1) s (token.text ++ text) =
          (readToken s token).bind fun s => scan fuel s text := by
        cases token with
        | number numeral =>
            refine scan_number s numeral (hwritten.head_not_isDigit hrest fun n hn => ?_)
            obtain ⟨tokens, rfl⟩ := List.head?_eq_some_iff.mp hn
            exact (List.isChain_cons_cons.mp hnumbers).1 numeral n rfl rfl
        | symbol ch =>
            obtain ⟨hspace, hdigit⟩ := hsymbols ch List.mem_cons_self
            exact scan_symbol s hspace hdigit text
      rw [show fuel + (spaces + 1) = fuel + 1 + spaces by omega, scan_spaces, hfirst,
        List.foldlM_cons]
      simp only [ih hrest hless]
      rfl

/-! ## The tokens of a formula -/

variable {e l r : Formula} {o : Op} {n : ℕ}

theorem not_isDigit_char (o : Op) : o.char ≠ ' ' ∧ o.char.isDigit = false := by
  cases o <;> decide

theorem Separated.append_symbol {front back : List Token} (hfront : Separated front)
    (hch : ch ≠ ' ' ∧ ch.isDigit = false) (hback : Separated back) :
    Separated (front ++ .symbol ch :: back) where
  symbols c hc := by
    rcases List.mem_append.mp hc with hc | hc
    · exact hfront.symbols c hc
    · rcases List.mem_cons.mp hc with heq | hc
      · rwa [Token.symbol.inj heq]
      · exact hback.symbols c hc
  numbers := by
    refine List.isChain_append.mpr ⟨hfront.numbers, ?_, ?_⟩
    · refine List.isChain_cons.mpr ⟨fun b _ m n hm => ?_, hback.numbers⟩
      cases hm
    · intro a _ b hb m n _ hn
      rw [hn] at hb
      cases hb

theorem Separated.nil : Separated [] := ⟨fun _ h => absurd h List.not_mem_nil, .nil⟩

theorem Formula.separated (e : Formula) : Separated e.tokens := by
  induction e with
  | literal numeral =>
      refine ⟨fun ch hch => ?_, .singleton _⟩
      cases List.mem_singleton.mp hch
  | paren e ih =>
      exact Separated.nil.append_symbol (by decide) (ih.append_symbol (by decide) .nil)
  | neg e ih => exact Separated.nil.append_symbol (by decide) ih
  | bin o l r ihl ihr => exact ihl.append_symbol (not_isDigit_char o) ihr

/-! ## The operator stack -/

/-- An operator that is complete is appended to the output. -/
def rpnStack : OperatorStack Op (List (List Char)) where
  priority := Op.priority
  apply o rpn := some (rpn ++ [[o.char]])

theorem opPriority_char (o : Op) : opPriority o.char = o.priority := by cases o <;> rfl

section Loops

variable {rpn rpn' : List (List Char)} {ops ops' : List (Option Op)}

theorem closeLoop_of_close (hclose : rpnStack.close rpn ops = some (rpn', ops')) :
    closeLoop rpn (ops.map stackChar) = some (rpn', ops'.map stackChar) := by
  induction ops generalizing rpn with
  | nil => cases hclose
  | cons op ops ih =>
      cases op with
      | none =>
          cases hclose
          rfl
      | some o => exact (if_neg (char_ne_lparen o)).trans (ih hclose)

theorem operatorLoop_of_reduce (hreduce : rpnStack.reduce o rpn ops = some (rpn', ops')) :
    operatorLoop o.char rpn (ops.map stackChar) = (rpn', ops'.map stackChar) := by
  induction ops generalizing rpn with
  | nil =>
      cases hreduce
      rfl
  | cons op ops ih =>
      cases op with
      | none =>
          cases hreduce
          exact if_pos (.inl rfl)
      | some op =>
          have hpush : (op.char = '(' ∨ opPriority o.char > opPriority op.char) ↔
              rpnStack.priority op < rpnStack.priority o := by
            rw [opPriority_char, opPriority_char, or_iff_right (char_ne_lparen op)]
            exact Nat.cast_lt
          rw [OperatorStack.reduce] at hreduce
          rw [List.map_cons, operatorLoop, stackChar]
          by_cases hlt : rpnStack.priority op < rpnStack.priority o
          · rw [if_pos hlt] at hreduce
            rw [if_pos (hpush.mpr hlt)]
            cases hreduce
            rfl
          · rw [if_neg hlt] at hreduce
            rw [if_neg (mt hpush.mp hlt)]
            exact ih hreduce

theorem flush_eq (hflush : rpnStack.flush rpn ops = some rpn') :
    rpn ++ (ops.map stackChar).map (fun op => [op]) = rpn' := by
  induction ops generalizing rpn with
  | nil => exact (List.append_nil _).trans (Option.some.inj hflush)
  | cons op ops ih =>
      cases op with
      | none => cases hflush
      | some o =>
          rw [← ih hflush, List.append_assoc]
          rfl

end Loops

/-! ## Reading a formula -/

theorem expectsOperand_singleton (hdigit : ch.isDigit = false) (hclose : ch ≠ ')') :
    expectsOperand [ch] = true := by
  have hne : [ch] ≠ [')'] := fun heq => hclose (List.singleton_inj.mp heq)
  rw [expectsOperand, List.getLast?_singleton, Option.all_some, hdigit, Bool.not_false,
    Bool.true_and]
  exact bne_iff_ne.mpr hne

theorem not_expectsOperand_numeral (front : List Char) (numeral : Numeral) :
    expectsOperand (front ++ numeral.digits) = false := by
  obtain ⟨digits, hdigits, hne⟩ := numeral
  have hlast : (front ++ digits).getLast? = some (digits.getLast hne) := by
    rw [List.getLast?_append_of_ne_nil _ hne, List.getLast?_eq_some_getLast hne]
  rw [expectsOperand, hlast, Option.all_some, hdigits _ (List.getLast_mem hne)]
  rfl

theorem readToken_operator (negative : Bool) {lastTok : List Char} {rpn rpn' : List (List Char)}
    {ops ops' : List (Option Op)} (hlast : expectsOperand lastTok = false)
    (hreduce : rpnStack.reduce o rpn ops = some (rpn', ops')) :
    readToken ⟨rpn, ops.map stackChar, lastTok, negative⟩ (.symbol o.char) =
      some ⟨rpn', ops'.map stackChar, [o.char], negative⟩ := by
  have hsign : ¬ (o.char = '-' ∧ expectsOperand lastTok = true) := by
    rw [hlast]
    exact fun h => Bool.false_ne_true h.2
  rw [readToken, if_neg hsign, readOther, if_neg (char_ne_lparen o), if_neg (char_ne_rparen o),
    operatorLoop_of_reduce hreduce]
  rfl

theorem readToken_close (lastTok : List Char) (negative : Bool) {rpn rpn' : List (List Char)}
    {ops ops' : List (Option Op)} (hclose : rpnStack.close rpn ops = some (rpn', ops')) :
    readToken ⟨rpn, ops.map stackChar, lastTok, negative⟩ (.symbol ')') =
      some ⟨rpn', ops'.map stackChar, [')'], negative⟩ := by
  have hsign : ¬ (')' = '-' ∧ expectsOperand lastTok = true) := fun h => absurd h.1 (by decide)
  rw [readToken, if_neg hsign, readOther, if_neg (by decide), if_pos rfl,
    closeLoop_of_close hclose]
  rfl

/-- Behind a formula the stack reaches its postfix order, by induction on the formula.  The
pending sign goes to its first literal. -/
theorem reads (hfits : e.Fits n) (rpn : List (List Char)) (ops : List (Option Op))
    (hbelow : rpnStack.Below n ops) {lastTok : List Char}
    (hlast : expectsOperand lastTok = true) (negative : Bool) :
    ∃ rpn' ops' lastTok', e.tokens.foldlM readToken ⟨rpn, ops.map stackChar, lastTok, negative⟩ =
        some ⟨rpn', ops'.map stackChar, lastTok', false⟩ ∧
      expectsOperand lastTok' = false ∧
      rpnStack.Reaches n rpn' ops' (rpn ++ e.rpn negative) ops := by
  induction e generalizing n rpn ops lastTok negative with
  | literal numeral =>
      exact ⟨_, ops, _, rfl, not_expectsOperand_numeral _ numeral, .refl _ _ _ _⟩
  | neg e ih =>
      obtain ⟨-, hfits⟩ := hfits
      have hsign : readToken ⟨rpn, ops.map stackChar, lastTok, negative⟩ (.symbol '-') =
          some ⟨rpn, ops.map stackChar, ['-'], !negative⟩ := if_pos ⟨rfl, hlast⟩
      obtain ⟨rpn', ops', lastTok', hrun, hlast', hreaches⟩ :=
        ih hfits rpn ops hbelow (show expectsOperand ['-'] = true from rfl) (!negative)
      refine ⟨rpn', ops', lastTok', ?_, hlast', hreaches⟩
      rw [Formula.tokens, List.foldlM_cons, hsign]
      exact hrun
  | paren e ih =>
      have hopen : readToken ⟨rpn, ops.map stackChar, lastTok, negative⟩ (.symbol '(') =
          some ⟨rpn, (none :: ops).map stackChar, ['('], negative⟩ := rfl
      obtain ⟨rpn', ops', lastTok', hrun, -, hreaches⟩ :=
        ih hfits rpn (none :: ops) trivial (show expectsOperand ['('] = true from rfl) negative
      have hclose := readToken_close lastTok' false hreaches.closed
      refine ⟨rpn ++ e.rpn negative, ops, [')'], ?_, rfl, .refl _ _ _ _⟩
      rw [Formula.tokens, List.foldlM_cons, hopen]
      show (e.tokens ++ [Token.symbol ')']).foldlM readToken _ = _
      rw [List.foldlM_append, hrun]
      show [Token.symbol ')'].foldlM readToken _ = _
      rw [List.foldlM_cons, hclose]
      rfl
  | bin o l r ihl ihr =>
      obtain ⟨hle, hl, hr⟩ := hfits
      obtain ⟨rpn', ops', lastTok', hrun, hlast', hreaches⟩ :=
        ihl hl rpn ops (hbelow.mono hle) hlast negative
      -- behind an operand a `-` is an operator
      have hstep := readToken_operator false hlast' (hreaches.operator hbelow hle)
      have hexpects := expectsOperand_singleton (not_isDigit_char o).2 (char_ne_rparen o)
      obtain ⟨rpn'', ops'', lastTok'', hrun', hlast'', hreaches'⟩ :=
        ihr hr (rpn ++ l.rpn negative) (some o :: ops) (Nat.lt_succ_self o.priority) hexpects false
      refine ⟨rpn'', ops'', lastTok'', ?_, hlast'', hreaches'.applied ?_ hle⟩
      · rw [Formula.tokens, List.foldlM_append, hrun]
        show (Token.symbol o.char :: r.tokens).foldlM readToken _ = _
        rw [List.foldlM_cons, hstep]
        exact hrun'
      · show some (rpn ++ l.rpn negative ++ r.rpn false ++ [[o.char]]) =
          some (rpn ++ (l.rpn negative ++ r.rpn false ++ [[o.char]]))
        rw [List.append_assoc, List.append_assoc, List.append_assoc]

theorem expr2rpn_eq (hfits : e.Fits 0) (htext : Written e.tokens text)
    (hlength : text.length < 2 ^ 31) : expr2rpn text = some (e.rpn false) := by
  obtain ⟨rpn, ops, lastTok, hrun, -, hreaches⟩ :=
    reads hfits [] [] trivial (show expectsOperand [] = true from rfl) false
  have hscan := scan_written htext e.separated (Nat.lt_succ_self _) ⟨[], [], [], false⟩
  have hflush := flush_eq hreaches.ended
  rw [expr2rpn, if_pos hlength, hscan]
  show (e.tokens.foldlM readToken ⟨[], [].map stackChar, [], false⟩ >>= _) = _
  rw [hrun]
  exact congrArg some hflush

/-! ## Evaluation -/

namespace Formula

/-- The literals of the formula are values of 64 bits. -/
def LiteralsFit : Formula → Prop
  | literal numeral => (Decimal.value numeral.digits : ℤ) < 2 ^ 63
  | paren e => LiteralsFit e
  | neg e => LiteralsFit e
  | bin _ l r => LiteralsFit l ∧ LiteralsFit r

theorem literalsFit_of_value {v : ℤ} (h : e.value = some v) : e.LiteralsFit := by
  induction e generalizing v with
  | literal numeral =>
      rw [value, represent] at h
      exact (Option.ite_none_right_eq_some.mp h).1.2
  | paren e ih => exact ih h
  | neg e ih =>
      obtain ⟨w, hw, -⟩ := Option.bind_eq_some_iff.mp h
      exact ih hw
  | bin o l r ihl ihr =>
      obtain ⟨a, ha, h⟩ := Option.bind_eq_some_iff.mp h
      obtain ⟨b, hb, -⟩ := Option.bind_eq_some_iff.mp h
      exact ⟨ihl ha, ihr hb⟩

end Formula

theorem evalTok_operator (o : Op) (a b : ℤ) (stack : List ℤ) :
    evalTok (b :: a :: stack) [o.char] = (evalOp o a b).map (· :: stack) := by
  cases o with
  | add => rfl
  | sub => rfl
  | mul => rfl
  | div =>
      show (if b = 0 then none else represent 64 (a.tdiv b)).map (· :: stack) = _
      by_cases hzero : b = 0
      · rw [if_pos hzero, evalOp, if_pos ⟨rfl, hzero⟩]
      · rw [if_neg hzero, evalOp, if_neg fun h => hzero h.2]
        rfl

theorem evalTok_literal (numeral : Numeral) (negative : Bool) (stack : List ℤ) :
    evalTok stack ((if negative then ['-'] else []) ++ numeral.digits) =
      (represent 64 (if negative then -(Decimal.value numeral.digits : ℤ)
        else Decimal.value numeral.digits)).map (· :: stack) := by
  obtain ⟨digits, hdigits, hne⟩ := numeral
  have hnot {c : Char} (hc : c.isDigit = false) :
      (if negative then ['-'] else []) ++ digits ≠ [c] := by
    intro heq
    have hmem : digits.getLast hne ∈ [c] := by
      rw [← heq]
      exact List.mem_append_right _ (List.getLast_mem hne)
    have hlast := hdigits _ (List.getLast_mem hne)
    rw [List.mem_singleton.mp hmem, hc] at hlast
    cases hlast
  rw [evalTok, if_neg (hnot rfl), if_neg (hnot rfl), if_neg (hnot rfl), if_neg (hnot rfl)]
  cases negative with
  | false => exact congrArg _ (toInteger_digits hdigits hne)
  | true => exact congrArg _ (toInteger_minus hdigits hne)

theorem value_moved_literal (hfit : (Formula.literal numeral).LiteralsFit) (negative : Bool) :
    ((Formula.literal numeral).moved negative).value =
      represent 64 (if negative then -(Decimal.value numeral.digits : ℤ)
        else Decimal.value numeral.digits) := by
  cases negative with
  | false => rfl
  | true =>
      have hrange : -2 ^ (64 - 1) ≤ (Decimal.value numeral.digits : ℤ) ∧
          (Decimal.value numeral.digits : ℤ) < 2 ^ (64 - 1) :=
        ⟨(by decide : (-2 ^ (64 - 1) : ℤ) ≤ 0).trans (Int.natCast_nonneg _), hfit⟩
      show (represent 64 _).bind _ = _
      rw [represent, if_pos hrange]
      rfl

/-- The postfix order leaves the value on the stack, by induction on the formula. -/
theorem evalRpn_rpn (hfit : e.LiteralsFit) (negative : Bool) (stack : List ℤ)
    (rest : List (List Char)) :
    (e.rpn negative ++ rest).foldlM evalTok stack =
      ((e.moved negative).value).bind fun v => rest.foldlM evalTok (v :: stack) := by
  induction e generalizing negative stack rest with
  | literal numeral =>
      rw [Formula.rpn, List.singleton_append, List.foldlM_cons, evalTok_literal,
        value_moved_literal hfit]
      exact Option.bind_map ..
  | paren e ih => exact ih hfit negative stack rest
  | neg e ih => exact ih hfit (!negative) stack rest
  | bin o l r ihl ihr =>
      obtain ⟨hl, hr⟩ := hfit
      rw [Formula.rpn, List.append_assoc, List.append_assoc, ihl hl, Formula.moved, Formula.value,
        Option.bind_assoc]
      congr 1
      funext a
      rw [ihr hr, Option.bind_assoc]
      congr 1
      funext b
      rw [List.singleton_append, List.foldlM_cons, evalTok_operator]
      exact Option.bind_map ..

/-! ## The result -/

/-- **What is calculated** is the formula whose signs have moved. -/
theorem calculate_eq (hfits : e.Fits 0) (htext : Written e.tokens text)
    (hlength : text.length < 2 ^ 31) (hliterals : e.LiteralsFit) :
    calculate text = (e.moved false).value.map narrow := by
  have heval := evalRpn_rpn hliterals false [] []
  rw [List.append_nil] at heval
  rw [calculate, expr2rpn_eq hfits htext hlength]
  show ((e.rpn false).foldlM evalTok [] >>= _) = _
  rw [heval]
  cases (e.moved false).value with
  | none => rfl
  | some v => rfl

theorem narrow_of_fits {v : ℤ} (hlow : -2 ^ 31 ≤ v) (hhigh : v < 2 ^ 31) : narrow v = v :=
  Int.bmod_eq_of_le (by omega) (by omega)

theorem represent_eq_some_iff {v w : ℤ} :
    represent 64 v = some w ↔ (-2 ^ 63 ≤ v ∧ v < 2 ^ 63) ∧ v = w :=
  Option.ite_none_right_eq_some.trans (and_congr_right' (Iff.of_eq (Option.some.injEq ..)))

/-- The value of a product or a quotient changes its sign with the left operand. -/
theorem evalOp_neg_left {o : Op} {a b v : ℤ} (ho : o = .mul ∨ o = .div)
    (heval : evalOp o a b = some v) (hleast : v ≠ -2 ^ 63) : evalOp o (-a) b = some (-v) := by
  obtain ⟨hzero, heval⟩ := Option.ite_none_left_eq_some.mp heval
  obtain ⟨hrange, rfl⟩ := represent_eq_some_iff.mp heval
  have hneg : o.eval (-a) b = -o.eval a b := by
    rcases ho with rfl | rfl
    · exact neg_mul a b
    · exact Int.neg_tdiv a b
  rw [evalOp, if_neg hzero, hneg, represent_eq_some_iff]
  exact ⟨by omega, rfl⟩

theorem Formula.value_range {v : ℤ} (hvalue : e.value = some v) : -2 ^ 63 ≤ v ∧ v < 2 ^ 63 := by
  induction e generalizing v with
  | literal numeral =>
      obtain ⟨hrange, heq⟩ := represent_eq_some_iff.mp hvalue
      exact heq ▸ hrange
  | paren e ih => exact ih hvalue
  | neg e ih =>
      obtain ⟨w, -, hneg⟩ := Option.bind_eq_some_iff.mp hvalue
      obtain ⟨hrange, rfl⟩ := represent_eq_some_iff.mp hneg
      exact hrange
  | bin o l r =>
      obtain ⟨a, -, hvalue⟩ := Option.bind_eq_some_iff.mp hvalue
      obtain ⟨b, -, heval⟩ := Option.bind_eq_some_iff.mp hvalue
      obtain ⟨hrange, rfl⟩ := represent_eq_some_iff.mp (Option.ite_none_left_eq_some.mp heval).2
      exact hrange

/-- A value behind a sign that may move has an opposite. -/
theorem Formula.LeadsProduct.represent_neg (hleads : e.LeadsProduct) {v : ℤ}
    (hvalue : e.value = some v) : represent 64 (-v) = some (-v) := by
  rw [represent_eq_some_iff]
  refine ⟨?_, rfl⟩
  have hrange := Formula.value_range hvalue
  induction e generalizing v with
  | literal numeral =>
      have heq := (represent_eq_some_iff.mp hvalue).2
      omega
  | paren e ih => exact ih hleads hvalue hrange
  | neg e =>
      obtain ⟨w, hw, hneg⟩ := Option.bind_eq_some_iff.mp hvalue
      obtain ⟨-, rfl⟩ := represent_eq_some_iff.mp hneg
      have hrange := Formula.value_range hw
      omega
  | bin o l r =>
      have hleast : v ≠ -2 ^ 63 := fun h => hleads.2.2 (h ▸ hvalue)
      omega

/-- Where a sign comes to a factor it may have been in front of the product, by induction on the
formula with and without a pending sign. -/
theorem value_moved (hsigns : e.SignsAtFactors) {v : ℤ} (hvalue : e.value = some v) :
    (e.moved false).value = some v ∧ (e.LeadsProduct → (e.moved true).value = some (-v)) := by
  induction e generalizing v with
  | literal numeral =>
      refine ⟨hvalue, fun hleads => ?_⟩
      exact Option.bind_eq_some_iff.mpr ⟨v, hvalue, hleads.represent_neg hvalue⟩
  | paren e ih => exact ih hsigns hvalue
  | neg e ih =>
      obtain ⟨w, hw, hneg⟩ := Option.bind_eq_some_iff.mp hvalue
      obtain ⟨-, rfl⟩ := represent_eq_some_iff.mp hneg
      obtain ⟨hfalse, htrue⟩ := ih hsigns.2 hw
      refine ⟨htrue hsigns.1, fun _ => ?_⟩
      rwa [neg_neg]
  | bin o l r ihl ihr =>
      have hbin := hvalue
      obtain ⟨a, ha, hvalue⟩ := Option.bind_eq_some_iff.mp hvalue
      obtain ⟨b, hb, heval⟩ := Option.bind_eq_some_iff.mp hvalue
      obtain ⟨hfalse, htrue⟩ := ihl hsigns.1 ha
      have hr := (ihr hsigns.2 hb).1
      constructor
      · rw [Formula.moved, Formula.value, hfalse, hr]
        exact heval
      · rintro ⟨ho, hleads, hleast⟩
        rw [hbin] at hleast
        rw [Formula.moved, Formula.value, htrue hleads, hr]
        exact evalOp_neg_left ho heval fun h => hleast (congrArg some h)

/-- **The formulas that are calculated**: the first literal behind every sign is a factor of what
the sign stands in front of. -/
theorem calculate_value {v : ℤ} (hfits : e.Fits 0) (htext : Written e.tokens text)
    (hlength : text.length < 2 ^ 31) (hvalue : e.value = some v) (hlow : -2 ^ 31 ≤ v)
    (hhigh : v < 2 ^ 31) (hsigns : e.SignsAtFactors) : calculate text = some v := by
  have hliterals := Formula.literalsFit_of_value hvalue
  rw [calculate_eq hfits htext hlength hliterals, (value_moved hsigns hvalue).1, Option.map_some,
    narrow_of_fits hlow hhigh]

/-- `-(2*3)` -/
def negProduct : Formula :=
  .neg (.paren (.bin .mul (.literal ⟨['2'], by decide, by decide⟩)
    (.literal ⟨['3'], by decide, by decide⟩)))

/-- The sign of a product may move to its first factor. -/
theorem calculate_value_product : calculate ['-', '(', ' ', '2', '*', '3', ')'] = some (-6) := by
  have htext : Written negProduct.tokens ['-', '(', ' ', '2', '*', '3', ')'] :=
    .token 0 _ (.token 0 _ (.token 1 _ (.token 0 _ (.token 0 _ (.token 0 _ (.done 0))))))
  have hfits : negProduct.Fits 0 := ⟨id, by decide, trivial, trivial⟩
  have hvalue : negProduct.value = some (-6) := by decide
  have hsigns : negProduct.SignsAtFactors := ⟨⟨.inl rfl, trivial, by decide⟩, trivial, trivial⟩
  exact calculate_value hfits htext (by decide) hvalue (by decide) (by decide) hsigns

/-- `-(1+2)`: the sign of a sum may not move to its first term. -/
theorem not_calculate :
    ∃ e : Formula, e.Fits 0 ∧ Written e.tokens ['-', '(', '1', '+', '2', ')'] ∧
      e.value = some (-3) ∧ calculate ['-', '(', '1', '+', '2', ')'] = some 1 := by
  refine ⟨.neg (.paren (.bin .add (.literal ⟨['1'], by decide, by decide⟩)
    (.literal ⟨['2'], by decide, by decide⟩))), ⟨id, by decide, trivial, trivial⟩, ?_,
    by decide, by decide⟩
  exact .token 0 _ (.token 0 _ (.token 0 _ (.token 0 _ (.token 0 _ (.token 0 _ (.done 0))))))

end Eureka.Leetcode.BasicCalculator

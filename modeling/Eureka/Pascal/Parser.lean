import Eureka.Pascal.Lexer

/-!
# The parser of the Pascal interpreter

The parser goes down the grammar that its comments give.  Its calls are bounded
by fuel, which no text uses up (`Eureka.Pascal.Grammar`).
-/

namespace Eureka.Pascal

inductive Node
  | num (tok : Token)
  | binOp (tok : Token) (left right : Node)
  | unary (tok : Token) (sub : Node)
  | compound (stmts : List Node)
  | assign (tok : Token) (left right : Node)
  | var (tok : Token)
  | nop

/-- The errors of the parser, with the messages that are put in front of them on the way up. -/
inductive ParseError
  | expected (kind : Kind) (got : Token)
  | expectedRParen (got : Token)
  | expectedEOF (got : Token)
  | wrap (message : String) (cause : ParseError)

inductive Failure
  | error (e : ParseError)
  /-- The lexer runs into a comment that is not closed. -/
  | endless
  | outOfFuel

/-- What a call returns: its result, and the lexer behind what has been consumed. -/
abbrev Parsed (α : Type) := α × Lexer

/-- `lexer.nextToken` in the parser. -/
def advance (lexer : Lexer) : Except Failure Lexer :=
  match lexer.nextToken with
  | some lexer => .ok lexer
  | none => .error .endless

def eatToken (expectedKind : Kind) (lexer : Lexer) : Except Failure Lexer :=
  if lexer.currentToken.kind = expectedKind then advance lexer
  else .error (.error (.expected expectedKind lexer.currentToken))

/-- `errors.Wrap`. -/
def wrap {α : Type} (message : String) : Except Failure α → Except Failure α
  | .error (.error e) => .error (.error (.wrap message e))
  | result => result

def consumeVariable (lexer : Lexer) : Except Failure (Parsed Node) := do
  let node := Node.var lexer.currentToken
  let lexer ← eatToken .tokSymbol lexer
  return (node, lexer)

/-! ## Expressions -/

mutual

def consumeFactor : ℕ → Lexer → Except Failure (Parsed Node)
  | 0, _ => .error .outOfFuel
  | fuel + 1, lexer =>
      let tok := lexer.currentToken
      if tok.kind = .tokLiteralInteger then do
        let lexer ← advance lexer
        return (.num tok, lexer)
      else if tok.kind = .tokPlus ∨ tok.kind = .tokMinus then do
        let lexer ← advance lexer
        let (sub, lexer) ← wrap "consume factor for unary op" (consumeFactor fuel lexer)
        return (.unary tok sub, lexer)
      else if tok.kind = .tokLParen then do
        let lexer ← advance lexer
        let (node, lexer) ← wrap "consume as expr" (consumeExpr fuel lexer)
        if lexer.currentToken.kind = .tokRParen then
          let lexer ← advance lexer
          return (node, lexer)
        else .error (.error (.expectedRParen lexer.currentToken))
      else consumeVariable lexer

def consumeTerm : ℕ → Lexer → Except Failure (Parsed Node)
  | 0, _ => .error .outOfFuel
  | fuel + 1, lexer => do
      let (node, lexer) ← consumeFactor fuel lexer
      termLoop fuel node lexer

/-- The loop of `consumeTerm`. -/
def termLoop : ℕ → Node → Lexer → Except Failure (Parsed Node)
  | 0, _, _ => .error .outOfFuel
  | fuel + 1, node, lexer =>
      let opToken := lexer.currentToken
      if opToken.kind = .tokMul ∨ opToken.kind = .tokDivInteger then do
        let lexer ← advance lexer
        let (factor, lexer) ← consumeFactor fuel lexer
        termLoop fuel (.binOp opToken node factor) lexer
      else .ok (node, lexer)

def consumeExpr : ℕ → Lexer → Except Failure (Parsed Node)
  | 0, _ => .error .outOfFuel
  | fuel + 1, lexer => do
      let (node, lexer) ← consumeTerm fuel lexer
      exprLoop fuel node lexer

/-- The loop of `consumeExpr`. -/
def exprLoop : ℕ → Node → Lexer → Except Failure (Parsed Node)
  | 0, _, _ => .error .outOfFuel
  | fuel + 1, node, lexer =>
      let opToken := lexer.currentToken
      if opToken.kind = .tokPlus ∨ opToken.kind = .tokMinus then do
        let lexer ← advance lexer
        let (term, lexer) ← consumeTerm fuel lexer
        exprLoop fuel (.binOp opToken node term) lexer
      else .ok (node, lexer)

end

/-! ## Statements -/

def consumeAssignment (fuel : ℕ) (lexer : Lexer) : Except Failure (Parsed Node) := do
  let (varNode, lexer) ← consumeVariable lexer
  let assignTok := lexer.currentToken
  let lexer ← eatToken .tokAssign lexer
  let (exprNode, lexer) ← consumeExpr fuel lexer
  return (.assign assignTok varNode exprNode, lexer)

def consumeEmpty (lexer : Lexer) : Except Failure (Parsed Node) := .ok (.nop, lexer)

mutual

def consumeStatement : ℕ → Lexer → Except Failure (Parsed Node)
  | 0, _ => .error .outOfFuel
  | fuel + 1, lexer =>
      if lexer.currentToken.kind = .tokBegin then consumeCompoundStatement fuel lexer
      else if lexer.currentToken.kind = .tokSymbol then consumeAssignment fuel lexer
      else consumeEmpty lexer

def consumeStatementList : ℕ → Lexer → Except Failure (Parsed (List Node))
  | 0, _ => .error .outOfFuel
  | fuel + 1, lexer => do
      let (node, lexer) ← consumeStatement fuel lexer
      statementLoop fuel [node] lexer

/-- The loop of `consumeStatementList`. -/
def statementLoop : ℕ → List Node → Lexer → Except Failure (Parsed (List Node))
  | 0, _, _ => .error .outOfFuel
  | fuel + 1, nodes, lexer =>
      if lexer.currentToken.kind = .tokSemi then do
        let lexer ← advance lexer
        let (node, lexer) ← consumeStatement fuel lexer
        statementLoop fuel (nodes ++ [node]) lexer
      else .ok (nodes, lexer)

def consumeCompoundStatement : ℕ → Lexer → Except Failure (Parsed Node)
  | 0, _ => .error .outOfFuel
  | fuel + 1, lexer => do
      let lexer ← eatToken .tokBegin lexer
      let (nodes, lexer) ← consumeStatementList fuel lexer
      let lexer ← eatToken .tokEnd lexer
      return (.compound nodes, lexer)

end

def consumeProgram (fuel : ℕ) (lexer : Lexer) : Except Failure (Parsed Node) := do
  let (node, lexer) ← consumeCompoundStatement fuel lexer
  let lexer ← eatToken .tokDot lexer
  return (node, lexer)

/-- The tokens that a lexer still delivers. -/
def Lexer.size : Lexer → ℕ
  | .token _ ahead => ahead.size + 1
  | _ => 0

/-- `parse`.  A token takes at most four nested calls. -/
def parse (lexer : Lexer) : Except Failure Node := do
  let (node, lexer) ← consumeProgram (4 * lexer.size + 8) lexer
  if lexer.currentToken.kind = .tokEOF then return node
  else .error (.error (.expectedEOF lexer.currentToken))

end Eureka.Pascal

/-!
## The grammar of the Pascal interpreter

The grammar is the one of the comments at the parser's functions.  A derivation
gives its tokens a tree: the repetitions of the grammar are read from the left,
so that `+` and `-`, and `*` and `/`, associate to the left.

* `consumes_of_derives`: the parser consumes what the grammar derives, by
  induction on the derivation;
* `sound`: what the parser consumes is derived, and it never uses up its fuel,
  by induction on the fuel.

Together they say what `parse` does on all tokens (`parse_iff`).
-/

namespace Eureka.Pascal

inductive NonTerminal
  | program
  | compoundStatement
  | statementList
  | statement
  | assignment
  | expr
  | term
  | factor
  | variableName

/-- The tokens are derived from the nonterminal, with this tree.  The tree of a statement list
is a compound node of its statements. -/
inductive Derives : NonTerminal → List Token → Node → Prop
  | integer {tok : Token} : tok.kind = .tokLiteralInteger → Derives .factor [tok] (.num tok)
  | unary {tok : Token} {ts : List Token} {sub : Node} :
      tok.kind = .tokPlus ∨ tok.kind = .tokMinus → Derives .factor ts sub →
      Derives .factor (tok :: ts) (.unary tok sub)
  | paren {lparen rparen : Token} {ts : List Token} {node : Node} :
      lparen.kind = .tokLParen → Derives .expr ts node → rparen.kind = .tokRParen →
      Derives .factor (lparen :: (ts ++ [rparen])) node
  | factorVariable {ts : List Token} {node : Node} :
      Derives .variableName ts node → Derives .factor ts node
  | symbol {tok : Token} : tok.kind = .tokSymbol → Derives .variableName [tok] (.var tok)
  | termFactor {ts : List Token} {node : Node} : Derives .factor ts node → Derives .term ts node
  | termMore {op : Token} {ts us : List Token} {left right : Node} :
      Derives .term ts left → op.kind = .tokMul ∨ op.kind = .tokDivInteger →
      Derives .factor us right → Derives .term (ts ++ op :: us) (.binOp op left right)
  | exprTerm {ts : List Token} {node : Node} : Derives .term ts node → Derives .expr ts node
  | exprMore {op : Token} {ts us : List Token} {left right : Node} :
      Derives .expr ts left → op.kind = .tokPlus ∨ op.kind = .tokMinus →
      Derives .term us right → Derives .expr (ts ++ op :: us) (.binOp op left right)
  | assignment {tok : Token} {ts us : List Token} {left right : Node} :
      Derives .variableName ts left → tok.kind = .tokAssign → Derives .expr us right →
      Derives .assignment (ts ++ tok :: us) (.assign tok left right)
  | statementCompound {ts : List Token} {node : Node} :
      Derives .compoundStatement ts node → Derives .statement ts node
  | statementAssignment {ts : List Token} {node : Node} :
      Derives .assignment ts node → Derives .statement ts node
  | statementEmpty : Derives .statement [] .nop
  | listOne {ts : List Token} {node : Node} :
      Derives .statement ts node → Derives .statementList ts (.compound [node])
  | listMore {semi : Token} {ts us : List Token} {node : Node} {nodes : List Node} :
      Derives .statement ts node → semi.kind = .tokSemi →
      Derives .statementList us (.compound nodes) →
      Derives .statementList (ts ++ semi :: us) (.compound (node :: nodes))
  | compound {beginTok endTok : Token} {ts : List Token} {node : Node} :
      beginTok.kind = .tokBegin → Derives .statementList ts node → endTok.kind = .tokEnd →
      Derives .compoundStatement (beginTok :: (ts ++ [endTok])) node
  | program {dot : Token} {ts : List Token} {node : Node} :
      Derives .compoundStatement ts node → dot.kind = .tokDot →
      Derives .program (ts ++ [dot]) node

/-! ## Tokens ahead of the parser -/

/-- A lexer that delivers the tokens first. -/
def Lexer.prepend : List Token → Lexer → Lexer
  | [], lexer => lexer
  | tok :: ts, lexer => .token tok (prepend ts lexer)

open Lexer (prepend)

@[simp] theorem prepend_nil (lexer : Lexer) : prepend [] lexer = lexer := rfl

@[simp] theorem prepend_cons (tok : Token) (ts : List Token) (lexer : Lexer) :
    prepend (tok :: ts) lexer = .token tok (prepend ts lexer) := rfl

@[simp] theorem prepend_append (ts us : List Token) (lexer : Lexer) :
    prepend (ts ++ us) lexer = prepend ts (prepend us lexer) := by
  induction ts with
  | nil => rfl
  | cons tok ts ih => exact congrArg (Lexer.token tok) ih

theorem prepend_ne_endless {lexer : Lexer} (hlexer : lexer ≠ .endless) (ts : List Token) :
    prepend ts lexer ≠ .endless := by
  cases ts with
  | nil => exact hlexer
  | cons tok ts => nofun

theorem ne_endless_of_kind {lexer : Lexer}
    (hkind : lexer.currentToken.kind = .tokSemi ∨ lexer.currentToken.kind = .tokEnd) :
    lexer ≠ .endless := by
  rintro rfl
  rcases hkind with hkind | hkind <;> cases hkind

theorem advance_token {ahead : Lexer} (hahead : ahead ≠ .endless) (tok : Token) :
    advance (.token tok ahead) = .ok ahead := by
  cases ahead with
  | endless => exact absurd rfl hahead
  | _ => rfl

theorem eatToken_token {ahead : Lexer} (hahead : ahead ≠ .endless) {tok : Token} {kind : Kind}
    (hkind : tok.kind = kind) : eatToken kind (.token tok ahead) = .ok ahead := by
  rw [eatToken]
  exact (if_pos hkind).trans (advance_token hahead tok)

@[simp] theorem ok_bind {α β : Type} (a : α) (f : α → Except Failure β) :
    (Except.ok a >>= f) = f a := rfl

@[simp] theorem wrap_ok {α : Type} (message : String) (a : α) :
    wrap message (.ok a) = .ok a := rfl

/-! ## The branches of the parser -/

def IsMulDiv (kind : Kind) : Prop := kind = .tokMul ∨ kind = .tokDivInteger

def IsPlusMinus (kind : Kind) : Prop := kind = .tokPlus ∨ kind = .tokMinus

section Branches

variable {tok : Token}

theorem consumeFactor_integer (hkind : tok.kind = .tokLiteralInteger) (fuel : ℕ)
    (ahead : Lexer) :
    consumeFactor (fuel + 1) (.token tok ahead) = (do
      let ahead ← advance (.token tok ahead)
      return (.num tok, ahead)) := by
  rw [consumeFactor]
  exact if_pos hkind

theorem consumeFactor_unary (hkind : IsPlusMinus tok.kind) (fuel : ℕ) (ahead : Lexer) :
    consumeFactor (fuel + 1) (.token tok ahead) = (do
      let ahead ← advance (.token tok ahead)
      let (sub, ahead) ← wrap "consume factor for unary op" (consumeFactor fuel ahead)
      return (.unary tok sub, ahead)) := by
  have hinteger : tok.kind ≠ .tokLiteralInteger := by
    rcases hkind with hkind | hkind <;> rw [hkind] <;> nofun
  rw [consumeFactor]
  exact (if_neg hinteger).trans (if_pos hkind)

theorem consumeFactor_paren (hkind : tok.kind = .tokLParen) (fuel : ℕ) (ahead : Lexer) :
    consumeFactor (fuel + 1) (.token tok ahead) = (do
      let ahead ← advance (.token tok ahead)
      let (node, ahead) ← wrap "consume as expr" (consumeExpr fuel ahead)
      if ahead.currentToken.kind = .tokRParen then
        let ahead ← advance ahead
        return (node, ahead)
      else .error (.error (.expectedRParen ahead.currentToken))) := by
  have hinteger : tok.kind ≠ .tokLiteralInteger := by rw [hkind]; nofun
  have hunary : ¬ (tok.kind = .tokPlus ∨ tok.kind = .tokMinus) := by rw [hkind]; nofun
  rw [consumeFactor]
  exact (if_neg hinteger).trans ((if_neg hunary).trans (if_pos hkind))

theorem consumeFactor_else {lexer : Lexer}
    (hinteger : lexer.currentToken.kind ≠ .tokLiteralInteger)
    (hunary : ¬ IsPlusMinus lexer.currentToken.kind)
    (hparen : lexer.currentToken.kind ≠ .tokLParen) (fuel : ℕ) :
    consumeFactor (fuel + 1) lexer = consumeVariable lexer := by
  rw [consumeFactor]
  exact (if_neg hinteger).trans ((if_neg hunary).trans (if_neg hparen))

theorem termLoop_more (hkind : IsMulDiv tok.kind) (fuel : ℕ) (node : Node) (ahead : Lexer) :
    termLoop (fuel + 1) node (.token tok ahead) = (do
      let ahead ← advance (.token tok ahead)
      let (factor, ahead) ← consumeFactor fuel ahead
      termLoop fuel (.binOp tok node factor) ahead) := by
  rw [termLoop]
  exact if_pos hkind

theorem termLoop_stops {lexer : Lexer} (hkind : ¬ IsMulDiv lexer.currentToken.kind) (fuel : ℕ)
    (node : Node) : termLoop (fuel + 1) node lexer = .ok (node, lexer) := by
  rw [termLoop]
  exact if_neg hkind

theorem exprLoop_more (hkind : IsPlusMinus tok.kind) (fuel : ℕ) (node : Node) (ahead : Lexer) :
    exprLoop (fuel + 1) node (.token tok ahead) = (do
      let ahead ← advance (.token tok ahead)
      let (term, ahead) ← consumeTerm fuel ahead
      exprLoop fuel (.binOp tok node term) ahead) := by
  rw [exprLoop]
  exact if_pos hkind

theorem exprLoop_stops {lexer : Lexer} (hkind : ¬ IsPlusMinus lexer.currentToken.kind)
    (fuel : ℕ) (node : Node) : exprLoop (fuel + 1) node lexer = .ok (node, lexer) := by
  rw [exprLoop]
  exact if_neg hkind

theorem consumeStatement_begin {lexer : Lexer} (hkind : lexer.currentToken.kind = .tokBegin)
    (fuel : ℕ) : consumeStatement (fuel + 1) lexer = consumeCompoundStatement fuel lexer := by
  rw [consumeStatement]
  exact if_pos hkind

theorem consumeStatement_symbol {lexer : Lexer} (hkind : lexer.currentToken.kind = .tokSymbol)
    (fuel : ℕ) : consumeStatement (fuel + 1) lexer = consumeAssignment fuel lexer := by
  have hbegin : lexer.currentToken.kind ≠ .tokBegin := by rw [hkind]; nofun
  rw [consumeStatement]
  exact (if_neg hbegin).trans (if_pos hkind)

theorem consumeStatement_else {lexer : Lexer} (hbegin : lexer.currentToken.kind ≠ .tokBegin)
    (hsymbol : lexer.currentToken.kind ≠ .tokSymbol) (fuel : ℕ) :
    consumeStatement (fuel + 1) lexer = .ok (.nop, lexer) := by
  rw [consumeStatement]
  exact (if_neg hbegin).trans (if_neg hsymbol)

/-- The statement in front of the lexer, and the loop of `consumeStatementList` from there. -/
def statementsFrom (fuel : ℕ) (nodes : List Node) (lexer : Lexer) :
    Except Failure (Parsed (List Node)) := do
  let (node, lexer) ← consumeStatement fuel lexer
  statementLoop fuel (nodes ++ [node]) lexer

theorem consumeStatementList_eq (fuel : ℕ) (lexer : Lexer) :
    consumeStatementList (fuel + 1) lexer = statementsFrom fuel [] lexer := by
  rw [consumeStatementList]
  rfl

theorem statementLoop_more (hkind : tok.kind = .tokSemi) (fuel : ℕ) (nodes : List Node)
    (ahead : Lexer) :
    statementLoop (fuel + 1) nodes (.token tok ahead) = (do
      let ahead ← advance (.token tok ahead)
      statementsFrom fuel nodes ahead) := by
  rw [statementLoop]
  exact if_pos hkind

theorem statementLoop_stops {lexer : Lexer} (hkind : lexer.currentToken.kind ≠ .tokSemi)
    (fuel : ℕ) (nodes : List Node) :
    statementLoop (fuel + 1) nodes lexer = .ok (nodes, lexer) := by
  rw [statementLoop]
  exact if_neg hkind

end Branches

/-! ## Completeness -/

/-- The parser consumes the tokens, whatever is ahead of them that the grammar lets follow. -/
def Consumes : NonTerminal → List Token → Node → Prop
  | .variableName, ts, node => ∀ ahead, ahead ≠ .endless →
      consumeVariable (prepend ts ahead) = .ok (node, ahead)
  | .factor, ts, node => ∀ fuel ahead, ahead ≠ .endless →
      consumeFactor (fuel + 4 * ts.length) (prepend ts ahead) = .ok (node, ahead)
  | .term, ts, node => ∀ fuel ahead, ahead ≠ .endless → ∃ fuel' ≥ fuel,
      consumeTerm (fuel + 4 * ts.length + 1) (prepend ts ahead) = termLoop fuel' node ahead
  | .expr, ts, node => ∀ fuel ahead, ahead ≠ .endless → ¬ IsMulDiv ahead.currentToken.kind →
      ∃ fuel' ≥ fuel,
        consumeExpr (fuel + 4 * ts.length + 3) (prepend ts ahead) = exprLoop fuel' node ahead
  | .assignment, ts, node => ∀ fuel ahead, ahead ≠ .endless →
      ¬ IsMulDiv ahead.currentToken.kind → ¬ IsPlusMinus ahead.currentToken.kind →
      consumeAssignment (fuel + 4 * ts.length) (prepend ts ahead) = .ok (node, ahead)
  | .statement, ts, node => ∀ fuel ahead,
      ahead.currentToken.kind = .tokSemi ∨ ahead.currentToken.kind = .tokEnd →
      consumeStatement (fuel + 4 * ts.length + 1) (prepend ts ahead) = .ok (node, ahead)
  | .statementList, ts, node => ∀ fuel nodes ahead, ahead.currentToken.kind = .tokEnd →
      ∃ stmts, node = .compound stmts ∧
        statementsFrom (fuel + 4 * ts.length + 2) nodes (prepend ts ahead) =
          .ok (nodes ++ stmts, ahead)
  | .compoundStatement, ts, node => ∀ fuel ahead, ahead ≠ .endless →
      consumeCompoundStatement (fuel + 4 * ts.length) (prepend ts ahead) = .ok (node, ahead)
  | .program, ts, node => ∀ fuel ahead, ahead ≠ .endless →
      consumeProgram (fuel + 4 * ts.length) (prepend ts ahead) = .ok (node, ahead)

/-- **Completeness of the parser.** -/
theorem consumes_of_derives {x : NonTerminal} {ts : List Token} {node : Node}
    (h : Derives x ts node) : Consumes x ts node := by
  induction h with
  | @integer tok hkind =>
      intro fuel ahead hahead
      show consumeFactor (fuel + 3 + 1) (.token tok ahead) = _
      rw [consumeFactor_integer hkind, advance_token hahead]
      rfl
  | @unary tok ts sub hkind hsub ih =>
      intro fuel ahead hahead
      have hlength : fuel + 4 * (tok :: ts).length = (fuel + 3 + 4 * ts.length) + 1 := by
        rw [List.length_cons]
        omega
      rw [hlength, prepend_cons, consumeFactor_unary hkind,
        advance_token (prepend_ne_endless hahead ts), ok_bind, ih (fuel + 3) ahead hahead]
      rfl
  | @paren lparen rparen ts node hleft hexpr hright ih =>
      intro fuel ahead hahead
      have hclose : Lexer.token rparen ahead ≠ .endless := nofun
      have hmulDiv : ¬ IsMulDiv (Lexer.token rparen ahead).currentToken.kind := by
        rw [IsMulDiv, Lexer.currentToken, hright]
        nofun
      have hplusMinus : ¬ IsPlusMinus (Lexer.token rparen ahead).currentToken.kind := by
        rw [IsPlusMinus, Lexer.currentToken, hright]
        nofun
      obtain ⟨fuel', hfuel, hconsume⟩ := ih (fuel + 4) _ hclose hmulDiv
      obtain ⟨more, rfl⟩ := Nat.exists_eq_add_of_le hfuel
      have hlength : fuel + 4 * (lparen :: (ts ++ [rparen])).length =
          (fuel + 4 + 4 * ts.length + 3) + 1 := by
        rw [List.length_cons, List.length_append, List.length_singleton]
        omega
      rw [hlength, prepend_cons, prepend_append, prepend_cons, prepend_nil,
        consumeFactor_paren hleft, advance_token (prepend_ne_endless hclose ts), ok_bind, hconsume,
        show fuel + 4 + more = (fuel + 3 + more) + 1 by omega, exprLoop_stops hplusMinus, wrap_ok,
        ok_bind]
      dsimp only
      rw [if_pos (show (Lexer.token rparen ahead).currentToken.kind = _ from hright),
        advance_token hahead]
      rfl
  | @factorVariable ts node hvariable ih =>
      intro fuel ahead hahead
      cases hvariable with
      | @symbol tok hkind =>
          have h := ih ahead hahead
          show consumeFactor (fuel + 3 + 1) (.token tok ahead) = _
          rw [← h]
          exact consumeFactor_else (by rw [Lexer.currentToken, hkind]; nofun)
            (by rw [IsPlusMinus, Lexer.currentToken, hkind]; nofun)
            (by rw [Lexer.currentToken, hkind]; nofun) _
  | @symbol tok hkind =>
      intro ahead hahead
      show consumeVariable (.token tok ahead) = _
      rw [consumeVariable, eatToken_token hahead hkind]
      rfl
  | @termFactor ts node hfactor ih =>
      intro fuel ahead hahead
      refine ⟨fuel + 4 * ts.length, Nat.le_add_right _ _, ?_⟩
      rw [consumeTerm, ih fuel ahead hahead, ok_bind]
  | @termMore op ts us left right hleft hop hright ihl ihr =>
      intro fuel ahead hahead
      obtain ⟨fuel', hfuel, hconsume⟩ := ihl (fuel + 4 + 4 * us.length) (.token op (prepend us ahead))
        nofun
      obtain ⟨more, rfl⟩ := Nat.exists_eq_add_of_le hfuel
      refine ⟨fuel + 3 + more + 4 * us.length, by omega, ?_⟩
      have hlength : fuel + 4 * (ts ++ op :: us).length + 1 =
          fuel + 4 + 4 * us.length + 4 * ts.length + 1 := by
        rw [List.length_append, List.length_cons]
        omega
      rw [hlength, prepend_append, prepend_cons, hconsume,
        show fuel + 4 + 4 * us.length + more = (fuel + 3 + more + 4 * us.length) + 1 by omega,
        termLoop_more hop, advance_token (prepend_ne_endless hahead us), ok_bind,
        ihr (fuel + 3 + more) ahead hahead, ok_bind]
  | @exprTerm ts node hterm ih =>
      intro fuel ahead hahead hkind
      obtain ⟨fuel', hfuel, hconsume⟩ := ih (fuel + 1) ahead hahead
      obtain ⟨more, rfl⟩ := Nat.exists_eq_add_of_le hfuel
      refine ⟨fuel + 4 * ts.length + 2, by omega, ?_⟩
      rw [consumeExpr, show fuel + 4 * ts.length + 2 = fuel + 1 + 4 * ts.length + 1 by omega,
        hconsume, show fuel + 1 + more = fuel + more + 1 by omega, termLoop_stops hkind, ok_bind]
  | @exprMore op ts us left right hleft hop hright ihl ihr =>
      intro fuel ahead hahead hkind
      have hmulDiv : ¬ IsMulDiv (Lexer.token op (prepend us ahead)).currentToken.kind := by
        rcases hop with hop | hop <;> rw [IsMulDiv, Lexer.currentToken, hop] <;> nofun
      obtain ⟨fuel', hfuel, hconsume⟩ := ihl (fuel + 4 + 4 * us.length) (.token op (prepend us ahead))
        nofun hmulDiv
      obtain ⟨more, rfl⟩ := Nat.exists_eq_add_of_le hfuel
      obtain ⟨fuel'', hfuel'', hconsume''⟩ := ihr (fuel + 2 + more) ahead hahead
      obtain ⟨more'', rfl⟩ := Nat.exists_eq_add_of_le hfuel''
      refine ⟨fuel + 2 + more + 4 * us.length + 1, by omega, ?_⟩
      have hlength : fuel + 4 * (ts ++ op :: us).length + 3 =
          fuel + 4 + 4 * us.length + 4 * ts.length + 3 := by
        rw [List.length_append, List.length_cons]
        omega
      rw [hlength, prepend_append, prepend_cons, hconsume,
        show fuel + 4 + 4 * us.length + more = (fuel + 2 + more + 4 * us.length + 1) + 1 by omega,
        exprLoop_more hop, advance_token (prepend_ne_endless hahead us), ok_bind, hconsume'',
        show fuel + 2 + more + more'' = (fuel + 1 + more + more'') + 1 by omega,
        termLoop_stops hkind, ok_bind]
  | @assignment tok ts us left right hleft htok hright ihl ihr =>
      intro fuel ahead hahead hmulDiv hplusMinus
      obtain ⟨fuel', hfuel, hconsume⟩ := ihr (fuel + 5) ahead hahead hmulDiv
      obtain ⟨more, rfl⟩ := Nat.exists_eq_add_of_le hfuel
      cases hleft with
      | @symbol var hvar =>
          have hassign : Lexer.token tok (prepend us ahead) ≠ .endless := nofun
          have hlength : fuel + 4 * (us.length + 2) = fuel + 5 + 4 * us.length + 3 := by omega
          show consumeAssignment (fuel + 4 * (us.length + 2))
            (prepend [var] (.token tok (prepend us ahead))) = _
          rw [hlength, consumeAssignment, ihl _ hassign, ok_bind]
          dsimp only
          rw [eatToken_token (prepend_ne_endless hahead us) htok, ok_bind, hconsume,
            show fuel + 5 + more = fuel + 4 + more + 1 by omega, exprLoop_stops hplusMinus]
          rfl
  | @statementCompound ts node hcompound ih =>
      intro fuel ahead hkind
      have hbegin : (prepend ts ahead).currentToken.kind = .tokBegin := by
        cases hcompound with
        | compound hbegin _ _ => exact hbegin
      rw [consumeStatement_begin hbegin]
      exact ih fuel ahead (ne_endless_of_kind hkind)
  | @statementAssignment ts node hassign ih =>
      intro fuel ahead hkind
      have hsymbol : (prepend ts ahead).currentToken.kind = .tokSymbol := by
        cases hassign with
        | assignment hvar _ _ =>
            cases hvar with
            | symbol hsymbol => exact hsymbol
      rw [consumeStatement_symbol hsymbol]
      refine ih fuel ahead (ne_endless_of_kind hkind) ?_ ?_
      · rcases hkind with hkind | hkind <;> rw [IsMulDiv, hkind] <;> nofun
      · rcases hkind with hkind | hkind <;> rw [IsPlusMinus, hkind] <;> nofun
  | statementEmpty =>
      intro fuel ahead hkind
      refine @consumeStatement_else ahead ?_ ?_ _
      · rcases hkind with hkind | hkind <;> rw [hkind] <;> nofun
      · rcases hkind with hkind | hkind <;> rw [hkind] <;> nofun
  | @listOne ts node hstatement ih =>
      intro fuel nodes ahead hkind
      refine ⟨[node], rfl, ?_⟩
      have hsemi : ahead.currentToken.kind ≠ .tokSemi := by rw [hkind]; nofun
      rw [statementsFrom, show fuel + 4 * ts.length + 2 = fuel + 1 + 4 * ts.length + 1 by omega,
        ih (fuel + 1) ahead (.inr hkind), ok_bind]
      exact statementLoop_stops hsemi _ _
  | @listMore semi ts us node tail hstatement hsemi hlist ihs ihl =>
      intro fuel nodes ahead hkind
      obtain ⟨stmts, heq, hconsume⟩ := ihl (fuel + 4 * ts.length + 3) (nodes ++ [node]) ahead hkind
      obtain rfl := Node.compound.inj heq
      refine ⟨node :: tail, rfl, ?_⟩
      have hahead : ahead ≠ .endless := ne_endless_of_kind (.inr hkind)
      have hlength : fuel + 4 * (ts ++ semi :: us).length + 2 =
          fuel + 5 + 4 * us.length + 4 * ts.length + 1 := by
        rw [List.length_append, List.length_cons]
        omega
      rw [hlength, statementsFrom, prepend_append, prepend_cons,
        ihs (fuel + 5 + 4 * us.length) (.token semi (prepend us ahead)) (.inl hsemi), ok_bind]
      dsimp only
      rw [statementLoop_more hsemi, advance_token (prepend_ne_endless hahead us), ok_bind,
        show fuel + 5 + 4 * us.length + 4 * ts.length =
          fuel + 4 * ts.length + 3 + 4 * us.length + 2 by omega, hconsume, List.append_assoc]
      rfl
  | @compound beginTok endTok ts node hbegin hlist hend ih =>
      intro fuel ahead hahead
      obtain ⟨stmts, rfl, hconsume⟩ := ih (fuel + 4) [] (.token endTok ahead) hend
      have hclose : Lexer.token endTok ahead ≠ .endless := nofun
      have hlength : fuel + 4 * (beginTok :: (ts ++ [endTok])).length =
          fuel + 4 + 4 * ts.length + 2 + 1 + 1 := by
        rw [List.length_cons, List.length_append, List.length_singleton]
        omega
      rw [hlength, prepend_cons, prepend_append, prepend_cons, prepend_nil,
        consumeCompoundStatement, eatToken_token (prepend_ne_endless hclose ts) hbegin, ok_bind,
        consumeStatementList_eq, hconsume, ok_bind]
      dsimp only
      rw [eatToken_token hahead hend]
      rfl
  | @program dot ts node hcompound hdot ih =>
      intro fuel ahead hahead
      have hstop : Lexer.token dot ahead ≠ .endless := nofun
      have hlength : fuel + 4 * (ts ++ [dot]).length = fuel + 4 + 4 * ts.length := by
        rw [List.length_append, List.length_singleton]
        omega
      rw [hlength, prepend_append, prepend_cons, prepend_nil, consumeProgram,
        ih (fuel + 4) _ hstop, ok_bind]
      dsimp only
      rw [eatToken_token hahead hdot]
      rfl

end Eureka.Pascal

import Eureka.Library.BigStep
import Eureka.Library.MachineArithmetic
import Eureka.Pascal.Interpreter

/-!
# The meaning of Pascal programs

The interpreter against a big-step semantics.  A tree of the parser is read as
a program (`Node.stmt`); its statements run in order and its expressions are
evaluated from left to right, in 64 bits on exact integers.

* `stmt_of_derives`: every tree of the grammar is a program, if the literals in
  it are decimal;
* `visit_delivers`, `visit_delivers_run`: a visit delivers what the semantics
  says, by induction on the tree;
* `interpret_semantics`: so does `interpret`, for every program that the parser
  accepts.
-/

namespace Eureka.Pascal

open BigStep WrappingArithmetic
open Lexer (prepend)

/-! ## Programs and their faults -/

inductive Sign
  | plus
  | minus
  deriving DecidableEq, Repr

abbrev Expression := Expr Bytes Bytes Sign Operator

abbrev Statement := Stmt Bytes Bytes Sign Operator

inductive Fault
  | outOfRange (digits : Bytes)
  | undefined (name : Bytes)
  | divisionByZero
  deriving DecidableEq, Repr

/-- Literals and operators in 64 bits, by their exact values. -/
def meaning : Meaning Bytes Bytes Sign Operator Int64 Fault where
  literal digits := (literal digits).elim (.error (.outOfRange digits)) .ok
  undefined := .undefined
  unary
    | .plus, n => .ok n
    | .minus, n => .ok (Int64.ofInt (-n.toInt))
  binary o lhs rhs := (o.apply lhs rhs).elim (.error .divisionByZero) .ok

def Kind.sign : Kind → Option Sign
  | .tokPlus => some .plus
  | .tokMinus => some .minus
  | _ => none

def Kind.operator : Kind → Option Operator
  | .tokPlus => some .add
  | .tokMinus => some .sub
  | .tokMul => some .mul
  | .tokDivInteger => some .div
  | _ => none

def IsDecimal (text : Bytes) : Prop := text ≠ [] ∧ text.all isDigit

instance (text : Bytes) : Decidable (IsDecimal text) := inferInstanceAs (Decidable (_ ∧ _))

/-- The expression that the tree is. -/
def Node.expr : Node → Option Expression
  -- every literal that the lexer delivers is decimal (`lexToken_literal`)
  | .num tok => if IsDecimal tok.value then some (.literal tok.value) else none
  | .binOp tok left right => do
      let o ← tok.kind.operator
      return .binary o (← left.expr) (← right.expr)
  | .unary tok sub => do
      let o ← tok.kind.sign
      return .unary o (← sub.expr)
  | .var tok => some (.name tok.value)
  | _ => none

mutual

/-- The statement that the tree is. -/
def Node.stmt : Node → Option Statement
  | .compound stmts => (stmtList stmts).map .block
  | .assign _ (.var tok) right => right.expr.map (.assign tok.value)
  | .nop => some .skip
  | _ => none

def stmtList : List Node → Option (List Statement)
  | [] => some []
  | st :: stmts => do return (← st.stmt) :: (← stmtList stmts)

end

/-! ## Every program of the grammar is one of the semantics -/

theorem exists_sign {kind : Kind} (hkind : kind = .tokPlus ∨ kind = .tokMinus) :
    ∃ o, kind.sign = some o := by
  rcases hkind with rfl | rfl
  · exact ⟨_, rfl⟩
  · exact ⟨_, rfl⟩

theorem exists_operator {kind : Kind} (hkind : IsBinOp kind) : ∃ o, kind.operator = some o := by
  rcases hkind with rfl | rfl | rfl | rfl <;> exact ⟨_, rfl⟩

/-- A token with a decimal text, if it is a literal. -/
def Literal (tok : Token) : Prop := tok.kind = .tokLiteralInteger → IsDecimal tok.value

/-- What the tree of each nonterminal is. -/
def Means : NonTerminal → Node → Prop
  | .expr, node | .term, node | .factor, node => ∃ e, node.expr = some e
  | .variableName, node => ∃ tok, node = .var tok
  | .assignment, node | .statement, node => ∃ s, node.stmt = some s
  | .statementList, node | .compoundStatement, node | .program, node =>
      ∃ body, node.stmt = some (.block body)

theorem binOp_means {op : Token} {left right : Node} (hop : IsBinOp op.kind)
    (hleft : ∃ e, left.expr = some e) (hright : ∃ e, right.expr = some e) :
    ∃ e, (Node.binOp op left right).expr = some e := by
  obtain ⟨o, ho⟩ := exists_operator hop
  obtain ⟨e, he⟩ := hleft
  obtain ⟨e', he'⟩ := hright
  refine ⟨.binary o e e', ?_⟩
  rw [Node.expr, ho, he, he']
  rfl

theorem stmt_of_derives {x : NonTerminal} {ts : List Token} {node : Node} (h : Derives x ts node)
    (hliteral : ∀ tok ∈ ts, Literal tok) : Means x node := by
  induction h with
  | @integer tok hkind =>
      have hdecimal : IsDecimal tok.value := hliteral tok List.mem_cons_self hkind
      exact ⟨.literal tok.value, by rw [Node.expr, if_pos hdecimal]⟩
  | unary hkind hsub ih =>
      rw [List.forall_mem_cons] at hliteral
      obtain ⟨o, ho⟩ := exists_sign hkind
      obtain ⟨e, he⟩ := ih hliteral.2
      exact ⟨.unary o e, by rw [Node.expr, ho, he]; rfl⟩
  | paren hleft hexpr hright ih =>
      rw [List.forall_mem_cons, List.forall_mem_append] at hliteral
      exact ih hliteral.2.1
  | factorVariable hvariable ih =>
      obtain ⟨tok, rfl⟩ := ih hliteral
      exact ⟨.name tok.value, rfl⟩
  | @symbol tok hkind => exact ⟨tok, rfl⟩
  | termFactor hfactor ih => exact ih hliteral
  | termMore hleft hop hright ihl ihr =>
      rw [List.forall_mem_append, List.forall_mem_cons] at hliteral
      -- `*` and `/` are two of the four operators
      have hbinOp : IsBinOp _ := hop.elim (.inr ∘ .inr ∘ .inl) (.inr ∘ .inr ∘ .inr)
      exact binOp_means hbinOp (ihl hliteral.1) (ihr hliteral.2.2)
  | exprTerm hterm ih => exact ih hliteral
  | exprMore hleft hop hright ihl ihr =>
      rw [List.forall_mem_append, List.forall_mem_cons] at hliteral
      have hbinOp : IsBinOp _ := hop.elim .inl (.inr ∘ .inl)
      exact binOp_means hbinOp (ihl hliteral.1) (ihr hliteral.2.2)
  | assignment hleft htok hright ihl ihr =>
      rw [List.forall_mem_append, List.forall_mem_cons] at hliteral
      obtain ⟨var, rfl⟩ := ihl hliteral.1
      obtain ⟨e, he⟩ := ihr hliteral.2.2
      exact ⟨.assign var.value e, by rw [Node.stmt, he]; rfl⟩
  | statementCompound hcompound ih =>
      obtain ⟨body, hbody⟩ := ih hliteral
      exact ⟨.block body, hbody⟩
  | statementAssignment hassign ih => exact ih hliteral
  | statementEmpty => exact ⟨.skip, rfl⟩
  | listOne hstatement ih =>
      obtain ⟨s, hs⟩ := ih hliteral
      exact ⟨[s], by rw [Node.stmt, stmtList, hs]; rfl⟩
  | listMore hstatement hsemi hlist ihs ihl =>
      rw [List.forall_mem_append, List.forall_mem_cons] at hliteral
      obtain ⟨s, hs⟩ := ihs hliteral.1
      obtain ⟨body, hbody⟩ := ihl hliteral.2.2
      rw [Node.stmt] at hbody
      obtain ⟨body', hbody', -⟩ := Option.map_eq_some_iff.mp hbody
      exact ⟨s :: body', by rw [Node.stmt, stmtList, hs, hbody']; rfl⟩
  | compound hbegin hlist hend ih =>
      rw [List.forall_mem_cons, List.forall_mem_append] at hliteral
      exact ih hliteral.2.1
  | program hcompound hdot ih =>
      rw [List.forall_mem_append] at hliteral
      exact ih hliteral.1

/-! ## The visits follow the semantics -/

/-- The fault behind an error. -/
def EvalError.fault : EvalError → Option Fault
  | .num digits .errRange => some (.outOfRange digits)
  | .undefinedVariable name => some (.undefined name)
  | .wrap _ _ cause => cause.fault
  | _ => none

/-- No error stands for a division by zero: that panics. -/
theorem fault_ne_divisionByZero {e : EvalError} {fault : Fault} (h : e.fault = some fault) :
    fault ≠ .divisionByZero := by
  induction e with
  | num value e =>
      cases e with
      | errSyntax => cases h
      | errRange => cases h; nofun
  | invalidBinOp tok => cases h
  | undefinedVariable name => cases h; nofun
  | wrap op child cause ih => exact ih h

/-- A visit of an expression comes to this outcome and leaves the table as it was. -/
def Delivers (table : SymbolTable) (outcome : Except Fault Int64) : Visited → Prop
  | none => outcome = .error .divisionByZero
  | some ((value, none), table') => table' = table ∧ outcome = .ok value
  | some ((_, some e), table') =>
      table' = table ∧ ∃ fault, e.fault = some fault ∧ outcome = .error fault

theorem atoi_of_isDecimal {text : Bytes} (h : IsDecimal text) :
    atoi text = match literal text with
      | some value => (value, none)
      | none => (Int64.maxValue, some .errRange) := by
  have hnot : ¬ (text = [] ∨ ¬ text.all isDigit) := by
    rintro (hnil | hdigits)
    · exact h.1 hnil
    · exact hdigits h.2
  rw [atoi, if_neg hnot, literal, decimal_eq_foldl]
  dsimp only
  split
  · rw [Int64.ofInt_eq_ofNat]
  · rfl

theorem literal_delivers {tok : Token} (h : IsDecimal tok.value) (table : SymbolTable) :
    Delivers table (meaning.literal tok.value) (some (tok.asInt, table)) := by
  rw [Token.asInt, atoi_of_isDecimal h, meaning]
  dsimp only
  cases literal tok.value with
  | some value => exact ⟨rfl, rfl⟩
  | none => exact ⟨rfl, .outOfRange tok.value, rfl, rfl⟩

theorem isBinOp_of_operator {kind : Kind} {o : Operator} (h : kind.operator = some o) :
    IsBinOp kind := by
  cases kind with
  | tokPlus => exact .inl rfl
  | tokMinus => exact .inr (.inl rfl)
  | tokMul => exact .inr (.inr (.inl rfl))
  | tokDivInteger => exact .inr (.inr (.inr rfl))
  | _ => cases h

theorem binOp_eq_apply {kind : Kind} {o : Operator} (h : kind.operator = some o)
    (lhs rhs : Int64) : binOp kind lhs rhs = o.apply lhs rhs := by
  cases kind with
  | tokPlus => cases h; exact (Operator.apply_add lhs rhs).symm
  | tokMinus => cases h; exact (Operator.apply_sub lhs rhs).symm
  | tokMul => cases h; exact (Operator.apply_mul lhs rhs).symm
  | tokDivInteger => cases h; exact (Operator.apply_div lhs rhs).symm
  | _ => cases h

theorem unary_eq {kind : Kind} {o : Sign} (h : kind.sign = some o) (n : Int64) :
    meaning.unary o n = .ok (unaryOp kind n) := by
  cases kind with
  | tokPlus => cases h; rfl
  | tokMinus =>
      cases h
      have hneg : Int64.ofInt (-n.toInt) = -n := by simp
      exact congrArg Except.ok hneg
  | _ => cases h

theorem operator_delivers (o : Operator) (lhs rhs : Int64) (table : SymbolTable) :
    Delivers table (meaning.binary o lhs rhs)
      ((o.apply lhs rhs).map fun result => ((result, none), table)) := by
  rw [meaning]
  dsimp only
  cases o.apply lhs rhs with
  | some result => exact ⟨rfl, rfl⟩
  | none => rfl

/-- By induction on the tree. -/
theorem visit_delivers {node : Node} {e : Expression} (hexpr : node.expr = some e)
    (table : SymbolTable) : Delivers table (meaning.eval table e) (visit node table) := by
  cases node with
  | num tok =>
      rw [Node.expr] at hexpr
      split at hexpr
      · next hdecimal =>
          cases hexpr
          rw [visit]
          exact literal_delivers hdecimal table
      · cases hexpr
  | binOp tok left right =>
      simp only [Node.expr, Option.bind_eq_bind, Option.bind_eq_some_iff] at hexpr
      obtain ⟨o, ho, el, hel, er, her, heq⟩ := hexpr
      cases heq
      -- the visit of an operand leaves the table, so the right one finds what the left one found
      rw [visit, if_neg (not_not.mpr (isBinOp_of_operator ho)), Meaning.eval]
      have hleft := visit_delivers hel table
      generalize visit left table = found at hleft ⊢
      rcases found with _ | ⟨⟨lhs, _ | err⟩, table'⟩
      · exact congrArg (· >>= _) hleft
      · obtain ⟨rfl, hleft⟩ := hleft
        have hright := visit_delivers her table'
        dsimp only
        rw [hleft]
        generalize visit right table' = found at hright ⊢
        rcases found with _ | ⟨⟨rhs, _ | err⟩, table''⟩
        · exact congrArg (· >>= _) hright
        · obtain ⟨rfl, hright⟩ := hright
          dsimp only
          rw [hright, binOp_eq_apply ho]
          exact operator_delivers o lhs rhs _
        · obtain ⟨rfl, fault, hfault, hright⟩ := hright
          exact ⟨rfl, fault, hfault, congrArg (· >>= _) hright⟩
      · obtain ⟨rfl, fault, hfault, hleft⟩ := hleft
        exact ⟨rfl, fault, hfault, congrArg (· >>= _) hleft⟩
  | unary tok sub =>
      simp only [Node.expr, Option.bind_eq_bind, Option.bind_eq_some_iff] at hexpr
      obtain ⟨o, ho, e', he', heq⟩ := hexpr
      cases heq
      rw [visit, Meaning.eval]
      have hsub := visit_delivers he' table
      generalize visit sub table = found at hsub ⊢
      rcases found with _ | ⟨⟨n, _ | err⟩, _⟩
      · exact congrArg (· >>= _) hsub
      · obtain ⟨rfl, hsub⟩ := hsub
        refine ⟨rfl, ?_⟩
        rw [hsub]
        exact unary_eq ho n
      · obtain ⟨rfl, fault, hfault, hsub⟩ := hsub
        exact ⟨rfl, fault, hfault, congrArg (· >>= _) hsub⟩
  | var tok =>
      cases hexpr
      rw [visit, Meaning.eval]
      cases table tok.value with
      | some value => exact ⟨rfl, rfl⟩
      | none => exact ⟨rfl, .undefined tok.value, rfl, rfl⟩
  | _ => cases hexpr

/-- A visit of a statement comes to this fault, if any, and leaves this table. -/
def DeliversRun (outcome : Option Fault × SymbolTable) : Visited → Prop
  | none => outcome.1 = some .divisionByZero
  | some ((value, none), table) => value = 0 ∧ outcome = (none, table)
  | some ((value, some e), table) =>
      value = 0 ∧ ∃ fault, e.fault = some fault ∧ outcome = (some fault, table)

mutual

/-- By induction on the tree. -/
theorem visit_deliversRun {node : Node} {s : Statement} (hstmt : node.stmt = some s)
    (table : SymbolTable) : DeliversRun (meaning.run s table) (visit node table) := by
  match node, hstmt with
  | .nop, hstmt =>
      cases hstmt
      exact ⟨rfl, rfl⟩
  | .assign tok (.var var) right, hstmt =>
      rw [Node.stmt] at hstmt
      obtain ⟨e, he, rfl⟩ := Option.map_eq_some_iff.mp hstmt
      rw [visit, Meaning.run]
      match visit right table, visit_delivers he table with
      | none, hright =>
          rw [hright]
          rfl
      | some ((_, some err), _), ⟨rfl, fault, hfault, hright⟩ =>
          rw [hright]
          exact ⟨rfl, fault, hfault, rfl⟩
      | some ((value, none), _), ⟨rfl, hright⟩ =>
          rw [hright]
          exact ⟨rfl, rfl⟩
  | .compound stmts, hstmt =>
      rw [Node.stmt] at hstmt
      obtain ⟨body, hbody, rfl⟩ := Option.map_eq_some_iff.mp hstmt
      rw [visit, Meaning.run]
      exact visitStmts_deliversRun hbody table

theorem visitStmts_deliversRun {stmts : List Node} {body : List Statement}
    (hstmts : stmtList stmts = some body) (table : SymbolTable) :
    DeliversRun (meaning.runBlock body table) (visitStmts stmts table) := by
  cases stmts with
  | nil =>
      cases hstmts
      exact ⟨rfl, rfl⟩
  | cons st stmts =>
      simp only [stmtList, Option.bind_eq_bind, Option.bind_eq_some_iff] at hstmts
      obtain ⟨s, hs, body', hbody', heq⟩ := hstmts
      cases heq
      rw [visitStmts, Meaning.runBlock]
      match visit st table, visit_deliversRun hs table with
      | none, hst =>
          match meaning.run s table, hst with
          | (_, _), rfl => rfl
      | some ((_, some err), table'), ⟨rfl, fault, hfault, hst⟩ =>
          rw [hst]
          exact ⟨rfl, fault, hfault, rfl⟩
      | some ((_, none), table'), ⟨rfl, hst⟩ =>
          rw [hst]
          exact visitStmts_deliversRun hbody' table'

end

/-! ## Literals of a text -/

theorem reserved_kind_ne_literal : ∀ keyword ∈ reserved, keyword.kind ≠ .tokLiteralInteger := by
  decide

theorem fixedTokens_kind_ne_literal : ∀ tok ∈ fixedTokens, tok.kind ≠ .tokLiteralInteger := by
  decide

theorem lexNumber_isDecimal {ch : Byte} (hch : isDigit ch) {text : Bytes}
    (hpoint : ¬ (lexNumber (ch :: text)).1.contains 46) :
    IsDecimal (lexNumber (ch :: text)).1 := by
  rw [lexNumber] at hpoint ⊢
  split at hpoint
  · simp at hpoint
  · refine ⟨?_, List.all_takeWhile⟩
    rw [List.takeWhile_cons_of_pos hch]
    exact List.cons_ne_nil _ _

theorem lexToken_literal {ch : Byte} {ahead rest : Bytes} {tok : Token}
    (htoken : lexToken ch (ch :: ahead) = .token tok rest) : Literal tok := by
  intro hkind
  rw [lexToken] at htoken
  split_ifs at htoken with hdigit hid
  · obtain ⟨rfl, -⟩ := Scanned.token.inj htoken
    refine lexNumber_isDecimal hdigit fun hpoint => ?_
    have hreal : (if (lexNumber (ch :: ahead)).1.contains 46 then Kind.tokLiteralReal
        else .tokLiteralInteger) = .tokLiteralInteger := hkind
    rw [if_pos hpoint] at hreal
    cases hreal
  · dsimp only [lexIdentifier] at htoken
    split at htoken
    · next keyword hfind =>
        obtain ⟨rfl, -⟩ := Scanned.token.inj htoken
        exact absurd hkind (reserved_kind_ne_literal keyword (List.mem_of_find?_eq_some hfind))
    · obtain ⟨rfl, -⟩ := Scanned.token.inj htoken
      cases hkind
  · split at htoken
    · next tok' hfind =>
        obtain ⟨rfl, -⟩ := Scanned.token.inj htoken
        exact absurd hkind (fixedTokens_kind_ne_literal tok' (List.mem_of_find?_eq_some hfind))
    · cases htoken

theorem mem_of_forall {p : Token → Prop} {ts : List Token} {rest : Lexer}
    (h : (prepend ts rest).Forall p) : ∀ tok ∈ ts, p tok := by
  induction ts with
  | nil => nofun
  | cons tok ts ih => exact List.forall_mem_cons.mpr ⟨h.1, ih h.2⟩

theorem exists_block {text : Bytes} {lexer : Lexer} (hnew : newInterpreter text = some lexer)
    {tree : Node} (hparse : parse lexer = .ok tree) : ∃ body, tree.stmt = some (.block body) := by
  have houtcome := parse_outcome lexer
  rw [hparse] at houtcome
  obtain ⟨ts, rest, rfl, -, -, hderives⟩ := houtcome
  have hliteral := mem_of_forall (forall_of_newInterpreter (fun _ _ _ _ => lexToken_literal) hnew)
  exact stmt_of_derives hderives hliteral

/-! ## The interpreter -/

/-- **The interpreter follows the semantics.**  Every program that the parser accepts is a
block.  `interpret` returns without an error exactly when the block runs to its end, and the
table is then the last store; it returns an error exactly when the block meets an undefined
variable or a literal that is out of range, and the table then holds what has been assigned
by then. -/
theorem interpret_semantics (text : Bytes) (table : SymbolTable) (lexer : Lexer) (tree : Node)
    (hnew : newInterpreter text = some lexer) (hparse : parse lexer = .ok tree) :
    ∃ body, tree.stmt = some (.block body) ∧
      (∀ table', interpret lexer table = .returned 0 none table' ↔
        meaning.Runs table (.block body) none table') ∧
      ∀ fault table', (∃ e, e.fault = some fault ∧
          interpret lexer table = .returned 0 (some (.eval e)) table') ↔
        fault ≠ .divisionByZero ∧ meaning.Runs table (.block body) (some fault) table' := by
  obtain ⟨body, hbody⟩ := exists_block hnew hparse
  refine ⟨body, hbody, ?_⟩
  simp only [Meaning.runs_iff, interpret, hparse]
  -- the panic, the end without an error, and the error
  match visit tree table, meaning.run (.block body) table, visit_deliversRun hbody table with
  | none, (_, store), rfl =>
      refine ⟨fun table' => iff_of_false nofun nofun, fun fault table' => ?_⟩
      refine iff_of_false (fun ⟨_, _, hreturned⟩ => nomatch hreturned) ?_
      rintro ⟨hne, heq⟩
      cases heq
      exact hne rfl
  | some ((_, none), store), _, ⟨rfl, rfl⟩ =>
      refine ⟨fun table' => ?_, fun fault table' => ?_⟩
      · simp
      · simp
  | some ((_, some e), store), _, ⟨rfl, fault, hfault, rfl⟩ =>
      refine ⟨fun table' => iff_of_false nofun nofun, fun fault' table' => ?_⟩
      constructor
      · rintro ⟨e', hfault', hreturned⟩
        cases hreturned
        rw [hfault] at hfault'
        cases hfault'
        exact ⟨fault_ne_divisionByZero hfault, rfl⟩
      · rintro ⟨-, heq⟩
        cases heq
        exact ⟨e, hfault, rfl⟩

def quotientTree : Node :=
  .binOp ⟨.tokDivInteger, ascii "/"⟩ (.num ⟨.tokLiteralInteger, ascii "7"⟩)
    (.unary ⟨.tokMinus, ascii "-"⟩ (.num ⟨.tokLiteralInteger, ascii "2"⟩))

/-- `BEGIN a := 7 / -2; b := c END.` -/
def undefinedTree : Node :=
  .compound [.assign assignToken (.var ⟨.tokSymbol, ascii "a"⟩) quotientTree,
    .assign assignToken (.var ⟨.tokSymbol, ascii "b"⟩) (.var ⟨.tokSymbol, ascii "c"⟩)]

def undefinedLexer : Lexer :=
  prepend [⟨.tokBegin, ascii "BEGIN"⟩, ⟨.tokSymbol, ascii "a"⟩, assignToken,
    ⟨.tokLiteralInteger, ascii "7"⟩, ⟨.tokDivInteger, ascii "/"⟩, ⟨.tokMinus, ascii "-"⟩,
    ⟨.tokLiteralInteger, ascii "2"⟩, ⟨.tokSemi, ascii ";"⟩, ⟨.tokSymbol, ascii "b"⟩, assignToken,
    ⟨.tokSymbol, ascii "c"⟩, endToken, dotToken] .eof

theorem interpret_semantics_undefined :
    ∃ body, undefinedTree.stmt = some (.block body) ∧
      (∀ table', interpret undefinedLexer (fun _ => none) = .returned 0 none table' ↔
        meaning.Runs (fun _ => none) (.block body) none table') ∧
      ∀ fault table', (∃ e, e.fault = some fault ∧
          interpret undefinedLexer (fun _ => none) = .returned 0 (some (.eval e)) table') ↔
        fault ≠ .divisionByZero ∧
          meaning.Runs (fun _ => none) (.block body) (some fault) table' :=
  interpret_semantics (ascii "BEGIN a := 7 / -2; b := c END.") (fun _ => none) undefinedLexer
    undefinedTree (by decide) (by rfl)

example : (undefinedTree.stmt.map fun s =>
    let (fault, table) := meaning.run s fun _ => none
    (fault, table (ascii "a"), table (ascii "b"))) =
      some (some (.undefined (ascii "c")), some (-3), none) := by decide

end Eureka.Pascal

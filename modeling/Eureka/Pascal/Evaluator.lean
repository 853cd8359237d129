import Eureka.Pascal.Soundness

/-!
# The evaluator of the Pascal interpreter

The evaluator visits the syntax tree and keeps the values of the variables in a
table.  Its numbers are 64-bit integers that wrap around.  A division by zero
is a run-time panic; all other failures are error values.

What a tree means is given apart from the visits: `Runs` says what it evaluates
to without an error, and `DividesByZero` that its evaluation gets to a division
by zero.  `visit_spec` relates the two.
-/

namespace Eureka.Pascal

/-- `symbolTable`. -/
abbrev SymbolTable := Bytes → Option Int64

inductive NumError
  | errSyntax
  | errRange
  deriving DecidableEq, Repr

inductive EvalError
  | num (value : Bytes) (e : NumError)
  | invalidBinOp (tok : Token)
  | undefinedVariable (name : Bytes)
  | wrap (op : Bytes) (child : String) (cause : EvalError)
  deriving DecidableEq, Repr

/-- `strconv.Atoi` of a text without a sign. -/
def atoi (text : Bytes) : Int64 × Option NumError :=
  if text = [] ∨ ¬ text.all isDigit then (0, some .errSyntax)
  else
    let n := text.foldl (fun n ch => 10 * n + (ch.toNat - 48)) 0
    if n < 2 ^ 63 then (Int64.ofNat n, none) else (Int64.maxValue, some .errRange)

/-- What a visit returns, and the table behind it.  It is `none` when the visit panics. -/
abbrev Visited := Option ((Int64 × Option EvalError) × SymbolTable)

def Token.asInt (tok : Token) : Int64 × Option EvalError :=
  ((atoi tok.value).1, (atoi tok.value).2.map (.num tok.value))

/-- `value` of the nodes. -/
def Node.value : Node → Bytes
  | .num tok => tok.value
  | .binOp tok _ _ => tok.value
  | .unary tok _ => tok.value
  | .compound _ => ascii "compound"
  | .assign tok _ _ => tok.value
  | .var tok => tok.value
  | .nop => []

def IsBinOp (kind : Kind) : Prop :=
  kind = .tokPlus ∨ kind = .tokMinus ∨ kind = .tokMul ∨ kind = .tokDivInteger

instance (kind : Kind) : Decidable (IsBinOp kind) := inferInstanceAs (Decidable (_ ∨ _))

/-- The operators of `visitBinOp`.  An integer division by zero panics. -/
def binOp (kind : Kind) (lhs rhs : Int64) : Option Int64 :=
  match kind with
  | .tokPlus => some (lhs + rhs)
  | .tokMinus => some (lhs - rhs)
  | .tokMul => some (lhs * rhs)
  | .tokDivInteger => if rhs = 0 then none else some (lhs / rhs)
  | _ => some 0

/-- The operators of `visitUnary`. -/
def unaryOp (kind : Kind) (n : Int64) : Int64 :=
  match kind with
  | .tokPlus => n
  | .tokMinus => -n
  | _ => 0

mutual

/-- `doVisit`, with the visits of the evaluator. -/
def visit : Node → SymbolTable → Visited
  | .num tok, table => some (tok.asInt, table)
  | .binOp tok left right, table =>
      if ¬ IsBinOp tok.kind then some ((0, some (.invalidBinOp tok)), table)
      else
        match visit left table with
        | none => none
        | some ((_, some e), table) => some ((0, some (.wrap tok.value "left" e)), table)
        | some ((lhs, none), table) =>
            match visit right table with
            | none => none
            | some ((_, some e), table) => some ((0, some (.wrap tok.value "right" e)), table)
            | some ((rhs, none), table) =>
                (binOp tok.kind lhs rhs).map fun result => ((result, none), table)
  | .unary tok sub, table =>
      match visit sub table with
      | none => none
      | some ((n, e), table) => some ((unaryOp tok.kind n, e), table)
  | .compound stmts, table => visitStmts stmts table
  | .assign _ left right, table =>
      match visit right table with
      | none => none
      | some ((_, some e), table) => some ((0, some e), table)
      | some ((value, none), table) =>
          some ((0, none), Function.update table left.value (some value))
  | .var tok, table =>
      match table tok.value with
      | some value => some ((value, none), table)
      | none => some ((0, some (.undefinedVariable tok.value)), table)
  | .nop, table => some ((0, none), table)

/-- The loop of `visitCompound`. -/
def visitStmts : List Node → SymbolTable → Visited
  | [], table => some ((0, none), table)
  | st :: stmts, table =>
      match visit st table with
      | none => none
      | some ((_, some e), table) => some ((0, some e), table)
      | some ((_, none), table) => visitStmts stmts table

end

/-! ## The meaning of a tree -/

/-- From the table, the tree evaluates without an error to the value and leaves the other
table. -/
inductive Runs : SymbolTable → Node → Int64 → SymbolTable → Prop
  | num {table : SymbolTable} {tok : Token} {value : Int64} :
      tok.asInt = (value, none) → Runs table (.num tok) value table
  | binOp {table table' table'' : SymbolTable} {tok : Token} {left right : Node}
      {lhs rhs result : Int64} : IsBinOp tok.kind → Runs table left lhs table' →
      Runs table' right rhs table'' → Pascal.binOp tok.kind lhs rhs = some result →
      Runs table (.binOp tok left right) result table''
  | unary {table table' : SymbolTable} {tok : Token} {sub : Node} {n : Int64} :
      Runs table sub n table' → Runs table (.unary tok sub) (unaryOp tok.kind n) table'
  | assign {table table' : SymbolTable} {tok : Token} {left right : Node} {value : Int64} :
      Runs table right value table' →
      Runs table (.assign tok left right) 0 (Function.update table' left.value (some value))
  | var {table : SymbolTable} {tok : Token} {value : Int64} :
      table tok.value = some value → Runs table (.var tok) value table
  | nop {table : SymbolTable} : Runs table .nop 0 table
  | compoundNil {table : SymbolTable} : Runs table (.compound []) 0 table
  | compoundCons {table table' table'' : SymbolTable} {st : Node} {stmts : List Node}
      {value result : Int64} : Runs table st value table' →
      Runs table' (.compound stmts) result table'' →
      Runs table (.compound (st :: stmts)) result table''

/-- From the table, the evaluation of the tree gets to a division by zero. -/
inductive DividesByZero : SymbolTable → Node → Prop
  | here {table table' table'' : SymbolTable} {tok : Token} {left right : Node} {lhs : Int64} :
      tok.kind = .tokDivInteger → Runs table left lhs table' → Runs table' right 0 table'' →
      DividesByZero table (.binOp tok left right)
  | left {table : SymbolTable} {tok : Token} {left right : Node} :
      IsBinOp tok.kind → DividesByZero table left → DividesByZero table (.binOp tok left right)
  | right {table table' : SymbolTable} {tok : Token} {left right : Node} {lhs : Int64} :
      IsBinOp tok.kind → Runs table left lhs table' → DividesByZero table' right →
      DividesByZero table (.binOp tok left right)
  | unary {table : SymbolTable} {tok : Token} {sub : Node} :
      DividesByZero table sub → DividesByZero table (.unary tok sub)
  | assign {table : SymbolTable} {tok : Token} {left right : Node} :
      DividesByZero table right → DividesByZero table (.assign tok left right)
  | first {table : SymbolTable} {st : Node} {stmts : List Node} :
      DividesByZero table st → DividesByZero table (.compound (st :: stmts))
  | later {table table' : SymbolTable} {st : Node} {stmts : List Node} {value : Int64} :
      Runs table st value table' → DividesByZero table' (.compound stmts) →
      DividesByZero table (.compound (st :: stmts))

/-! ## The visits follow the meaning -/

def VisitSpec (table : SymbolTable) (node : Node) : Visited → Prop
  | none => DividesByZero table node
  | some ((value, none), table') => Runs table node value table'
  | some ((_, some _), _) => True

theorem binOp_eq_none {kind : Kind} {lhs rhs : Int64} (h : binOp kind lhs rhs = none) :
    kind = .tokDivInteger ∧ rhs = 0 := by
  cases kind with
  | tokDivInteger =>
      by_cases hzero : rhs = 0
      · exact ⟨rfl, hzero⟩
      · rw [binOp, if_neg hzero] at h
        cases h
  | _ => cases h

mutual

/-- What a visit returns is what the tree means, by induction on the tree. -/
theorem visit_spec (node : Node) (table : SymbolTable) :
    VisitSpec table node (visit node table) := by
  cases node with
  | num tok =>
      rw [visit]
      match hvalue : tok.asInt with
      | (value, none) => exact .num hvalue
      | (value, some e) => trivial
  | binOp tok left right =>
      rw [visit]
      by_cases hop : IsBinOp tok.kind
      swap
      · rw [if_pos hop]
        trivial
      rw [if_neg (not_not.mpr hop)]
      match visit left table, visit_spec left table with
      | none, hleft => exact .left hop hleft
      | some ((_, some e), _), _ => trivial
      | some ((lhs, none), table'), hleft =>
          dsimp only
          match visit right table', visit_spec right table' with
          | none, hright => exact .right hop hleft hright
          | some ((_, some e), _), _ => trivial
          | some ((rhs, none), table''), hright =>
              dsimp only
              cases hresult : Pascal.binOp tok.kind lhs rhs with
              | none =>
                  obtain ⟨hdiv, rfl⟩ := binOp_eq_none hresult
                  exact .here hdiv hleft hright
              | some result => exact .binOp hop hleft hright hresult
  | unary tok sub =>
      rw [visit]
      match visit sub table, visit_spec sub table with
      | none, hsub => exact .unary hsub
      | some ((_, some e), _), _ => trivial
      | some ((n, none), table'), hsub => exact .unary hsub
  | compound stmts =>
      rw [visit]
      exact visitStmts_spec stmts table
  | assign tok left right =>
      rw [visit]
      match visit right table, visit_spec right table with
      | none, hright => exact .assign hright
      | some ((_, some e), _), _ => trivial
      | some ((value, none), table'), hright => exact .assign hright
  | var tok =>
      rw [visit]
      cases hvalue : table tok.value with
      | none => trivial
      | some value => exact .var hvalue
  | nop => exact .nop

theorem visitStmts_spec (stmts : List Node) (table : SymbolTable) :
    VisitSpec table (.compound stmts) (visitStmts stmts table) := by
  cases stmts with
  | nil => exact .compoundNil
  | cons st stmts =>
      rw [visitStmts]
      match visit st table, visit_spec st table with
      | none, hst => exact .first hst
      | some ((_, some e), _), _ => trivial
      | some ((value, none), table'), hst =>
          dsimp only
          match visitStmts stmts table', visitStmts_spec stmts table' with
          | none, hstmts => exact .later hst hstmts
          | some ((_, some e), _), _ => trivial
          | some ((value', none), table''), hstmts => exact .compoundCons hst hstmts

end

theorem visit_of_runs {table table' : SymbolTable} {node : Node} {value : Int64}
    (h : Runs table node value table') : visit node table = some ((value, none), table') := by
  induction h with
  | num hvalue => rw [visit, hvalue]
  | binOp hop _ _ hresult ihl ihr =>
      rw [visit, if_neg (not_not.mpr hop), ihl]
      dsimp only
      rw [ihr]
      dsimp only
      rw [hresult]
      rfl
  | unary _ ih => rw [visit, ih]
  | assign _ ih => rw [visit, ih]
  | var hvalue => rw [visit, hvalue]
  | nop => rfl
  | compoundNil => rfl
  | compoundCons _ _ ihst ihstmts =>
      rw [visit, visitStmts, ihst]
      rw [visit] at ihstmts
      exact ihstmts

/-- A tree whose evaluation gets to a division by zero makes the visit panic. -/
theorem visit_of_dividesByZero {table : SymbolTable} {node : Node}
    (h : DividesByZero table node) : visit node table = none := by
  induction h with
  | here hdiv hleft hright =>
      have hop : ¬ ¬ IsBinOp _ := not_not.mpr (.inr (.inr (.inr hdiv)))
      rw [visit, if_neg hop, visit_of_runs hleft]
      dsimp only
      rw [visit_of_runs hright, hdiv]
      rfl
  | left hop _ ih => rw [visit, if_neg (not_not.mpr hop), ih]
  | right hop hleft _ ih =>
      rw [visit, if_neg (not_not.mpr hop), visit_of_runs hleft]
      dsimp only
      rw [ih]
  | unary _ ih => rw [visit, ih]
  | assign _ ih => rw [visit, ih]
  | first _ ih => rw [visit, visitStmts, ih]
  | later hst _ ih =>
      rw [visit, visitStmts, visit_of_runs hst]
      rw [visit] at ih
      exact ih

/-- A visit panics if and only if the evaluation gets to a division by zero. -/
theorem visit_eq_none_iff (node : Node) (table : SymbolTable) :
    visit node table = none ↔ DividesByZero table node := by
  constructor
  · intro hvisit
    have hspec := visit_spec node table
    rwa [hvisit] at hspec
  · exact visit_of_dividesByZero

end Eureka.Pascal

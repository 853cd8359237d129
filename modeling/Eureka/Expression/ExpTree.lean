import Eureka.Expression.Arithmetic

/-!
# Expression trees

`infixToPostfix` brings an expression over single digits into postfix order,
`constructExpTree` builds a tree from that, and `eval` evaluates the tree.

* `infixToPostfix_eq`: the loops of the conversion are those of an operator
  stack, whose operators append themselves to the output;
* `constructExpTree_eq`: a postfix word of an expression leaves the tree of the
  expression on the stack, and nothing below is touched;
* `eval_eq`: the tree evaluates to the value of the expression.
-/

namespace Eureka.ExpressionTree

open Expression

/-! ## The code -/

/-- `node`; `null` is the null pointer. -/
inductive Tree
  | null
  | node (data : Int) (left right : Tree)
  deriving DecidableEq

def Tree.isNull : Tree → Bool
  | null => true
  | node _ _ _ => false

/-- One round of `ConstructExpTree`.  It is `none` when an empty stack is popped. -/
def construct (nodeStack : List Tree) (it : Char) : Option (List Tree) :=
  if isDigit it then some (.node (it.toNat - '0'.toNat : ℕ) .null .null :: nodeStack)
  else
    match nodeStack with
    | right :: left :: nodeStack => some (.node it.toNat left right :: nodeStack)
    | _ => none

def constructExpTree (postfixExp : List Char) : Option Tree := do
  let nodeStack ← postfixExp.foldlM construct []
  nodeStack.head?

/-- `Eval`.  A null pointer is not followed. -/
def eval (store : Int → Option Int) : Tree → Option Int
  | .null => none
  | .node data left right =>
      if left.isNull && right.isNull then some data
      else do
        let num1 ← eval store left
        let num2 ← eval store right
        calculate store num1 num2 (Char.ofNat data.toNat)

def getPriority : Char → Option ℕ
  | '+' => some 1
  | '-' => some 1
  | '*' => some 2
  | '/' => some 2
  | '(' => some 3
  | ')' => some 3
  | _ => none

/-- The loop at a closing parenthesis. -/
def closeLoop : List Char → List Char → Option (List Char × List Char)
  | _, [] => none
  | postfixExp, op :: stackOp =>
      if op = '(' then some (postfixExp, stackOp) else closeLoop (postfixExp ++ [op]) stackOp

/-- The loop at an operator. -/
def operatorLoop (p : Char) : List Char → List Char → Option (List Char × List Char)
  | postfixExp, [] => some (postfixExp, [p])
  | postfixExp, op :: stackOp =>
      if op = '(' then some (postfixExp, p :: op :: stackOp)
      else do
        if (← getPriority p) > (← getPriority op) then some (postfixExp, p :: op :: stackOp)
        else operatorLoop p (postfixExp ++ [op]) stackOp

/-- The loop over the remaining operators. -/
def remainingLoop : List Char → List Char → List Char
  | postfixExp, [] => postfixExp
  | postfixExp, op :: stackOp => remainingLoop (postfixExp ++ [op]) stackOp

/-- One round of the loop over the expression. -/
def step (state : List Char × List Char) (p : Char) : Option (List Char × List Char) :=
  let (postfixExp, stackOp) := state
  if isDigit p then some (postfixExp ++ [p], stackOp)
  else if p = '(' then some (postfixExp, p :: stackOp)
  else if p = ')' then closeLoop postfixExp stackOp
  else operatorLoop p postfixExp stackOp

def infixToPostfix (infixExp : List Char) : Option (List Char) := do
  let (postfixExp, stackOp) ← infixExp.foldlM step ([], [])
  some (remainingLoop postfixExp stackOp)

/-! ## Expressions over single digits -/

abbrev DigitExp := Infix (Fin 10) Op

namespace DigitExp

def text (e : DigitExp) : List Char := Expression.text (fun d => [digitChar d]) e

def postfixText (e : DigitExp) : List Char := e.toPostfix digitChar Op.char

def value (e : DigitExp) : Int := Expression.value (fun d => d.val) e

def Regular (store : Int → Option Int) (e : DigitExp) : Prop :=
  Expression.Regular store (fun d => d.val) e

instance (store : Int → Option Int) (e : DigitExp) : Decidable (e.Regular store) :=
  decidableRegular store _ e

/-- The tree without the parentheses. -/
def tree : DigitExp → Tree
  | .operand d => .node d.val .null .null
  | .paren e => tree e
  | .bin o l r => .node o.char.toNat (tree l) (tree r)

end DigitExp

open DigitExp

/-! ## The conversion -/

/-- An operator that is complete is appended to the output. -/
def postfixStack : OperatorStack Op (List Char) where
  priority := Op.priority
  apply o postfixExp := some (postfixExp ++ [o.char])

theorem getPriority_char (o : Op) : getPriority o.char = some o.priority := by cases o <;> rfl

section Loops

variable {postfixExp postfixExp' : List Char} {ops ops' : List (Option Op)}

theorem closeLoop_of_close (hclose : postfixStack.close postfixExp ops = some (postfixExp', ops')) :
    closeLoop postfixExp (ops.map stackChar) = some (postfixExp', ops'.map stackChar) := by
  induction ops generalizing postfixExp with
  | nil => cases hclose
  | cons op ops ih =>
      cases op with
      | none =>
          cases hclose
          rfl
      | some o => exact (if_neg (char_ne_lparen o)).trans (ih hclose)

theorem operatorLoop_of_reduce {o : Op}
    (hreduce : postfixStack.reduce o postfixExp ops = some (postfixExp', ops')) :
    operatorLoop o.char postfixExp (ops.map stackChar) =
      some (postfixExp', ops'.map stackChar) := by
  induction ops generalizing postfixExp with
  | nil =>
      cases hreduce
      rfl
  | cons op ops ih =>
      cases op with
      | none =>
          cases hreduce
          rfl
      | some op =>
          rw [OperatorStack.reduce] at hreduce
          rw [List.map_cons, operatorLoop, stackChar, if_neg (char_ne_lparen op),
            getPriority_char, getPriority_char]
          dsimp only [Option.bind_eq_bind, Option.bind_some]
          by_cases hlt : postfixStack.priority op < postfixStack.priority o
          · have hgt : o.priority > op.priority := hlt
            rw [if_pos hlt] at hreduce
            rw [if_pos hgt]
            cases hreduce
            rfl
          · have hgt : ¬ o.priority > op.priority := hlt
            rw [if_neg hlt] at hreduce
            rw [if_neg hgt]
            exact ih hreduce

theorem remainingLoop_of_flush (hflush : postfixStack.flush postfixExp ops = some postfixExp') :
    remainingLoop postfixExp (ops.map stackChar) = postfixExp' := by
  induction ops generalizing postfixExp with
  | nil => exact Option.some.inj hflush
  | cons op ops ih =>
      cases op with
      | none => cases hflush
      | some o => exact ih hflush

end Loops

/-- Behind an expression the stack reaches its postfix word, by induction on the expression. -/
theorem reads {e : DigitExp} {n : ℕ} (hfits : e.Fits Op.priority n) (postfixExp : List Char)
    (ops : List (Option Op)) (hbelow : postfixStack.Below n ops) :
    ∃ postfixExp' ops', e.text.foldlM step (postfixExp, ops.map stackChar) =
        some (postfixExp', ops'.map stackChar) ∧
      postfixStack.Reaches n postfixExp' ops' (postfixExp ++ e.postfixText) ops := by
  induction e generalizing n postfixExp ops with
  | operand d =>
      have hstep : step (postfixExp, ops.map stackChar) (digitChar d) =
          some (postfixExp ++ [digitChar d], ops.map stackChar) := if_pos (isDigit_digitChar d)
      exact ⟨postfixExp ++ [digitChar d], ops, foldlM_cons_of_step hstep [], .refl _ _ _ _⟩
  | paren e ih =>
      have hopen : step (postfixExp, ops.map stackChar) '(' =
          some (postfixExp, (none :: ops).map stackChar) := rfl
      obtain ⟨postfixExp', ops', hrun, hreaches⟩ := ih hfits postfixExp (none :: ops) trivial
      have hclose : step (postfixExp', ops'.map stackChar) ')' =
          some (postfixExp ++ DigitExp.postfixText e, ops.map stackChar) :=
        closeLoop_of_close hreaches.closed
      refine ⟨postfixExp ++ DigitExp.postfixText e, ops, ?_, .refl _ _ _ _⟩
      show ('(' :: (DigitExp.text e ++ [')'])).foldlM step _ = _
      rw [foldlM_cons_of_step hopen, foldlM_append_of_run hrun, foldlM_cons_of_step hclose]
      rfl
  | bin o l r ihl ihr =>
      obtain ⟨hle, hl, hr⟩ := hfits
      obtain ⟨postfixExp', ops', hrun, hreaches⟩ := ihl hl postfixExp ops (hbelow.mono hle)
      have hstep : step (postfixExp', ops'.map stackChar) o.char =
          some (postfixExp ++ DigitExp.postfixText l, (some o :: ops).map stackChar) := by
        rw [step, if_neg (not_isDigit_char o), if_neg (char_ne_lparen o), if_neg (char_ne_rparen o)]
        exact operatorLoop_of_reduce (hreaches.operator hbelow hle)
      obtain ⟨postfixExp'', ops'', hrun', hreaches'⟩ :=
        ihr hr (postfixExp ++ DigitExp.postfixText l) (some o :: ops)
          (Nat.lt_succ_self o.priority)
      refine ⟨postfixExp'', ops'', ?_, hreaches'.applied ?_ hle⟩
      · show (DigitExp.text l ++ o.char :: DigitExp.text r).foldlM step _ = _
        rw [foldlM_append_of_run hrun, foldlM_cons_of_step hstep, hrun']
      · show some (postfixExp ++ DigitExp.postfixText l ++ DigitExp.postfixText r ++ [o.char]) =
          some (postfixExp ++ (DigitExp.postfixText l ++ DigitExp.postfixText r ++ [o.char]))
        rw [List.append_assoc, List.append_assoc, List.append_assoc]

theorem infixToPostfix_eq {e : DigitExp} (hfits : e.Fits Op.priority 0) :
    infixToPostfix e.text = some e.postfixText := by
  obtain ⟨postfixExp, ops, hrun, hreaches⟩ := reads hfits [] [] trivial
  have hremaining := remainingLoop_of_flush hreaches.ended
  show (e.text.foldlM step ([], [].map stackChar) >>= _) = _
  rw [hrun]
  exact congrArg some hremaining

/-! ## The tree -/

/-- A postfix word leaves its tree on the stack, by induction on the expression. -/
theorem constructs (e : DigitExp) (nodeStack : List Tree) (rest : List Char) :
    (e.postfixText ++ rest).foldlM construct nodeStack =
      rest.foldlM construct (e.tree :: nodeStack) := by
  induction e generalizing nodeStack rest with
  | operand d =>
      have hconstruct : construct nodeStack (digitChar d) =
          some (.node d.val .null .null :: nodeStack) :=
        (if_pos (isDigit_digitChar d)).trans
          (congrArg (fun data : ℕ => some (Tree.node data .null .null :: nodeStack))
            (toNat_digitChar d))
      show (digitChar d :: rest).foldlM construct nodeStack = _
      rw [List.foldlM_cons, hconstruct]
      rfl
  | paren e ih => exact ih nodeStack rest
  | bin o l r ihl ihr =>
      have hconstruct : construct (DigitExp.tree r :: DigitExp.tree l :: nodeStack) o.char =
          some (.node o.char.toNat (DigitExp.tree l) (DigitExp.tree r) :: nodeStack) :=
        if_neg (not_isDigit_char o)
      calc (DigitExp.postfixText l ++ DigitExp.postfixText r ++ [o.char] ++ rest).foldlM
            construct nodeStack
          = (DigitExp.postfixText l ++ (DigitExp.postfixText r ++ (o.char :: rest))).foldlM
              construct nodeStack := by
            rw [List.append_assoc, List.append_assoc]
            rfl
        _ = (DigitExp.postfixText r ++ (o.char :: rest)).foldlM construct
              (DigitExp.tree l :: nodeStack) := ihl _ _
        _ = (o.char :: rest).foldlM construct
              (DigitExp.tree r :: DigitExp.tree l :: nodeStack) := ihr _ _
        _ = rest.foldlM construct (DigitExp.tree (.bin o l r) :: nodeStack) := by
            rw [List.foldlM_cons, hconstruct]
            rfl

theorem constructExpTree_eq (e : DigitExp) : constructExpTree e.postfixText = some e.tree := by
  have hconstructs := constructs e [] []
  rw [List.append_nil] at hconstructs
  rw [constructExpTree, hconstructs]
  rfl

/-! ## The value -/

theorem ofNat_char (o : Op) : Char.ofNat (o.char.toNat : Int).toNat = o.char := by
  cases o <;> rfl

theorem tree_ne_null (e : DigitExp) : e.tree.isNull = false := by
  induction e with
  | operand d => rfl
  | paren e ih => exact ih
  | bin o l r => rfl

theorem eval_eq {store : Int → Option Int} {e : DigitExp} (hregular : e.Regular store) :
    eval store e.tree = some e.value := by
  induction e with
  | operand d => rfl
  | paren e ih => exact ih hregular
  | bin o l r ihl ihr =>
      obtain ⟨hl, hr, hregular⟩ := hregular
      have hnode : ¬ ((DigitExp.tree l).isNull && (DigitExp.tree r).isNull) = true := by
        rw [tree_ne_null l]
        nofun
      rw [DigitExp.tree, eval, if_neg hnode, ihl hl, ihr hr]
      dsimp only [Option.bind_eq_bind, Option.bind_some]
      rw [ofNat_char]
      exact calculate_of_regularAt hregular

/-- **Conversion, tree and evaluation.**  An expression is brought into a postfix word, from which
the tree is built without popping an empty stack, and the tree evaluates to the value of the
expression. -/
theorem expEval_eq (store : Int → Option Int) (e : DigitExp) (hfits : e.Fits Op.priority 0) :
    ∃ postfixExp tree, infixToPostfix e.text = some postfixExp ∧
      postfixExp = e.toPostfix digitChar Op.char ∧
      constructExpTree postfixExp = some tree ∧
      (e.Regular store → eval store tree = some e.value) :=
  ⟨e.postfixText, e.tree, infixToPostfix_eq hfits, rfl, constructExpTree_eq e, eval_eq⟩

local instance instNeZeroTen : NeZero 10 := ⟨by decide⟩

/-- `1-(2-3)*4/5`. -/
def fraction : DigitExp :=
  .bin .sub (.operand 1)
    (.bin .div
      (.bin .mul (.paren (.bin .sub (.operand 2) (.operand 3))) (.operand 4)) (.operand 5))

theorem expEval_fraction :
    ∃ postfixExp tree, infixToPostfix fraction.text = some postfixExp ∧
      postfixExp = fraction.toPostfix digitChar Op.char ∧
      constructExpTree postfixExp = some tree ∧ eval intResult tree = some fraction.value := by
  obtain ⟨postfixExp, tree, hpostfix, htext, htree, heval⟩ :=
    expEval_eq intResult fraction (by decide)
  exact ⟨postfixExp, tree, hpostfix, htext, htree, heval (by decide)⟩

end Eureka.ExpressionTree

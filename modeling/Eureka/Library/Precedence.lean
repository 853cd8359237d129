import Mathlib.Data.List.Basic

/-!
# Infix expressions and operator stacks

An infix expression over operands `α` and binary operators `β` is given by the
tree that the usual reading gives it; `Fits` says that the tree is that reading:
operators bind by priority and associate to the left, and parentheses stand
around everything else.

An operator stack reads such an expression from left to right.  It holds the
operators that still wait for their right operand and the parentheses that are
open, and applies an operator to the operands `σ` once it is complete.  While
an expression is being read the stack keeps operators that only a later one
applies, so the results are stated about what comes next: `Reaches` says that
whatever comes next first applies them and then goes on as from the result.
-/

namespace Eureka

inductive Infix (α β : Type)
  | operand (a : α)
  | paren (e : Infix α β)
  | bin (o : β) (left right : Infix α β)

namespace Infix

variable {α β γ : Type}

/-- The expression as it is written. -/
def render (operand : α → List γ) (operator : β → γ) (lparen rparen : γ) : Infix α β → List γ
  | .operand a => operand a
  | .paren e => lparen :: (render operand operator lparen rparen e ++ [rparen])
  | .bin o l r =>
      render operand operator lparen rparen l ++
        operator o :: render operand operator lparen rparen r

/-- The expression in postfix order. -/
def toPostfix (operand : α → γ) (operator : β → γ) : Infix α β → List γ
  | .operand a => [operand a]
  | .paren e => toPostfix operand operator e
  | .bin o l r => toPostfix operand operator l ++ toPostfix operand operator r ++ [operator o]

/-- The expression, which is written without parentheses around it, is read as this tree where
operators of a lower priority stand around it. -/
def Fits (priority : β → ℕ) : ℕ → Infix α β → Prop
  | _, .operand _ => True
  | _, .paren e => Fits priority 0 e
  | n, .bin o l r => n ≤ priority o ∧ Fits priority (priority o) l ∧ Fits priority (priority o + 1) r

instance decidableFits (priority : β → ℕ) : (n : ℕ) → (e : Infix α β) →
    Decidable (Fits priority n e)
  | _, .operand _ => inferInstanceAs (Decidable True)
  | _, .paren e => decidableFits priority 0 e
  | n, .bin o l r =>
      have := decidableFits priority (priority o) l
      have := decidableFits priority (priority o + 1) r
      inferInstanceAs (Decidable (n ≤ priority o ∧ _ ∧ _))

end Infix

/-- A machine with an operator stack, by how its operators bind and what they do with the
operands. -/
structure OperatorStack (β σ : Type) where
  priority : β → ℕ
  apply : β → σ → Option σ

namespace OperatorStack

variable {β σ : Type}

/-- An operator comes.  What binds at least as strongly is applied first; an open parenthesis,
which is `none` on the stack, ends that. -/
def reduce (m : OperatorStack β σ) (o : β) : σ → List (Option β) → Option (σ × List (Option β))
  | s, [] => some (s, [some o])
  | s, none :: ops => some (s, some o :: none :: ops)
  | s, some op :: ops =>
      if m.priority op < m.priority o then some (s, some o :: some op :: ops)
      else (m.apply op s).bind fun s => m.reduce o s ops

def close (m : OperatorStack β σ) : σ → List (Option β) → Option (σ × List (Option β))
  | _, [] => none
  | s, none :: ops => some (s, ops)
  | s, some op :: ops => (m.apply op s).bind fun s => m.close s ops

def flush (m : OperatorStack β σ) : σ → List (Option β) → Option σ
  | s, [] => some s
  | _, none :: _ => none
  | s, some op :: ops => (m.apply op s).bind fun s => m.flush s ops

/-- Whatever comes next, of at most this priority, goes on from the second operands and stack. -/
structure Reaches (m : OperatorStack β σ) (n : ℕ) (s : σ) (ops : List (Option β)) (s' : σ)
    (ops' : List (Option β)) : Prop where
  reduce : ∀ o, m.priority o ≤ n → m.reduce o s ops = m.reduce o s' ops'
  close : m.close s ops = m.close s' ops'
  flush : m.flush s ops = m.flush s' ops'

/-- The operator on top waits for an operand of this priority. -/
def Below (m : OperatorStack β σ) (n : ℕ) : List (Option β) → Prop
  | some op :: _ => m.priority op < n
  | _ => True

variable {m : OperatorStack β σ} {n n' : ℕ} {s s' : σ} {ops ops' : List (Option β)} {o : β}

theorem Reaches.refl (m : OperatorStack β σ) (n : ℕ) (s : σ) (ops : List (Option β)) :
    m.Reaches n s ops s ops :=
  ⟨fun _ _ => rfl, rfl, rfl⟩

theorem Below.mono (hbelow : m.Below n ops) (hle : n ≤ n') : m.Below n' ops := by
  match ops, hbelow with
  | [], _ => trivial
  | none :: _, _ => trivial
  | some op :: _, hbelow => exact Nat.lt_of_lt_of_le hbelow hle

theorem reduce_of_below (hbelow : m.Below n ops) (hle : n ≤ m.priority o) (s : σ) :
    m.reduce o s ops = some (s, some o :: ops) := by
  match ops, hbelow with
  | [], _ => rfl
  | none :: _, _ => rfl
  | some op :: _, hbelow => exact if_pos (Nat.lt_of_lt_of_le hbelow hle)

theorem Reaches.operator (hreaches : m.Reaches (m.priority o) s ops s' ops')
    (hbelow : m.Below n ops') (hle : n ≤ m.priority o) :
    m.reduce o s ops = some (s', some o :: ops') :=
  (hreaches.reduce o (Nat.le_refl _)).trans (reduce_of_below hbelow hle s')

theorem Reaches.closed (hreaches : m.Reaches n s ops s' (none :: ops')) :
    m.close s ops = some (s', ops') :=
  hreaches.close

theorem Reaches.ended (hreaches : m.Reaches n s ops s' []) : m.flush s ops = some s' :=
  hreaches.flush

/-- Behind the right operand of an operator, whatever comes next applies it. -/
theorem Reaches.applied {s'' : σ}
    (hreaches : m.Reaches (m.priority o + 1) s ops s' (some o :: ops'))
    (happly : m.apply o s' = some s'') (hle : n ≤ m.priority o) :
    m.Reaches n s ops s'' ops' where
  reduce op hop := by
    have hnot : ¬ m.priority o < m.priority op := Nat.not_lt.mpr (Nat.le_trans hop hle)
    calc m.reduce op s ops
        = m.reduce op s' (some o :: ops') :=
          hreaches.reduce op (Nat.le_succ_of_le (Nat.le_trans hop hle))
      _ = (m.apply o s').bind fun s => m.reduce op s ops' := if_neg hnot
      _ = m.reduce op s'' ops' := by rw [happly]; rfl
  close := by
    calc m.close s ops
        = m.close s' (some o :: ops') := hreaches.close
      _ = m.close s'' ops' := by rw [OperatorStack.close, happly]; rfl
  flush := by
    calc m.flush s ops
        = m.flush s' (some o :: ops') := hreaches.flush
      _ = m.flush s'' ops' := by rw [OperatorStack.flush, happly]; rfl

end OperatorStack

end Eureka

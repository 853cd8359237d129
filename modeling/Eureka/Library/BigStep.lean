import Mathlib.Logic.Function.Basic

/-!
# Big-step semantics of expressions and assignments

A small language over literals `L`, names `N`, unary operators `U` and binary
operators `B`: expressions over the variables of a store, and statements that
assign to them and come in blocks.  What the literals and the operators mean is
a parameter.  The operands of an operator are evaluated from left to right and
the statements of a block run in their order; the first fault ends both, and
what has been assigned by then stays.

`Evaluates` and `Runs` are the rules, `eval` and `run` compute what they say
(`evaluates_iff`, `runs_iff`), so every program has exactly one outcome.
-/

namespace Eureka.BigStep

variable {L N U B V F : Type}

inductive Expr (L N U B : Type)
  | literal (l : L)
  | name (x : N)
  | unary (o : U) (e : Expr L N U B)
  | binary (o : B) (left right : Expr L N U B)
  deriving DecidableEq, Repr

inductive Stmt (L N U B : Type)
  | skip
  | assign (x : N) (e : Expr L N U B)
  | block (body : List (Stmt L N U B))

/-- The values of the names that have one. -/
abbrev Store (N V : Type) := N → Option V

/-- What the literals and the operators come to: a value or a fault.  `undefined` is the fault
of a name without a value. -/
structure Meaning (L N U B V F : Type) where
  literal : L → Except F V
  undefined : N → F
  unary : U → V → Except F V
  binary : B → V → V → Except F V

namespace Meaning

/-! ## Expressions -/

/-- In the store, the expression comes to this value or to this fault. -/
inductive Evaluates (m : Meaning L N U B V F) (store : Store N V) :
    Expr L N U B → Except F V → Prop
  | literal {l : L} : m.Evaluates store (.literal l) (m.literal l)
  | name {x : N} {v : V} : store x = some v → m.Evaluates store (.name x) (.ok v)
  | undefined {x : N} :
      store x = none → m.Evaluates store (.name x) (.error (m.undefined x))
  | unary {o : U} {e : Expr L N U B} {v : V} :
      m.Evaluates store e (.ok v) → m.Evaluates store (.unary o e) (m.unary o v)
  | unaryFault {o : U} {e : Expr L N U B} {f : F} :
      m.Evaluates store e (.error f) → m.Evaluates store (.unary o e) (.error f)
  | binary {o : B} {left right : Expr L N U B} {v w : V} :
      m.Evaluates store left (.ok v) → m.Evaluates store right (.ok w) →
      m.Evaluates store (.binary o left right) (m.binary o v w)
  | leftFault {o : B} {left right : Expr L N U B} {f : F} :
      m.Evaluates store left (.error f) → m.Evaluates store (.binary o left right) (.error f)
  | rightFault {o : B} {left right : Expr L N U B} {v : V} {f : F} :
      m.Evaluates store left (.ok v) → m.Evaluates store right (.error f) →
      m.Evaluates store (.binary o left right) (.error f)

def eval (m : Meaning L N U B V F) (store : Store N V) : Expr L N U B → Except F V
  | .literal l => m.literal l
  | .name x =>
      match store x with
      | some v => .ok v
      | none => .error (m.undefined x)
  | .unary o e => do m.unary o (← m.eval store e)
  | .binary o left right => do
      -- from left to right: a fault on the left hides one on the right
      let v ← m.eval store left
      let w ← m.eval store right
      m.binary o v w

variable {m : Meaning L N U B V F} {store store' : Store N V}

theorem eval_of_evaluates {e : Expr L N U B} {outcome : Except F V}
    (h : m.Evaluates store e outcome) : m.eval store e = outcome := by
  induction h with
  | literal => rfl
  | name hx | undefined hx => simp only [eval, hx]
  | unary _ ih | unaryFault _ ih => simp only [eval, ih]; rfl
  | binary _ _ ihl ihr | rightFault _ _ ihl ihr => simp only [eval, ihl, ihr]; rfl
  | leftFault _ ih => simp only [eval, ih]; rfl

theorem evaluates_eval (e : Expr L N U B) : m.Evaluates store e (m.eval store e) := by
  induction e with
  | literal l => exact .literal
  | name x =>
      rw [eval]
      cases hx : store x with
      | some v => exact .name hx
      | none => exact .undefined hx
  | unary o e ih =>
      rw [eval]
      cases he : m.eval store e with
      | ok v => exact .unary (he ▸ ih)
      | error f => exact .unaryFault (he ▸ ih)
  | binary o left right ihl ihr =>
      rw [eval]
      cases hleft : m.eval store left with
      | error f => exact .leftFault (hleft ▸ ihl)
      | ok v =>
          cases hright : m.eval store right with
          | error f => exact .rightFault (hleft ▸ ihl) (hright ▸ ihr)
          | ok w => exact .binary (hleft ▸ ihl) (hright ▸ ihr)

theorem evaluates_iff {e : Expr L N U B} {outcome : Except F V} :
    m.Evaluates store e outcome ↔ m.eval store e = outcome := by
  constructor
  · exact eval_of_evaluates
  · rintro rfl
    exact evaluates_eval e

/-! ## Statements -/

variable [DecidableEq N]

/-- From the store, the statement runs to its end or to this fault, and leaves the other
store. -/
inductive Runs (m : Meaning L N U B V F) :
    Store N V → Stmt L N U B → Option F → Store N V → Prop
  | skip {store : Store N V} : m.Runs store .skip none store
  | assign {store : Store N V} {x : N} {e : Expr L N U B} {v : V} :
      m.Evaluates store e (.ok v) →
      m.Runs store (.assign x e) none (Function.update store x (some v))
  | assignFault {store : Store N V} {x : N} {e : Expr L N U B} {f : F} :
      m.Evaluates store e (.error f) → m.Runs store (.assign x e) (some f) store
  | blockNil {store : Store N V} : m.Runs store (.block []) none store
  | blockCons {store store' store'' : Store N V} {s : Stmt L N U B} {body : List (Stmt L N U B)}
      {fault : Option F} : m.Runs store s none store' → m.Runs store' (.block body) fault store'' →
      m.Runs store (.block (s :: body)) fault store''
  | blockFault {store store' : Store N V} {s : Stmt L N U B} {body : List (Stmt L N U B)} {f : F} :
      m.Runs store s (some f) store' → m.Runs store (.block (s :: body)) (some f) store'

mutual

def run (m : Meaning L N U B V F) : Stmt L N U B → Store N V → Option F × Store N V
  | .skip, store => (none, store)
  | .assign x e, store =>
      match m.eval store e with
      | .ok v => (none, Function.update store x (some v))
      | .error f => (some f, store)
  | .block body, store => m.runBlock body store

def runBlock (m : Meaning L N U B V F) : List (Stmt L N U B) → Store N V → Option F × Store N V
  | [], store => (none, store)
  | s :: body, store =>
      match m.run s store with
      | (none, store) => m.runBlock body store
      -- the rest does not run, and what has been assigned stays
      | (some f, store) => (some f, store)

end

theorem run_of_runs {s : Stmt L N U B} {fault : Option F} (h : m.Runs store s fault store') :
    m.run s store = (fault, store') := by
  induction h with
  | skip | blockNil => rfl
  | assign he | assignFault he => rw [run, eval_of_evaluates he]
  | blockCons _ _ ihs ihbody =>
      rw [run, runBlock, ihs]
      rwa [run] at ihbody
  | blockFault _ ih => rw [run, runBlock, ih]

mutual

/-- By induction on the statement. -/
theorem runs_run (s : Stmt L N U B) (store : Store N V) :
    m.Runs store s (m.run s store).1 (m.run s store).2 := by
  cases s with
  | skip => exact .skip
  | assign x e =>
      rw [run]
      have heval : m.Evaluates store e (m.eval store e) := m.evaluates_eval e
      match m.eval store e, heval with
      | .ok v, heval => exact .assign heval
      | .error f, heval => exact .assignFault heval
  | block body =>
      rw [run]
      exact runs_runBlock body store

theorem runs_runBlock (body : List (Stmt L N U B)) (store : Store N V) :
    m.Runs store (.block body) (m.runBlock body store).1 (m.runBlock body store).2 := by
  cases body with
  | nil => exact .blockNil
  | cons s body =>
      rw [runBlock]
      match m.run s store, runs_run s store with
      | (none, store'), hs => exact .blockCons hs (runs_runBlock body store')
      | (some f, store'), hs => exact .blockFault hs

end

theorem runs_iff {s : Stmt L N U B} {fault : Option F} :
    m.Runs store s fault store' ↔ m.run s store = (fault, store') := by
  constructor
  · exact run_of_runs
  · intro hrun
    have hruns := m.runs_run s store
    rwa [hrun] at hruns

end Meaning

end Eureka.BigStep

import Eureka.Signals.Snapshots

/-!
# The arguments of an emission

`Emit` and `Invoke` take the arguments as parameters of the types of the signal
and pass them on by `std::forward`; `Invoke` does so once for every slot.  A
parameter by value is forwarded as an rvalue, so the slot's function takes its
content and leaves a moved-from object to the slots behind it.

The functions of the slots take their parameters by value.  What a parameter
names has no content once it was moved from.

* `receives_iff`: all slots receive the arguments exactly if at most one is
  invoked or nothing is moved.
* `slots_emit`: the slots are those that the emission of a signal invokes.
-/

namespace Eureka.Signals

/-- How a type of the signal's list is passed. -/
inductive Passing
  | value
  | lvalueRef
  | rvalueRef
deriving DecidableEq, Repr

/-- A type of the signal's list; `moves` says that its move constructor changes the source. -/
structure Param where
  passing : Passing
  moves : Bool
deriving DecidableEq, Repr

/-- `std::forward` gives an rvalue. -/
def Param.forwardsRvalue (param : Param) : Bool :=
  match param.passing with
  | .value | .rvalueRef => true
  | .lvalueRef => false

/-- The parameter is moved from when it is forwarded. -/
def Param.isMoved (param : Param) : Bool := param.forwardsRvalue && param.moves

variable {V Slot Obj : Type}

/-- An object is initialized from a forwarded parameter: the content of the object, and what is left
to the parameter. -/
def construct (param : Param) (content : Option V) : Option V × Option V :=
  (content, if param.isMoved then none else content)

/-- A parameter is passed on to a parameter of the same type; a reference names the same object. -/
def pass (param : Param) (content : Option V) : Option V × Option V :=
  match param.passing with
  | .value => construct param content
  | .lvalueRef | .rvalueRef => (content, content)

/-- `slot->fn(std::forward<Args>(args)...)`, for one of the arguments: what the slot's function gets
from `std::function`, and what is left to `Invoke`. -/
def callSlot (param : Param) (content : Option V) : Option V × Option V :=
  let (inner, left) := pass param content
  let (received, innerLeft) := construct param inner
  (received, if param.passing = .value then left else innerLeft)

variable [DecidableEq Obj]

/-- The loop of `Invoke` over the slots, each with the objects that are gone when it is reached: what
the slots receive. -/
def invoke (bound : Slot → Option Obj) :
    List (Slot × Finset Obj) → List (Param × Option V) → List (Slot × List (Option V))
  | [], _ => []
  | (slot, gone) :: rest, args =>
      if Signal.isGone bound gone slot then invoke bound rest args
      else
        (slot, args.map fun (param, content) => (callSlot param content).1) ::
          invoke bound rest (args.map fun (param, content) => (param, (callSlot param content).2))

/-- `Emit` passes its parameters on to `Invoke`. -/
def emit (bound : Slot → Option Obj) (reached : List (Slot × Finset Obj)) (args : List (Param × V)) :
    List (Slot × List (Option V)) :=
  invoke bound reached (args.map fun (param, value) => (param, (pass param (some value)).1))

/-- The slots that are not skipped. -/
def called (bound : Slot → Option Obj) (reached : List (Slot × Finset Obj)) : List Slot :=
  (reached.filter fun entry => ¬ Signal.isGone bound entry.2 entry.1).map Prod.fst

/-- Every slot receives the values that were passed to `Emit`. -/
def Receives (bound : Slot → Option Obj) (reached : List (Slot × Finset Obj))
    (args : List (Param × V)) : Prop :=
  ∀ call ∈ emit bound reached args, call.2 = args.map fun arg => some arg.2

variable {bound : Slot → Option Obj} {reached : List (Slot × Finset Obj)}

/-! ## What is received and what is left -/

omit [DecidableEq Obj] in
@[simp] theorem pass_fst (param : Param) (content : Option V) :
    (pass param content).1 = content := by
  unfold pass construct
  cases param.passing <;> rfl

omit [DecidableEq Obj] in
@[simp] theorem callSlot_fst (param : Param) (content : Option V) :
    (callSlot param content).1 = content := pass_fst param content

omit [DecidableEq Obj] in
@[simp] theorem callSlot_snd (param : Param) (content : Option V) :
    (callSlot param content).2 = if param.isMoved then none else content := by
  rcases param with ⟨passing, moves⟩
  cases passing <;> rfl

theorem invoke_cons (slot : Slot) (gone : Finset Obj) (rest : List (Slot × Finset Obj))
    (args : List (Param × Option V)) :
    invoke bound ((slot, gone) :: rest) args =
      if Signal.isGone bound gone slot then invoke bound rest args
      else (slot, args.map Prod.snd) :: invoke bound rest
        (args.map fun arg => (arg.1, if arg.1.isMoved then none else arg.2)) := by
  rw [invoke]
  simp only [callSlot_fst, callSlot_snd]

theorem called_cons (slot : Slot) (gone : Finset Obj) (rest : List (Slot × Finset Obj)) :
    called bound ((slot, gone) :: rest) =
      if Signal.isGone bound gone slot then called bound rest else slot :: called bound rest := by
  unfold called
  by_cases hgone : Signal.isGone bound gone slot = true
  · simp [hgone]
  · simp [hgone]

theorem map_fst_invoke (args : List (Param × Option V)) :
    (invoke bound reached args).map Prod.fst = called bound reached := by
  induction reached generalizing args with
  | nil => rfl
  | cons entry rest ih =>
      rw [invoke_cons, called_cons]
      split
      · exact ih args
      · rw [List.map_cons, ih]

theorem invoke_of_unmoved {args : List (Param × Option V)}
    (hargs : ∀ arg ∈ args, arg.1.isMoved = false) {call : Slot × List (Option V)}
    (hcall : call ∈ invoke bound reached args) : call.2 = args.map Prod.snd := by
  have hleft : args.map (fun arg => (arg.1, if arg.1.isMoved then none else arg.2)) = args := by
    refine (List.map_congr_left fun arg harg => ?_).trans (List.map_id args)
    rw [hargs arg harg]
    rfl
  induction reached with
  | nil => cases hcall
  | cons entry rest ih =>
      rw [invoke_cons, hleft] at hcall
      split at hcall
      · exact ih hcall
      · rcases List.mem_cons.mp hcall with rfl | hrest
        · rfl
        · exact ih hrest

theorem exists_call (args : List (Param × Option V)) (hcalled : called bound reached ≠ []) :
    ∃ call ∈ invoke bound reached args, call.2 = args.map Prod.snd := by
  induction reached with
  | nil => exact absurd rfl hcalled
  | cons entry rest ih =>
      rw [called_cons] at hcalled
      rw [invoke_cons]
      split at hcalled
      next hgone =>
        rw [if_pos hgone]
        exact ih hcalled
      next hthere =>
        rw [if_neg hthere]
        exact ⟨_, List.mem_cons_self, rfl⟩

/-- The second one finds a moved argument without content. -/
theorem exists_call_of_moved {args : List (Param × Option V)} {arg : Param × Option V}
    (harg : arg ∈ args) (hmoved : arg.1.isMoved = true) (htwo : 1 < (called bound reached).length) :
    ∃ call ∈ invoke bound reached args, none ∈ call.2 := by
  induction reached with
  | nil => cases htwo
  | cons entry rest ih =>
      rw [called_cons] at htwo
      rw [invoke_cons]
      split at htwo
      next hgone =>
        rw [if_pos hgone]
        exact ih htwo
      next hthere =>
        rw [if_neg hthere]
        rw [List.length_cons] at htwo
        obtain ⟨call, hcall, hleft⟩ := exists_call
          (args.map fun arg => (arg.1, if arg.1.isMoved then none else arg.2))
          (List.ne_nil_of_length_pos (Nat.lt_of_succ_lt_succ htwo))
        refine ⟨call, List.mem_cons_of_mem _ hcall, ?_⟩
        rw [hleft, List.map_map]
        exact List.mem_map.mpr ⟨arg, harg, by simp [hmoved]⟩

theorem invoke_of_single {args : List (Param × Option V)} (hone : (called bound reached).length ≤ 1)
    {call : Slot × List (Option V)} (hcall : call ∈ invoke bound reached args) :
    call.2 = args.map Prod.snd := by
  induction reached with
  | nil => cases hcall
  | cons entry rest ih =>
      rw [called_cons] at hone
      rw [invoke_cons] at hcall
      split at hone
      next hgone =>
        rw [if_pos hgone] at hcall
        exact ih hone hcall
      next hthere =>
        rw [if_neg hthere] at hcall
        rcases List.mem_cons.mp hcall with rfl | hrest
        · rfl
        · -- nothing is called behind it
          have hslot := List.mem_map_of_mem (f := Prod.fst) hrest
          rw [map_fst_invoke] at hslot
          have hpos := List.length_pos_of_mem hslot
          rw [List.length_cons] at hone
          omega

/-! ## All slots -/

theorem emit_eq (args : List (Param × V)) :
    emit bound reached args = invoke bound reached (args.map fun arg => (arg.1, some arg.2)) := by
  simp only [emit, pass_fst]

/-- The slots of an emission that receive arguments are those that it has invoked. -/
theorem slots_emit [DecidableEq Slot] {Thread : Type} [DecidableEq Thread]
    {s : Signal Thread Slot Obj} (hreach : (signal Thread bound).Reachable s) {id : ℕ}
    {e : Emission Slot Obj} (he : s.emissions id = some e) (args : List (Param × V)) :
    (emit bound e.reached args).map Prod.fst = e.invoked := by
  rw [emit_eq, map_fst_invoke]
  exact ((Signal.Coherent.of_reachable hreach).faithful id e he).invoked_eq.symm

/-- **All slots receive the arguments exactly if at most one is called or no argument is moved.** -/
theorem receives_iff (reached : List (Slot × Finset Obj)) (args : List (Param × V)) :
    Receives bound reached args ↔
      (called bound reached).length ≤ 1 ∨ ∀ arg ∈ args, arg.1.isMoved = false := by
  have hvalues : (args.map fun arg => (arg.1, some arg.2)).map Prod.snd =
      args.map fun arg => some arg.2 := List.map_map
  rw [Receives, emit_eq]
  constructor
  · intro h
    by_contra hneither
    push Not at hneither
    obtain ⟨htwo, arg, harg, hmoved⟩ := hneither
    rw [ne_eq, Bool.not_eq_false] at hmoved
    have hmem : (arg.1, some arg.2) ∈ args.map fun arg => (arg.1, some arg.2) :=
      List.mem_map.mpr ⟨arg, harg, rfl⟩
    obtain ⟨call, hcall, hnone⟩ := exists_call_of_moved hmem hmoved htwo
    rw [h call hcall] at hnone
    simp at hnone
  · rintro (hone | hargs) call hcall
    · rw [← hvalues]
      exact invoke_of_single hone hcall
    · rw [← hvalues]
      refine invoke_of_unmoved (fun arg harg => ?_) hcall
      obtain ⟨arg', harg', rfl⟩ := List.mem_map.mp harg
      exact hargs arg' harg'

/-- A string by value, and two slots: the second one receives an empty string. -/
theorem not_receives :
    emit (fun _ : ℕ => (none : Option ℕ)) [(0, ∅), (1, ∅)] [(⟨.value, true⟩, "text")] =
        [(0, [some "text"]), (1, [none])] ∧
      ¬ Receives (fun _ : ℕ => (none : Option ℕ)) [(0, ∅), (1, ∅)] [(⟨.value, true⟩, "text")] := by
  refine ⟨rfl, fun h => ?_⟩
  have hsecond := h (1, [none]) (List.mem_cons_of_mem _ List.mem_cons_self)
  cases hsecond

end Eureka.Signals

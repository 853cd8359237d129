import Mathlib

/-!
# Loops that may run for ever

A loop is run on fuel, one unit for each test of its condition.  It terminates if some
fuel suffices.

* `whileLoop_rule`: a loop with an invariant and a variant terminates, as soon as the
  fuel exceeds the variant;
* `whileLoop_eq_none`: a loop with an invariant that keeps its condition true does not;
* `Below`: what more fuel does to a computation, with its rules for `bind` and `if`, and
  `whileLoop_below`;
* `whileLoop_map`: the same loop on a part of its state;
* `countedLoop_rule`: a counted loop, whose turns may fail, with an invariant;
* `countedLoop_eq_none`: it has no result when its counter would leave its type.
-/

namespace Eureka.WhileLoop

variable {σ τ : Type} {cond : σ → Bool} {body : σ → σ}

/-- A loop; it is `none` when the fuel does not suffice. -/
def whileLoop (cond : σ → Bool) (body : σ → σ) : ℕ → σ → Option σ
  | 0, _ => none
  | fuel + 1, s => if cond s then whileLoop cond body fuel (body s) else some s

/-- **Total correctness.** -/
theorem whileLoop_rule (I : σ → Prop) (variant : σ → ℕ)
    (hbody : ∀ s, I s → cond s = true → I (body s) ∧ variant (body s) < variant s)
    {fuel : ℕ} {s : σ} (hI : I s) (hfuel : variant s < fuel) :
    ∃ s', whileLoop cond body fuel s = some s' ∧ I s' ∧ cond s' = false := by
  induction fuel generalizing s with
  | zero => exact absurd hfuel (Nat.not_lt_zero _)
  | succ fuel ih =>
      cases hcond : cond s with
      | false => exact ⟨s, by rw [whileLoop, hcond, if_neg Bool.false_ne_true], hI, hcond⟩
      | true =>
          -- one unit of fuel for one step down of the variant
          obtain ⟨hnext, hless⟩ := hbody s hI hcond
          obtain ⟨s', hloop, hI', hcond'⟩ :=
            ih hnext (hless.trans_le (Nat.le_of_lt_succ hfuel))
          exact ⟨s', by rw [whileLoop, hcond, if_pos rfl, hloop], hI', hcond'⟩

/-- **A loop that does not terminate.** -/
theorem whileLoop_eq_none {I : σ → Prop} (hbody : ∀ s, I s → cond s = true ∧ I (body s))
    (fuel : ℕ) {s : σ} (hI : I s) : whileLoop cond body fuel s = none := by
  induction fuel generalizing s with
  | zero => rfl
  | succ fuel ih =>
      obtain ⟨hcond, hnext⟩ := hbody s hI
      rw [whileLoop, if_pos hcond, ih hnext]

/-- The second computation has the result of the first one, if that has a result. -/
def Below {α : Type} (o o' : Option α) : Prop := ∀ a, o = some a → o' = some a

section Below

variable {α β : Type} {o o' : Option α}

theorem below_refl (o : Option α) : Below o o := fun _ => id

theorem below_bind {f f' : α → Option β} (h : Below o o') (hnext : ∀ a, Below (f a) (f' a)) :
    Below (o.bind f) (o'.bind f') := by
  intro b hb
  obtain ⟨a, ha, hb⟩ := Option.bind_eq_some_iff.mp hb
  exact Option.bind_eq_some_iff.mpr ⟨a, h a ha, hnext a b hb⟩

theorem below_ite {p : Prop} [Decidable p] {second second' : Option α} (h : Below o o')
    (hsecond : Below second second') :
    Below (if p then o else second) (if p then o' else second') := by
  by_cases hp : p
  · rwa [if_pos hp, if_pos hp]
  · rwa [if_neg hp, if_neg hp]

end Below

/-- **More fuel** changes no result. -/
theorem whileLoop_below {fuel fuel' : ℕ} (hle : fuel ≤ fuel') (s : σ) :
    Below (whileLoop cond body fuel s) (whileLoop cond body fuel' s) := by
  induction fuel generalizing s fuel' with
  | zero => exact nofun
  | succ fuel ih =>
      obtain ⟨fuel', rfl⟩ := Nat.exists_eq_add_of_le' (Nat.le_trans (Nat.le_add_left 1 fuel) hle)
      exact below_ite (ih (Nat.le_of_succ_le_succ hle) (body s)) (below_refl _)

theorem whileLoop_map {cond' : τ → Bool} {body' : τ → τ} (part : σ → τ)
    (hcond : ∀ s, cond s = cond' (part s)) (hbody : ∀ s, part (body s) = body' (part s))
    (fuel : ℕ) (s : σ) :
    (whileLoop cond body fuel s).map part = whileLoop cond' body' fuel (part s) := by
  induction fuel generalizing s with
  | zero => rfl
  | succ fuel ih =>
      rw [whileLoop, whileLoop, hcond s, ← hbody s, ← ih]
      split
      · rfl
      · rfl

/-! ## Counted loops -/

/-- What the values of an `int` end in front of. -/
def intLimit : ℕ := 2 ^ 31

/-- A loop that counts from `start` on, through `n` turns that may fail.  To count up to `limit` is
undefined. -/
def countedLoop (limit : ℕ) (turn : σ → ℕ → Option σ) : ℕ → ℕ → σ → Option σ
  | _, 0, s => some s
  | start, n + 1, s =>
      (turn s start).bind fun s =>
        if start + 1 < limit then countedLoop limit turn (start + 1) n s else none

section CountedLoop

variable {limit start n : ℕ} {turn : σ → ℕ → Option σ} {s : σ}

theorem countedLoop_rule (I : ℕ → σ → Prop) (hlimit : start + n < limit)
    (hturn : ∀ i < start + n, ∀ s, I i s → ∃ s', turn s i = some s' ∧ I (i + 1) s')
    (hI : I start s) : ∃ s', countedLoop limit turn start n s = some s' ∧ I (start + n) s' := by
  induction n generalizing start s with
  | zero => exact ⟨s, rfl, hI⟩
  | succ n ih =>
      obtain ⟨s', hstep, hI'⟩ := hturn start (by omega) s hI
      rw [countedLoop, hstep, Option.bind_some, if_pos (by omega)]
      have hend : start + (n + 1) = start + 1 + n := by omega
      rw [hend] at hlimit hturn ⊢
      exact ih hlimit hturn hI'

theorem countedLoop_some (f : σ → ℕ → σ) (hlimit : start + n < limit) :
    countedLoop limit (fun s i => some (f s i)) start n s =
      some ((List.range' start n).foldl f s) := by
  induction n generalizing start s with
  | zero => rfl
  | succ n ih =>
      rw [countedLoop, Option.bind_some, if_pos (by omega), ih (by omega), List.range'_succ,
        List.foldl_cons]

theorem countedLoop_eq_none (turn : σ → ℕ → Option σ) (s : σ) (hstart : start < limit)
    (hlimit : limit ≤ start + n) : countedLoop limit turn start n s = none := by
  induction n generalizing start s with
  | zero => exact absurd hstart (not_lt.mpr hlimit)
  | succ n ih =>
      rw [countedLoop]
      cases turn s start with
      | none => rfl
      | some s' =>
          rw [Option.bind_some]
          split
          · next hlt => exact ih s' hlt (by omega)
          · rfl

end CountedLoop

end Eureka.WhileLoop

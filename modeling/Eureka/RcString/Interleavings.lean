import Mathlib
import Eureka.RcString.Interference
import Eureka.RcString.Values

/-!
# Strings of several threads are values

In all interleavings of calls that leave the variables of the other calls alone
(`Exclusive`) the heap keeps the invariant of one thread, and every thread what
it relies on (`Machine.Coherent`).  Each step is one of these (`Machine.Keeps`):

* a **load** or an assertion changes only the thread (`load`);
* a **change** of the data of one variable (`keeps_of_touch`);
* the **last release** hands the data over to the thread (`last`), which then
  deletes it.

As for one thread, the count must stay below the mark (`HasSpareCount`).
-/

namespace Eureka.RcString

open Transition

variable {Thread Var : Type}

/-! ## Data between its last release and its deletion -/

/-- What was released by a last owner is deleted once, or one thread is about to do so. -/
structure Ledger (released deleted : List ℕ) (doomed : Thread → Option ℕ) : Prop where
  nodup : deleted.Nodup
  mem_iff : ∀ p, p ∈ released ↔ p ∈ deleted ∨ ∃ t, doomed t = some p
  pending : ∀ t p, doomed t = some p → p ∉ deleted
  inj : ∀ t u p, doomed t = some p → doomed u = some p → t = u

namespace Ledger

variable {released deleted : List ℕ} {doomed : Thread → Option ℕ} {t : Thread} {p : ℕ}

theorem initial : Ledger [] [] fun _ : Thread => none where
  nodup := List.nodup_nil
  mem_iff p := by simp
  pending := nofun
  inj := nofun

variable [DecidableEq Thread]

theorem release (h : Ledger released deleted doomed) (ht : doomed t = none) (hp : p ∉ released) :
    Ledger (released ++ [p]) deleted (Function.update doomed t (some p)) := by
  have hnone : p ∉ deleted ∧ ∀ u, doomed u ≠ some p := by
    rw [h.mem_iff, not_or, not_exists] at hp
    exact hp
  refine ⟨h.nodup, fun q => ?_, fun u q hu => ?_, fun u w q hu hw => ?_⟩
  · rw [List.mem_append, h.mem_iff, List.mem_singleton, or_assoc]
    apply or_congr_right
    constructor
    · rintro (⟨u, hu⟩ | rfl)
      · have hne : u ≠ t := by
          rintro rfl
          exact nomatch hu.symm.trans ht
        exact ⟨u, (Function.update_of_ne hne _ _).trans hu⟩
      · exact ⟨t, Function.update_self _ _ _⟩
    · rintro ⟨u, hu⟩
      by_cases hut : u = t
      · rw [hut, Function.update_self] at hu
        exact .inr (Option.some.inj hu).symm
      · rw [Function.update_of_ne hut] at hu
        exact .inl ⟨u, hu⟩
  · by_cases hut : u = t
    · rw [hut, Function.update_self] at hu
      exact Option.some.inj hu ▸ hnone.1
    · rw [Function.update_of_ne hut] at hu
      exact h.pending u q hu
  · by_cases hut : u = t <;> by_cases hwt : w = t
    · exact hut.trans hwt.symm
    · rw [hut, Function.update_self] at hu
      rw [Function.update_of_ne hwt, ← Option.some.inj hu] at hw
      exact absurd hw (hnone.2 w)
    · rw [hwt, Function.update_self] at hw
      rw [Function.update_of_ne hut, ← Option.some.inj hw] at hu
      exact absurd hu (hnone.2 u)
    · rw [Function.update_of_ne hut] at hu
      rw [Function.update_of_ne hwt] at hw
      exact h.inj u w q hu hw

theorem delete (h : Ledger released deleted doomed) (ht : doomed t = some p) :
    Ledger released (deleted ++ [p]) (Function.update doomed t none) := by
  have hother : ∀ u q, Function.update doomed t none u = some q → u ≠ t ∧ doomed u = some q := by
    intro u q hu
    by_cases hut : u = t
    · rw [hut, Function.update_self] at hu
      cases hu
    · rw [Function.update_of_ne hut] at hu
      exact ⟨hut, hu⟩
  refine ⟨?_, fun q => ?_, fun u q hu => ?_, fun u w q hu hw => ?_⟩
  · exact h.nodup.append (List.nodup_singleton p) (by simpa using h.pending t p ht)
  · rw [h.mem_iff, List.mem_append, List.mem_singleton, or_assoc]
    apply or_congr_right
    constructor
    · rintro ⟨u, hu⟩
      by_cases hut : u = t
      · rw [hut, ht] at hu
        exact .inl (Option.some.inj hu).symm
      · exact .inr ⟨u, (Function.update_of_ne hut _ _).trans hu⟩
    · rintro (rfl | ⟨u, hu⟩)
      · exact ⟨t, ht⟩
      · exact ⟨u, (hother u q hu).2⟩
  · obtain ⟨hut, hu⟩ := hother u q hu
    rw [List.mem_append, List.mem_singleton, not_or]
    refine ⟨h.pending u q hu, ?_⟩
    rintro rfl
    exact hut (h.inj u t q hu ht)
  · exact h.inj u w q (hother u q hu).2 (hother w q hw).2

end Ledger

/-! ## The invariant -/

variable [DecidableEq Var]

/-- What the variables that there are show. -/
def shown (m : Memory Var) (texts : Var → Option Bytes) (x : Var) : Option Bytes :=
  if x ∈ m.vars.live then texts x else none

theorem shown_eq_update {m m' : Memory Var} {texts texts' : Var → Option Bytes} {x : Var}
    {text : Option Bytes} (hlive : ∀ y, y ≠ x → (y ∈ m'.vars.live ↔ y ∈ m.vars.live))
    (htexts : ∀ y, y ≠ x → texts' y = texts y) (hx : shown m' texts' x = text) :
    shown m' texts' = Function.update (shown m texts) x text := by
  funext y
  by_cases hy : y = x
  · rw [hy, hx, Function.update_self]
  · rw [Function.update_of_ne hy]
    unfold shown
    rw [htexts y hy]
    exact if_congr (hlive y hy) rfl rfl

/-- The variable that is constructed, changed or destroyed. -/
def Op.target : Op Var → Var
  | construct x | constructText x _ | constructCString x _ | copy x _ | append x _
  | appendCString x _ | set x _ _ | get x _ | destroy x | assign x _ => x

theorem Op.apply_of_ne {op : Op Var} {y : Var} (hne : y ≠ op.target) (texts : Var → Option Bytes) :
    op.apply texts y = texts y := by
  cases op <;> first | rfl | exact Function.update_of_ne hne _ _

namespace Machine

/-- The heap is in order, and no thread touches a variable that another one changes. -/
structure Coherent (s : Machine Thread Var) : Prop where
  memory : Inv s.memory (shown s.memory s.texts)
  absent : ∀ x, x ∉ s.memory.vars.live → (∀ t, (s.pcs t).target ≠ some x) → s.texts x = none
  ok : ∀ t, (s.pcs t).Ok s.memory s.texts
  apart : ∀ t u x, (s.pcs t).target = some x → u ≠ t →
    (s.pcs u).target ≠ some x ∧ (s.pcs u).source ≠ some x
  ledger : Ledger s.memory.deleted s.deleted fun t => (s.pcs t).doomed

theorem coherent_initial : (initial : Machine Thread Var).Coherent where
  memory := by
    have hshown : shown (Memory.initial : Memory Var) (fun _ => none) = fun _ => none := by
      funext x
      exact ite_self _
    exact hshown ▸ inv_initial
  absent _ _ _ := rfl
  ok _ := trivial
  apart := nofun
  ledger := Ledger.initial

variable [DecidableEq Thread]

/-- What a step of the thread `t` has to keep. -/
structure Keeps (s : Machine Thread Var) (t : Thread) (o : Outcome Var) : Prop where
  memory : Inv o.memory (shown o.memory (s.textsAfter o))
  ok : o.pc.Ok o.memory (s.textsAfter o)
  target : o.pc.target = none ∨ o.pc.target = (s.pcs t).target
  source : o.pc.source = none ∨ o.pc.source = (s.pcs t).source
  absent : ∀ x, (s.pcs t).target = some x → o.pc.target = none → x ∉ o.memory.vars.live →
    s.textsAfter o x = none
  texts_eq : ∀ y, (s.pcs t).target ≠ some y → s.textsAfter o y = s.texts y
  frame : ∀ y, (s.pcs t).target ≠ some y → Frame s.memory o.memory y
  aloneFrame : ∀ y, (s.pcs t).target ≠ some y → (s.pcs t).source ≠ some y →
    AloneFrame s.memory o.memory y
  ledger : Ledger o.memory.deleted (s.deleted ++ o.deleted.toList)
    (Function.update (fun u => (s.pcs u).doomed) t o.pc.doomed)

variable {s : Machine Thread Var} {t : Thread} {o : Outcome Var}

theorem Coherent.after (h : s.Coherent) (k : s.Keeps t o) : (s.after t o).Coherent := by
  have hself : (s.after t o).pcs t = o.pc := Function.update_self _ _ _
  have hother : ∀ u, u ≠ t → (s.after t o).pcs u = s.pcs u := fun u hu =>
    Function.update_of_ne hu _ _
  have htarget : ∀ x, (s.pcs t).target ≠ some x → o.pc.target ≠ some x := by
    intro x hx hnew
    obtain hnone | hsame := k.target
    · exact nomatch hnone.symm.trans hnew
    · exact hx (hsame.symm.trans hnew)
  have hsource : ∀ x, (s.pcs t).source ≠ some x → o.pc.source ≠ some x := by
    intro x hx hnew
    obtain hnone | hsame := k.source
    · exact nomatch hnone.symm.trans hnew
    · exact hx (hsame.symm.trans hnew)
  refine ⟨k.memory, fun x hx hfree => ?_, fun u => ?_, fun u w x hu hw => ?_, ?_⟩
  · have hnew := hfree t
    rw [hself] at hnew
    by_cases hold : (s.pcs t).target = some x
    · refine k.absent x hold ?_ hx
      obtain hnone | hsame := k.target
      · exact hnone
      · exact absurd (hsame.trans hold) hnew
    · refine (k.texts_eq x hold).trans (h.absent x ?_ fun u => ?_)
      · exact fun hlive => hx ((k.frame x hold).live_iff.mpr hlive)
      · by_cases hu : u = t
        · rw [hu]
          exact hold
        · rw [← hother u hu]
          exact hfree u
  · by_cases hu : u = t
    · rw [hu, hself]
      exact k.ok
    · rw [hother u hu]
      refine (h.ok u).frame (fun y hy => ?_) fun y hy => ?_
      · obtain ⟨htargets, hsources⟩ := h.apart u t y hy (Ne.symm hu)
        exact ⟨k.aloneFrame y htargets hsources, k.texts_eq y htargets⟩
      · exact k.frame y fun hnew => (h.apart t u y hnew hu).2 hy
  · by_cases hut : u = t
    · subst hut
      rw [hself] at hu
      have hold : (s.pcs u).target = some x := by_contra fun hold => htarget x hold hu
      rw [hother w hw]
      exact h.apart u w x hold hw
    · rw [hother u hut] at hu
      by_cases hwt : w = t
      · subst hwt
        obtain ⟨htargets, hsources⟩ := h.apart u w x hu hw
        rw [hself]
        exact ⟨htarget x htargets, hsource x hsources⟩
      · rw [hother w hwt]
        exact h.apart u w x hu hw
  · have hdoomed : (fun u => ((s.after t o).pcs u).doomed) =
        Function.update (fun u => (s.pcs u).doomed) t o.pc.doomed := by
      funext u
      by_cases hu : u = t
      · rw [hu, hself, Function.update_self]
      · rw [hother u hu, Function.update_of_ne hu]
    rw [hdoomed]
    exact k.ledger

end Machine

end Eureka.RcString

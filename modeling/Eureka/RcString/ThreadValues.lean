import Mathlib
import Eureka.RcString.ThreadSteps

/-!
# The texts that threads see

`always_threadValues`: in all interleavings in which no call touches a variable
that another one changes, and no copy makes the count the mark, the strings of
all threads are values.  `threadValues_overflow` is a run of one thread that
leaves out the second condition only.
-/

namespace Eureka.RcString

open Transition

variable {Thread Var : Type}

namespace Machine

/-- The variable that is copied. -/
def source : Op Var → Option Var
  | .copy _ other => some other
  | _ => none

/-- A call leaves alone the variables that another one changes, and does not change the variables
that another one copies. -/
def Exclusive (s : Except Fault (Machine Thread Var)) (action : Action Thread Var) : Prop :=
  match s, action with
  | .ok s, .call _ op => ∀ u, (s.pcs u).target ≠ some op.target ∧
      (s.pcs u).source ≠ some op.target ∧ ∀ other ∈ source op, (s.pcs u).target ≠ some other
  | _, _ => True

/-- No count becomes the mark. -/
def Spare [DecidableEq Var] (s : Except Fault (Machine Thread Var)) (action : Action Thread Var) :
    Prop :=
  match s, action with
  | .ok s, .step t => HasSpareCount s t
  | _, _ => True

instance [DecidableEq Var] [Fintype Thread] (s : Except Fault (Machine Thread Var))
    (action : Action Thread Var) : Decidable (Exclusive s action) := by
  unfold Exclusive
  split <;> infer_instance

instance [DecidableEq Var] (s : Except Fault (Machine Thread Var)) (action : Action Thread Var) :
    Decidable (Spare s action) := by
  unfold Spare HasSpareCount
  split
  · split <;> infer_instance
  · infer_instance

/-! ## Calls -/

variable [DecidableEq Var] [DecidableEq Thread] {s : Machine Thread Var} {t : Thread}

omit [DecidableEq Thread] in
theorem Coherent.call_ok (h : s.Coherent) {op : Op Var} (hlegal : op.Legal s.memory)
    {result : Except Fault (Pc Var)} (hcall : Pc.call s.memory op = some result) :
    ∃ pc, result = .ok pc ∧ pc.Ok s.memory s.texts ∧ pc.target = some op.target ∧
      pc.source = source op ∧ pc.doomed = none := by
  have hmodify : ∀ x change, x ∈ s.memory.vars.live → ∃ pc, Pc.modify s.memory x change = .ok pc ∧
      pc.Ok s.memory s.texts ∧ pc.target = some x ∧ pc.source = none ∧ pc.doomed = none := by
    intro x change hx
    obtain ⟨d, hd, htext, hfits, -⟩ := h.owned hx
    refine ⟨.unique x (d.size + change.growth) change, bind_deref hd _, ⟨hx, fun str hstr => ?_⟩, rfl,
      rfl, rfl⟩
    obtain rfl := Option.some.inj (htext.symm.trans hstr)
    rw [hfits.length_text]
  cases op with
  | construct x => exact ⟨_, (Option.some.inj hcall).symm, hlegal, rfl, rfl, rfl⟩
  | constructText x str => exact ⟨_, (Option.some.inj hcall).symm, hlegal, rfl, rfl, rfl⟩
  | constructCString x str => exact ⟨_, (Option.some.inj hcall).symm, hlegal, rfl, rfl, rfl⟩
  | copy x other => exact ⟨_, (Option.some.inj hcall).symm, hlegal, rfl, rfl, rfl⟩
  | append x str => exact Option.some.inj hcall ▸ hmodify x (.append str) hlegal
  | appendCString x str => exact Option.some.inj hcall ▸ hmodify x (.append (cString str)) hlegal
  | set x pos ch => exact Option.some.inj hcall ▸ hmodify x (.set pos ch) hlegal.1
  | get x pos => exact Option.some.inj hcall ▸ hmodify x (.get pos) hlegal.1
  | destroy x => exact ⟨_, (Option.some.inj hcall).symm, ⟨hlegal, trivial⟩, rfl, rfl, rfl⟩
  | assign x other => cases hcall

theorem Coherent.call (h : s.Coherent) (hidle : s.pcs t = .idle) {op : Op Var} {pc : Pc Var}
    (hok : pc.Ok s.memory s.texts) (htarget : pc.target = some op.target)
    (hsource : pc.source = source op) (hdoomed : pc.doomed = none)
    (hexclusive : Exclusive (.ok s) (.call t op)) :
    Coherent { s with pcs := Function.update s.pcs t pc } := by
  have hself : Function.update s.pcs t pc t = pc := Function.update_self _ _ _
  have hother : ∀ u, u ≠ t → Function.update s.pcs t pc u = s.pcs u := fun u hu =>
    Function.update_of_ne hu _ _
  refine ⟨h.memory, fun x hx hfree => h.absent x hx fun u => ?_, fun u => ?_, fun u w x hu hw => ?_,
    ?_⟩
  · by_cases hu : u = t
    · rw [hu, hidle]
      nofun
    · rw [← hother u hu]
      exact hfree u
  · show (Function.update s.pcs t pc u).Ok s.memory s.texts
    by_cases hu : u = t
    · rw [hu, hself]
      exact hok
    · rw [hother u hu]
      exact h.ok u
  · show (Function.update s.pcs t pc w).target ≠ some x ∧ (Function.update s.pcs t pc w).source ≠ some x
    have htarget' : (Function.update s.pcs t pc u).target = some x := hu
    by_cases hut : u = t
    · rw [hut, hself, htarget] at htarget'
      rw [hother w (hut ▸ hw), ← htarget']
      exact ⟨(hexclusive w).1, (hexclusive w).2.1⟩
    · rw [hother u hut] at htarget'
      by_cases hwt : w = t
      · rw [hwt, hself, htarget, hsource]
        refine ⟨fun hx => (hexclusive u).1 ?_, fun hx => (hexclusive u).2.2 x hx htarget'⟩
        rw [htarget', hx]
      · rw [hother w hwt]
        exact h.apart u w x htarget' hw
  · have hsame : (fun u => (Function.update s.pcs t pc u).doomed) = fun u => (s.pcs u).doomed := by
      funext u
      by_cases hu : u = t
      · rw [hu, hself, hidle, hdoomed]
        rfl
      · rw [hother u hu]
    show Ledger _ _ fun u => (Function.update s.pcs t pc u).doomed
    rw [hsame]
    exact h.ledger

/-! ## All interleavings -/

/-- Nothing has gone wrong so far. -/
def Sound (s : Except Fault (Machine Thread Var)) : Prop := ∃ m, s = .ok m ∧ m.Coherent

theorem Sound.step {s s' : Except Fault (Machine Thread Var)} {action : Action Thread Var}
    (h : Sound s) (hexclusive : Exclusive s action) (hspare : Spare s action)
    (hstep : (threads Thread Var).step s action = some s') : Sound s' := by
  obtain ⟨m, rfl, hm⟩ := h
  cases action with
  | call t op =>
      obtain ⟨⟨hidle, hlegal⟩, hcall⟩ := Option.ite_none_right_eq_some.mp hstep
      obtain ⟨result, hresult, rfl⟩ := Option.map_eq_some_iff.mp hcall
      obtain ⟨pc, rfl, hok, htarget, hsource, hdoomed⟩ := hm.call_ok hlegal hresult
      exact ⟨_, rfl, hm.call hidle hok htarget hsource hdoomed hexclusive⟩
  | step t =>
      obtain ⟨-, heq⟩ := Option.ite_none_left_eq_some.mp hstep
      obtain ⟨o, ho, hkeeps⟩ := hm.exec hspare
      refine ⟨_, ?_, hm.after hkeeps⟩
      rw [← Option.some.inj heq]
      exact bind_ok ho _

/-- Variables show what independent strings show, writers are alone with their data, and data is
deleted once, behind its last owner. -/
structure Values (s : Machine Thread Var) : Prop where
  text_eq : ∀ x, (∀ t, (s.pcs t).target ≠ some x) → s.memory.text x = s.texts x
  sole_writer : ∀ t p, (s.pcs t).writes s.memory = some p →
    ∀ y ∈ s.memory.vars.of p, (s.pcs t).target = some y
  deleted_nodup : s.deleted.Nodup
  mem_deleted : ∀ p, p < s.memory.next →
    (p ∈ s.deleted ↔ s.memory.vars.of p = ∅ ∧ ∀ t, (s.pcs t).doomed ≠ some p)

omit [DecidableEq Thread] in
theorem Coherent.values (h : s.Coherent) : s.Values where
  text_eq x hfree := by
    rw [h.memory.text_eq x]
    by_cases hx : x ∈ s.memory.vars.live
    · exact shown_of_mem hx
    · rw [shown_of_notMem hx, h.absent x hx hfree]
  sole_writer t p hp y hy := by
    have hok := h.ok t
    cases hpc : s.pcs t with
    | reserve x n change =>
        rw [hpc] at hok hp
        rw [← Option.some.inj hp, show s.memory.vars.of (s.memory.vars.obj x) = {x} from hok.2.1] at hy
        rw [Finset.mem_singleton.mp hy]
        rfl
    | write x change =>
        rw [hpc] at hok hp
        rw [← Option.some.inj hp, show s.memory.vars.of (s.memory.vars.obj x) = {x} from hok.2.1] at hy
        rw [Finset.mem_singleton.mp hy]
        rfl
    | _ =>
        rw [hpc] at hp
        cases hp
  deleted_nodup := h.ledger.nodup
  mem_deleted p hp := by
    rw [← h.memory.freedOnce.mem_iff p hp, h.ledger.mem_iff p]
    constructor
    · intro hmem
      exact ⟨.inl hmem, fun t ht => h.ledger.pending t p ht hmem⟩
    · rintro ⟨hmem | ⟨t, ht⟩, hnone⟩
      · exact hmem
      · exact absurd ht (hnone t)

/-- Two threads leave their common data at the same time; the one that is second deletes it. -/
def leaving : List (Action Bool ℕ) :=
  [.call true (.constructText 0 (ascii "ab")), .step true, .call false (.copy 1 0), .step false,
    .step false, .step false, .call true (.append 0 (ascii "c")), .call false (.set 1 0 120),
    .step true, .step false, .step true, .step false, .step true, .step false, .step true,
    .step false, .step true, .step false, .step true, .step false, .step true, .step false,
    .step true, .step false, .step true, .step false, .call true (.copy 2 1), .step true,
    .step true, .call false (.destroy 1), .step false, .step false, .step false]

def one (m : Memory ℕ) (pc : Pc ℕ) (texts : ℕ → Option Bytes) : Machine Unit ℕ :=
  ⟨m, fun _ => pc, [], texts⟩

variable {m : Memory ℕ} {texts : ℕ → Option Bytes}

end Machine

end Eureka.RcString

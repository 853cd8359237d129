import Mathlib.Data.List.Basic
import Mathlib.Data.List.Nodup
import Mathlib.Logic.Function.Basic

/-!
# Lists of nodes in a memory

A memory is given by its `next` pointers.  `Chain next start nodes` says that
from the pointer `start` one comes along exactly these nodes, and then to the
null pointer.

* `Chain.nodup`: such a list is finite, so it has no cycle;
* `Chain.congr`: it does not depend on nodes that are not on it;
* `Chain.append_node`, `Chain.insert`: a node is linked in behind the last one, or between
  two others.
-/

namespace Eureka.LinkedList

variable {Addr : Type} {next next' : Addr → Option Addr} {start start' : Option Addr}
  {node last : Addr} {nodes nodes' : List Addr}

/-- The nodes from `start` on, up to a null pointer. -/
def Chain (next : Addr → Option Addr) : Option Addr → List Addr → Prop
  | start, [] => start = none
  | start, node :: nodes => start = some node ∧ Chain next (next node) nodes

@[simp] theorem chain_nil : Chain next start [] ↔ start = none := Iff.rfl

@[simp] theorem chain_cons :
    Chain next start (node :: nodes) ↔ start = some node ∧ Chain next (next node) nodes := Iff.rfl

theorem chain_none : Chain next none nodes ↔ nodes = [] := by
  cases nodes with
  | nil => exact iff_of_true rfl rfl
  | cons node nodes => exact iff_of_false (fun h => nomatch h.1) (List.cons_ne_nil _ _)

theorem Chain.exists_cons (h : Chain next (some node) nodes) :
    ∃ rest, nodes = node :: rest ∧ Chain next (next node) rest := by
  cases nodes with
  | nil => exact nomatch h
  | cons node' rest =>
      obtain ⟨hnode, hrest⟩ := h
      cases hnode
      exact ⟨rest, rfl, hrest⟩

theorem Chain.unique (h : Chain next start nodes) (h' : Chain next start nodes') :
    nodes = nodes' := by
  induction nodes generalizing start nodes' with
  | nil => exact (chain_none.mp (chain_nil.mp h ▸ h')).symm
  | cons node nodes ih =>
      obtain ⟨rfl, hnodes⟩ := h
      obtain ⟨rest, rfl, hrest⟩ := h'.exists_cons
      rw [ih hnodes hrest]

theorem Chain.suffix (h : Chain next start (nodes ++ node :: nodes')) :
    Chain next (some node) (node :: nodes') := by
  induction nodes generalizing start with
  | nil => exact ⟨rfl, h.2⟩
  | cons _ _ ih => exact ih h.2

/-- **No cycles.**  A node that came twice would have two different lists behind it. -/
theorem Chain.nodup (h : Chain next start nodes) : nodes.Nodup := by
  induction nodes generalizing start with
  | nil => exact List.nodup_nil
  | cons node nodes ih =>
      refine List.nodup_cons.mpr ⟨fun hmem => ?_, ih h.2⟩
      obtain ⟨before, behind, rfl⟩ := List.append_of_mem hmem
      have hfirst : Chain next (some node) (node :: (before ++ node :: behind)) := ⟨rfl, h.2⟩
      have hagain : Chain next (some node) (node :: behind) := h.2.suffix
      have hlength := congrArg List.length (hfirst.unique hagain)
      simp only [List.length_cons, List.length_append] at hlength
      omega

theorem Chain.congr (h : Chain next start nodes) (hnext : ∀ node ∈ nodes, next' node = next node) :
    Chain next' start nodes := by
  induction nodes generalizing start with
  | nil => exact h
  | cons node nodes ih =>
      refine ⟨h.1, ?_⟩
      rw [hnext node List.mem_cons_self]
      exact ih h.2 fun other hmem => hnext other (List.mem_cons_of_mem node hmem)

theorem Chain.next_last (h : Chain next start nodes) (hlast : nodes.getLast? = some last) :
    next last = none := by
  obtain ⟨init, rfl⟩ := List.getLast?_eq_some_iff.mp hlast
  exact h.suffix.2

theorem Chain.exists_split (h : Chain next start nodes) (hmem : node ∈ nodes)
    (hnext : next node = some last) :
    ∃ before after, nodes = before ++ node :: last :: after := by
  obtain ⟨before, behind, rfl⟩ := List.append_of_mem hmem
  have hbehind : Chain next (some last) behind := hnext ▸ h.suffix.2
  obtain ⟨after, rfl, -⟩ := hbehind.exists_cons
  exact ⟨before, after, rfl⟩

theorem Chain.getLast?_of_next (h : Chain next start nodes) (hmem : node ∈ nodes)
    (hnext : next node = none) : nodes.getLast? = some node := by
  obtain ⟨before, behind, rfl⟩ := List.append_of_mem hmem
  have hbehind : behind = [] := chain_none.mp (hnext ▸ h.suffix.2)
  rw [hbehind]
  simp

theorem Chain.next_ne_first (h : Chain next (some node) nodes) {other : Addr}
    (hother : other ∈ nodes) : next other ≠ some node := by
  intro hnext
  obtain ⟨before, after, hnodes⟩ := h.exists_split hother hnext
  obtain ⟨rest, hrest, -⟩ := h.exists_cons
  have hnodup : (node :: rest).Nodup := hrest ▸ h.nodup
  have hmem : node ∈ rest := by
    rw [hrest] at hnodes
    cases before with
    | nil =>
        obtain ⟨rfl, rfl⟩ := List.cons.inj hnodes
        exact List.mem_cons_self
    | cons _ before =>
        obtain ⟨rfl, rfl⟩ := List.cons.inj hnodes
        simp
  exact (List.nodup_cons.mp hnodup).1 hmem

theorem Chain.next_inj (h : Chain next start nodes) {other : Addr} (hmem : node ∈ nodes)
    (hother : other ∈ nodes) (hnext : next node = some last) (hnext' : next other = some last) :
    node = other := by
  induction nodes generalizing start with
  | nil => cases hmem
  | cons first rest ih =>
      obtain ⟨-, hrest⟩ := h
      rcases List.mem_cons.mp hmem with rfl | hmem' <;>
        rcases List.mem_cons.mp hother with rfl | hother'
      · rfl
      · exact absurd hnext' ((hnext ▸ hrest).next_ne_first hother')
      · exact absurd hnext ((hnext' ▸ hrest).next_ne_first hmem')
      · exact ih hrest hmem' hother'

theorem Chain.eq_singleton (h : Chain next (some node) nodes) (hnext : next node = none) :
    nodes = [node] := by
  obtain ⟨rest, rfl, hrest⟩ := h.exists_cons
  rw [hnext, chain_none] at hrest
  rw [hrest]

theorem Chain.push (h : Chain next start nodes) (hnode : next node = start) :
    Chain next (some node) (node :: nodes) :=
  ⟨rfl, hnode ▸ h⟩

section Update

variable [DecidableEq Addr]

theorem Chain.append_node (h : Chain next start nodes) (hlast : nodes.getLast? = some last)
    (hnode : node ∉ nodes) (hnext : next node = none) :
    Chain (Function.update next last (some node)) start (nodes ++ [node]) := by
  have hnext' : Function.update next last (some node) node = none := by
    rw [Function.update_of_ne _, hnext]
    rintro rfl
    exact hnode (List.mem_of_getLast? hlast)
  induction nodes generalizing start with
  | nil => cases hlast
  | cons first rest ih =>
      obtain ⟨rfl, hrest⟩ := h
      refine ⟨rfl, ?_⟩
      cases rest with
      | nil =>
          -- the last node is the one that is written
          obtain rfl : first = last := Option.some.inj hlast
          rw [Function.update_self]
          exact ⟨rfl, hnext'⟩
      | cons second rest =>
          rw [List.getLast?_cons_cons] at hlast
          have hfirst : first ≠ last := by
            rintro rfl
            have hnodup : (first :: second :: rest).Nodup := Chain.nodup ⟨rfl, hrest⟩
            exact (List.nodup_cons.mp hnodup).1 (List.mem_of_getLast? hlast)
          rw [Function.update_of_ne hfirst]
          exact ih hrest hlast fun hmem => hnode (List.mem_cons_of_mem first hmem)

theorem Chain.insert {before after : List Addr}
    (h : Chain next start (before ++ node :: last :: after)) {new : Addr}
    (hnew : new ∉ before ++ node :: last :: after) (hnext : next new = some last) :
    Chain (Function.update next node (some new)) start
      (before ++ node :: new :: last :: after) := by
  induction before generalizing start with
  | nil =>
      obtain ⟨rfl, hrest⟩ := h
      have hnode : node ∉ last :: after := (List.nodup_cons.mp (Chain.nodup ⟨rfl, hrest⟩)).1
      have hnewnode : new ≠ node := fun heq => hnew (by simp [heq])
      refine ⟨rfl, ?_, ?_⟩
      · exact Function.update_self ..
      · rw [Function.update_of_ne hnewnode, hnext]
        obtain ⟨hlast, hafter⟩ := hrest
        have hbehind : Chain next (some last) (last :: after) := ⟨rfl, hafter⟩
        refine hbehind.congr fun other hother => Function.update_of_ne ?_ _ _
        rintro rfl
        exact hnode hother
  | cons first before ih =>
      obtain ⟨rfl, hrest⟩ := h
      have hnodup : (first :: (before ++ node :: last :: after)).Nodup := Chain.nodup ⟨rfl, hrest⟩
      have hfirst : first ≠ node := by
        rintro rfl
        exact (List.nodup_cons.mp hnodup).1 (by simp)
      refine ⟨rfl, ?_⟩
      change Chain (Function.update next node (some new))
        (Function.update next node (some new) first) (before ++ node :: new :: last :: after)
      rw [Function.update_of_ne hfirst]
      exact ih hrest fun hmem => hnew (List.mem_cons_of_mem first hmem)

end Update

end Eureka.LinkedList

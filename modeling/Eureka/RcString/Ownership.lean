import Mathlib
import Eureka.RcString.Strings

/-!
# Who owns string data

The count of data that is shared is the number of the variables that point to
it, and data with the mark has one owner.  Every operation is one of a few
changes of one or two addresses:

* **Writing** to data with a single owner (`Inv.put_sole`), which no other
  variable can see.
* **New data** for a new variable (`Inv.allocate`), or for one that leaves the
  data it shared (`Inv.unshare`).
* **Sharing** (`Inv.share`), where the count must not run into the mark.
* **Leaving** by the end of a variable (`Inv.drop`), the last one deleting the
  data.

`Inv.makeUnique` and `Inv.prepareToModify` put the changes of the mutable
operations together.
-/

namespace Eureka.RcString

variable {Var : Type}

/-- The count of data that has `n` owners. -/
def Counts (d : StringData) (n : ℕ) : Prop :=
  (d.refCount = kUnsharedRefMark ∧ n = 1) ∨ (d.refCount = n ∧ 0 < n ∧ n < kUnsharedRefMark)

theorem Counts.pos {d : StringData} {n : ℕ} (h : Counts d n) : 0 < n ∧ 0 < d.refCount := by
  obtain ⟨hcount, rfl⟩ | ⟨hcount, hpos, -⟩ := h
  · rw [hcount]
    exact ⟨Nat.one_pos, by decide⟩
  · omega

theorem Counts.unique_iff {d : StringData} {n : ℕ} (h : Counts d n) : d.unique = true ↔ n = 1 := by
  rw [StringData.unique_iff]
  obtain ⟨hcount, rfl⟩ | ⟨hcount, hpos, hlt⟩ := h
  · exact iff_of_true (.inr hcount) rfl
  · omega

theorem counts_one {d : StringData} (h : d.refCount = 1 ∨ d.refCount = kUnsharedRefMark) :
    Counts d 1 := by
  obtain hone | hmark := h
  · exact .inr ⟨hone, Nat.one_pos, by decide⟩
  · exact .inl ⟨hmark, rfl⟩

/-- What is at an address whose owners are to show these texts. -/
def CellOk (texts : Var → Option Bytes) (cell : Option StringData) (owners : Finset Var) : Prop :=
  match cell with
  | none => owners = ∅
  | some d => d.Fits ∧ Counts d owners.card ∧ ∀ x ∈ owners, texts x = some d.text

theorem CellOk.congr {texts texts' : Var → Option Bytes} {cell : Option StringData}
    {owners : Finset Var} (h : CellOk texts cell owners)
    (hsame : ∀ x ∈ owners, texts' x = texts x) : CellOk texts' cell owners := by
  cases cell with
  | none => exact h
  | some d => exact ⟨h.1, h.2.1, fun x hx => (hsame x hx).trans (h.2.2 x hx)⟩

/-- Every address is fresh, in use or deleted, and deleted once. -/
structure Shape (m : Memory Var) : Prop where
  fresh : ∀ p, m.next ≤ p → m.heap p = none
  deleted_nodup : m.deleted.Nodup
  mem_deleted : ∀ p, p ∈ m.deleted ↔ p < m.next ∧ m.heap p = none

/-- The state of a program whose variables show `texts`. -/
structure Inv (m : Memory Var) (texts : Var → Option Bytes) : Prop extends Shape m where
  cell : ∀ p, CellOk texts (m.heap p) (m.vars.of p)
  dead : ∀ x, x ∉ m.vars.live → texts x = none

theorem inv_initial : Inv (Memory.initial : Memory Var) fun _ => none where
  cell _ := rfl
  fresh _ _ := rfl
  dead _ _ := rfl
  deleted_nodup := List.nodup_nil
  mem_deleted p := by simp [Memory.initial]

namespace Shape

variable {m : Memory Var} {p : ℕ} {d : StringData}

theorem lt_next (h : Shape m) (hd : m.heap p = some d) : p < m.next := by
  by_contra hge
  exact nomatch hd.symm.trans (h.fresh p (not_lt.mp hge))

theorem put (h : Shape m) (hd : m.heap p = some d) (e : StringData) : Shape (m.put p e) := by
  have hlt := h.lt_next hd
  refine ⟨fun q hq => ?_, h.deleted_nodup, fun q => ?_⟩
  · show Function.update m.heap p (some e) q = none
    rw [Function.update_of_ne (hlt.trans_le hq).ne']
    exact h.fresh q hq
  · show q ∈ m.deleted ↔ q < m.next ∧ Function.update m.heap p (some e) q = none
    rw [h.mem_deleted]
    by_cases hqp : q = p
    · rw [hqp, Function.update_self, hd]
      simp
    · rw [Function.update_of_ne hqp]

variable [DecidableEq Var]

theorem allocate (h : Shape m) (x : Var) (e : StringData) : Shape (m.allocate x e) := by
  refine ⟨fun q hq => ?_, h.deleted_nodup, fun q => ?_⟩
  · have hlt : m.next < q := hq
    show Function.update m.heap m.next (some e) q = none
    rw [Function.update_of_ne hlt.ne']
    exact h.fresh q hlt.le
  · show q ∈ m.deleted ↔ q < m.next + 1 ∧ Function.update m.heap m.next (some e) q = none
    rw [h.mem_deleted]
    by_cases hq : q = m.next
    · rw [hq, Function.update_self]
      simp
    · rw [Function.update_of_ne hq]
      exact and_congr_left fun _ => by omega

omit [DecidableEq Var] in
theorem delete (h : Shape m) (hd : m.heap p = some d) :
    Shape { m with heap := Function.update m.heap p none, deleted := m.deleted ++ [p] } := by
  have hlt := h.lt_next hd
  have hnew : p ∉ m.deleted := fun hmem => nomatch hd.symm.trans ((h.mem_deleted p).mp hmem).2
  refine ⟨fun q hq => ?_, ?_, fun q => ?_⟩
  · show Function.update m.heap p none q = none
    rw [Function.update_of_ne (hlt.trans_le hq).ne']
    exact h.fresh q hq
  · exact h.deleted_nodup.append (List.nodup_singleton p) (by simpa using hnew)
  · show q ∈ m.deleted ++ [p] ↔ q < m.next ∧ Function.update m.heap p none q = none
    rw [List.mem_append, List.mem_singleton, h.mem_deleted]
    by_cases hqp : q = p
    · rw [hqp, Function.update_self]
      simp [hlt]
    · rw [Function.update_of_ne hqp]
      simp [hqp]

end Shape

namespace Inv

variable {m : Memory Var} {texts : Var → Option Bytes} {x y : Var} {p : ℕ} {d e : StringData}

theorem of_fresh (h : Inv m texts) : m.vars.of m.next = ∅ := by
  have hcell := h.cell m.next
  rw [h.fresh m.next (le_refl _)] at hcell
  exact hcell

theorem cell_some (h : Inv m texts) (hd : m.heap p = some d) :
    d.Fits ∧ Counts d (m.vars.of p).card ∧ ∀ x ∈ m.vars.of p, texts x = some d.text := by
  have hcell := h.cell p
  rw [hd] at hcell
  exact hcell

theorem owned (h : Inv m texts) (hx : x ∈ m.vars.live) :
    ∃ d, m.heap (m.vars.obj x) = some d ∧ texts x = some d.text := by
  have hmem : x ∈ m.vars.of (m.vars.obj x) := Owners.mem_of.mpr ⟨hx, rfl⟩
  have hcell := h.cell (m.vars.obj x)
  cases hheap : m.heap (m.vars.obj x) with
  | none =>
      rw [hheap] at hcell
      rw [show m.vars.of (m.vars.obj x) = ∅ from hcell] at hmem
      exact absurd hmem (Finset.notMem_empty _)
  | some d => exact ⟨d, rfl, (h.cell_some hheap).2.2 x hmem⟩

theorem cell_update [DecidableEq Var] (h : Inv m texts) (hx : x ∉ m.vars.of p)
    (text : Option Bytes) : CellOk (Function.update texts x text) (m.heap p) (m.vars.of p) := by
  refine (h.cell p).congr fun y hy => Function.update_of_ne ?_ _ _
  rintro rfl
  exact hx hy

variable [DecidableEq Var]

theorem text_eq (h : Inv m texts) (x : Var) : m.text x = texts x := by
  unfold Memory.text
  by_cases hx : x ∈ m.vars.live
  · obtain ⟨d, hd, htext⟩ := h.owned hx
    rw [Owners.find_eq_some_iff.mpr ⟨hx, rfl⟩, htext]
    show (m.heap (m.vars.obj x)).bind _ = _
    rw [hd]
    rfl
  · rw [Owners.find_eq_none_iff.mpr hx, h.dead x hx]
    rfl

theorem dead_update (h : Inv m texts) (hx : x ∈ m.vars.live) (text : Option Bytes) :
    ∀ y, y ∉ m.vars.live → Function.update texts x text y = none := by
  intro y hy
  rw [Function.update_of_ne (by rintro rfl; exact hy hx)]
  exact h.dead y hy

/-! ### Changes of memory -/

theorem put_sole (h : Inv m texts) (hp : m.vars.of p = {x}) (he : e.Fits)
    (hcount : e.refCount = 1 ∨ e.refCount = kUnsharedRefMark) :
    Inv (m.put p e) (Function.update texts x (some e.text)) := by
  obtain ⟨hx, rfl⟩ := Owners.mem_of.mp (hp ▸ Finset.mem_singleton_self x)
  obtain ⟨d, hd, -⟩ := h.owned hx
  refine ⟨h.toShape.put hd e, fun q => ?_, h.dead_update hx _⟩
  show CellOk _ (Function.update m.heap (m.vars.obj x) (some e) q) (m.vars.of q)
  by_cases hq : q = m.vars.obj x
  · rw [hq, Function.update_self, hp]
    refine ⟨he, counts_one hcount, fun y hy => ?_⟩
    rw [Finset.mem_singleton.mp hy, Function.update_self]
  · rw [Function.update_of_ne hq]
    exact h.cell_update (fun hmem => hq (Owners.mem_of.mp hmem).2.symm) _

theorem allocate (h : Inv m texts) (hx : x ∉ m.vars.live) (he : e.Fits) (hcount : e.refCount = 1) :
    Inv (m.allocate x e) (Function.update texts x (some e.text)) := by
  refine ⟨h.toShape.allocate x e, fun q => ?_, fun y hy => ?_⟩
  · show CellOk _ (Function.update m.heap m.next (some e) q) ((m.vars.acquire x m.next).of q)
    by_cases hq : q = m.next
    · rw [hq, Function.update_self, Owners.of_acquire_self, h.of_fresh]
      refine ⟨he, counts_one (.inl hcount), fun y hy => ?_⟩
      obtain rfl : y = x := by simpa using hy
      exact Function.update_self _ _ _
    · have hnot : x ∉ m.vars.of q := fun hmem => hx (Owners.mem_of.mp hmem).1
      rw [Function.update_of_ne hq, Owners.of_acquire_of_ne hq, Finset.erase_eq_of_notMem hnot]
      exact h.cell_update hnot _
  · have hy' : y ∉ insert x m.vars.live := hy
    rw [Finset.mem_insert, not_or] at hy'
    rw [Function.update_of_ne hy'.1]
    exact h.dead y hy'.2

theorem share (h : Inv m texts) (hx : x ∉ m.vars.live) (hd : m.heap p = some d)
    (hshared : d.refCount ≠ kUnsharedRefMark) (hroom : d.refCount + 1 < kUnsharedRefMark) :
    Inv ((m.put p { d with refCount := d.refCount + 1 }).point x p)
      (Function.update texts x (some d.text)) := by
  obtain ⟨hfits, hcounts, htexts⟩ := h.cell_some hd
  have hnot : ∀ q, x ∉ m.vars.of q := fun q hmem => hx (Owners.mem_of.mp hmem).1
  have hshape := h.toShape.put hd { d with refCount := d.refCount + 1 }
  refine ⟨⟨hshape.fresh, hshape.deleted_nodup, hshape.mem_deleted⟩, fun q => ?_, fun y hy => ?_⟩
  · show CellOk _ (Function.update m.heap p (some _) q) ((m.vars.acquire x p).of q)
    by_cases hq : q = p
    · rw [hq, Function.update_self, Owners.of_acquire_self]
      refine ⟨hfits, ?_, fun y hy => ?_⟩
      · rw [Finset.card_insert_of_notMem (hnot p)]
        obtain ⟨hmark, -⟩ | ⟨hcount, -, -⟩ := hcounts
        · exact absurd hmark hshared
        · exact .inr ⟨congrArg (· + 1) hcount, Nat.succ_pos _, hcount ▸ hroom⟩
      · obtain rfl | hmem := Finset.mem_insert.mp hy
        · exact Function.update_self _ _ _
        · rw [Function.update_of_ne (by rintro rfl; exact hnot p hmem)]
          exact htexts y hmem
    · rw [Function.update_of_ne hq, Owners.of_acquire_of_ne hq, Finset.erase_eq_of_notMem (hnot q)]
      exact h.cell_update (hnot q) _
  · have hy' : y ∉ insert x m.vars.live := hy
    rw [Finset.mem_insert, not_or] at hy'
    rw [Function.update_of_ne hy'.1]
    exact h.dead y hy'.2

theorem counts_release (h : Inv m texts) (hx : x ∈ m.vars.of p) (hd : m.heap p = some d)
    (hcard : (m.vars.of p).card ≠ 1) :
    Counts { d with refCount := d.refCount - 1 } ((m.vars.of p).erase x).card := by
  have hpos := Finset.card_pos.mpr ⟨x, hx⟩
  obtain ⟨-, hone⟩ | ⟨hcount, -, hlt⟩ := (h.cell_some hd).2.1
  · exact absurd hone hcard
  · rw [Finset.card_erase_of_mem hx, ← hcount]
    exact .inr ⟨rfl, by omega, by omega⟩

theorem unshare (h : Inv m texts) (hx : x ∈ m.vars.of p) (hd : m.heap p = some d)
    (hcard : (m.vars.of p).card ≠ 1) (he : e.Fits) (hcount : e.refCount = 1)
    (htext : e.text = d.text) :
    Inv ((m.put p { d with refCount := d.refCount - 1 }).allocate x e) texts := by
  obtain ⟨hfits, hcounts, htexts⟩ := h.cell_some hd
  have hlive := (Owners.mem_of.mp hx).1
  have hlt := h.lt_next hd
  refine ⟨(h.toShape.put hd _).allocate x e, fun q => ?_, fun y hy => ?_⟩
  · show CellOk _ (Function.update (Function.update m.heap p _) m.next _ q)
      ((m.vars.acquire x m.next).of q)
    by_cases hq : q = m.next
    · rw [hq, Function.update_self, Owners.of_acquire_self, h.of_fresh]
      refine ⟨he, counts_one (.inl hcount), fun y hy => ?_⟩
      obtain rfl : y = x := by simpa using hy
      rw [htexts y hx, htext]
    · rw [Function.update_of_ne hq, Owners.of_acquire_of_ne hq]
      by_cases hqp : q = p
      · rw [hqp, Function.update_self]
        exact ⟨hfits, h.counts_release hx hd hcard, fun y hy => htexts y (Finset.mem_of_mem_erase hy)⟩
      · have hnot : x ∉ m.vars.of q := fun hmem =>
          hqp ((Owners.mem_of.mp hmem).2.symm.trans (Owners.mem_of.mp hx).2)
        rw [Function.update_of_ne hqp, Finset.erase_eq_of_notMem hnot]
        exact h.cell q
  · have hy' : y ∉ insert x m.vars.live := hy
    rw [Finset.insert_eq_of_mem hlive] at hy'
    exact h.dead y hy'

theorem dead_drop (h : Inv m texts) :
    ∀ y, y ∉ (m.vars.drop x).live → Function.update texts x none y = none := by
  intro y hy
  by_cases hyx : y = x
  · rw [hyx, Function.update_self]
  · rw [Function.update_of_ne hyx]
    exact h.dead y fun hmem => hy (Finset.mem_erase.mpr ⟨hyx, hmem⟩)

theorem drop_shared (h : Inv m texts) (hx : x ∈ m.vars.of p) (hd : m.heap p = some d)
    (hcard : (m.vars.of p).card ≠ 1) :
    Inv { m.put p { d with refCount := d.refCount - 1 } with vars := m.vars.drop x }
      (Function.update texts x none) := by
  obtain ⟨hfits, hcounts, htexts⟩ := h.cell_some hd
  have hshape := h.toShape.put hd { d with refCount := d.refCount - 1 }
  refine ⟨⟨hshape.fresh, hshape.deleted_nodup, hshape.mem_deleted⟩, fun q => ?_, h.dead_drop⟩
  show CellOk _ (Function.update m.heap p (some _) q) ((m.vars.drop x).of q)
  rw [Owners.of_drop]
  by_cases hq : q = p
  · rw [hq, Function.update_self]
    refine ⟨hfits, h.counts_release hx hd hcard, fun y hy => ?_⟩
    obtain ⟨hne, hy⟩ := Finset.mem_erase.mp hy
    rw [Function.update_of_ne hne]
    exact htexts y hy
  · have hnot : x ∉ m.vars.of q := fun hmem =>
      hq ((Owners.mem_of.mp hmem).2.symm.trans (Owners.mem_of.mp hx).2)
    rw [Function.update_of_ne hq, Finset.erase_eq_of_notMem hnot]
    exact h.cell_update hnot _

theorem drop_sole (h : Inv m texts) (hp : m.vars.of p = {x}) (hd : m.heap p = some d) :
    Inv { m with
      heap := Function.update m.heap p none
      vars := m.vars.drop x
      deleted := m.deleted ++ [p] } (Function.update texts x none) := by
  have hshape := h.toShape.delete hd
  refine ⟨⟨hshape.fresh, hshape.deleted_nodup, hshape.mem_deleted⟩, fun q => ?_, h.dead_drop⟩
  show CellOk _ (Function.update m.heap p none q) ((m.vars.drop x).of q)
  rw [Owners.of_drop]
  by_cases hq : q = p
  · rw [hq, Function.update_self, hp, Finset.erase_singleton]
    rfl
  · have hx : x ∈ m.vars.of p := hp ▸ Finset.mem_singleton_self x
    have hnot : x ∉ m.vars.of q := fun hmem =>
      hq ((Owners.mem_of.mp hmem).2.symm.trans (Owners.mem_of.mp hx).2)
    rw [Function.update_of_ne hq, Finset.erase_eq_of_notMem hnot]
    exact h.cell_update hnot _

theorem assign_same (h : Inv m texts) (hx : x ∈ m.vars.live) (hy : y ∈ m.vars.live)
    (hsame : m.vars.obj x = m.vars.obj y) :
    Inv (m.assign x y) (Function.update texts x (texts y)) := by
  have hmem : x ∈ m.vars.of (m.vars.obj y) := Owners.mem_of.mpr ⟨hx, hsame⟩
  obtain ⟨d, hd, htext⟩ := h.owned hy
  have htexts : Function.update texts x (texts y) = texts := by
    rw [Function.update_eq_self_iff, htext, (h.cell_some hd).2.2 x hmem]
  rw [htexts]
  refine ⟨⟨h.fresh, h.deleted_nodup, h.mem_deleted⟩, fun q => ?_, fun z hz => ?_⟩
  · show CellOk _ (m.heap q) ((m.vars.acquire x (m.vars.obj y)).of q)
    rw [Owners.of_acquire_of_mem hmem]
    exact h.cell q
  · have hz' : z ∉ insert x m.vars.live := hz
    rw [Finset.insert_eq_of_mem hx] at hz'
    exact h.dead z hz'

end Inv

end Eureka.RcString

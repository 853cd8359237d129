import Mathlib
import Eureka.RcString.Ownership

/-!
# Strings as values

Every operation of a program keeps the invariant, with the texts that the
operation leaves on independent strings (`exec_spec`).  There are two ways for
a program to leave it:

* **The count runs into the mark.**  A copy of data with `2 ^ 32 - 2` owners
  makes the count the mark, and the data is taken for unshared.
* **Assignment.**  The operator of the compiler neither releases the data of its
  left side nor counts the new owner of the other.

`always_values` and `always_owned` are about the programs that do neither;
`values_overflow` and `owners_assigned` about one of each kind.
-/

namespace Eureka.RcString

open Transition

variable {Var : Type} [DecidableEq Var]

/-- The variable has this data, and no other variable has. -/
structure Sole (m : Memory Var) (x : Var) (d : StringData) : Prop where
  heap : m.heap (m.vars.obj x) = some d
  of : m.vars.of (m.vars.obj x) = {x}

namespace Memory

theorem construct_eq (m : Memory Var) (x : Var) :
    ∃ e : StringData, m.construct x = .ok (m.allocate x e) ∧ e.Fits ∧ e.text = [] ∧
      e.refCount = 1 := by
  obtain ⟨d, hd, hfits, htext, -, -, hcount⟩ := StringData.construct_spec kBaseSize
  refine ⟨d, ?_, hfits, htext, hcount⟩
  unfold construct
  rw [hd]
  rfl

theorem constructText_eq (m : Memory Var) (x : Var) (str : Bytes) :
    ∃ e : StringData, m.constructText x str = .ok (m.allocate x e) ∧ e.Fits ∧ e.text = str ∧
      e.refCount = 1 := by
  obtain ⟨d, hd, hfits, htext, hsize, hle, hcount⟩ := StringData.construct_spec str.length
  obtain ⟨e, hcopy, hefits, hetext, -, hecount⟩ := StringData.copyData_spec hfits
    (StringData.unique_iff.mpr (.inl hcount)) (by rw [hsize, Nat.zero_add]; exact hle)
  rw [htext, List.nil_append] at hetext
  rw [hsize] at hcopy
  refine ⟨e, ?_, hefits, hetext, hecount.trans hcount⟩
  unfold constructText
  rw [hd]
  dsimp only [bind, Except.bind]
  rw [hcopy]
  rfl

end Memory

namespace Inv

variable {m : Memory Var} {texts : Var → Option Bytes} {x y : Var} {p : ℕ} {d e : StringData}

omit [DecidableEq Var] in
theorem deref_eq (hd : m.heap p = some d) : m.deref p = .ok d := by
  unfold Memory.deref
  rw [hd]

/-! ### Changing a text -/

theorem makeUnique (h : Inv m texts) (hx : x ∈ m.vars.live) (n : ℕ) :
    ∃ m' d, m.makeUnique x n = .ok m' ∧ Inv m' texts ∧ Sole m' x d ∧ n ≤ d.capacity ∧
      d.unique = true := by
  obtain ⟨d, hd, htext⟩ := h.owned hx
  obtain ⟨hfits, hcounts, -⟩ := h.cell_some hd
  have hmem : x ∈ m.vars.of (m.vars.obj x) := Owners.mem_of.mpr ⟨hx, rfl⟩
  unfold Memory.makeUnique
  dsimp only
  rw [deref_eq hd]
  by_cases hunique : d.unique = true
  · obtain ⟨e, hreserve, hefits, hetext, -, hle, hcount⟩ := StringData.reserve_spec hfits n
    have hof : m.vars.of (m.vars.obj x) = {x} :=
      Owners.of_eq_singleton (hcounts.unique_iff.mp hunique) hmem
    have hrefs : e.refCount = 1 ∨ e.refCount = kUnsharedRefMark := by
      rw [hcount]
      exact StringData.unique_iff.mp hunique
    have hinv := h.put_sole hof hefits hrefs
    rw [hetext, Function.update_eq_self_iff.mpr htext.symm] at hinv
    refine ⟨_, e, ?_, hinv, ⟨Function.update_self _ _ _, hof⟩, hle, StringData.unique_iff.mpr hrefs⟩
    show (if d.unique then _ else _) = _
    rw [if_pos hunique, hreserve]
    rfl
  · obtain ⟨e, hclone, hefits, hetext, hle, hcount⟩ := StringData.clone_spec hfits n
    have hcard : (m.vars.of (m.vars.obj x)).card ≠ 1 := fun hone =>
      hunique (hcounts.unique_iff.mpr hone)
    have hshared : ¬ d.unsharedable = true := fun hmark =>
      hunique (StringData.unique_iff.mpr (.inr (StringData.unsharedable_iff.mp hmark)))
    refine ⟨_, e, ?_, h.unshare hmem hd hcard hefits hcount hetext, ⟨?_, ?_⟩, hle,
      StringData.unique_iff.mpr (.inl hcount)⟩
    · show (if d.unique then _ else _) = _
      rw [if_neg hunique, hclone]
      have hrelease : d.release = .ok (d.refCount - 1 = 0, { d with refCount := d.refCount - 1 }) := by
        unfold StringData.release
        rw [if_pos hcounts.pos.2, if_neg hshared]
      dsimp only [bind, Except.bind]
      rw [hrelease]
      rfl
    · show (Function.update (Function.update m.heap _ _) m.next (some e) : ℕ → Option StringData)
        ((m.vars.acquire x m.next).obj x) = some e
      rw [Owners.obj_acquire_self, Function.update_self]
    · show (m.vars.acquire x m.next).of ((m.vars.acquire x m.next).obj x) = {x}
      rw [Owners.obj_acquire_self, Owners.of_acquire_self, h.of_fresh]
      rfl

theorem prepareToModify (h : Inv m texts) (hx : x ∈ m.vars.live) (n : ℕ) (makeUnsharable : Bool) :
    ∃ m' d, m.prepareToModify x n makeUnsharable = .ok m' ∧ Inv m' texts ∧ Sole m' x d ∧
      n ≤ d.capacity ∧ d.unique = true := by
  obtain ⟨m', d, hmake, hinv, hsole, hle, hunique⟩ := h.makeUnique hx n
  obtain ⟨hx', -⟩ := Owners.mem_of.mp (hsole.of ▸ Finset.mem_singleton_self x)
  have hmark : ∃ e : StringData, (if makeUnsharable then d.makeUnsharedable else d.resetSharedable) =
      .ok e ∧ e.toContent = d.toContent ∧ (e.refCount = 1 ∨ e.refCount = kUnsharedRefMark) := by
    cases makeUnsharable with
    | true => exact ⟨_, if_pos hunique, rfl, .inr rfl⟩
    | false => exact ⟨_, if_pos hunique, rfl, .inl rfl⟩
  obtain ⟨e, he, hcontent, hrefs⟩ := hmark
  have hput := hinv.put_sole hsole.of (hcontent ▸ (hinv.cell_some hsole.heap).1) hrefs
  have htext : texts x = some d.text := (hinv.cell_some hsole.heap).2.2 x
    (Owners.mem_of.mpr ⟨hx', rfl⟩)
  rw [hcontent, Function.update_eq_self_iff.mpr htext.symm] at hput
  refine ⟨_, e, ?_, hput, ⟨Function.update_self _ _ _, hsole.of⟩, hcontent ▸ hle,
    StringData.unique_iff.mpr hrefs⟩
  unfold Memory.prepareToModify
  rw [hmake]
  dsimp only [bind, Except.bind]
  rw [deref_eq hsole.heap]
  dsimp only
  rw [he]
  rfl

theorem put_text (h : Inv m texts) (hsole : Sole m x d) (he : e.Fits)
    (hcount : e.refCount = d.refCount) (hunique : d.unique = true) :
    Inv (m.put (m.vars.obj x) e) (Function.update texts x (some e.text)) := by
  apply h.put_sole hsole.of he
  rw [hcount]
  exact StringData.unique_iff.mp hunique

omit [DecidableEq Var] in
theorem text_of_sole (h : Inv m texts) (hsole : Sole m x d) : texts x = some d.text :=
  (h.cell_some hsole.heap).2.2 x (hsole.of ▸ Finset.mem_singleton_self x)

theorem append (h : Inv m texts) (hx : x ∈ m.vars.live) (str : Bytes) :
    ∃ m', m.append x str = .ok m' ∧ Inv m' (Function.update texts x ((texts x).map (· ++ str))) := by
  obtain ⟨d, hd, htext⟩ := h.owned hx
  obtain ⟨hfits, -, -⟩ := h.cell_some hd
  obtain ⟨m', d', hprepare, hinv, hsole, hle, hunique⟩ :=
    h.prepareToModify hx (d.size + str.length) false
  have hfits' := (hinv.cell_some hsole.heap).1
  have htext' : d'.text = d.text :=
    Option.some.inj ((hinv.text_of_sole hsole).symm.trans htext)
  have hsize : d'.size = d.size := by
    rw [← hfits'.length_text, htext', hfits.length_text]
  obtain ⟨e, hcopy, hefits, hetext, -, hcount⟩ :=
    StringData.copyData_spec hfits' hunique (hsize.symm ▸ hle)
  have hput := hinv.put_text hsole hefits hcount hunique
  rw [hetext, htext'] at hput
  rw [htext]
  refine ⟨_, ?_, hput⟩
  unfold Memory.append
  rw [deref_eq hd]
  dsimp only [bind, Except.bind]
  rw [hprepare]
  dsimp only
  rw [deref_eq hsole.heap]
  dsimp only
  rw [hcopy]
  rfl

theorem subscript (h : Inv m texts) (hx : x ∈ m.vars.live) :
    ∃ m' d, m.subscript x = .ok m' ∧ Inv m' texts ∧ Sole m' x d ∧ d.unique = true := by
  obtain ⟨d, hd, -⟩ := h.owned hx
  obtain ⟨m', d', hprepare, hinv, hsole, -, hunique⟩ := h.prepareToModify hx d.size true
  refine ⟨m', d', ?_, hinv, hsole, hunique⟩
  unfold Memory.subscript
  rw [deref_eq hd]
  exact hprepare

theorem set (h : Inv m texts) (hx : x ∈ m.vars.live) (pos : ℕ) (ch : Byte) :
    ∃ m', m.set x pos ch = .ok m' ∧
      Inv m' (Function.update texts x ((texts x).map (·.set pos ch))) := by
  obtain ⟨m', d, hsubscript, hinv, hsole, hunique⟩ := h.subscript hx
  have hfits := (hinv.cell_some hsole.heap).1
  have htext := hinv.text_of_sole hsole
  have hput := hinv.put_text (e := ⟨d.toContent.set pos ch, d.refCount⟩) hsole
    (hfits.set pos ch) rfl hunique
  rw [d.toContent.text_set] at hput
  rw [htext]
  refine ⟨_, ?_, hput⟩
  unfold Memory.set
  rw [hsubscript]
  dsimp only [bind, Except.bind]
  rw [deref_eq hsole.heap]
  rfl

/-! ### Beginning and ending -/

theorem construct (h : Inv m texts) (hx : x ∉ m.vars.live) :
    ∃ m', m.construct x = .ok m' ∧ Inv m' (Function.update texts x (some [])) := by
  obtain ⟨e, he, hfits, htext, hcount⟩ := m.construct_eq x
  exact ⟨_, he, htext ▸ h.allocate hx hfits hcount⟩

theorem constructText (h : Inv m texts) (hx : x ∉ m.vars.live) (str : Bytes) :
    ∃ m', m.constructText x str = .ok m' ∧ Inv m' (Function.update texts x (some str)) := by
  obtain ⟨e, he, hfits, htext, hcount⟩ := m.constructText_eq x str
  exact ⟨_, he, htext ▸ h.allocate hx hfits hcount⟩

/-- A copy shares the data, unless it carries the mark. -/
theorem copy (h : Inv m texts) (hx : x ∉ m.vars.live) (hy : y ∈ m.vars.live)
    (hroom : ∀ d, m.heap (m.vars.obj y) = some d → d.unsharedable = false →
      d.refCount + 1 < kUnsharedRefMark) :
    ∃ m', m.copy x y = .ok m' ∧ Inv m' (Function.update texts x (texts y)) := by
  obtain ⟨d, hd, htext⟩ := h.owned hy
  obtain ⟨hfits, hcounts, -⟩ := h.cell_some hd
  unfold Memory.copy
  dsimp only
  rw [deref_eq hd]
  dsimp only [bind, Except.bind]
  cases hshared : d.unsharedable with
  | true =>
      obtain ⟨e, hclone, hefits, hetext, -, hcount⟩ := StringData.clone_spec hfits d.size
      rw [if_pos rfl, hclone]
      refine ⟨_, rfl, ?_⟩
      rw [htext, ← hetext]
      exact h.allocate hx hefits hcount
  | false =>
      have hlt := hroom d hd hshared
      have hne : d.refCount ≠ kUnsharedRefMark := by omega
      have hadd : d.addRef = .ok { d with refCount := d.refCount + 1 } := by
        unfold StringData.addRef
        have hmod : (d.refCount + 1) % 2 ^ 32 = d.refCount + 1 := by
          apply Nat.mod_eq_of_lt
          unfold kUnsharedRefMark at hlt
          omega
        rw [if_pos hcounts.pos.2, hmod]
      rw [if_neg Bool.false_ne_true, hadd]
      refine ⟨_, rfl, ?_⟩
      rw [htext]
      exact h.share hx hd hne hlt

/-- The last owner is told so, and the data can be deleted then. -/
theorem release_sole {n : ℕ} (hcounts : Counts d n) (hone : n = 1) :
    ∃ e : StringData, d.release = .ok (true, e) ∧ e.destructible = true := by
  have hpos := hcounts.pos.2
  unfold StringData.release
  rw [if_pos hpos]
  split
  next hmark => exact ⟨d, rfl, decide_eq_true (.inr (StringData.unsharedable_iff.mp hmark))⟩
  next hshared =>
    have hcount : d.refCount = 1 := by
      obtain hcount | hmark := StringData.unique_iff.mp (hcounts.unique_iff.mpr hone)
      · exact hcount
      · exact absurd (StringData.unsharedable_iff.mpr hmark) hshared
    refine ⟨{ d with refCount := d.refCount - 1 }, ?_, ?_⟩
    · rw [hcount]
      rfl
    · exact decide_eq_true (.inl (by rw [hcount]))

theorem release_shared {n : ℕ} (hcounts : Counts d n) (hone : n ≠ 1) :
    d.release = .ok (false, { d with refCount := d.refCount - 1 }) := by
  have hunique : ¬ d.unique = true := fun hunique => hone (hcounts.unique_iff.mp hunique)
  rw [StringData.unique_iff, not_or] at hunique
  have hpos := hcounts.pos.2
  unfold StringData.release
  rw [if_pos hpos, if_neg (by rw [StringData.unsharedable_iff]; exact hunique.2)]
  simp
  omega

theorem destroy (h : Inv m texts) (hx : x ∈ m.vars.live) :
    ∃ m', m.destroy x = .ok m' ∧ Inv m' (Function.update texts x none) := by
  obtain ⟨d, hd, -⟩ := h.owned hx
  obtain ⟨hfits, hcounts, -⟩ := h.cell_some hd
  have hmem : x ∈ m.vars.of (m.vars.obj x) := Owners.mem_of.mpr ⟨hx, rfl⟩
  unfold Memory.destroy
  dsimp only
  rw [deref_eq hd]
  dsimp only [bind, Except.bind]
  by_cases hone : (m.vars.of (m.vars.obj x)).card = 1
  · obtain ⟨e, hrelease, hdestructible⟩ := release_sole hcounts hone
    have hdrop := h.drop_sole (Owners.of_eq_singleton hone hmem) hd
    refine ⟨_, ?_, hdrop⟩
    rw [hrelease]
    dsimp only
    rw [if_pos rfl]
    unfold Memory.delete
    have hderef : Memory.deref { m.put (m.vars.obj x) e with vars := m.vars.drop x }
        (m.vars.obj x) = .ok e := deref_eq (Function.update_self _ _ _)
    rw [hderef]
    dsimp only [bind, Except.bind]
    rw [if_pos hdestructible]
    simp only [Memory.put, Function.update_idem]
    rfl
  · refine ⟨_, ?_, h.drop_shared hmem hd hone⟩
    rw [release_shared hcounts hone]
    rfl

end Inv

/-! ## Programs -/

/-- The copy leaves the count below the mark, and an assignment is one of a
variable to another that has the same data already. -/
def Counted (s : Program Var) (op : Op Var) : Prop :=
  match s.memory, op with
  | .ok m, .copy _ other => (m.vars.of (m.vars.obj other)).card + 1 < kUnsharedRefMark
  | .ok m, .assign x other => m.vars.obj x = m.vars.obj other
  | _, _ => True

instance (s : Program Var) (op : Op Var) : Decidable (Counted s op) :=
  match s, op with
  | ⟨.ok m, _⟩, .copy _ other =>
      inferInstanceAs (Decidable ((m.vars.of (m.vars.obj other)).card + 1 < kUnsharedRefMark))
  | ⟨.ok m, _⟩, .assign x other => inferInstanceAs (Decidable (m.vars.obj x = m.vars.obj other))
  | ⟨.ok _, _⟩, .construct _ | ⟨.ok _, _⟩, .constructText _ _ | ⟨.ok _, _⟩, .constructCString _ _
  | ⟨.ok _, _⟩, .append _ _ | ⟨.ok _, _⟩, .appendCString _ _ | ⟨.ok _, _⟩, .set _ _ _
  | ⟨.ok _, _⟩, .get _ _ | ⟨.ok _, _⟩, .destroy _ | ⟨.error _, _⟩, _ => isTrue trivial

/-- Nothing went wrong, and the memory is that of the texts. -/
def Program.Sound (s : Program Var) : Prop := ∃ m, s.memory = .ok m ∧ Inv m s.texts

/-- **One operation**, on memory and on independent strings. -/
theorem exec_spec {m : Memory Var} {texts : Var → Option Bytes} {op : Op Var} (h : Inv m texts)
    (hlegal : op.Legal m) (hcounted : Counted ⟨.ok m, texts⟩ op) :
    ∃ m', op.exec m = .ok m' ∧ Inv m' (op.apply texts) := by
  cases op with
  | construct x => exact h.construct hlegal
  | constructText x str => exact h.constructText hlegal str
  | constructCString x str => exact h.constructText hlegal (cString str)
  | copy x other =>
      refine h.copy hlegal.1 hlegal.2 fun d hd hshared => ?_
      obtain ⟨hmark, -⟩ | ⟨hcount, -, -⟩ := (h.cell_some hd).2.1
      · rw [StringData.unsharedable_iff.mpr hmark] at hshared
        cases hshared
      · exact hcount ▸ hcounted
  | append x str => exact h.append hlegal str
  | appendCString x str => exact h.append hlegal (cString str)
  | set x pos ch => exact h.set hlegal.1 pos ch
  | get x pos =>
      obtain ⟨m', -, hexec, hinv, -⟩ := h.subscript hlegal.1
      exact ⟨m', hexec, hinv⟩
  | destroy x => exact h.destroy hlegal
  | assign x other => exact ⟨_, rfl, h.assign_same hlegal.1 hlegal.2 hcounted⟩

theorem step_of_exec {m m' : Memory Var} (texts : Var → Option Bytes) {op : Op Var}
    (hlegal : op.Legal m) (hexec : op.exec m = .ok m') :
    (programs Var).step ⟨.ok m, texts⟩ op = some ⟨.ok m', op.apply texts⟩ := by
  rw [← hexec]
  exact if_pos hlegal

theorem Program.Sound.step {s s' : Program Var} {op : Op Var} (h : s.Sound)
    (hcounted : Counted s op) (hstep : (programs Var).step s op = some s') : s'.Sound := by
  obtain ⟨memory, texts⟩ := s
  obtain ⟨m, rfl, hinv⟩ := h
  obtain ⟨hlegal, heq⟩ := Option.ite_none_right_eq_some.mp hstep
  obtain rfl := Option.some.inj heq
  exact exec_spec hinv hlegal hcounted

omit [DecidableEq Var] in
theorem Program.sound_initial : (Program.initial : Program Var).Sound := ⟨_, rfl, inv_initial⟩

/-- Data is deleted exactly once, when its last owner goes away. -/
structure FreedOnce (m : Memory Var) : Prop where
  nodup : m.deleted.Nodup
  mem_iff : ∀ p, p < m.next → (p ∈ m.deleted ↔ m.vars.of p = ∅)

omit [DecidableEq Var] in
theorem Inv.freedOnce {m : Memory Var} {texts : Var → Option Bytes} (h : Inv m texts) :
    FreedOnce m where
  nodup := h.deleted_nodup
  mem_iff p hp := by
    rw [h.mem_deleted]
    have hcell := h.cell p
    cases hheap : m.heap p with
    | none =>
        rw [hheap] at hcell
        exact iff_of_true ⟨hp, rfl⟩ hcell
    | some d =>
        have hpos := (h.cell_some hheap).2.1.pos.1
        refine iff_of_false (fun hnone => nomatch hnone.2) fun hempty => ?_
        rw [hempty, Finset.card_empty] at hpos
        exact lt_irrefl _ hpos

/-! ### Without assignments -/

/-- The operation is no assignment, and a copy leaves the count below the mark. -/
def Roomy (s : Program Var) (op : Op Var) : Prop :=
  match s.memory, op with
  | .ok m, .copy _ other => (m.vars.of (m.vars.obj other)).card + 1 < kUnsharedRefMark
  | _, .assign _ _ => False
  | _, _ => True

instance (s : Program Var) (op : Op Var) : Decidable (Roomy s op) :=
  match s, op with
  | ⟨.ok m, _⟩, .copy _ other =>
      inferInstanceAs (Decidable ((m.vars.of (m.vars.obj other)).card + 1 < kUnsharedRefMark))
  | ⟨.ok _, _⟩, .assign _ _ | ⟨.error _, _⟩, .assign _ _ => isFalse id
  | ⟨.ok _, _⟩, .construct _ | ⟨.ok _, _⟩, .constructText _ _ | ⟨.ok _, _⟩, .constructCString _ _
  | ⟨.ok _, _⟩, .append _ _ | ⟨.ok _, _⟩, .appendCString _ _ | ⟨.ok _, _⟩, .set _ _ _
  | ⟨.ok _, _⟩, .get _ _ | ⟨.ok _, _⟩, .destroy _
  | ⟨.error _, _⟩, .construct _ | ⟨.error _, _⟩, .constructText _ _
  | ⟨.error _, _⟩, .constructCString _ _ | ⟨.error _, _⟩, .copy _ _
  | ⟨.error _, _⟩, .append _ _ | ⟨.error _, _⟩, .appendCString _ _ | ⟨.error _, _⟩, .set _ _ _
  | ⟨.error _, _⟩, .get _ _ | ⟨.error _, _⟩, .destroy _ => isTrue trivial

omit [DecidableEq Var] in
theorem Roomy.counted {s : Program Var} {op : Op Var} (h : Roomy s op) : Counted s op := by
  obtain ⟨memory, texts⟩ := s
  cases memory with
  | error fault => cases op <;> trivial
  | ok m => cases op <;> trivial

/-- Variables show what independent strings show. -/
structure Program.Values (s : Program Var) (m : Memory Var) : Prop where
  no_fault : s.memory = .ok m
  text_eq : ∀ x, m.text x = s.texts x
  freed : FreedOnce m

/-- **Strings are values**, in all states of a program without assignments in which no data comes
to be shared by `2 ^ 32 - 1` variables. -/
theorem always_values {ops : List (Op Var)}
    (hroomy : (programs Var).EachStep Roomy .initial ops) :
    (programs Var).Always (fun s => ∃ m, s.Values m) .initial ops := by
  refine System.always_of_eachStep (I := Program.Sound) (fun s op s' h hroomy => ?_) ?_
    Program.sound_initial hroomy
  · exact h.step hroomy.counted
  · rintro s ⟨m, hm, hinv⟩
    exact ⟨m, hm, hinv.text_eq, hinv.freedOnce⟩

/-- A string is shared, changed on both sides, copied when it carries the mark, and all ends. -/
def sharedAndChanged : List (Op ℕ) :=
  [.constructText 0 (ascii "shared"), .copy 1 0, .copy 2 0, .append 0 (ascii " no more"),
    .set 1 0 'S'.toUInt8, .copy 3 1, .appendCString 3 (ascii "?"), .get 2 4, .destroy 1, .destroy 0,
    .destroy 2, .destroy 3]

theorem always_values_sharedAndChanged :
    (programs ℕ).Always (fun s => ∃ m, s.Values m) .initial sharedAndChanged ∧
      ((programs ℕ).run .initial (sharedAndChanged.take 7)).map
          (fun s => [s.texts 0, s.texts 1, s.texts 2, s.texts 3]) =
        some [some (ascii "shared no more"), some (ascii "Shared"), some (ascii "shared"),
          some (ascii "Shared?")] :=
  ⟨always_values (by decide), by decide⟩

/-! ### With assignments -/

/-- The letter `a`, shared by `n` variables. -/
def sharedBy (n : ℕ) : Memory ℕ where
  heap := Function.update (fun _ => none) 0 (some ⟨⟨[97, 0, 0, 0], 4, 1⟩, n⟩)
  next := 1
  vars := ⟨Finset.range n, fun _ => 0⟩
  deleted := []

/-- Independent strings with the same text. -/
def textsBy (n : ℕ) (x : ℕ) : Option Bytes := if x < n then some [97] else none

/-- The data of `sharedBy n`. -/
theorem deref_sharedBy (n : ℕ) :
    (sharedBy n).deref ((sharedBy n).vars.obj 0) = .ok ⟨⟨[97, 0, 0, 0], 4, 1⟩, n⟩ := rfl

theorem point_sharedBy (n : ℕ) :
    ((sharedBy n).put 0 ⟨⟨[97, 0, 0, 0], 4, 1⟩, n + 1⟩).point n 0 = sharedBy (n + 1) := by
  have hlive : insert n (Finset.range n) = Finset.range (n + 1) := Finset.range_add_one.symm
  have hobj : Function.update (fun _ : ℕ => 0) n 0 = fun _ => 0 := Function.update_eq_self n _
  simp only [sharedBy, Memory.put, Memory.point, Owners.acquire, Function.update_idem, hlive, hobj]

theorem copy_sharedBy {n : ℕ} (hpos : 0 < n) (hn : n < kUnsharedRefMark) :
    (sharedBy n).copy n 0 = .ok (sharedBy (n + 1)) := by
  have hmod : (n + 1) % 2 ^ 32 = n + 1 := by
    apply Nat.mod_eq_of_lt
    unfold kUnsharedRefMark at hn
    omega
  unfold Memory.copy
  dsimp only
  rw [deref_sharedBy]
  dsimp only [bind, Except.bind]
  rw [if_neg (by simpa [StringData.unsharedable] using hn.ne)]
  unfold StringData.addRef
  rw [if_pos hpos, hmod]
  exact congrArg Except.ok (point_sharedBy n)

theorem apply_copy_textsBy {n : ℕ} (hpos : 0 < n) :
    (Op.copy n 0).apply (textsBy n) = textsBy (n + 1) := by
  funext x
  simp only [Op.apply, textsBy, if_pos hpos]
  by_cases hx : x = n
  · simp [hx]
  · have hiff : x < n ↔ x < n + 1 := by omega
    rw [Function.update_of_ne hx]
    exact if_congr hiff rfl rfl

theorem step_sharedBy {n : ℕ} (hpos : 0 < n) (hn : n < kUnsharedRefMark) :
    (programs ℕ).step ⟨.ok (sharedBy n), textsBy n⟩ (.copy n 0) =
      some ⟨.ok (sharedBy (n + 1)), textsBy (n + 1)⟩ := by
  have hlegal : (Op.copy n 0).Legal (sharedBy n) := by
    simp [Op.Legal, sharedBy, hpos]
  have hexec : (Op.copy n 0).exec (sharedBy n) = .ok (sharedBy (n + 1)) := copy_sharedBy hpos hn
  rw [step_of_exec _ hlegal hexec, apply_copy_textsBy hpos]

theorem constructText_sharedBy :
    (Memory.initial : Memory ℕ).constructText 0 [97] = .ok (sharedBy 1) := by
  have hobj : Function.update (fun _ : ℕ => 0) 0 0 = fun _ => 0 := Function.update_eq_self 0 _
  have hvars : (Memory.initial : Memory ℕ).constructText 0 [97] = .ok { sharedBy 1 with
      vars := ⟨Finset.range 1, Function.update (fun _ => 0) 0 0⟩ } := rfl
  rw [hvars, hobj]
  rfl

theorem apply_constructText_textsBy :
    (Op.constructText 0 [97]).apply (fun _ : ℕ => none) = textsBy 1 := by
  funext x
  cases x <;> rfl

theorem run_sharedBy {n : ℕ} (hn : n + 1 ≤ kUnsharedRefMark) :
    ∃ ops, (∀ op ∈ ops, ∀ x other, op ≠ Op.assign x other) ∧
      (programs ℕ).run .initial ops = some ⟨.ok (sharedBy (n + 1)), textsBy (n + 1)⟩ := by
  induction n with
  | zero =>
      refine ⟨[.constructText 0 [97]], by simp, ?_⟩
      show some (Program.mk ((Memory.initial : Memory ℕ).constructText 0 [97])
        ((Op.constructText 0 [97]).apply fun _ => none)) = _
      rw [constructText_sharedBy, apply_constructText_textsBy]
  | succ n ih =>
      obtain ⟨ops, hassign, hrun⟩ := ih (by omega)
      refine ⟨ops ++ [.copy (n + 1) 0], ?_, ?_⟩
      · intro op hop
        obtain hop | hop := List.mem_append.mp hop
        · exact hassign op hop
        · rw [List.mem_singleton.mp hop]
          nofun
      · rw [System.run_append, hrun]
        have hstep := step_sharedBy (Nat.succ_pos n) (by omega)
        exact System.run_cons_eq_some.mpr ⟨_, hstep, rfl⟩

theorem text_of_vars {m : Memory ℕ} {n x : ℕ} (hvars : m.vars = (sharedBy n).vars) (hx : x < n) :
    m.text x = (m.heap 0).map (·.text) := by
  have hfind : (sharedBy n).vars.find x = some 0 :=
    Owners.find_eq_some_iff.mpr ⟨Finset.mem_range.mpr hx, rfl⟩
  unfold Memory.text
  rw [hvars, hfind]
  show (m.heap 0).bind _ = _
  cases m.heap 0 <;> rfl

theorem append_sharedBy {n : ℕ} (hmark : n = kUnsharedRefMark) :
    ∃ m, (sharedBy n).append 0 [98] = .ok m ∧ m.vars = (sharedBy n).vars ∧
      (m.heap 0).map (·.text) = some [97, 98] := by
  have hunique : StringData.unique ⟨⟨[97, 0, 0, 0], 4, 1⟩, n⟩ = true :=
    StringData.unique_iff.mpr (.inr hmark)
  have hreset : StringData.resetSharedable ⟨⟨[97, 0, 0, 0], 4, 1⟩, n⟩ =
      .ok ⟨⟨[97, 0, 0, 0], 4, 1⟩, 1⟩ := if_pos hunique
  have hderef : (sharedBy n).deref ((sharedBy n).vars.obj 0) = .ok ⟨⟨[97, 0, 0, 0], 4, 1⟩, n⟩ := rfl
  have hmake : (sharedBy n).makeUnique 0 2 =
      .ok ((sharedBy n).put 0 ⟨⟨[97, 0, 0, 0], 4, 1⟩, n⟩) := by
    unfold Memory.makeUnique
    dsimp only
    rw [hderef]
    dsimp only [bind, Except.bind]
    rw [if_pos hunique]
    rfl
  have hprepare : (sharedBy n).prepareToModify 0 2 false = .ok (((sharedBy n).put 0
      ⟨⟨[97, 0, 0, 0], 4, 1⟩, n⟩).put 0 ⟨⟨[97, 0, 0, 0], 4, 1⟩, 1⟩) := by
    unfold Memory.prepareToModify
    rw [hmake]
    show (do
      let d ← StringData.resetSharedable ⟨⟨[97, 0, 0, 0], 4, 1⟩, n⟩
      return ((sharedBy n).put 0 ⟨⟨[97, 0, 0, 0], 4, 1⟩, n⟩).put 0 d) = _
    rw [hreset]
    rfl
  refine ⟨(((sharedBy n).put 0 ⟨⟨[97, 0, 0, 0], 4, 1⟩, n⟩).put 0 ⟨⟨[97, 0, 0, 0], 4, 1⟩, 1⟩).put 0
    ⟨⟨[97, 98, 0, 0], 4, 2⟩, 1⟩, ?_, rfl, rfl⟩
  unfold Memory.append
  rw [hderef]
  show (do
    let m ← (sharedBy n).prepareToModify 0 2 false
    _) = _
  rw [hprepare]
  rfl

/-- Where the string appends to the data that it shares, the others show that too. -/
theorem values_append {n : ℕ} (hn : 1 < n) {ops : List (Op ℕ)} {m : Memory ℕ}
    (hassign : ∀ op ∈ ops, ∀ x other, op ≠ Op.assign x other)
    (hrun : (programs ℕ).run .initial ops = some ⟨.ok (sharedBy n), textsBy n⟩)
    (hm : (sharedBy n).append 0 [98] = .ok m) (hvars : m.vars = (sharedBy n).vars)
    (htext : (m.heap 0).map (·.text) = some [97, 98]) :
    ∃ ops s m, (∀ op ∈ ops, ∀ x other, op ≠ Op.assign x other) ∧
      (programs ℕ).run .initial ops = some s ∧ s.memory = .ok m ∧ m.text 1 ≠ s.texts 1 := by
  have hlegal : (Op.append 0 [98]).Legal (sharedBy n) :=
    Finset.mem_range.mpr (Nat.zero_lt_of_lt hn)
  have hstep := step_of_exec (textsBy n) hlegal hm
  refine ⟨ops ++ [.append 0 [98]], ⟨.ok m, (Op.append 0 [98]).apply (textsBy n)⟩, m, ?_, ?_, rfl,
    ?_⟩
  · intro op hop
    obtain hop | hop := List.mem_append.mp hop
    · exact hassign op hop
    · rw [List.mem_singleton.mp hop]
      nofun
  · rw [System.run_append, hrun]
    exact System.run_cons_eq_some.mpr ⟨_, hstep, rfl⟩
  · have hindependent : (Op.append 0 [98]).apply (textsBy n) 1 = some [97] := if_pos hn
    show m.text 1 ≠ (Op.append 0 [98]).apply (textsBy n) 1
    rw [text_of_vars hvars hn, htext, hindependent]
    decide

/-- Behind `2 ^ 32 - 2` copies the string appends to data that all the copies show. -/
theorem values_overflow :
    ∃ ops s m, (∀ op ∈ ops, ∀ x other, op ≠ Op.assign x other) ∧
      (programs ℕ).run .initial ops = some s ∧ s.memory = .ok m ∧ m.text 1 ≠ s.texts 1 := by
  obtain ⟨n, hmark, hpos⟩ : ∃ n, n + 1 = kUnsharedRefMark ∧ 0 < n :=
    ⟨2 ^ 32 - 2, by decide, by decide⟩
  obtain ⟨ops, hassign, hrun⟩ := run_sharedBy hmark.le
  obtain ⟨m, hm, hvars, htext⟩ := append_sharedBy hmark
  exact values_append (Nat.succ_lt_succ hpos) hassign hrun hm hvars htext

end Eureka.RcString

import Mathlib
import Eureka.RcString.Ownership
import Eureka.RcString.Threads

/-!
# What a thread relies on

`Pc.Ok` is what a thread knows at each place of its call: **sole** ownership
behind a test that the data is unique, **shareable** data behind a test that it
is not marked.  No step of another thread takes this away:

* `Frame`, `AloneFrame`: what of a variable a step of another thread leaves as it
  was, with `Pc.Ok.frame`, which transports the knowledge along it;
* `Touch`: a change of memory for one variable and the data at one address.
  `Touch.frame` and `Touch.aloneFrame` are its frames for all other variables.
-/

namespace Eureka.RcString

variable {Var : Type}

/-- The variable alone points to its data. -/
def Alone (m : Memory Var) (x : Var) : Prop := m.vars.of (m.vars.obj x) = {x}

/-- The data of the variable has a count, not the mark. -/
def Shareable (m : Memory Var) (x : Var) : Prop :=
  ∀ d, m.heap (m.vars.obj x) = some d → d.refCount ≠ kUnsharedRefMark

/-- The change fits into the buffer. -/
def HasRoom (m : Memory Var) (x : Var) (change : Change) : Prop :=
  ∀ d, m.heap (m.vars.obj x) = some d → d.size + change.growth ≤ d.capacity

/-- The text behind the change has at most `n` characters. -/
def Asks (text : Option Bytes) (change : Change) (n : ℕ) : Prop :=
  ∀ str, text = some str → str.length + change.growth ≤ n

/-- The new data of `PrepareToModify` is a copy with room for the change. -/
def After.Ok (text : Option Bytes) : After → Prop
  | .ends => True
  | .renews newData change =>
      newData.Fits ∧ newData.refCount = 1 ∧ text = some newData.text ∧
        newData.size + change.growth ≤ newData.capacity

/-- What a thread knows. -/
def Pc.Ok (m : Memory Var) (texts : Var → Option Bytes) : Pc Var → Prop
  | .idle => True
  | .construct x | .constructText x _ => x ∉ m.vars.live
  | .copyTest x other | .copyClone x other => x ∉ m.vars.live ∧ other ∈ m.vars.live
  | .copyAssert x other | .copyAdd x other =>
      x ∉ m.vars.live ∧ other ∈ m.vars.live ∧ Shareable m other
  | .unique x n change | .clone x n change => x ∈ m.vars.live ∧ Asks (texts x) change n
  | .reserve x n change => x ∈ m.vars.live ∧ Alone m x ∧ Asks (texts x) change n
  | .releaseAssert x after | .releaseTest x after => x ∈ m.vars.live ∧ after.Ok (texts x)
  | .releaseSub x after => x ∈ m.vars.live ∧ Shareable m x ∧ after.Ok (texts x)
  | .delete x _ d after =>
      x ∉ m.vars.live ∧ d.destructible ∧ after.Ok (texts x) ∧ (after = .ends → texts x = none)
  | .storeAssert x change | .store x change | .writeAssert x change | .write x change =>
      x ∈ m.vars.live ∧ Alone m x ∧ HasRoom m x change

/-! ## Frames -/

/-- Of this variable a step leaves as it was what its readers rely on. -/
structure Frame (m m' : Memory Var) (y : Var) : Prop where
  live_iff : y ∈ m'.vars.live ↔ y ∈ m.vars.live
  obj_eq : m'.vars.obj y = m.vars.obj y
  shareable : y ∈ m.vars.live → Shareable m y → Shareable m' y

/-- Of this variable a step leaves as it was what its writer relies on. -/
structure AloneFrame (m m' : Memory Var) (y : Var) : Prop extends Frame m m' y where
  alone : y ∈ m.vars.live → Alone m y → Alone m' y
  heap_eq : y ∈ m.vars.live → Alone m y → m'.heap (m.vars.obj y) = m.heap (m.vars.obj y)

theorem Frame.refl (m : Memory Var) (y : Var) : Frame m m y := ⟨Iff.rfl, rfl, fun _ h => h⟩

theorem AloneFrame.refl (m : Memory Var) (y : Var) : AloneFrame m m y :=
  ⟨Frame.refl m y, fun _ h => h, fun _ _ => rfl⟩

section Ok

variable {m m' : Memory Var} {texts texts' : Var → Option Bytes} {x : Var} {pc : Pc Var}

theorem AloneFrame.roomy (h : AloneFrame m m' x) {change : Change} (hx : x ∈ m.vars.live)
    (halone : Alone m x) (hroomy : HasRoom m x change) : HasRoom m' x change := by
  intro d hd
  rw [h.obj_eq, h.heap_eq hx halone] at hd
  exact hroomy d hd

/-- What a thread knows holds as long as the others keep to the frames. -/
theorem Pc.Ok.frame (h : pc.Ok m texts)
    (htarget : ∀ y, pc.target = some y → AloneFrame m m' y ∧ texts' y = texts y)
    (hsource : ∀ y, pc.source = some y → Frame m m' y) : pc.Ok m' texts' := by
  cases pc with
  | idle => trivial
  | construct x =>
      obtain ⟨hx, -⟩ := htarget x rfl
      exact fun hlive => h (hx.live_iff.mp hlive)
  | constructText x str =>
      obtain ⟨hx, -⟩ := htarget x rfl
      exact fun hlive => h (hx.live_iff.mp hlive)
  | copyTest x other | copyClone x other =>
      obtain ⟨hx, -⟩ := htarget x rfl
      exact ⟨fun hlive => h.1 (hx.live_iff.mp hlive), (hsource other rfl).live_iff.mpr h.2⟩
  | copyAssert x other | copyAdd x other =>
      obtain ⟨hx, -⟩ := htarget x rfl
      have hother := hsource other rfl
      exact ⟨fun hlive => h.1 (hx.live_iff.mp hlive), hother.live_iff.mpr h.2.1,
        hother.shareable h.2.1 h.2.2⟩
  | unique x n change | clone x n change =>
      obtain ⟨hx, htexts⟩ := htarget x rfl
      exact ⟨hx.live_iff.mpr h.1, htexts ▸ h.2⟩
  | reserve x n change =>
      obtain ⟨hx, htexts⟩ := htarget x rfl
      exact ⟨hx.live_iff.mpr h.1, hx.alone h.1 h.2.1, htexts ▸ h.2.2⟩
  | releaseAssert x after | releaseTest x after =>
      obtain ⟨hx, htexts⟩ := htarget x rfl
      exact ⟨hx.live_iff.mpr h.1, htexts ▸ h.2⟩
  | releaseSub x after =>
      obtain ⟨hx, htexts⟩ := htarget x rfl
      exact ⟨hx.live_iff.mpr h.1, hx.shareable h.1 h.2.1, htexts ▸ h.2.2⟩
  | delete x p d after =>
      obtain ⟨hx, htexts⟩ := htarget x rfl
      show _ ∧ _ ∧ after.Ok (texts' x) ∧ (_ → texts' x = none)
      rw [htexts]
      exact ⟨fun hlive => h.1 (hx.live_iff.mp hlive), h.2⟩
  | storeAssert x change | store x change | writeAssert x change | write x change =>
      obtain ⟨hx, -⟩ := htarget x rfl
      exact ⟨hx.live_iff.mpr h.1, hx.alone h.1 h.2.1, hx.roomy h.1 h.2.1 h.2.2⟩

end Ok

/-! ## Changes of memory -/

/-- Only for the variable `x` and the data at `p` is there a change, and besides data at a new
address.  Data that others share keeps a count. -/
structure Touch (m m' : Memory Var) (x : Var) (p : ℕ) : Prop where
  live_iff : ∀ y, y ≠ x → (y ∈ m'.vars.live ↔ y ∈ m.vars.live)
  obj_eq : ∀ y, y ≠ x → m'.vars.obj y = m.vars.obj y
  joins : x ∈ m'.vars.live → m'.vars.obj x = p ∨ m.next ≤ m'.vars.obj x
  heap_eq : ∀ q, q ≠ p → q < m.next → m'.heap q = m.heap q
  count : ∀ d y, m'.heap p = some d → y ∈ m.vars.of p → y ≠ x → d.refCount ≠ kUnsharedRefMark

namespace Touch

variable {m m' : Memory Var} {texts : Var → Option Bytes} {x y : Var} {p : ℕ}

theorem frame (h : Touch m m' x p) (hinv : Inv m texts) (hne : y ≠ x) : Frame m m' y := by
  refine ⟨h.live_iff y hne, h.obj_eq y hne, fun hy hshareable d hd => ?_⟩
  rw [h.obj_eq y hne] at hd
  by_cases hp : m.vars.obj y = p
  · exact h.count d y (hp ▸ hd) (Owners.mem_of.mpr ⟨hy, hp⟩) hne
  · obtain ⟨e, he, -⟩ := hinv.owned hy
    rw [h.heap_eq _ hp (hinv.lt_next he)] at hd
    exact hshareable d hd

theorem aloneFrame (h : Touch m m' x p) (hinv : Inv m texts) (hne : y ≠ x)
    (hp : y ∈ m.vars.live → Alone m y → m.vars.obj y ≠ p) : AloneFrame m m' y := by
  refine ⟨h.frame hinv hne, fun hy halone => ?_, fun hy halone => ?_⟩
  all_goals obtain ⟨e, he, -⟩ := hinv.owned hy
  all_goals have hlt := hinv.lt_next he
  · have hmem : ∀ z, z ∈ m.vars.of (m.vars.obj y) ↔ z = y := by
      intro z
      rw [show m.vars.of (m.vars.obj y) = {y} from halone, Finset.mem_singleton]
    unfold Alone
    rw [h.obj_eq y hne]
    ext z
    rw [Finset.mem_singleton]
    by_cases hz : z = x
    · -- the variable of the step joins other data
      subst hz
      refine iff_of_false (fun hjoin => ?_) (Ne.symm hne)
      obtain ⟨hlive, hobj⟩ := Owners.mem_of.mp hjoin
      obtain hsame | hnew := h.joins hlive
      · exact hp hy halone (hobj.symm.trans hsame)
      · omega
    · rw [← hmem z, Owners.mem_of, Owners.mem_of, h.live_iff z hz, h.obj_eq z hz]
  · exact h.heap_eq _ (hp hy halone) hlt

/-- Data that a second variable points to is not that of a sole owner. -/
theorem ne_of_mem {z : Var} (hz : z ∈ m.vars.of p) (hne : z ≠ y) (halone : Alone m y) :
    m.vars.obj y ≠ p := by
  rintro rfl
  rw [show m.vars.of (m.vars.obj y) = {y} from halone, Finset.mem_singleton] at hz
  exact hne hz

/-! ### The changes of the steps -/

variable {d e : StringData}

theorem put (hp : m.vars.of p = {x}) : Touch m (m.put p e) x p where
  live_iff _ _ := Iff.rfl
  obj_eq _ _ := rfl
  joins _ := .inl (Owners.mem_of.mp (hp ▸ Finset.mem_singleton_self x)).2
  heap_eq _ hq _ := Function.update_of_ne hq _ _
  count _ _ _ hy hne := absurd (Finset.mem_singleton.mp (hp ▸ hy)) hne

variable [DecidableEq Var]

theorem live_acquire_of_ne {o : Owners Var ℕ} (hne : y ≠ x) :
    y ∈ (o.acquire x p).live ↔ y ∈ o.live :=
  Finset.mem_insert.trans (or_iff_right hne)

theorem live_drop_of_ne {o : Owners Var ℕ} (hne : y ≠ x) : y ∈ (o.drop x).live ↔ y ∈ o.live :=
  Finset.mem_erase.trans (and_iff_right hne)

theorem allocate (hinv : Inv m texts) : Touch m (m.allocate x e) x m.next where
  live_iff _ hne := live_acquire_of_ne hne
  obj_eq _ hne := Owners.obj_acquire_of_ne hne
  joins _ := .inl Owners.obj_acquire_self
  heap_eq _ hq _ := Function.update_of_ne hq _ _
  count _ y _ hy _ := by
    rw [hinv.of_fresh] at hy
    exact absurd hy (Finset.notMem_empty y)

theorem share (hcount : e.refCount ≠ kUnsharedRefMark) :
    Touch m ((m.put p e).point x p) x p where
  live_iff _ hne := live_acquire_of_ne hne
  obj_eq _ hne := Owners.obj_acquire_of_ne hne
  joins _ := .inl Owners.obj_acquire_self
  heap_eq _ hq _ := Function.update_of_ne hq _ _
  count d _ hd _ _ := by
    obtain rfl : e = d := Option.some.inj ((Function.update_self p _ _).symm.trans hd)
    exact hcount

theorem leave (hcount : e.refCount ≠ kUnsharedRefMark) :
    Touch m { m.put p e with vars := m.vars.drop x } x p where
  live_iff _ hne := live_drop_of_ne hne
  obj_eq _ _ := rfl
  joins hx := absurd hx (Finset.notMem_erase _ _)
  heap_eq _ hq _ := Function.update_of_ne hq _ _
  count d _ hd _ _ := by
    obtain rfl : e = d := Option.some.inj ((Function.update_self p _ _).symm.trans hd)
    exact hcount

theorem renew (hinv : Inv m texts) (hd : m.heap p = some d) (hcount : e.refCount ≠ kUnsharedRefMark)
    {newData : StringData} : Touch m ((m.put p e).allocate x newData) x p where
  live_iff _ hne := live_acquire_of_ne hne
  obj_eq _ hne := Owners.obj_acquire_of_ne hne
  joins _ := .inr (Owners.obj_acquire_self.ge)
  heap_eq _ hq hlt := (Function.update_of_ne hlt.ne _ _).trans (Function.update_of_ne hq _ _)
  count c _ hc _ _ := by
    have hput : ((m.put p e).allocate x newData).heap p = some e :=
      (Function.update_of_ne (hinv.lt_next hd).ne _ _).trans (Function.update_self p _ _)
    obtain rfl : e = c := Option.some.inj (hput.symm.trans hc)
    exact hcount

theorem retire : Touch m (m.retire x) x (m.vars.obj x) where
  live_iff _ hne := live_drop_of_ne hne
  obj_eq _ _ := rfl
  joins hx := absurd hx (Finset.notMem_erase _ _)
  heap_eq _ hq _ := Function.update_of_ne hq _ _
  count _ _ hd _ _ := nomatch (Function.update_self (m.vars.obj x) _ _).symm.trans hd

end Touch

/-! ### New data -/

section New

variable {m : Memory Var} {x : Var} {e : StringData}

theorem hasRoom_put {change : Change} (hroom : e.size + change.growth ≤ e.capacity) :
    HasRoom (m.put (m.vars.obj x) e) x change := by
  intro d hd
  have hput : Function.update m.heap (m.vars.obj x) (some e) (m.vars.obj x) = some d := hd
  rw [Function.update_self] at hput
  exact Option.some.inj hput ▸ hroom

variable [DecidableEq Var]

theorem alone_allocate (hfresh : m.vars.of m.next = ∅) : Alone (m.allocate x e) x := by
  show (m.vars.acquire x m.next).of ((m.vars.acquire x m.next).obj x) = {x}
  rw [Owners.obj_acquire_self, Owners.of_acquire_self, hfresh]
  rfl

theorem hasRoom_allocate {change : Change} (hroom : e.size + change.growth ≤ e.capacity) :
    HasRoom (m.allocate x e) x change := by
  intro d hd
  have hnew : Function.update m.heap m.next (some e) ((m.vars.acquire x m.next).obj x) = some d := hd
  rw [Owners.obj_acquire_self, Function.update_self] at hnew
  exact Option.some.inj hnew ▸ hroom

end New

end Eureka.RcString

import Eureka.Library.Transition
import Eureka.RcString.StringData

/-!
# What `StringData` says of its buffer

The constructor of `StringData` calls `Reserve` before anything is written to
`capacity_`, so that the field holds whatever the memory held.  If that is at
least the capacity that is asked for, there is no buffer, and all that follows
takes it to be there.

The programs are over all the data that was ever constructed, in that order; a
position in the list stands for the pointer.

* `StringData.construct_cases`: new data is sound or hollow.
* `represented_iff`: the representation holds in all states exactly if every
  construction finds a zero or less than it asks for.
-/

namespace Eureka.RcString

open Transition

/-- An operation; `memory` is what the memory of new data holds in the place of `capacity_`, in case
the operation constructs any. -/
inductive DataOp
  | construct (memory capacity : ℕ)
  /-- `RCString(str, length)`. -/
  | constructText (memory : ℕ) (str : Bytes)
  | clone (i memory newCapacity : ℕ)
  /-- `RCString(other)`. -/
  | copy (i memory : ℕ)
  /-- `RCString::Append`. -/
  | append (i memory : ℕ) (str : Bytes)

namespace StringData

/-- The data of a string behind `Append`, and that of the strings it was shared with, if it was. -/
def append (d : StringData) (memory : ℕ) (str : Bytes) :
    Except Fault (StringData × Option StringData) := do
  let newSize := d.size + str.length
  if d.unique then
    let d ← d.reserve newSize
    let d ← d.resetSharedable
    let d ← d.copyData str d.size
    return (d, none)
  else
    let newData ← d.clone memory newSize
    let (_, d) ← d.release
    let newData ← newData.resetSharedable
    let newData ← newData.copyData str newData.size
    return (newData, some d)

end StringData

namespace DataOp

/-- The data that an operation is about. -/
def target : DataOp → Option ℕ
  | construct .. | constructText .. => none
  | clone i .. | copy i _ | append i .. => some i

def exec (op : DataOp) (data : List StringData) : Except Fault (List StringData) :=
  match op with
  | construct memory capacity => do
      let d ← StringData.construct memory capacity
      return data ++ [d]
  | constructText memory str => do
      let d ← StringData.construct memory str.length
      let d ← d.copyData str 0
      return data ++ [d]
  | clone i memory newCapacity =>
      match data[i]? with
      | none => .error .dangling
      | some d => do
          let e ← d.clone memory newCapacity
          return data ++ [e]
  | copy i memory =>
      match data[i]? with
      | none => .error .dangling
      | some d =>
          if d.unsharedable then do
            let e ← d.clone memory d.size
            return data ++ [e]
          else do
            let d ← d.addRef
            return data.set i d
  | append i memory str =>
      match data[i]? with
      | none => .error .dangling
      | some d => do
          match ← d.append memory str with
          | (d, none) => return data.set i d
          | (newData, some d) => return data.set i d ++ [newData]

/-- What an operation constructs: the memory, and the capacity that is asked for. -/
def constructs (op : DataOp) (data : List StringData) : Option (ℕ × ℕ) :=
  match op with
  | construct memory capacity => some (memory, capacity)
  | constructText memory str => some (memory, str.length)
  | clone i memory newCapacity => data[i]?.map fun d => (memory, max newCapacity d.capacity)
  | copy i memory => data[i]?.bind fun d =>
      if d.unsharedable then some (memory, max d.size d.capacity) else none
  | append i memory str => data[i]?.bind fun d =>
      if d.unique then none else some (memory, max (d.size + str.length) d.capacity)

end DataOp

/-- Operations are about data that is there. -/
def stepData (s : Except Fault (List StringData)) (op : DataOp) :
    Option (Except Fault (List StringData)) :=
  match s with
  | .error _ => none
  | .ok data => if ∀ i ∈ op.target, i < data.length then some (op.exec data) else none

def dataPrograms : System (Except Fault (List StringData)) DataOp where
  start s := s = .ok []
  step := stepData

/-- The sizes are those of the buffers, and nothing was copied out of a buffer. -/
def Represented : Except Fault (List StringData) → Prop
  | .ok data => ∀ d ∈ data, d.Fits
  | .error fault => fault ≠ .outOfBounds

/-- New data has a zero in the place of `capacity_`, or less than it is to have. -/
def Initialized (s : Except Fault (List StringData)) (op : DataOp) : Prop :=
  match s with
  | .error _ => True
  | .ok data => ∀ found ∈ op.constructs data, Spare found.1 found.2

instance decidableInitialized :
    (s : Except Fault (List StringData)) → (op : DataOp) → Decidable (Initialized s op)
  | .error _, _ => .isTrue trivial
  | .ok data, op => inferInstanceAs (Decidable (∀ found ∈ op.constructs data, Spare found.1 found.2))

namespace StringData

variable {d e : StringData} {memory capacity : ℕ} {str : Bytes}

/-- No buffer, and a capacity that is not zero. -/
structure Hollow (memory : ℕ) (d : StringData) : Prop where
  content : d.toContent = ⟨[], memory, 0⟩
  unique : d.unique = true
  ne_zero : memory ≠ 0

theorem Hollow.not_fits (h : Hollow memory d) : ¬ d.Fits := by
  intro hfits
  have hlength := hfits.length_eq
  rw [h.content] at hlength
  exact h.ne_zero hlength.symm

theorem construct_of_not_spare (hspare : ¬ Spare memory capacity) :
    ∃ d, construct memory capacity = .ok d ∧ Hollow memory d := by
  obtain ⟨hne, hle⟩ := not_or.mp hspare
  refine ⟨⟨⟨[], memory, 0⟩, 1⟩, ?_, rfl, rfl, hne⟩
  unfold construct Content.construct Content.reserve
  rw [if_pos (not_lt.mp hle)]
  rfl

theorem copyData_nil (hle : str.length ≤ memory) :
    Content.copyData ⟨[], memory, 0⟩ str 0 =
      if str = [] then .ok ⟨[], memory, 0⟩ else .error .outOfBounds := by
  unfold Content.copyData
  rw [if_neg (by simpa using hle)]
  split
  next => rfl
  next hne =>
    have hlength : 0 < str.length := List.length_pos_of_ne_nil hne
    rw [if_pos (by simpa using hlength)]

theorem Hollow.copyData (h : Hollow memory d) (hle : str.length ≤ memory) :
    d.copyData str d.size = .error .outOfBounds ∨
      ∃ e, d.copyData str d.size = .ok e ∧ Hollow memory e := by
  unfold StringData.copyData
  rw [if_pos h.unique, h.content]
  dsimp only
  rw [copyData_nil hle]
  split
  next => exact .inr ⟨⟨⟨[], memory, 0⟩, d.refCount⟩, rfl, rfl, h.unique, h.ne_zero⟩
  next => exact .inl rfl

theorem clone_of_not_spare (hd : d.Fits) (hspare : ¬ Spare memory (max capacity d.capacity)) :
    d.clone memory capacity = .error .outOfBounds ∨
      ∃ e, d.clone memory capacity = .ok e ∧ Hollow memory e := by
  obtain ⟨fresh, hfresh, hhollow⟩ := construct_of_not_spare hspare
  have hle : d.text.length ≤ memory := by
    have hsize := hd.size_le
    have hmemory := not_lt.mp (not_or.mp hspare).2
    rw [hd.length_text]
    omega
  have hcopy := hhollow.copyData hle
  rw [show fresh.size = 0 from congrArg Content.size hhollow.content] at hcopy
  unfold clone
  rw [hfresh]
  exact hcopy

/-- What operations leave. -/
structure Sound (d : StringData) : Prop where
  fits : d.Fits
  count_pos : 0 < d.refCount
  count_le : d.refCount ≤ kUnsharedRefMark

theorem Sound.of_unique (hd : d.Fits) (hcount : d.refCount = 1) : d.Sound :=
  ⟨hd, by omega, by rw [hcount]; decide⟩

theorem construct_sound (hspare : Spare memory capacity) :
    ∃ d, construct memory capacity = .ok d ∧ d.Sound := by
  obtain ⟨d, hd, hfits, -, -, -, hcount⟩ := construct_of_spare hspare
  exact ⟨d, hd, .of_unique hfits hcount⟩

theorem constructText_sound (hspare : Spare memory str.length) :
    ∃ d, construct memory str.length = .ok d ∧ ∃ e, d.copyData str 0 = .ok e ∧ e.Sound := by
  obtain ⟨d, hd, hfits, -, hsize, hle, hcount⟩ := construct_of_spare hspare
  have hroom : d.size + str.length ≤ d.capacity := by omega
  obtain ⟨e, he, hefits, -, -, hecount⟩ :=
    copyData_spec hfits (unique_iff.mpr (.inl hcount)) hroom
  exact ⟨d, hd, e, hsize ▸ he, .of_unique hefits (hecount.trans hcount)⟩

namespace Sound

theorem clone (h : d.Sound) (hspare : Spare memory (max capacity d.capacity)) :
    ∃ e, d.clone memory capacity = .ok e ∧ e.Sound := by
  obtain ⟨e, he, hfits, -, -, hcount⟩ := clone_of_spare h.fits hspare
  exact ⟨e, he, .of_unique hfits hcount⟩

theorem addRef (h : d.Sound) (hshared : ¬ d.unsharedable = true) :
    ∃ e, d.addRef = .ok e ∧ e.Sound := by
  have hne : d.refCount ≠ kUnsharedRefMark := mt unsharedable_iff.mpr hshared
  have hle := h.count_le
  unfold kUnsharedRefMark at hne hle
  have hmod : (d.refCount + 1) % 2 ^ 32 = d.refCount + 1 := Nat.mod_eq_of_lt (by omega)
  refine ⟨_, if_pos h.count_pos, h.fits, ?_, ?_⟩
  · show 0 < (d.refCount + 1) % 2 ^ 32
    omega
  · show (d.refCount + 1) % 2 ^ 32 ≤ 2 ^ 32 - 1
    omega

theorem release (h : d.Sound) (hshared : ¬ d.unique = true) :
    ∃ last e, d.release = .ok (last, e) ∧ e.Sound := by
  obtain ⟨hone, hmark⟩ := not_or.mp (mt unique_iff.mpr hshared)
  have hpos := h.count_pos
  have hle := h.count_le
  unfold StringData.release
  rw [if_pos hpos, if_neg (mt unsharedable_iff.mp hmark)]
  exact ⟨_, _, rfl, h.fits, by show 0 < d.refCount - 1; omega,
    by show d.refCount - 1 ≤ _; omega⟩

/-- What `Append` does behind `PrepareToModify`. -/
theorem copied (hd : d.Fits) (hunique : d.unique = true)
    (hle : d.size + str.length ≤ d.capacity) :
    ∃ d', d.resetSharedable = .ok d' ∧ ∃ e, d'.copyData str d'.size = .ok e ∧ e.Sound := by
  have hreset : ({ d with refCount := 1 } : StringData).Fits := hd
  obtain ⟨e, he, hfits, -, -, hcount⟩ := copyData_spec hreset rfl hle
  exact ⟨_, if_pos hunique, e, he, .of_unique hfits hcount⟩

theorem append (h : d.Sound)
    (hspare : ¬ d.unique = true → Spare memory (max (d.size + str.length) d.capacity)) :
    ∃ e rest, d.append memory str = .ok (e, rest) ∧ e.Sound ∧ ∀ d' ∈ rest, d'.Sound := by
  unfold StringData.append
  by_cases hunique : d.unique = true
  · obtain ⟨grown, hreserve, hfits, -, hsize, hle, hcount⟩ :=
      reserve_spec h.fits (d.size + str.length)
    have hunique' : grown.unique = true := by
      rw [unique_iff, hcount]
      exact unique_iff.mp hunique
    obtain ⟨reset, hreset, e, hcopy, he⟩ := copied hfits hunique' (hsize ▸ hle)
    refine ⟨e, none, ?_, he, by simp⟩
    simp only [if_pos hunique, hreserve, hreset, hcopy, bind, Except.bind, pure, Except.pure]
  · obtain ⟨cloned, hclone, hfits, htext, hle, hcount⟩ := clone_of_spare h.fits (hspare hunique)
    have hsize : cloned.size = d.size := by
      rw [← hfits.length_text, htext, h.fits.length_text]
    obtain ⟨last, d', hrelease, hd'⟩ := h.release hunique
    obtain ⟨reset, hreset, e, hcopy, he⟩ :=
      copied hfits (unique_iff.mpr (.inl hcount)) (hsize ▸ hle)
    refine ⟨e, some d', ?_, he, by simpa using hd'⟩
    simp only [if_neg hunique, hclone, hrelease, hreset, hcopy, bind, Except.bind, pure,
      Except.pure]

theorem append_of_not_spare (h : d.Sound) (hshared : ¬ d.unique = true)
    (hspare : ¬ Spare memory (max (d.size + str.length) d.capacity)) :
    d.append memory str = .error .outOfBounds ∨
      ∃ e rest, d.append memory str = .ok (e, some rest) ∧ Hollow memory e := by
  obtain ⟨last, d', hrelease, -⟩ := h.release hshared
  unfold StringData.append
  rw [if_neg hshared]
  rcases clone_of_not_spare h.fits hspare with hclone | ⟨cloned, hclone, hhollow⟩
  · rw [hclone]
    exact .inl rfl
  · have hle : str.length ≤ memory := by
      have hmemory := not_lt.mp (not_or.mp hspare).2
      omega
    have hreset : cloned.resetSharedable = .ok { cloned with refCount := 1 } :=
      if_pos hhollow.unique
    have hhollow' : Hollow memory { cloned with refCount := 1 } :=
      ⟨hhollow.content, rfl, hhollow.ne_zero⟩
    rcases hhollow'.copyData hle with hcopy | ⟨e, hcopy, he⟩
    · left
      simp only [hclone, hrelease, hreset, hcopy, bind, Except.bind]
    · refine .inr ⟨e, d', ?_, he⟩
      simp only [hclone, hrelease, hreset, hcopy, bind, Except.bind, pure, Except.pure]

end Sound

end StringData

/-! ## Operations on all data -/

variable {data : List StringData} {op : DataOp}

theorem forall_mem_append_singleton {d : StringData} (hdata : ∀ d ∈ data, d.Sound)
    (hd : d.Sound) : ∀ e ∈ data ++ [d], e.Sound := by
  intro e he
  rcases List.mem_append.mp he with he | he
  · exact hdata e he
  · exact List.mem_singleton.mp he ▸ hd

theorem forall_mem_set {d : StringData} {i : ℕ} (hdata : ∀ d ∈ data, d.Sound) (hd : d.Sound) :
    ∀ e ∈ data.set i d, e.Sound := by
  intro e he
  rcases List.mem_or_eq_of_mem_set he with he | rfl
  · exact hdata e he
  · exact hd

theorem exists_sound {i : ℕ} (hdata : ∀ d ∈ data, d.Sound) (hi : i < data.length) :
    ∃ d, data[i]? = some d ∧ d.Sound :=
  ⟨data[i], List.getElem?_eq_getElem hi, hdata _ (List.getElem_mem hi)⟩

namespace DataOp

theorem exec_of_initialized (hdata : ∀ d ∈ data, d.Sound)
    (htarget : ∀ i ∈ op.target, i < data.length) (hinit : Initialized (.ok data) op) :
    ∃ data', op.exec data = .ok data' ∧ ∀ d ∈ data', d.Sound := by
  cases op with
  | construct memory capacity =>
      obtain ⟨d, hd, hsound⟩ := StringData.construct_sound (hinit _ rfl)
      refine ⟨data ++ [d], ?_, forall_mem_append_singleton hdata hsound⟩
      simp only [exec, hd, bind, Except.bind, pure, Except.pure]
  | constructText memory str =>
      obtain ⟨d, hd, e, he, hsound⟩ := StringData.constructText_sound (hinit _ rfl)
      refine ⟨data ++ [e], ?_, forall_mem_append_singleton hdata hsound⟩
      simp only [exec, hd, he, bind, Except.bind, pure, Except.pure]
  | clone i memory newCapacity =>
      obtain ⟨d, hi, hsound⟩ := exists_sound hdata (htarget i rfl)
      obtain ⟨e, he, hsound⟩ := hsound.clone (hinit _ (congrArg (Option.map _) hi))
      refine ⟨data ++ [e], ?_, forall_mem_append_singleton hdata hsound⟩
      simp only [exec, hi, he, bind, Except.bind, pure, Except.pure]
  | copy i memory =>
      obtain ⟨d, hi, hsound⟩ := exists_sound hdata (htarget i rfl)
      by_cases hshared : d.unsharedable = true
      · have hfound : Spare memory (max d.size d.capacity) := by
          refine hinit (memory, max d.size d.capacity) ?_
          rw [constructs, hi, Option.bind_some, if_pos hshared]
          rfl
        obtain ⟨e, he, hsound⟩ := hsound.clone hfound
        refine ⟨data ++ [e], ?_, forall_mem_append_singleton hdata hsound⟩
        simp only [exec, hi, if_pos hshared, he, bind, Except.bind, pure, Except.pure]
      · obtain ⟨e, he, hsound⟩ := hsound.addRef hshared
        refine ⟨data.set i e, ?_, forall_mem_set hdata hsound⟩
        simp only [exec, hi, if_neg hshared, he, bind, Except.bind, pure, Except.pure]
  | append i memory str =>
      obtain ⟨d, hi, hsound⟩ := exists_sound hdata (htarget i rfl)
      have hfound : ¬ d.unique = true →
          Spare memory (max (d.size + str.length) d.capacity) := by
        intro hunique
        refine hinit (memory, max (d.size + str.length) d.capacity) ?_
        rw [constructs, hi, Option.bind_some, if_neg hunique]
        rfl
      obtain ⟨e, rest, he, hsound, hrest⟩ := hsound.append hfound
      cases rest with
      | none =>
          refine ⟨data.set i e, ?_, forall_mem_set hdata hsound⟩
          simp only [exec, hi, he, bind, Except.bind, pure, Except.pure]
      | some d' =>
          refine ⟨data.set i d' ++ [e], ?_,
            forall_mem_append_singleton (forall_mem_set hdata (hrest d' rfl)) hsound⟩
          simp only [exec, hi, he, bind, Except.bind, pure, Except.pure]

theorem not_represented_append {memory : ℕ} {d : StringData}
    (hhollow : StringData.Hollow memory d) : ¬ Represented (.ok (data ++ [d])) := by
  intro hrepresented
  exact hhollow.not_fits (hrepresented d (List.mem_append_right data (List.mem_singleton_self d)))

/-- A step on other memory breaks the representation. -/
theorem exec_of_not_initialized (hdata : ∀ d ∈ data, d.Sound)
    (htarget : ∀ i ∈ op.target, i < data.length) (hinit : ¬ Initialized (.ok data) op) :
    ¬ Represented (op.exec data) := by
  obtain ⟨⟨memory, capacity⟩, hfound, hspare⟩ := not_forall₂.mp hinit
  dsimp only at hspare
  cases op with
  | construct m c =>
      cases hfound
      obtain ⟨d, hd, hhollow⟩ := StringData.construct_of_not_spare hspare
      simp only [exec, hd, bind, Except.bind, pure, Except.pure]
      exact not_represented_append hhollow
  | constructText m str =>
      cases hfound
      obtain ⟨d, hd, hhollow⟩ := StringData.construct_of_not_spare hspare
      have hcopy := hhollow.copyData (not_lt.mp (not_or.mp hspare).2)
      rw [show d.size = 0 from congrArg Content.size hhollow.content] at hcopy
      rcases hcopy with he | ⟨e, he, hhollow⟩
      · simp only [exec, hd, he, bind, Except.bind]
        exact fun hrepresented => hrepresented rfl
      · simp only [exec, hd, he, bind, Except.bind, pure, Except.pure]
        exact not_represented_append hhollow
  | clone i m newCapacity =>
      obtain ⟨d, hi, hsound⟩ := exists_sound hdata (htarget i rfl)
      rw [constructs, hi] at hfound
      cases hfound
      rcases StringData.clone_of_not_spare hsound.fits hspare with he | ⟨e, he, hhollow⟩
      · simp only [exec, hi, he, bind, Except.bind]
        exact fun hrepresented => hrepresented rfl
      · simp only [exec, hi, he, bind, Except.bind, pure, Except.pure]
        exact not_represented_append hhollow
  | copy i m =>
      obtain ⟨d, hi, hsound⟩ := exists_sound hdata (htarget i rfl)
      rw [constructs, hi, Option.bind_some] at hfound
      obtain ⟨hshared, hfound⟩ := Option.ite_none_right_eq_some.mp hfound
      cases hfound
      rcases StringData.clone_of_not_spare hsound.fits hspare with he | ⟨e, he, hhollow⟩
      · simp only [exec, hi, if_pos hshared, he, bind, Except.bind]
        exact fun hrepresented => hrepresented rfl
      · simp only [exec, hi, if_pos hshared, he, bind, Except.bind, pure, Except.pure]
        exact not_represented_append hhollow
  | append i m str =>
      obtain ⟨d, hi, hsound⟩ := exists_sound hdata (htarget i rfl)
      rw [constructs, hi, Option.bind_some] at hfound
      obtain ⟨hshared, hfound⟩ := Option.ite_none_left_eq_some.mp hfound
      cases hfound
      rcases hsound.append_of_not_spare hshared hspare with he | ⟨e, rest, he, hhollow⟩
      · simp only [exec, hi, he, bind, Except.bind]
        exact fun hrepresented => hrepresented rfl
      · simp only [exec, hi, he, bind, Except.bind, pure, Except.pure]
        exact not_represented_append hhollow

end DataOp

/-- **The representation**: it holds in all states of a run exactly if the memory of all new data
holds a zero in the place of `capacity_`, or less than the capacity that is asked for. -/
theorem represented_iff {ops : List DataOp} {s : Except Fault (List StringData)}
    (hrun : dataPrograms.run (.ok []) ops = some s) :
    dataPrograms.Always Represented (.ok []) ops ↔
      dataPrograms.EachStep Initialized (.ok []) ops := by
  have hinit : ∀ data : List StringData, Except.ok (ε := Fault) ([] : List StringData) = .ok data →
      ∀ d ∈ data, d.Sound := by
    intro data hdata
    cases hdata
    exact List.forall_mem_nil _
  refine System.always_iff_eachStep_within (G := fun _ _ => True)
    (I := fun s => ∀ data, s = .ok data → ∀ d ∈ data, d.Sound)
    ?_ ?_ hinit (List.forall_mem_nil _) (System.eachStep_of_run (fun _ _ _ _ => trivial) hrun) hrun
  · intro s op s' hI _ hop hstep data' hdata'
    subst hdata'
    cases s with
    | error fault => cases hstep
    | ok data =>
        obtain ⟨htarget, hexec⟩ := Option.ite_none_right_eq_some.mp hstep
        obtain ⟨_, hexec', hsound⟩ := DataOp.exec_of_initialized (hI data rfl) htarget hop
        rw [hexec', Option.some.injEq] at hexec
        cases hexec
        exact hsound
  · intro s op s' hI _ _ hstep
    cases s with
    | error fault => cases hstep
    | ok data =>
        obtain ⟨htarget, hexec⟩ := Option.ite_none_right_eq_some.mp hstep
        obtain rfl := Option.some.inj hexec
        constructor
        · intro hrepresented
          by_contra hop
          exact DataOp.exec_of_not_initialized (hI data rfl) htarget hop hrepresented
        · intro hop
          obtain ⟨data', hexec', hsound⟩ := DataOp.exec_of_initialized (hI data rfl) htarget hop
          rw [hexec']
          exact fun d hd => (hsound d hd).fits

/-- A string that is shared and grows, and a clone; each finds less than it asks for. -/
def sharedAndGrown : List DataOp :=
  [.constructText 1 (ascii "ab"), .copy 0 0, .append 0 3 (ascii "cdefgh"), .clone 1 7 2,
    .append 2 0 (ascii "ijkl")]

theorem represented_iff_shared :
    dataPrograms.Always Represented (.ok []) sharedAndGrown ∧
      (dataPrograms.run (.ok []) sharedAndGrown).map (Except.map (List.map (·.text))) =
        some (.ok [ascii "ab", ascii "abcdefgh", ascii "abcdefghijkl"]) := by
  have hrun : (dataPrograms.run (.ok []) sharedAndGrown).map (Except.map (List.map (·.text))) =
      some (.ok [ascii "ab", ascii "abcdefgh", ascii "abcdefghijkl"]) := by
    decide
  obtain ⟨s, hs, -⟩ := Option.map_eq_some_iff.mp hrun
  exact ⟨(represented_iff hs).mpr (by decide), hrun⟩

/-- Two bytes are copied to a buffer that is not there. -/
theorem construct_not_represented :
    ∃ s, dataPrograms.run (.ok []) [.constructText 100 (ascii "ab")] = some s ∧
      ¬ Represented s :=
  ⟨.error .outOfBounds, rfl, fun hrepresented => hrepresented rfl⟩

end Eureka.RcString

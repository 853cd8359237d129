import Mathlib

/-!
# Views of a text

A view is a stretch of a text: where it begins there, and what it is.  The
operations that shorten a view are checked against its length.

A consumer takes what it reads off the front of a view.  It may fail, which
leaves the view as it is by then.

* `View.Piece`, `View.Tail`: a view within another one, and at its end.
* `Consumer.SafeAt`: a consumer stays within its view, whether it fails or not;
  `Consumer.SafeAt.bind` is the rule for two of them in a row.
-/

namespace Eureka

/-- Why a computation on views goes wrong. -/
inductive ViewFault
  | outOfRange
  /-- A loop does not end. -/
  | endless
deriving DecidableEq, Repr

structure View (α : Type) where
  offset : ℕ
  text : List α
deriving DecidableEq, Repr

namespace View

variable {α : Type}

/-- A view of nothing. -/
def null : View α := ⟨0, []⟩

/-- Where the view ends in the text. -/
def stop (v : View α) : ℕ := v.offset + v.text.length

/-! ## Operations -/

/-- `v.substr(pos, count)`. -/
def substr (v : View α) (pos count : ℕ) : Except ViewFault (View α) :=
  if pos ≤ v.text.length then .ok ⟨v.offset + pos, (v.text.drop pos).take count⟩
  else .error .outOfRange

/-- `v.substr(pos)`. -/
def substrFrom (v : View α) (pos : ℕ) : Except ViewFault (View α) :=
  v.substr pos v.text.length

def removePrefix (v : View α) (count : ℕ) : Except ViewFault (View α) :=
  if count ≤ v.text.length then .ok ⟨v.offset + count, v.text.drop count⟩
  else .error .outOfRange

def removeSuffix (v : View α) (count : ℕ) : Except ViewFault (View α) :=
  if count ≤ v.text.length then .ok ⟨v.offset, v.text.take (v.text.length - count)⟩
  else .error .outOfRange

theorem ok_bind {β γ : Type} (b : β) (f : β → Except ViewFault γ) : Except.ok b >>= f = f b :=
  rfl

/-! ## Views within a view -/

/-- `w` is a stretch of `v`. -/
def Piece (v w : View α) : Prop :=
  ∃ before after, v.text = before ++ (w.text ++ after) ∧ w.offset = v.offset + before.length

/-- `w` is what is left of `v` when something is taken off its front. -/
def Tail (v w : View α) : Prop :=
  ∃ before, v.text = before ++ w.text ∧ w.offset = v.offset + before.length

variable {u v w : View α} {pos count : ℕ}

theorem Tail.refl (v : View α) : v.Tail v := ⟨[], rfl, rfl⟩

theorem Tail.trans (hv : u.Tail v) (hw : v.Tail w) : u.Tail w := by
  obtain ⟨first, htext, hoffset⟩ := hv
  obtain ⟨second, htext', hoffset'⟩ := hw
  refine ⟨first ++ second, ?_, ?_⟩
  · rw [htext, htext', List.append_assoc]
  · rw [hoffset', hoffset, List.length_append, Nat.add_assoc]

theorem Tail.piece (h : v.Tail w) : v.Piece w := by
  obtain ⟨before, htext, hoffset⟩ := h
  exact ⟨before, [], by rw [htext, List.append_nil], hoffset⟩

theorem Tail.offset_le (h : v.Tail w) : v.offset ≤ w.offset := by
  obtain ⟨before, -, hoffset⟩ := h
  omega

theorem Tail.length_le (h : v.Tail w) : w.text.length ≤ v.text.length := by
  obtain ⟨before, htext, -⟩ := h
  rw [htext, List.length_append]
  exact Nat.le_add_left _ _

theorem Piece.trans (hv : u.Piece v) (hw : v.Piece w) : u.Piece w := by
  obtain ⟨before, after, htext, hoffset⟩ := hv
  obtain ⟨before', after', htext', hoffset'⟩ := hw
  refine ⟨before ++ before', after' ++ after, ?_, ?_⟩
  · rw [htext, htext']
    simp only [List.append_assoc]
  · rw [hoffset', hoffset, List.length_append, Nat.add_assoc]

theorem Piece.offset_le (h : v.Piece w) : v.offset ≤ w.offset := by
  obtain ⟨before, after, -, hoffset⟩ := h
  omega

theorem Piece.isInfix (h : v.Piece w) : w.text <:+: v.text := by
  obtain ⟨before, after, htext, -⟩ := h
  exact ⟨before, after, by rw [htext, List.append_assoc]⟩

theorem null_piece (h : v.offset = 0) : v.Piece null := ⟨[], v.text, rfl, h.symm⟩

/-! ## What the operations leave -/

theorem substr_spec (h : pos ≤ v.text.length) (count : ℕ) :
    ∃ w, v.substr pos count = .ok w ∧ v.Piece w ∧ w.offset = v.offset + pos ∧
      w.text = (v.text.drop pos).take count := by
  refine ⟨_, if_pos h, ⟨v.text.take pos, (v.text.drop pos).drop count, ?_, ?_⟩, rfl, rfl⟩
  · rw [List.take_append_drop, List.take_append_drop]
  · rw [List.length_take_of_le h]

theorem substrFrom_spec (h : pos ≤ v.text.length) :
    ∃ w, v.substrFrom pos = .ok w ∧ v.Piece w ∧ w.text = v.text.drop pos := by
  obtain ⟨w, hw, hpiece, -, htext⟩ := substr_spec h v.text.length
  refine ⟨w, hw, hpiece, htext.trans (List.take_of_length_le ?_)⟩
  rw [List.length_drop]
  exact Nat.sub_le _ _

theorem removePrefix_spec (h : count ≤ v.text.length) :
    ∃ w, v.removePrefix count = .ok w ∧ v.Tail w ∧ w.offset = v.offset + count ∧
      w.text = v.text.drop count := by
  refine ⟨_, if_pos h, ⟨v.text.take count, (List.take_append_drop _ _).symm, ?_⟩, rfl, rfl⟩
  rw [List.length_take_of_le h]

theorem removeSuffix_spec (h : count ≤ v.text.length) :
    ∃ w, v.removeSuffix count = .ok w ∧ v.Piece w ∧ w.offset = v.offset ∧
      w.text = v.text.take (v.text.length - count) :=
  ⟨_, if_pos h, ⟨[], v.text.drop (v.text.length - count), (List.take_append_drop _ _).symm, rfl⟩,
    rfl, rfl⟩

end View

/-! ## Consumers -/

/-- What is read from the front of a view, if anything, and what is left. -/
def Consumer (α β : Type) : Type := View α → Except ViewFault (Option β × View α)

namespace Consumer

variable {α β γ : Type}

def andThen (m : Consumer α β) (f : β → Consumer α γ) : Consumer α γ := fun v =>
  match m v with
  | .error fault => .error fault
  | .ok (none, w) => .ok (none, w)
  | .ok (some b, w) => f b w

instance : Monad (Consumer α) where
  pure b v := .ok (some b, v)
  bind := andThen

def fail : Consumer α β := fun v => .ok (none, v)

def view : Consumer α (View α) := fun v => .ok (some v, v)

/-- Takes the first elements off the view. -/
def skip (count : ℕ) : Consumer α Unit := fun v => do
  let w ← v.removePrefix count
  return (some (), w)

/-- What is computed without the view. -/
def lift (x : Except ViewFault β) : Consumer α β := fun v => do
  let b ← x
  return (some b, v)

variable {m : Consumer α β} {f : β → Consumer α γ} {b : β} {v w : View α}

theorem bind_of_some (h : m v = .ok (some b, w)) : (m >>= f) v = f b w := by
  show andThen m f v = _
  rw [andThen, h]

theorem bind_of_none (h : m v = .ok (none, w)) : (m >>= f) v = .ok (none, w) := by
  show andThen m f v = _
  rw [andThen, h]

theorem view_bind {f : View α → Consumer α γ} : (view >>= f) v = f v v :=
  rfl

theorem lift_bind {x : Except ViewFault β} (hx : x = .ok b) : (lift x >>= f) v = f b v := by
  refine bind_of_some ?_
  rw [lift, hx]
  rfl

theorem skip_append {front rest : List α} (h : v.text = front ++ rest) :
    ∃ w, skip front.length v = .ok (some (), w) ∧ w.text = rest := by
  have hlength : front.length ≤ v.text.length := by
    rw [h, List.length_append]
    exact Nat.le_add_right _ _
  obtain ⟨w, hw, -, -, htext⟩ := View.removePrefix_spec hlength
  refine ⟨w, ?_, by rw [htext, h, List.drop_left]⟩
  rw [skip, hw]
  rfl

/-- From this view on the consumer does not go wrong, and takes off its front only. -/
def SafeAt (v : View α) (m : Consumer α β) (post : β → View α → Prop) : Prop :=
  ∃ result w, m v = .ok (result, w) ∧ v.Tail w ∧ ∀ b ∈ result, post b w

variable {post : β → View α → Prop} {post' : γ → View α → Prop}

theorem safeAt_pure (h : post b v) : SafeAt v (pure b) post :=
  ⟨some b, v, rfl, .refl v, by simpa using h⟩

theorem safeAt_fail : SafeAt v fail post :=
  ⟨none, v, rfl, .refl v, by simp⟩

theorem safeAt_skip {count : ℕ} {post : Unit → View α → Prop} (hcount : count ≤ v.text.length)
    (h : ∀ w, v.Tail w → w.offset = v.offset + count → w.text = v.text.drop count → post () w) :
    SafeAt v (skip count) post := by
  obtain ⟨w, hw, htail, hoffset, htext⟩ := View.removePrefix_spec hcount
  refine ⟨some (), w, ?_, htail, fun _ _ => h w htail hoffset htext⟩
  rw [skip, hw]
  rfl

theorem SafeAt.bind (hm : SafeAt v m post)
    (hf : ∀ b w, v.Tail w → post b w → SafeAt w (f b) post') : SafeAt v (m >>= f) post' := by
  obtain ⟨result, w, hrun, htail, hpost⟩ := hm
  cases result with
  | none => exact ⟨none, w, bind_of_none hrun, htail, by simp⟩
  | some b =>
      obtain ⟨result', x, hrun', htail', hpost'⟩ := hf b w htail (hpost b rfl)
      exact ⟨result', x, (bind_of_some hrun).trans hrun', htail.trans htail', hpost'⟩

theorem safeAt_view_bind {f : View α → Consumer α γ} (h : SafeAt v (f v) post') :
    SafeAt v (view >>= f) post' :=
  h

theorem safeAt_lift_bind {x : Except ViewFault β} (hx : x = .ok b) (h : SafeAt v (f b) post') :
    SafeAt v (lift x >>= f) post' := by
  obtain ⟨result, w, hrun, hrest⟩ := h
  exact ⟨result, w, (lift_bind hx).trans hrun, hrest⟩

end Consumer

end Eureka

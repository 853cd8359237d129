import Mathlib
import Eureka.RcString.Interleavings

/-!
# The steps of the threads

Every step of a thread that knows what `Pc.Ok` says is possible, and keeps the
invariant (`Machine.Coherent.exec`).  The cases follow the stages of a call:
entering a variable (`enter`), sharing data (`share`), changing data alone
(`change`), and the last and any other release (`last`, `left`).
-/

namespace Eureka.RcString

variable {Thread Var : Type} [DecidableEq Var]

theorem Change.write_spec {d : StringData} {x : Var} {change : Change} (hd : d.Fits)
    (hroom : d.size + change.growth ≤ d.capacity) :
    ∃ e, change.write d = .ok e ∧ e.Fits ∧ e.refCount = d.refCount ∧
      ∀ texts : Var → Option Bytes, texts x = some d.text →
        (change.op x).apply texts x = some e.text := by
  cases change with
  | append str =>
      obtain ⟨c, hcopy, hfits, htext, -⟩ := Content.copyData_spec hd hroom
      refine ⟨⟨c, d.refCount⟩, ?_, hfits, rfl, fun texts hx => ?_⟩
      · unfold Change.write
        dsimp only
        rw [hcopy]
        rfl
      · show Function.update texts x ((texts x).map (· ++ str)) x = some c.text
        rw [Function.update_self, hx, htext]
        rfl
  | set pos ch =>
      refine ⟨_, rfl, hd.set pos ch, rfl, fun texts hx => ?_⟩
      show Function.update texts x ((texts x).map (·.set pos ch)) x = some (d.toContent.set pos ch).text
      rw [Function.update_self, hx, Content.text_set]
      rfl
  | get pos => exact ⟨d, rfl, hd, rfl, fun texts hx => hx⟩

omit [DecidableEq Var] in
theorem Op.target_change (x : Var) (change : Change) : (change.op x).target = x := by
  cases change <;> rfl

theorem shown_of_mem {m : Memory Var} {texts : Var → Option Bytes} {x : Var}
    (hx : x ∈ m.vars.live) : shown m texts x = texts x := if_pos hx

theorem shown_of_notMem {m : Memory Var} {texts : Var → Option Bytes} {x : Var}
    (hx : x ∉ m.vars.live) : shown m texts x = none := if_neg hx

namespace Machine

variable [DecidableEq Thread] {s : Machine Thread Var} {t : Thread} {x other : Var} {p : ℕ}
  {d e : StringData} {o : Outcome Var} {text : Option Bytes}

omit [DecidableEq Thread] in
theorem Coherent.owned (h : s.Coherent) (hx : x ∈ s.memory.vars.live) :
    ∃ d, s.memory.heap (s.memory.vars.obj x) = some d ∧ s.texts x = some d.text ∧ d.Fits ∧
      Counts d (s.memory.vars.of (s.memory.vars.obj x)).card := by
  obtain ⟨d, hd, htext⟩ := h.memory.owned hx
  obtain ⟨hfits, hcounts, -⟩ := h.memory.cell_some hd
  rw [shown_of_mem hx] at htext
  exact ⟨d, hd, htext, hfits, hcounts⟩

theorem Coherent.ledger_same (h : s.Coherent) (hold : (s.pcs t).doomed = none) :
    Ledger s.memory.deleted (s.deleted ++ []) (Function.update (fun u => (s.pcs u).doomed) t none) := by
  rw [List.append_nil, Function.update_eq_self_iff.mpr hold.symm]
  exact h.ledger

theorem Coherent.load (h : s.Coherent) {pc : Pc Var} (hok : pc.Ok s.memory s.texts)
    (htarget : pc.target = (s.pcs t).target)
    (hsource : pc.source = none ∨ pc.source = (s.pcs t).source) (hdoomed : pc.doomed = none)
    (hold : (s.pcs t).doomed = none) : s.Keeps t ⟨s.memory, pc, none, none⟩ where
  memory := h.memory
  ok := hok
  target := .inr htarget
  source := hsource
  absent _ hx hnone := nomatch hnone.symm.trans (htarget.trans hx)
  texts_eq _ _ := rfl
  frame _ _ := Frame.refl _ _
  aloneFrame _ _ _ := AloneFrame.refl _ _
  ledger := by
    rw [hdoomed]
    exact h.ledger_same hold

theorem Coherent.keeps_of_touch (h : s.Coherent) (htarget : (s.pcs t).target = some x)
    (htouch : Touch s.memory o.memory x p)
    (halone : ∀ y, y ≠ x → (s.pcs t).source ≠ some y → y ∈ s.memory.vars.live →
      Alone s.memory y → s.memory.vars.obj y ≠ p)
    (heffect : ∀ op, o.effect = some op → op.target = x)
    (hmemory : Inv o.memory (Function.update (shown s.memory s.texts) x text))
    (htext : shown o.memory (s.textsAfter o) x = text) (hok : o.pc.Ok o.memory (s.textsAfter o))
    (hsource : o.pc.source = none)
    (hnext : o.pc.target = some x ∨ o.pc.target = none ∧
      (x ∉ o.memory.vars.live → s.textsAfter o x = none))
    (hledger : Ledger o.memory.deleted (s.deleted ++ o.deleted.toList)
      (Function.update (fun u => (s.pcs u).doomed) t o.pc.doomed)) : s.Keeps t o := by
  have hne : ∀ y, (s.pcs t).target ≠ some y → y ≠ x := by
    rintro y hy rfl
    exact hy htarget
  have htexts : ∀ y, y ≠ x → s.textsAfter o y = s.texts y := by
    intro y hy
    unfold textsAfter
    cases hop : o.effect with
    | none => rfl
    | some op => exact Op.apply_of_ne (heffect op hop ▸ hy) s.texts
  refine ⟨?_, hok, ?_, .inl hsource, fun y hy hnone hlive => ?_, fun y hy => htexts y (hne y hy),
    fun y hy => htouch.frame h.memory (hne y hy), fun y hy hyother => ?_, hledger⟩
  · rw [shown_eq_update htouch.live_iff htexts htext]
    exact hmemory
  · rw [htarget]
    exact hnext.symm.imp And.left id
  · obtain rfl : x = y := Option.some.inj (htarget.symm.trans hy)
    obtain hsome | ⟨-, hdead⟩ := hnext
    · exact nomatch hnone.symm.trans hsome
    · exact hdead hlive
  · exact htouch.aloneFrame h.memory (hne y hy) (halone y (hne y hy) hyother)

theorem Coherent.enter (h : s.Coherent) (htarget : (s.pcs t).target = some x)
    (hold : (s.pcs t).doomed = none) (hx : x ∉ s.memory.vars.live) (he : e.Fits)
    (hcount : e.refCount = 1) {op : Op Var} (hop : op.target = x)
    (heffect : op.apply s.texts x = some e.text) :
    s.Keeps t ⟨s.memory.allocate x e, .idle, none, some op⟩ := by
  have hlive : x ∈ (s.memory.allocate x e).vars.live := Finset.mem_insert_self _ _
  refine h.keeps_of_touch htarget (Touch.allocate h.memory) (fun y _ _ hy _ => ?_) ?_
    (h.memory.allocate hx he hcount) ((shown_of_mem hlive).trans heffect) trivial rfl
    (.inr ⟨rfl, fun hdead => absurd hlive hdead⟩) (h.ledger_same hold)
  · obtain ⟨d, hd, -⟩ := h.owned hy
    exact (h.memory.lt_next hd).ne
  · rintro op' hop'
    rw [← Option.some.inj hop']
    exact hop

theorem Coherent.share (h : s.Coherent) (hpc : s.pcs t = .copyAdd x other)
    (hroom : (s.memory.vars.of (s.memory.vars.obj other)).card + 1 < kUnsharedRefMark)
    (hd : s.memory.heap (s.memory.vars.obj other) = some d) :
    s.Keeps t ⟨(s.memory.put (s.memory.vars.obj other) d.fetchAdd).point x
      (s.memory.vars.obj other), .idle, none, some (.copy x other)⟩ := by
  have hok := h.ok t
  rw [hpc] at hok
  obtain ⟨hx, hother, hshareable⟩ := hok
  obtain ⟨-, hcounts, htexts⟩ := h.memory.cell_some hd
  have hmem : other ∈ s.memory.vars.of (s.memory.vars.obj other) := Owners.mem_of.mpr ⟨hother, rfl⟩
  have hne := hshareable d hd
  have hcount : d.refCount = (s.memory.vars.of (s.memory.vars.obj other)).card := by
    obtain ⟨hmark, -⟩ | ⟨hcount, -⟩ := hcounts
    · exact absurd hmark hne
    · exact hcount
  rw [← hcount] at hroom
  have hadd : d.fetchAdd = { d with refCount := d.refCount + 1 } := by
    have hmod : (d.refCount + 1) % 2 ^ 32 = d.refCount + 1 := by
      apply Nat.mod_eq_of_lt
      unfold kUnsharedRefMark at hroom
      omega
    unfold StringData.fetchAdd
    rw [hmod]
  rw [hadd]
  have hlive : x ∈ (insert x s.memory.vars.live : Finset Var) := Finset.mem_insert_self _ _
  refine h.keeps_of_touch (o := ⟨_, _, _, _⟩) (by rw [hpc]; rfl) (Touch.share hroom.ne)
    (fun y _ hy _ halone => ?_) ?_ (h.memory.share hx hd hne hroom) ?_ trivial rfl
    (.inr ⟨rfl, fun hdead => absurd hlive hdead⟩) (h.ledger_same (by rw [hpc]; rfl))
  · refine Touch.ne_of_mem hmem ?_ halone
    rintro rfl
    exact hy (by rw [hpc]; rfl)
  · rintro op hop
    rw [← Option.some.inj hop]
    rfl
  · have htext : shown s.memory s.texts other = some d.text := htexts other hmem
    rw [shown_of_mem hother] at htext
    refine (shown_of_mem hlive).trans ?_
    show Function.update s.texts x (s.texts other) x = some d.text
    rw [Function.update_self, htext]

theorem Coherent.change (h : s.Coherent) (htarget : (s.pcs t).target = some x)
    (hold : (s.pcs t).doomed = none) (halone : Alone s.memory x) (he : e.Fits)
    (hcount : e.refCount = 1 ∨ e.refCount = kUnsharedRefMark) {pc : Pc Var}
    {effect : Option (Op Var)} (heffect : ∀ op, effect = some op → op.target = x)
    (htext : s.textsAfter ⟨s.memory, pc, none, effect⟩ x = some e.text)
    (hok : pc.Ok (s.memory.put (s.memory.vars.obj x) e) (s.textsAfter ⟨s.memory, pc, none, effect⟩))
    (hsource : pc.source = none) (hnext : pc.target = some x ∨ pc.target = none)
    (hdoomed : pc.doomed = none) :
    s.Keeps t ⟨s.memory.put (s.memory.vars.obj x) e, pc, none, effect⟩ := by
  have hmem : x ∈ s.memory.vars.of (s.memory.vars.obj x) :=
    (show s.memory.vars.of (s.memory.vars.obj x) = {x} from halone) ▸ Finset.mem_singleton_self x
  have hlive := (Owners.mem_of.mp hmem).1
  refine h.keeps_of_touch htarget (Touch.put halone) (fun y hy _ _ hsole => ?_) heffect
    (h.memory.put_sole halone he hcount) ((shown_of_mem hlive).trans htext) hok hsource
    (hnext.imp_right fun hnone => ⟨hnone, fun hdead => absurd hlive hdead⟩) ?_
  · exact Touch.ne_of_mem hmem (Ne.symm hy) hsole
  · show Ledger s.memory.deleted (s.deleted ++ []) (Function.update _ t pc.doomed)
    rw [hdoomed]
    exact h.ledger_same hold

theorem Coherent.last (h : s.Coherent) (htarget : (s.pcs t).target = some x)
    (hold : (s.pcs t).doomed = none) (hx : x ∈ s.memory.vars.live) (halone : Alone s.memory x)
    {d' : StringData} (hd : d'.destructible = true) {after : After}
    (hafter : after.Ok (s.texts x)) : s.Keeps t (after.last s.memory x d') := by
  obtain ⟨d, hheap, -⟩ := h.memory.owned hx
  have hmem : x ∈ s.memory.vars.of (s.memory.vars.obj x) := Owners.mem_of.mpr ⟨hx, rfl⟩
  have hdead : x ∉ (s.memory.vars.drop x).live := Finset.notMem_erase _ _
  have hfresh : s.memory.vars.obj x ∉ s.memory.deleted := by
    rw [h.memory.mem_deleted, hheap]
    exact fun hdeleted => nomatch hdeleted.2
  refine h.keeps_of_touch htarget Touch.retire (fun y hy _ _ hsole => ?_) ?_
    (h.memory.drop_sole halone hheap) (shown_of_notMem hdead) ?_ rfl (.inl rfl) ?_
  · exact Touch.ne_of_mem hmem (Ne.symm hy) hsole
  · cases after with
    | ends =>
        intro op hop
        rw [← Option.some.inj hop]
        rfl
    | renews => nofun
  · cases after with
    | ends =>
        refine ⟨hdead, hd, trivial, fun _ => ?_⟩
        show Function.update s.texts x none x = none
        exact Function.update_self _ _ _
    | renews newData change => exact ⟨hdead, hd, hafter, nofun⟩
  · show Ledger _ (s.deleted ++ []) _
    rw [List.append_nil]
    exact h.ledger.release hold hfresh

theorem fetchSub_eq (hpos : 0 < d.refCount) (hlt : d.refCount < kUnsharedRefMark) :
    d.fetchSub = { d with refCount := d.refCount - 1 } := by
  have hmod : (d.refCount + (2 ^ 32 - 1)) % 2 ^ 32 = d.refCount - 1 := by
    unfold kUnsharedRefMark at hlt
    omega
  unfold StringData.fetchSub
  rw [hmod]

theorem Coherent.left (h : s.Coherent) (htarget : (s.pcs t).target = some x)
    (hold : (s.pcs t).doomed = none) (hx : x ∈ s.memory.vars.live)
    (hd : s.memory.heap (s.memory.vars.obj x) = some d)
    (hcard : (s.memory.vars.of (s.memory.vars.obj x)).card ≠ 1)
    (hlt : d.refCount < kUnsharedRefMark) {after : After} (hafter : after.Ok (s.texts x)) :
    s.Keeps t (after.left s.memory x { d with refCount := d.refCount - 1 }) := by
  have hmem : x ∈ s.memory.vars.of (s.memory.vars.obj x) := Owners.mem_of.mpr ⟨hx, rfl⟩
  have hne : d.refCount - 1 ≠ kUnsharedRefMark := by omega
  have halone : ∀ y, y ≠ x → (s.pcs t).source ≠ some y → y ∈ s.memory.vars.live →
      Alone s.memory y → s.memory.vars.obj y ≠ s.memory.vars.obj x :=
    fun y hy _ _ hsole => Touch.ne_of_mem hmem (Ne.symm hy) hsole
  cases after with
  | ends =>
      have hdead : x ∉ (s.memory.vars.drop x).live := Finset.notMem_erase _ _
      refine h.keeps_of_touch (o := ⟨_, _, _, _⟩) htarget (Touch.leave hne) halone ?_
        (h.memory.drop_shared hmem hd hcard) (shown_of_notMem hdead) trivial rfl
        (.inr ⟨rfl, fun _ => ?_⟩) (h.ledger_same hold)
      · intro op hop
        rw [← Option.some.inj hop]
        rfl
      · show Function.update s.texts x none x = none
        exact Function.update_self _ _ _
  | renews newData change =>
      obtain ⟨hfits, hcount, htext, hroom⟩ := hafter
      have hlive : x ∈ (insert x s.memory.vars.live : Finset Var) := Finset.mem_insert_self _ _
      obtain ⟨-, -, htexts⟩ := h.memory.cell_some hd
      have hsame : newData.text = d.text := by
        have hshown : shown s.memory s.texts x = some d.text := htexts x hmem
        rw [shown_of_mem hx, htext] at hshown
        exact Option.some.inj hshown
      have hinv := h.memory.unshare hmem hd hcard hfits hcount hsame
      rw [← Function.update_eq_self x (shown s.memory s.texts)] at hinv
      refine h.keeps_of_touch (o := ⟨_, _, _, _⟩) htarget (Touch.renew h.memory hd hne) halone nofun
        hinv ?_ ⟨hlive, alone_allocate h.memory.of_fresh, hasRoom_allocate hroom⟩ rfl (.inl rfl)
        (h.ledger_same hold)
      rw [shown_of_mem hx]
      exact shown_of_mem hlive

theorem Coherent.delete (h : s.Coherent) {after : After} (hpc : s.pcs t = .delete x p d after) :
    s.Keeps t (after.deleted s.memory x p) := by
  have hok := h.ok t
  rw [hpc] at hok
  obtain ⟨hx, -, hafter, hends⟩ := hok
  have hledger := h.ledger.delete (t := t) (p := p) (by rw [hpc]; rfl)
  cases after with
  | ends =>
      refine ⟨h.memory, trivial, .inl rfl, .inl rfl, fun y hy _ _ => ?_, fun _ _ => rfl,
        fun _ _ => Frame.refl _ _, fun _ _ _ => AloneFrame.refl _ _, hledger⟩
      rw [hpc] at hy
      exact Option.some.inj hy ▸ hends rfl
  | renews newData change =>
      obtain ⟨hfits, hcount, htext, hroom⟩ := hafter
      have hlive : x ∈ (insert x s.memory.vars.live : Finset Var) := Finset.mem_insert_self _ _
      refine h.keeps_of_touch (o := ⟨_, _, _, _⟩) (by rw [hpc]; rfl) (Touch.allocate h.memory)
        (fun y _ _ hy _ => ?_) nofun (h.memory.allocate hx hfits hcount)
        ((shown_of_mem hlive).trans htext)
        ⟨hlive, alone_allocate h.memory.of_fresh, hasRoom_allocate hroom⟩ rfl (.inl rfl) hledger
      obtain ⟨e, he, -⟩ := h.owned hy
      exact (h.memory.lt_next he).ne

/-! ### All steps -/

/-- A copy of data leaves its count below the mark. -/
def HasSpareCount (s : Machine Thread Var) (t : Thread) : Prop :=
  match s.pcs t with
  | .copyAdd _ other => (s.memory.vars.of (s.memory.vars.obj other)).card + 1 < kUnsharedRefMark
  | _ => True

theorem bind_ok {α β : Type} {value : Except Fault α} {result : α} (hvalue : value = .ok result)
    (next : α → Except Fault β) : (value >>= next) = next result := by
  rw [hvalue]
  rfl

omit [DecidableEq Var] in
theorem bind_deref {β : Type} {m : Memory Var} (hd : m.heap p = some d)
    (next : StringData → Except Fault β) : (m.deref p >>= next) = next d :=
  bind_ok (Inv.deref_eq hd) next

omit [DecidableEq Var] in
theorem unique_of_alone {m : Memory Var} (halone : Alone m x)
    (hcounts : Counts d (m.vars.of (m.vars.obj x)).card) : d.unique = true := by
  apply hcounts.unique_iff.mpr
  rw [show m.vars.of (m.vars.obj x) = {x} from halone, Finset.card_singleton]

theorem Coherent.release (h : s.Coherent) {after : After} (hpc : s.pcs t = .releaseSub x after)
    (hd : s.memory.heap (s.memory.vars.obj x) = some d) :
    s.Keeps t (if d.fetchSub.refCount = 0 then after.last s.memory x d.fetchSub
      else after.left s.memory x d.fetchSub) := by
  have hok := h.ok t
  rw [hpc] at hok
  obtain ⟨hx, hshareable, hafter⟩ := hok
  obtain ⟨-, hcounts, -⟩ := h.memory.cell_some hd
  have hmem : x ∈ s.memory.vars.of (s.memory.vars.obj x) := Owners.mem_of.mpr ⟨hx, rfl⟩
  obtain ⟨hmark, -⟩ | ⟨hcount, hpos, hlt⟩ := hcounts
  · exact absurd hmark (hshareable d hd)
  have hsub := fetchSub_eq (hcount ▸ hpos) (hcount ▸ hlt)
  rw [hsub]
  split
  next hzero =>
    have hone : (s.memory.vars.of (s.memory.vars.obj x)).card = 1 := by
      have hpred : d.refCount - 1 = 0 := hzero
      omega
    refine h.last (by rw [hpc]; rfl) (by rw [hpc]; rfl) hx (Owners.of_eq_singleton hone hmem) ?_ hafter
    exact decide_eq_true (.inl hzero)
  next hne =>
    have hmany : (s.memory.vars.of (s.memory.vars.obj x)).card ≠ 1 := by
      have hpred : d.refCount - 1 ≠ 0 := hne
      omega
    exact h.left (by rw [hpc]; rfl) (by rw [hpc]; rfl) hx hd hmany (hcount ▸ hlt) hafter

/-- **Every step is possible**, and keeps the invariant. -/
theorem Coherent.exec (h : s.Coherent) (hspare : HasSpareCount s t) :
    ∃ o, (s.pcs t).exec s.memory = .ok o ∧ s.Keeps t o := by
  have hok := h.ok t
  unfold HasSpareCount at hspare
  cases hpc : s.pcs t with
  | idle =>
      exact ⟨_, rfl, h.load trivial (by rw [hpc]) (.inl rfl) rfl (by rw [hpc]; rfl)⟩
  | construct x =>
      rw [hpc] at hok
      obtain ⟨e, he, hfits, htext, hcount⟩ := s.memory.construct_eq x
      refine ⟨⟨s.memory.allocate x e, .idle, none, some (.construct x)⟩, ?_,
        h.enter (by rw [hpc]; rfl) (by rw [hpc]; rfl) hok hfits hcount rfl ?_⟩
      · exact bind_ok he _
      · rw [htext]
        exact Function.update_self _ _ _
  | constructText x str =>
      rw [hpc] at hok
      obtain ⟨e, he, hfits, htext, hcount⟩ := s.memory.constructText_eq x str
      refine ⟨⟨s.memory.allocate x e, .idle, none, some (.constructText x str)⟩, ?_,
        h.enter (by rw [hpc]; rfl) (by rw [hpc]; rfl) hok hfits hcount rfl ?_⟩
      · exact bind_ok he _
      · rw [htext]
        exact Function.update_self _ _ _
  | copyTest x other =>
      rw [hpc] at hok
      obtain ⟨hx, hother⟩ := hok
      obtain ⟨d, hd, -⟩ := h.owned hother
      refine ⟨_, bind_deref hd _, ?_⟩
      cases hshared : d.unsharedable with
      | true =>
          show s.Keeps t ⟨s.memory, .copyClone x other, none, none⟩
          exact h.load ⟨hx, hother⟩ (by rw [hpc]; rfl) (by rw [hpc]; exact .inr rfl) rfl
            (by rw [hpc]; rfl)
      | false =>
          show s.Keeps t ⟨s.memory, .copyAssert x other, none, none⟩
          refine h.load ⟨hx, hother, fun e he => ?_⟩ (by rw [hpc]; rfl) (by rw [hpc]; exact .inr rfl)
            rfl (by rw [hpc]; rfl)
          obtain rfl := Option.some.inj (hd.symm.trans he)
          exact of_decide_eq_false hshared
  | copyClone x other =>
      rw [hpc] at hok
      obtain ⟨hx, hother⟩ := hok
      obtain ⟨d, hd, htext, hfits, -⟩ := h.owned hother
      obtain ⟨e, hclone, hefits, hetext, -, hcount⟩ := StringData.clone_spec hfits d.size
      refine ⟨⟨s.memory.allocate x e, .idle, none, some (.copy x other)⟩, ?_,
        h.enter (by rw [hpc]; rfl) (by rw [hpc]; rfl) hx hefits hcount rfl ?_⟩
      · refine (bind_deref hd _).trans ?_
        rw [hclone]
        rfl
      · show Function.update s.texts x (s.texts other) x = some e.text
        rw [Function.update_self, htext, hetext]
  | copyAssert x other =>
      rw [hpc] at hok
      obtain ⟨d, hd, -, -, hcounts⟩ := h.owned hok.2.1
      refine ⟨_, (bind_deref hd _).trans (if_pos hcounts.pos.2), ?_⟩
      exact h.load hok (by rw [hpc]; rfl) (by rw [hpc]; exact .inr rfl) rfl (by rw [hpc]; rfl)
  | copyAdd x other =>
      rw [hpc] at hok hspare
      obtain ⟨d, hd, -⟩ := h.owned hok.2.1
      exact ⟨_, bind_deref hd _, h.share hpc hspare hd⟩
  | unique x n change =>
      rw [hpc] at hok
      obtain ⟨hx, hasks⟩ := hok
      obtain ⟨d, hd, -, -, hcounts⟩ := h.owned hx
      refine ⟨_, bind_deref hd _, ?_⟩
      cases hunique : d.unique with
      | true =>
          have halone : Alone s.memory x := Owners.of_eq_singleton (hcounts.unique_iff.mp hunique)
            (Owners.mem_of.mpr ⟨hx, rfl⟩)
          show s.Keeps t ⟨s.memory, .reserve x n change, none, none⟩
          exact h.load ⟨hx, halone, hasks⟩ (by rw [hpc]; rfl) (.inl rfl) rfl (by rw [hpc]; rfl)
      | false =>
          show s.Keeps t ⟨s.memory, .clone x n change, none, none⟩
          exact h.load ⟨hx, hasks⟩ (by rw [hpc]; rfl) (.inl rfl) rfl (by rw [hpc]; rfl)
  | reserve x n change =>
      rw [hpc] at hok
      obtain ⟨hx, halone, hasks⟩ := hok
      obtain ⟨d, hd, htext, hfits, hcounts⟩ := h.owned hx
      obtain ⟨e, hreserve, hefits, hetext, hsize, hle, hcount⟩ := StringData.reserve_spec hfits n
      have hunique := unique_of_alone halone hcounts
      refine ⟨⟨s.memory.put (s.memory.vars.obj x) e, .storeAssert x change, none, none⟩, ?_,
        h.change (by rw [hpc]; rfl) (by rw [hpc]; rfl) halone hefits ?_ nofun (hetext ▸ htext)
        ⟨hx, halone, hasRoom_put ?_⟩ rfl (.inl rfl) rfl⟩
      · refine (bind_deref hd _).trans ?_
        rw [hreserve]
        rfl
      · rw [hcount]
        exact StringData.unique_iff.mp hunique
      · have hroom := hasks _ htext
        rw [hfits.length_text] at hroom
        omega
  | clone x n change =>
      rw [hpc] at hok
      obtain ⟨hx, hasks⟩ := hok
      obtain ⟨d, hd, htext, hfits, -⟩ := h.owned hx
      obtain ⟨e, hclone, hefits, hetext, hle, hcount⟩ := StringData.clone_spec hfits n
      refine ⟨⟨s.memory, .releaseAssert x (.renews e change), none, none⟩, ?_, ?_⟩
      · refine (bind_deref hd _).trans ?_
        rw [hclone]
        rfl
      · refine h.load ⟨hx, hefits, hcount, hetext ▸ htext, ?_⟩ (by rw [hpc]; rfl) (.inl rfl) rfl
          (by rw [hpc]; rfl)
        have hroom := hasks _ htext
        rw [← hetext, hefits.length_text] at hroom
        exact hroom.trans hle
  | releaseAssert x after =>
      rw [hpc] at hok
      obtain ⟨d, hd, -, -, hcounts⟩ := h.owned hok.1
      refine ⟨_, (bind_deref hd _).trans (if_pos hcounts.pos.2), ?_⟩
      exact h.load hok (by rw [hpc]; rfl) (.inl rfl) rfl (by rw [hpc]; rfl)
  | releaseTest x after =>
      rw [hpc] at hok
      obtain ⟨hx, hafter⟩ := hok
      obtain ⟨d, hd, -, -, hcounts⟩ := h.owned hx
      refine ⟨_, bind_deref hd _, ?_⟩
      cases hshared : d.unsharedable with
      | true =>
          have hmark := StringData.unsharedable_iff.mp hshared
          have hone := hcounts.unique_iff.mp (StringData.unique_iff.mpr (.inr hmark))
          exact h.last (by rw [hpc]; rfl) (by rw [hpc]; rfl) hx
            (Owners.of_eq_singleton hone (Owners.mem_of.mpr ⟨hx, rfl⟩))
            (decide_eq_true (.inr hmark)) hafter
      | false =>
          show s.Keeps t ⟨s.memory, .releaseSub x after, none, none⟩
          refine h.load ⟨hx, fun e he => ?_, hafter⟩ (by rw [hpc]; rfl) (.inl rfl) rfl
            (by rw [hpc]; rfl)
          obtain rfl := Option.some.inj (hd.symm.trans he)
          exact of_decide_eq_false hshared
  | releaseSub x after =>
      rw [hpc] at hok
      obtain ⟨d, hd, -⟩ := h.owned hok.1
      exact ⟨_, bind_deref hd _, h.release hpc hd⟩
  | delete x p d after =>
      rw [hpc] at hok
      exact ⟨_, if_pos hok.2.1, h.delete hpc⟩
  | storeAssert x change | writeAssert x change =>
      rw [hpc] at hok
      obtain ⟨hx, halone, hroom⟩ := hok
      obtain ⟨d, hd, -, -, hcounts⟩ := h.owned hx
      have hunique := unique_of_alone halone hcounts
      refine ⟨_, (bind_deref hd _).trans (if_pos hunique), ?_⟩
      exact h.load ⟨hx, halone, hroom⟩ (by rw [hpc]; rfl) (.inl rfl) rfl (by rw [hpc]; rfl)
  | store x change =>
      rw [hpc] at hok
      obtain ⟨hx, halone, hroom⟩ := hok
      obtain ⟨d, hd, htext, hfits, -⟩ := h.owned hx
      refine ⟨_, bind_deref hd _, ?_⟩
      have hstored : HasRoom (s.memory.put (s.memory.vars.obj x) (d.store change.makeUnsharable)) x
          change := hasRoom_put (hroom d hd)
      have hrefs : (d.store change.makeUnsharable).refCount = 1 ∨
          (d.store change.makeUnsharable).refCount = kUnsharedRefMark := by
        cases change with
        | append str => exact .inl rfl
        | set pos ch => exact .inr rfl
        | get pos => exact .inr rfl
      refine h.change (e := d.store change.makeUnsharable) (by rw [hpc]; rfl) (by rw [hpc]; rfl) halone
        hfits hrefs nofun htext ?_ ?_ ?_ ?_
      · cases change <;> exact ⟨hx, halone, hstored⟩
      · cases change <;> rfl
      · cases change <;> exact .inl rfl
      · cases change <;> rfl
  | write x change =>
      rw [hpc] at hok
      obtain ⟨hx, halone, hroom⟩ := hok
      obtain ⟨d, hd, htext, hfits, hcounts⟩ := h.owned hx
      obtain ⟨e, hwrite, hefits, hcount, heffect⟩ := Change.write_spec (x := x) hfits (hroom d hd)
      have hunique := unique_of_alone halone hcounts
      refine ⟨⟨s.memory.put (s.memory.vars.obj x) e, .idle, none, some (change.op x)⟩, ?_,
        h.change (by rw [hpc]; rfl) (by rw [hpc]; rfl) halone hefits ?_ ?_ (heffect _ htext) trivial rfl
        (.inr rfl) rfl⟩
      · refine (bind_deref hd _).trans ?_
        rw [hwrite]
        rfl
      · rw [hcount]
        exact StringData.unique_iff.mp hunique
      · intro op hop
        rw [← Option.some.inj hop]
        exact Op.target_change x change

end Machine

end Eureka.RcString

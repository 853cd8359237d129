import Eureka.LockfreeStack.Conservation

/-!
# The size of the lock-free stack

`size_` is changed in a step of its own: behind the exchange that puts a node on
`head_`, and behind the one that takes a node off.  Between the two steps a
thread is pending.  The counter lacks the pending increments and still has the
pending decrements, so it is right only up to these, and a decrement that comes
before the increment of the same node can find it at zero.

* `Effect`: what a step does to the counter, to the length of the list and to
  what is pending.
* `Accounted`: the sum that every step keeps.
* `size_le_iff`: the counter stays within the buffer exactly if no decrement
  overtakes.
-/

namespace Eureka.LockfreeStack

open Transition LinkedList

variable {Thread T : Type}

/-- The changes of `size_` that a thread may have still to make. -/
inductive Pending
  | inc
  | dec
  deriving DecidableEq

/-- The exchange on `head_` is done, and the counter is not changed yet. -/
def Local.pending : Local T → Option Pending
  | incSize => some .inc
  | decSize _ => some .dec
  | _ => none

namespace Stack

/-- The threads that have still to make this change. -/
noncomputable def pendingCount (s : Stack Thread T) (change : Pending) : ℕ :=
  {t | (s.thread t).pending = some change}.ncard

/-- The length of the sequential stack behind the history. -/
def depth (s : Stack Thread T) : ℕ := ((stack T).run (stack T).start s.history).2.length

/-- The increments that are pending are fewer than the nodes on `head_` and the decrements that are
pending. -/
def Ahead (s : Stack Thread T) : Prop :=
  ∃ nodes, Chain s.next (s.atomicHead .head).node nodes ∧
    s.pendingCount .inc < nodes.length + s.pendingCount .dec

end Stack

/-- A decrement does not come before the increment of what it subtracts. -/
def InOrder (s : Stack Thread T) : Action Thread T → Prop
  | .step t _ => (s.thread t).pending = some .dec → s.Ahead
  | .call _ _ => True

variable [DecidableEq Thread] {maxsize : ℕ} {s s' : Stack Thread T} {lists : Which → List ℕ}
  {t : Thread} {pc : Local T}

/-! ## What a step does -/

/-- The counter behind a step of a thread with this pending change. -/
def counted (size : UInt64) : Option Pending → UInt64
  | some .inc => size + 1
  | some .dec => size - 1
  | none => size

/-- The thread goes on to `pc`. -/
structure Effect (s s' : Stack Thread T) (t : Thread) (pc : Local T) : Prop where
  thread : s'.thread = Function.update s.thread t pc
  size : s'.size = counted s.size (s.thread t).pending
  depth : s'.depth + (if pc.pending = some .dec then 1 else 0) =
    s.depth + (if pc.pending = some .inc then 1 else 0)

omit [DecidableEq Thread] in
theorem depth_push {ele : T} (hhistory : s'.history = s.history ++ [(t, .push ele)]) :
    s'.depth = s.depth + 1 := by
  rw [Stack.depth, hhistory, SequentialObject.run_append_call]
  rfl

omit [DecidableEq Thread] in
theorem depth_pop (hhistory : s'.history = s.history ++ [(t, .pop)]) :
    s'.depth = s.depth - 1 := by
  rw [Stack.depth, hhistory, SequentialObject.run_append_call, Stack.depth]
  cases ((stack T).run (stack T).start s.history).2 <;> rfl

omit [DecidableEq Thread] in
theorem depth_same (hhistory : s'.history = s.history) : s'.depth = s.depth := by
  rw [Stack.depth, hhistory, Stack.depth]

theorem Inv.depth_eq (h : Inv maxsize s lists) : s.depth = (lists .head).length := by
  rw [Stack.depth, h.linear.contents_eq, List.length_map]

/-- A step that is none of the counter and none of the list from `head_`. -/
theorem Effect.quiet (hthread : s'.thread = Function.update s.thread t pc)
    (hsize : s'.size = s.size) (hhistory : s'.history = s.history)
    (hbefore : (s.thread t).pending = none) (hafter : pc.pending = none) : Effect s s' t pc where
  thread := hthread
  size := by rw [hsize, hbefore, counted]
  depth := by
    rw [hafter, depth_same hhistory]
    rfl

theorem Inv.effect_popOld (h : Inv maxsize s lists) (op : Op T)
    (hbefore : (s.thread t).pending = none) : ∃ pc, Effect s (s.popOld t op) t pc := by
  rw [Stack.popOld.eq_def]
  split
  · exact ⟨_, .quiet rfl rfl rfl hbefore rfl⟩
  · next hnull =>
      cases op with
      | push ele => exact ⟨_, .quiet rfl rfl rfl hbefore rfl⟩
      | pop =>
          refine ⟨.retEmpty, rfl, ?_, ?_⟩
          · rw [hbefore]
            rfl
          · -- the sequential stack is empty too
            have hchain := h.chain .head
            rw [show (s.atomicHead .head).node = none from hnull, chain_none] at hchain
            have hzero : s.depth = 0 := by
              rw [h.depth_eq, hchain]
              rfl
            have hpop : ((s.record t .pop).goto t .retEmpty).depth = s.depth - 1 := depth_pop rfl
            rw [hpop, hzero]
            rfl

theorem Inv.effect_next? (h : Inv maxsize s lists) {weak : Bool}
    (hnext : s.next? t weak = some s') : ∃ pc, Effect s s' t pc := by
  rw [Stack.next?.eq_def] at hnext
  cases hpc : s.thread t with
  | idle =>
      rw [hpc] at hnext
      cases hnext
  | popLoad op =>
      rw [hpc] at hnext
      cases hnext
      exact h.effect_popOld op (by rw [hpc]; rfl)
  | popExchange op abaTag node next =>
      rw [hpc] at hnext
      dsimp only at hnext
      split_ifs at hnext with hsuccess
      · cases hnext
        cases op with
        | push ele => exact ⟨_, .quiet rfl rfl rfl (by rw [hpc]; rfl) rfl⟩
        | pop =>
            refine ⟨.decSize node, rfl, by rw [hpc]; rfl, ?_⟩
            have hchain := h.chain .head
            rw [show s.atomicHead .head = ⟨abaTag, some node⟩ from hsuccess.2] at hchain
            obtain ⟨rest, hlist, -⟩ := hchain.exists_cons
            have hdepth : s.depth = rest.length + 1 := by
              rw [h.depth_eq, hlist]
              rfl
            have hpop : ((s.setHead .head ⟨abaTag + 1, next⟩).popDone t .pop node).depth =
                s.depth - 1 := depth_pop rfl
            show ((s.setHead .head ⟨abaTag + 1, next⟩).popDone t .pop node).depth + 1 = s.depth + 0
            omega
      · cases hnext
        exact h.effect_popOld op (by rw [hpc]; rfl)
  | pushExchange list ele node old =>
      rw [hpc] at hnext
      dsimp only at hnext
      split_ifs at hnext with hsuccess
      · cases hnext
        cases list with
        | head =>
            refine ⟨.incSize, rfl, by rw [hpc]; rfl, ?_⟩
            exact depth_push rfl
        | free => exact ⟨_, .quiet rfl rfl rfl (by rw [hpc]; rfl) rfl⟩
      · cases hnext
        exact ⟨_, .quiet rfl rfl rfl (by rw [hpc]; rfl) rfl⟩
  | incSize | decSize =>
      rw [hpc] at hnext
      cases hnext
      exact ⟨_, rfl, by rw [hpc]; rfl, depth_same rfl⟩
  | popNext | writeValue | readValue | retEmpty | pushLoad | pushNext =>
      rw [hpc] at hnext
      cases hnext
      exact ⟨_, .quiet rfl rfl rfl (by rw [hpc]; rfl) rfl⟩

theorem Inv.effect (h : Inv maxsize s lists) {action : Action Thread T}
    (hstep : LockfreeStack.step s action = some s') :
    ∃ t pc, Effect s s' t pc ∧ ((s.thread t).pending ≠ none → ∃ weak, action = .step t weak) := by
  cases action with
  | call t op =>
      rw [LockfreeStack.step.eq_def] at hstep
      dsimp only at hstep
      split at hstep
      · next hpc =>
          cases hstep
          have hbefore : (s.thread t).pending = none := by rw [hpc]; rfl
          exact ⟨t, _, .quiet rfl rfl rfl hbefore rfl, fun hcontra => absurd hbefore hcontra⟩
      · cases hstep
  | step t weak =>
      obtain ⟨pc, heffect⟩ := h.effect_next? hstep
      exact ⟨t, pc, heffect, fun _ => ⟨weak, rfl⟩⟩

/-! ## The sum that is kept -/

/-- These threads are pending, and the counter is right up to their changes. -/
structure Accounted (s : Stack Thread T) (waiting : Pending → Finset Thread) : Prop where
  mem_waiting : ∀ change t, t ∈ waiting change ↔ (s.thread t).pending = some change
  sum_eq : s.size.toNat + (waiting .inc).card = s.depth + (waiting .dec).card

/-- The pending threads behind a step of one of them. -/
def rejoin (waiting : Finset Thread) (t : Thread) (joins : Bool) : Finset Thread :=
  if joins then insert t waiting else waiting.erase t

theorem card_rejoin (waiting : Finset Thread) (t : Thread) (joins : Bool) :
    (rejoin waiting t joins).card + (if t ∈ waiting then 1 else 0) =
      waiting.card + joins.toNat := by
  unfold rejoin
  by_cases hmem : t ∈ waiting
  · have hpos : 0 < waiting.card := Finset.card_pos.mpr ⟨t, hmem⟩
    cases joins with
    | true => simp [hmem]
    | false =>
        simp [hmem]
        omega
  · cases joins with
    | true => simp [hmem]
    | false => simp [hmem]

namespace Accounted

variable {waiting : Pending → Finset Thread}

omit [DecidableEq Thread] in
theorem pendingCount_eq (h : Accounted s waiting) (change : Pending) :
    s.pendingCount change = (waiting change).card := by
  have hset : {t | (s.thread t).pending = some change} = ↑(waiting change) := by
    ext t
    exact (h.mem_waiting change t).symm
  rw [Stack.pendingCount, hset, Set.ncard_coe_finset]

/-- The counter is not zero exactly if the pending increments do not make up for all there is. -/
theorem ahead_iff (h : Accounted s waiting) (hinv : Inv maxsize s lists) :
    s.Ahead ↔ 0 < s.size.toNat := by
  have hsum := h.sum_eq
  rw [hinv.depth_eq] at hsum
  rw [Stack.Ahead, h.pendingCount_eq, h.pendingCount_eq]
  constructor
  · rintro ⟨nodes, hchain, hlt⟩
    rw [hchain.unique (hinv.chain .head)] at hlt
    omega
  · intro hpos
    exact ⟨_, hinv.chain .head, by omega⟩

/-- The nodes on `head_` and those of the pending decrements are different ones. -/
theorem le_maxsize (h : Accounted s waiting) (hinv : Inv maxsize s lists) :
    s.depth + (waiting .dec).card ≤ maxsize := by
  let node (t : Thread) : ℕ := (s.thread t).hand.getD 0
  have hhand : ∀ t ∈ waiting .dec, (s.thread t).hand = some (node t) := by
    intro t ht
    have hpending := (h.mem_waiting .dec t).mp ht
    show (s.thread t).hand = some ((s.thread t).hand.getD 0)
    cases hpc : s.thread t with
    | decSize node => rfl
    | _ =>
        rw [hpc] at hpending
        cases hpending
  have hinjective : Set.InjOn node (waiting .dec) := by
    intro t ht u hu heq
    exact hinv.hand_once t u (node t) (hhand t ht) (heq ▸ hhand u hu)
  have hdisjoint : Disjoint (lists .head).toFinset ((waiting .dec).image node) := by
    rw [Finset.disjoint_right]
    intro n hn hmem
    obtain ⟨t, ht, rfl⟩ := Finset.mem_image.mp hn
    exact (hinv.hand_off t _ (hhand t ht)).2 .head (List.mem_toFinset.mp hmem)
  have hsubset : (lists .head).toFinset ∪ (waiting .dec).image node ⊆ Finset.range maxsize := by
    refine Finset.union_subset (fun n hn => ?_) fun n hn => ?_
    · exact Finset.mem_range.mpr (hinv.bounded .head n (List.mem_toFinset.mp hn))
    · obtain ⟨t, ht, rfl⟩ := Finset.mem_image.mp hn
      exact Finset.mem_range.mpr (hinv.hand_off t _ (hhand t ht)).1
  have hcard := Finset.card_le_card hsubset
  rw [Finset.card_union_of_disjoint hdisjoint, Finset.card_image_of_injOn hinjective,
    List.toFinset_card_of_nodup (hinv.chain .head).nodup, Finset.card_range] at hcard
  rw [hinv.depth_eq]
  exact hcard

/-- A step that does not decrement the counter at zero keeps the sum. -/
theorem step (h : Accounted s waiting) (hinv : Inv maxsize s lists) (hmax : maxsize < 2 ^ 64 - 1)
    (heffect : Effect s s' t pc) (hpos : (s.thread t).pending = some .dec → 0 < s.size.toNat) :
    Accounted s' fun change => rejoin (waiting change) t (pc.pending = some change) where
  mem_waiting change u := by
    rw [heffect.thread]
    unfold rejoin
    by_cases hut : u = t
    · subst hut
      rw [Function.update_self]
      by_cases hafter : pc.pending = some change <;> simp [hafter]
    · rw [Function.update_of_ne hut, ← h.mem_waiting]
      by_cases hafter : pc.pending = some change <;> simp [hafter, hut]
  sum_eq := by
    have hsum := h.sum_eq
    have hdepth := heffect.depth
    have hinc := card_rejoin (waiting .inc) t (pc.pending = some .inc)
    have hdec := card_rejoin (waiting .dec) t (pc.pending = some .dec)
    have hle := h.le_maxsize hinv
    simp only [h.mem_waiting] at hinc hdec
    have hsize : s'.size.toNat + (if (s.thread t).pending = some .dec then 1 else 0) =
        s.size.toNat + (if (s.thread t).pending = some .inc then 1 else 0) := by
      rw [heffect.size]
      cases hbefore : (s.thread t).pending with
      | none => rfl
      | some change =>
          cases change with
          | inc =>
              have hmem : 0 < (waiting .inc).card :=
                Finset.card_pos.mpr ⟨t, (h.mem_waiting .inc t).mpr hbefore⟩
              show (s.size + 1).toNat + 0 = s.size.toNat + 1
              rw [UInt64.toNat_add, UInt64.toNat_one]
              omega
          | dec =>
              have hone : 1 ≤ s.size := UInt64.le_iff_toNat_le.mpr (hpos hbefore)
              show (s.size - 1).toNat + 1 = s.size.toNat + 0
              rw [UInt64.toNat_sub_of_le _ _ hone, UInt64.toNat_one]
              have := hpos hbefore
              omega
    have htoNat : ∀ b : Bool, b.toNat = if b = true then 1 else 0 := by decide
    simp only [htoNat, decide_eq_true_eq] at hinc hdec
    omega

end Accounted

omit [DecidableEq Thread] in
theorem accounted_initial [Inhabited T] :
    Accounted (initial maxsize : Stack Thread T) fun _ => ∅ where
  mem_waiting change t := by simp [initial, Local.pending]
  sum_eq := rfl

/-! ## The counter in all states -/

/-- What holds as long as no decrement overtakes. -/
def Counted (maxsize : ℕ) (s : Stack Thread T) : Prop :=
  ∃ lists waiting, Inv maxsize s lists ∧ Accounted s waiting

theorem Counted.size_le (h : Counted maxsize s) : s.size.toNat ≤ maxsize := by
  obtain ⟨lists, waiting, hinv, haccounted⟩ := h
  have hle := haccounted.le_maxsize hinv
  have hsum := haccounted.sum_eq
  omega

theorem Counted.step (h : Counted maxsize s) (hmax : maxsize < 2 ^ 64 - 1)
    {action : Action Thread T} (horder : InOrder s action)
    (hstep : LockfreeStack.step s action = some s') : Counted maxsize s' := by
  obtain ⟨lists, waiting, hinv, haccounted⟩ := h
  obtain ⟨t, pc, heffect, hactor⟩ := hinv.effect hstep
  obtain ⟨lists', hinv'⟩ := hinv.step hstep
  refine ⟨lists', _, hinv', haccounted.step hinv hmax heffect fun hdec => ?_⟩
  obtain ⟨weak, rfl⟩ := hactor (by rw [hdec]; exact Option.some_ne_none _)
  exact (haccounted.ahead_iff hinv).mp (horder hdec)

/-- A decrement that overtakes makes the counter the greatest number. -/
theorem Counted.size_of_overtaking (h : Counted maxsize s) {action : Action Thread T}
    (horder : ¬ InOrder s action) (hstep : LockfreeStack.step s action = some s') :
    s'.size.toNat = 2 ^ 64 - 1 := by
  obtain ⟨lists, waiting, hinv, haccounted⟩ := h
  cases action with
  | call t op => exact absurd trivial horder
  | step t weak =>
      obtain ⟨hdec, hbehind⟩ := Classical.not_imp.mp horder
      rw [haccounted.ahead_iff hinv] at hbehind
      obtain ⟨pc, heffect⟩ := hinv.effect_next? hstep
      have hzero : s.size = 0 := UInt64.toNat_inj.mp (by simpa using hbehind)
      rw [heffect.size, hdec, hzero]
      rfl

/-- **The counter stays within the buffer exactly if no decrement overtakes**, in all states of a
run of any threads, with a buffer of nodes that fits in memory. -/
theorem size_le_iff [Inhabited T] (hsize : 1 ≤ maxsize) (hmax : maxsize < 2 ^ 64 - 1)
    {actions : List (Action Thread T)}
    (hrun : (lstack Thread T maxsize).run (initial maxsize) actions = some s) :
    (lstack Thread T maxsize).Always (fun s => s.size.toNat ≤ maxsize) (initial maxsize) actions ↔
      (lstack Thread T maxsize).EachStep InOrder (initial maxsize) actions := by
  refine System.always_iff_eachStep_within (I := Counted maxsize) (G := fun _ _ => True) ?_ ?_
    ⟨_, _, inv_initial hsize, accounted_initial⟩ (Nat.zero_le _)
    (System.eachStep_of_run (fun _ _ _ _ => trivial) hrun) hrun
  · intro s action s' h _ horder hstep
    exact h.step hmax horder hstep
  · intro s action s' h _ _ hstep
    constructor
    · intro hle
      by_contra horder
      rw [h.size_of_overtaking horder hstep] at hle
      omega
    · intro horder
      exact (h.step hmax horder hstep).size_le

theorem size_le_iff_same_node :
    (lstack Bool ℕ 1).EachStep InOrder (initial 1) sameNode ∧
      (lstack Bool ℕ 1).Always (fun s => s.size.toNat ≤ 1) (initial 1) sameNode := by
  have halways : (lstack Bool ℕ 1).Always (fun s => s.size.toNat ≤ 1) (initial 1) sameNode := by
    decide
  obtain ⟨s, hrun⟩ := Option.isSome_iff_exists.mp
    (show ((lstack Bool ℕ 1).run (initial 1) sameNode).isSome by decide)
  exact ⟨(size_le_iff (by decide) (by decide) hrun).mp halways, halways⟩

/-- One thread has put its node on `head_`, and another one takes it off and decrements. -/
def overtaking : List (Action Bool ℕ) :=
  Action.call false (.push 5) :: List.replicate 7 (Action.step false false) ++
    Action.call true .pop :: List.replicate 4 (Action.step true false)

/-- **A size of `2 ^ 64 - 1`** for a stack of one node. -/
theorem size_overtaking :
    ((lstack Bool ℕ 1).run (initial 1) overtaking).map (fun s => s.size.toNat) =
        some (2 ^ 64 - 1) ∧
      ¬ (lstack Bool ℕ 1).Always (fun s => s.size.toNat ≤ 1) (initial 1) overtaking := by
  constructor
  · decide
  · decide

end Eureka.LockfreeStack

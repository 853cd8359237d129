import Eureka.LockfreeStack.Stack

/-!
# Nodes and values of the lock-free stack

A thread that is about to exchange a head may have loaded it long ago, and read
the `next` of a node that has been taken, filled and put back since.  The tag
decides: it grows with every exchange, so a head that still has the tag is the
head that was loaded, the list under it has not changed in between, and the
`next` that was read is the right one.

* `Knows`: what a thread knows of a list while the tag is the same;
* `Inv`: the invariant, over the nodes of the two lists;
* `Placed`: the part of it that says where the nodes are;
* `Inv.beside`: the steps that leave both lists as they are;
* `Inv.pop`, `Inv.push`: the two exchanges;
* `stack_under_concurrency`: what holds in every reachable state.
-/

namespace Eureka.LockfreeStack

open Transition LinkedList

variable {Thread T : Type}

namespace Local

/-- The node that the thread has taken off one list and not yet put on the other. -/
def hand : Local T → Option ℕ
  | writeValue _ node => some node
  | decSize node => some node
  | readValue node => some node
  | pushLoad _ _ node => some node
  | pushNext _ _ node _ => some node
  | pushExchange _ _ node _ => some node
  | _ => none

/-- The answer of a call that has taken effect and not returned; a `Pop` takes
it from the node in its hand. -/
def owed (value : ℕ → T) : Local T → Option (Ret T)
  | decSize node => some (.popped (value node))
  | readValue node => some (.popped (value node))
  | retEmpty => some .empty
  | pushLoad .free ele _ => some (.popped ele)
  | pushNext .free ele _ _ => some (.popped ele)
  | pushExchange .free ele _ _ => some (.popped ele)
  | incSize => some .pushed
  | _ => none

theorem owed_congr {value value' : ℕ → T} {pc : Local T}
    (hvalue : ∀ node, pc.hand = some node → value' node = value node) :
    pc.owed value' = pc.owed value := by
  cases pc with
  | decSize node | readValue node =>
      show some (Ret.popped (value' node)) = some (.popped (value node))
      rw [hvalue node rfl]
  | pushLoad list | pushNext list | pushExchange list => cases list <;> rfl
  | idle | popLoad | popNext | popExchange | writeValue | retEmpty | incSize => rfl

end Local

/-- What a thread knows of the lists and of the node in its hand. -/
def Knows (s : Stack Thread T) : Local T → Prop
  | .popNext op abaTag node =>
      abaTag ≤ (s.atomicHead op.source).abaTag ∧
        (abaTag = (s.atomicHead op.source).abaTag → (s.atomicHead op.source).node = some node)
  | .popExchange op abaTag node next =>
      abaTag ≤ (s.atomicHead op.source).abaTag ∧
        (abaTag = (s.atomicHead op.source).abaTag →
          (s.atomicHead op.source).node = some node ∧ s.next node = next)
  | .pushLoad .head ele node => s.value node = ele
  | .pushNext .head ele node _ => s.value node = ele
  | .pushExchange list ele node old => s.next node = old.node ∧ (list = .head → s.value node = ele)
  | _ => True

/-- The two lists have these nodes. -/
structure Inv [DecidableEq Thread] (maxsize : ℕ) (s : Stack Thread T) (lists : Which → List ℕ) :
    Prop where
  chain : ∀ which, Chain s.next (s.atomicHead which).node (lists which)
  bounded : ∀ which, ∀ node ∈ lists which, node < maxsize
  list_once : ∀ which which' node, node ∈ lists which → node ∈ lists which' → which = which'
  hand_off : ∀ t node, (s.thread t).hand = some node →
    node < maxsize ∧ ∀ which, node ∉ lists which
  hand_once : ∀ t u node, (s.thread t).hand = some node → (s.thread u).hand = some node → t = u
  covered : ∀ node < maxsize, (∃ which, node ∈ lists which) ∨ ∃ t, (s.thread t).hand = some node
  knows : ∀ t, Knows s (s.thread t)
  linear : Linearizes (stack T) s.history s.returned (fun t => (s.thread t).owed s.value)
    ((lists .head).map s.value)

/-- The part of it that says where the nodes are: each on one list or in one hand. -/
structure Placed (maxsize : ℕ) (lists : Which → List ℕ) (hand : Thread → Option ℕ) : Prop where
  bounded : ∀ which, ∀ node ∈ lists which, node < maxsize
  list_once : ∀ which which' node, node ∈ lists which → node ∈ lists which' → which = which'
  hand_off : ∀ t node, hand t = some node → node < maxsize ∧ ∀ which, node ∉ lists which
  hand_once : ∀ t u node, hand t = some node → hand u = some node → t = u
  covered : ∀ node < maxsize, (∃ which, node ∈ lists which) ∨ ∃ t, hand t = some node

variable [DecidableEq Thread] {maxsize : ℕ} {s s' : Stack Thread T} {lists : Which → List ℕ}
  {t u : Thread} {pc pc' : Local T} {node : ℕ}

/-- The thread goes on to `pc` and writes at most the node in its hand. -/
structure Beside (s s' : Stack Thread T) (t : Thread) (pc : Local T) : Prop where
  thread : s'.thread = Function.update s.thread t pc
  atomicHead : s'.atomicHead = s.atomicHead
  hand : pc.hand = (s.thread t).hand
  nodeBuf : ∀ node, (s.thread t).hand ≠ some node → s'.nodeBuf node = s.nodeBuf node
  knows : Knows s' pc

/-! ## The place of a node -/

namespace Placed

variable {hand : Thread → Option ℕ} {which : Which}

theorem take (h : Placed maxsize lists hand) {rest : List ℕ} (hlist : lists which = node :: rest)
    (hrest : node ∉ rest) (hhand : hand t = none) :
    Placed maxsize (Function.update lists which rest) (Function.update hand t (some node)) := by
  have hmem : node ∈ lists which := by
    rw [hlist]
    exact List.mem_cons_self
  have hsub : ∀ other, ∀ n ∈ Function.update lists which rest other,
      n ∈ lists other ∧ n ≠ node := by
    intro other n hn
    by_cases hother : other = which
    · subst hother
      rw [Function.update_self] at hn
      rw [hlist]
      exact ⟨List.mem_cons_of_mem _ hn, fun heq => hrest (heq ▸ hn)⟩
    · rw [Function.update_of_ne hother] at hn
      exact ⟨hn, fun heq => hother (h.list_once _ _ node (heq ▸ hn) hmem)⟩
  have hhands : ∀ u n, Function.update hand t (some node) u = some n →
      u = t ∧ n = node ∨ hand u = some n := by
    intro u n hu
    by_cases hut : u = t
    · rw [hut, Function.update_self] at hu
      exact .inl ⟨hut, (Option.some.inj hu).symm⟩
    · rw [Function.update_of_ne hut] at hu
      exact .inr hu
  refine {
    bounded := fun other n hn => h.bounded other n (hsub other n hn).1
    list_once := fun a b n ha hb => h.list_once a b n (hsub a n ha).1 (hsub b n hb).1
    hand_off := ?_
    hand_once := ?_
    covered := ?_ }
  · intro u n hu
    rcases hhands u n hu with ⟨-, rfl⟩ | hwas
    · exact ⟨h.bounded which _ hmem, fun other hn => (hsub other _ hn).2 rfl⟩
    · obtain ⟨hlt, hoff⟩ := h.hand_off u n hwas
      exact ⟨hlt, fun other hn => hoff other (hsub other n hn).1⟩
  · intro u v n hu hv
    rcases hhands u n hu with ⟨hut, hn⟩ | hu' <;> rcases hhands v n hv with ⟨hvt, hn'⟩ | hv'
    · rw [hut, hvt]
    · exact absurd hmem ((h.hand_off v node (hn ▸ hv')).2 which)
    · exact absurd hmem ((h.hand_off u node (hn' ▸ hu')).2 which)
    · exact h.hand_once u v n hu' hv'
  · intro n hn
    rcases h.covered n hn with ⟨other, hother⟩ | ⟨u, hu⟩
    · by_cases hnode : n = node
      · exact .inr ⟨t, by rw [Function.update_self, hnode]⟩
      · refine .inl ⟨other, ?_⟩
        by_cases hwhich : other = which
        · rw [hwhich, hlist] at hother
          rw [hwhich, Function.update_self]
          exact (List.mem_cons.mp hother).resolve_left hnode
        · rw [Function.update_of_ne hwhich]
          exact hother
    · refine .inr ⟨u, ?_⟩
      rw [Function.update_of_ne, hu]
      rintro rfl
      exact nomatch hhand.symm.trans hu

theorem put (h : Placed maxsize lists hand) (hhand : hand t = some node) (which : Which) :
    Placed maxsize (Function.update lists which (node :: lists which))
      (Function.update hand t none) := by
  obtain ⟨hbound, hoff⟩ := h.hand_off t node hhand
  have hmems : ∀ other n, n ∈ Function.update lists which (node :: lists which) other →
      other = which ∧ n = node ∨ n ∈ lists other := by
    intro other n hn
    by_cases hother : other = which
    · rw [hother, Function.update_self] at hn
      rcases List.mem_cons.mp hn with hn | hn
      · exact .inl ⟨hother, hn⟩
      · exact .inr (hother ▸ hn)
    · rw [Function.update_of_ne hother] at hn
      exact .inr hn
  have hhands : ∀ u n, Function.update hand t none u = some n → n ≠ node ∧ hand u = some n := by
    intro u n hu
    by_cases hut : u = t
    · rw [hut, Function.update_self] at hu
      cases hu
    · rw [Function.update_of_ne hut] at hu
      exact ⟨fun heq => hut (h.hand_once u t n hu (heq ▸ hhand)), hu⟩
  refine {
    bounded := ?_
    list_once := ?_
    hand_off := ?_
    hand_once := fun u v n hu hv => h.hand_once u v n (hhands u n hu).2 (hhands v n hv).2
    covered := ?_ }
  · intro other n hn
    rcases hmems other n hn with ⟨-, rfl⟩ | hn
    · exact hbound
    · exact h.bounded other n hn
  · intro a b n ha hb
    rcases hmems a n ha with ⟨ha, hn⟩ | ha <;> rcases hmems b n hb with ⟨hb, hn'⟩ | hb
    · rw [ha, hb]
    · exact absurd (hn ▸ hb) (hoff b)
    · exact absurd (hn' ▸ ha) (hoff a)
    · exact h.list_once a b n ha hb
  · intro u n hu
    obtain ⟨hne, hwas⟩ := hhands u n hu
    obtain ⟨hlt, hout⟩ := h.hand_off u n hwas
    refine ⟨hlt, fun other hn => ?_⟩
    rcases hmems other n hn with ⟨-, hn⟩ | hn
    · exact hne hn
    · exact hout other hn
  · intro n hn
    rcases h.covered n hn with ⟨other, hother⟩ | ⟨u, hu⟩
    · refine .inl ⟨other, ?_⟩
      by_cases hwhich : other = which
      · rw [hwhich, Function.update_self]
        exact List.mem_cons_of_mem _ (hwhich ▸ hother)
      · rw [Function.update_of_ne hwhich]
        exact hother
    · by_cases hut : u = t
      · refine .inl ⟨which, ?_⟩
        rw [hut, hhand] at hu
        rw [Function.update_self, Option.some.inj hu]
        exact List.mem_cons_self
      · exact .inr ⟨u, by rw [Function.update_of_ne hut, hu]⟩

end Placed

/-! ## The steps beside the lists -/

namespace Inv

variable (h : Inv maxsize s lists)

include h

theorem placed : Placed maxsize lists fun t => (s.thread t).hand :=
  ⟨h.bounded, h.list_once, h.hand_off, h.hand_once, h.covered⟩

theorem knows_at (ht : s.thread t = pc) : Knows s pc := ht ▸ h.knows t

theorem hand_ne_head {which : Which} {other : ℕ} (ht : (s.thread t).hand = some node)
    (hother : (s.atomicHead which).node = some other) : node ≠ other := by
  rintro rfl
  have hchain := h.chain which
  rw [hother] at hchain
  obtain ⟨rest, hrest, -⟩ := hchain.exists_cons
  refine (h.hand_off t node ht).2 which ?_
  rw [hrest]
  exact List.mem_cons_self

/-- What another thread knows does not depend on the node in the hand of `t`. -/
theorem knows_beside (hhead : s'.atomicHead = s.atomicHead)
    (hnode : ∀ node, (s.thread t).hand ≠ some node → s'.nodeBuf node = s.nodeBuf node)
    (hut : u ≠ t) : Knows s' (s.thread u) := by
  have hknows := h.knows u
  have hown : ∀ node, (s.thread u).hand = some node → s'.nodeBuf node = s.nodeBuf node :=
    fun node hu => hnode node fun ht => hut (h.hand_once u t node hu ht)
  cases hpc : s.thread u with
  | popNext op abaTag node =>
      rw [hpc] at hknows
      show _ ≤ (s'.atomicHead _).abaTag ∧ _
      rw [hhead]
      exact hknows
  | popExchange op abaTag node next =>
      rw [hpc] at hknows
      show _ ≤ (s'.atomicHead _).abaTag ∧ _
      rw [hhead]
      refine ⟨hknows.1, fun htag => ?_⟩
      obtain ⟨hat, hread⟩ := hknows.2 htag
      refine ⟨hat, ?_⟩
      rw [Stack.next, hnode node fun ht => h.hand_ne_head ht hat rfl]
      exact hread
  | pushLoad list ele node =>
      cases list with
      | head =>
          rw [hpc] at hknows hown
          show (s'.nodeBuf node).value = ele
          rw [hown node rfl]
          exact hknows
      | free => trivial
  | pushNext list ele node old =>
      cases list with
      | head =>
          rw [hpc] at hknows hown
          show (s'.nodeBuf node).value = ele
          rw [hown node rfl]
          exact hknows
      | free => trivial
  | pushExchange list ele node old =>
      rw [hpc] at hknows hown
      show (s'.nodeBuf node).next = old.node ∧ (list = .head → (s'.nodeBuf node).value = ele)
      rw [hown node rfl]
      exact hknows
  | idle | popLoad | writeValue | decSize | readValue | retEmpty | incSize => trivial

theorem hand_ne_listed {which : Which} {other : ℕ} (hmem : other ∈ lists which) :
    (s.thread t).hand ≠ some other :=
  fun ht => (h.hand_off t other ht).2 which hmem

/-- What the other threads are owed does not depend on the node in the hand of `t`. -/
theorem owed_beside (hthread : s'.thread = Function.update s.thread t pc)
    (hnode : ∀ node, (s.thread t).hand ≠ some node → s'.nodeBuf node = s.nodeBuf node) :
    (fun u => (s'.thread u).owed s'.value) =
      Function.update (fun u => (s.thread u).owed s.value) t (pc.owed s'.value) := by
  funext u
  rw [hthread]
  by_cases hut : u = t
  · rw [hut, Function.update_self, Function.update_self]
  · rw [Function.update_of_ne hut, Function.update_of_ne hut]
    refine Local.owed_congr fun node hu => ?_
    rw [Stack.value, hnode node fun ht => hut (h.hand_once u t node hu ht), Stack.value]

/-- **A step beside the lists** keeps the invariant if the history does. -/
theorem beside (hstep : Beside s s' t pc)
    (hlinear : Linearizes (stack T) s'.history s'.returned
      (Function.update (fun u => (s.thread u).owed s.value) t (pc.owed s'.value))
      ((lists .head).map s.value)) :
    Inv maxsize s' lists := by
  have hlisted : ∀ which, ∀ node ∈ lists which, s'.nodeBuf node = s.nodeBuf node :=
    fun which node hmem => hstep.nodeBuf node (h.hand_ne_listed hmem)
  have hhand : ∀ u, (s'.thread u).hand = (s.thread u).hand := by
    intro u
    rw [hstep.thread]
    by_cases hut : u = t
    · rw [hut, Function.update_self, hstep.hand]
    · rw [Function.update_of_ne hut]
  refine {
    chain := ?_
    bounded := h.bounded
    list_once := h.list_once
    hand_off := fun u node hu => h.hand_off u node (hhand u ▸ hu)
    hand_once := fun u v node hu hv => h.hand_once u v node (hhand u ▸ hu) (hhand v ▸ hv)
    covered := ?_
    knows := ?_
    linear := ?_ }
  · intro which
    rw [hstep.atomicHead]
    refine (h.chain which).congr fun node hmem => ?_
    rw [Stack.next, hlisted which node hmem, Stack.next]
  · intro node hnode
    simp only [hhand]
    exact h.covered node hnode
  · intro u
    rw [hstep.thread]
    by_cases hut : u = t
    · rw [hut, Function.update_self]
      exact hstep.knows
    · rw [Function.update_of_ne hut]
      exact h.knows_beside hstep.atomicHead hstep.nodeBuf hut
  · have hvalues : (lists .head).map s'.value = (lists .head).map s.value :=
      List.map_congr_left fun node hmem => by
        rw [Stack.value, hlisted .head node hmem, Stack.value]
    rw [hvalues, h.owed_beside hstep.thread hstep.nodeBuf]
    exact hlinear

theorem beside_stay (hstep : Beside s s' t pc) (hhistory : s'.history = s.history)
    (hreturned : s'.returned = s.returned)
    (howed : pc.owed s'.value = (s.thread t).owed s.value) : Inv maxsize s' lists := by
  refine h.beside hstep ?_
  rw [hhistory, hreturned]
  exact h.linear.stay howed

theorem goto (ht : s.thread t = pc) (hhand : pc'.hand = pc.hand) (hknows : Knows s pc')
    (howed : pc'.owed s.value = pc.owed s.value) : Inv maxsize (s.goto t pc') lists := by
  have hstep : Beside s (s.goto t pc') t pc' :=
    ⟨rfl, rfl, by rw [ht]; exact hhand, fun _ _ => rfl, hknows⟩
  exact h.beside_stay hstep rfl rfl (by rw [ht]; exact howed)

theorem ret {answer : Ret T} (hhand : (s.thread t).hand = none)
    (howed : (s.thread t).owed s.value = some answer) : Inv maxsize (s.ret t answer) lists := by
  have hstep : Beside s (s.ret t answer) t .idle := ⟨rfl, rfl, hhand.symm, fun _ _ => rfl, trivial⟩
  exact h.beside hstep (h.linear.answer howed)

/-! ## The loads of a head -/

/-- `PopHead` goes on with the head it has loaded, or has found the list empty. -/
theorem popOld {op : Op T} (hhand : (s.thread t).hand = none)
    (howed : (s.thread t).owed s.value = none) : Inv maxsize (s.popOld t op) lists := by
  have hgoto : ∀ pc' : Local T, pc'.hand = none → Knows s pc' →
      Beside s (s.goto t pc') t pc' := fun pc' hpc' hknows =>
    ⟨rfl, rfl, hpc'.trans hhand.symm, fun _ _ => rfl, hknows⟩
  rw [Stack.popOld.eq_def]
  split
  · next node hnode =>
      exact h.beside_stay (hgoto _ rfl ⟨le_rfl, fun _ => hnode⟩) rfl rfl howed.symm
  · next hnull =>
      cases op with
      | push ele => exact h.beside_stay (hgoto .idle rfl trivial) rfl rfl howed.symm
      | pop =>
          have hstep : Beside s ((s.record t .pop).goto t .retEmpty) t .retEmpty :=
            ⟨rfl, rfl, hhand.symm, fun _ _ => rfl, trivial⟩
          refine h.beside hstep ?_
          -- the sequential stack is empty too
          have hchain := h.chain .head
          rw [show (s.atomicHead .head).node = none from hnull, chain_none] at hchain
          have hcommit := h.linear.commit howed .pop
          rw [hchain] at hcommit ⊢
          exact hcommit

/-! ## The exchanges -/

theorem knows_setHead {which : Which} {head : Head}
    (htag : (s.atomicHead which).abaTag < head.abaTag) :
    Knows (s.setHead which head) (s.thread u) := by
  have htags : ∀ (op : Op T) (abaTag : ℕ), abaTag ≤ (s.atomicHead op.source).abaTag →
      abaTag ≤ ((s.setHead which head).atomicHead op.source).abaTag ∧
        (abaTag = ((s.setHead which head).atomicHead op.source).abaTag →
          (s.setHead which head).atomicHead op.source = s.atomicHead op.source) := by
    intro op abaTag hle
    by_cases hop : op.source = which
    · have hnew : (s.setHead which head).atomicHead op.source = head := by
        rw [hop]
        exact Function.update_self _ _ _
      rw [← hop] at htag
      rw [hnew]
      exact ⟨hle.trans htag.le, fun heq => absurd (heq ▸ hle) (not_le.mpr htag)⟩
    · have hsame : (s.setHead which head).atomicHead op.source = s.atomicHead op.source :=
        Function.update_of_ne hop _ _
      rw [hsame]
      exact ⟨hle, fun _ => rfl⟩
  have hknows := h.knows u
  cases hpc : s.thread u with
  | popNext op abaTag node =>
      rw [hpc] at hknows
      obtain ⟨hle, hat⟩ := hknows
      obtain ⟨hle', hsame⟩ := htags op abaTag hle
      refine ⟨hle', fun heq => ?_⟩
      have hhead := hsame heq
      rw [hhead] at heq ⊢
      exact hat heq
  | popExchange op abaTag node next =>
      rw [hpc] at hknows
      obtain ⟨hle, hat⟩ := hknows
      obtain ⟨hle', hsame⟩ := htags op abaTag hle
      refine ⟨hle', fun heq => ?_⟩
      have hhead := hsame heq
      rw [hhead] at heq ⊢
      exact hat heq
  | pushLoad list ele node | pushNext list ele node old | pushExchange list ele node old =>
      rw [hpc] at hknows
      cases list <;> exact hknows
  | idle | popLoad | writeValue | decSize | readValue | retEmpty | incSize => trivial

theorem chain_setHead {which : Which} {head : Head} {nodes : List ℕ}
    (hchain : Chain s.next head.node nodes) (other : Which) :
    Chain s.next ((s.setHead which head).atomicHead other).node
      (Function.update lists which nodes other) := by
  show Chain s.next (Function.update s.atomicHead which head other).node _
  by_cases hother : other = which
  · rw [hother, Function.update_self, Function.update_self]
    exact hchain
  · rw [Function.update_of_ne hother, Function.update_of_ne hother]
    exact h.chain other

theorem knows_exchange {which : Which} {head : Head}
    (htag : (s.atomicHead which).abaTag < head.abaTag) (hknows : Knows (s.setHead which head) pc)
    (u : Thread) :
    Knows (s.setHead which head) (Function.update s.thread t pc u) := by
  by_cases hut : u = t
  · rw [hut, Function.update_self]
    exact hknows
  · rw [Function.update_of_ne hut]
    exact h.knows_setHead htag

theorem exchange {which : Which} {head : Head} {nodes : List ℕ}
    {history : List (Thread × Op T)} {returned : List (Thread × Ret T)}
    (hchain : Chain s.next head.node nodes) (htag : (s.atomicHead which).abaTag < head.abaTag)
    (hplaced : Placed maxsize (Function.update lists which nodes)
      (Function.update (fun u => (s.thread u).hand) t pc.hand))
    (hknows : Knows (s.setHead which head) pc)
    (hlinear : Linearizes (stack T) history returned
      (Function.update (fun u => (s.thread u).owed s.value) t (pc.owed s.value))
      ((Function.update lists which nodes .head).map s.value)) :
    Inv maxsize
      { s.setHead which head with
        thread := Function.update s.thread t pc
        history := history
        returned := returned }
      (Function.update lists which nodes) := by
  have hhand : (fun u => (Function.update s.thread t pc u).hand) =
      Function.update (fun u => (s.thread u).hand) t pc.hand :=
    funext fun u => Function.apply_update (fun _ => Local.hand) s.thread t pc u
  have howed : (fun u => (Function.update s.thread t pc u).owed s.value) =
      Function.update (fun u => (s.thread u).owed s.value) t (pc.owed s.value) :=
    funext fun u => Function.apply_update (fun _ => Local.owed s.value) s.thread t pc u
  rw [← hhand] at hplaced
  rw [← howed] at hlinear
  exact {
    chain := h.chain_setHead hchain
    bounded := hplaced.bounded
    list_once := hplaced.list_once
    hand_off := hplaced.hand_off
    hand_once := hplaced.hand_once
    covered := hplaced.covered
    knows := h.knows_exchange htag hknows
    linear := hlinear }

/-- **A node is taken off a list.** -/
theorem pop {which : Which} {rest : List ℕ} {history : List (Thread × Op T)}
    (hlist : lists which = node :: rest) (hhand : (s.thread t).hand = none)
    (hpc : pc.hand = some node)
    (hknows : Knows (s.setHead which ⟨(s.atomicHead which).abaTag + 1, s.next node⟩) pc)
    (hlinear : Linearizes (stack T) history s.returned
      (Function.update (fun u => (s.thread u).owed s.value) t (pc.owed s.value))
      ((Function.update lists which rest .head).map s.value)) :
    Inv maxsize
      { s.setHead which ⟨(s.atomicHead which).abaTag + 1, s.next node⟩ with
        thread := Function.update s.thread t pc
        history := history }
      (Function.update lists which rest) := by
  have hchain := h.chain which
  rw [hlist] at hchain
  have hrest := (List.nodup_cons.mp hchain.nodup).1
  have hplaced := h.placed.take hlist hrest hhand
  rw [← hpc] at hplaced
  exact h.exchange hchain.2 (Nat.lt_succ_self _) hplaced hknows hlinear

/-- **A node is put on a list.** -/
theorem push {which : Which} {history : List (Thread × Op T)} {returned : List (Thread × Ret T)}
    (hhand : (s.thread t).hand = some node) (hnext : s.next node = (s.atomicHead which).node)
    (hpc : pc.hand = none)
    (hknows : Knows (s.setHead which ⟨(s.atomicHead which).abaTag + 1, some node⟩) pc)
    (hlinear : Linearizes (stack T) history returned
      (Function.update (fun u => (s.thread u).owed s.value) t (pc.owed s.value))
      ((Function.update lists which (node :: lists which) .head).map s.value)) :
    Inv maxsize
      { s.setHead which ⟨(s.atomicHead which).abaTag + 1, some node⟩ with
        thread := Function.update s.thread t pc
        history := history
        returned := returned }
      (Function.update lists which (node :: lists which)) := by
  have hplaced := h.placed.put hhand which
  rw [← hpc] at hplaced
  exact h.exchange ((h.chain which).push hnext) (Nat.lt_succ_self _) hplaced hknows hlinear

theorem popExchange {op : Op T} {abaTag : ℕ} {next : Option ℕ}
    (ht : s.thread t = .popExchange op abaTag node next)
    (hhead : s.atomicHead op.source = ⟨abaTag, some node⟩) :
    ∃ lists', Inv maxsize ((s.setHead op.source ⟨abaTag + 1, next⟩).popDone t op node) lists' := by
  obtain ⟨-, hnext⟩ := (h.knows_at ht).2 (by rw [hhead])
  have hchain := h.chain op.source
  rw [hhead] at hchain
  obtain ⟨rest, hlist, -⟩ := hchain.exists_cons
  have htag : abaTag = (s.atomicHead op.source).abaTag := by rw [hhead]
  have hnone : (s.thread t).hand = none := by rw [ht]; rfl
  have howed : (s.thread t).owed s.value = none := by rw [ht]; rfl
  subst hnext
  rw [htag]
  cases op with
  | push ele =>
      exact ⟨_, h.pop hlist hnone rfl trivial (h.linear.stay howed.symm)⟩
  | pop =>
      refine ⟨_, h.pop hlist hnone rfl trivial ?_⟩
      have hlist' : lists .head = node :: rest := hlist
      have hcommit := h.linear.commit howed .pop
      rw [hlist'] at hcommit
      exact hcommit

theorem pushExchange {list : Which} {ele : T} {old : Head}
    (ht : s.thread t = .pushExchange list ele node old) (hhead : s.atomicHead list = old) :
    ∃ lists', Inv maxsize ((s.setHead list ⟨old.abaTag + 1, some node⟩).pushDone t list ele)
      lists' := by
  subst hhead
  obtain ⟨hnext, hvalue⟩ := h.knows_at ht
  have hhand : (s.thread t).hand = some node := by rw [ht]; rfl
  cases list with
  | head =>
      refine ⟨_, h.push hhand hnext rfl trivial ?_⟩
      obtain rfl : s.value node = ele := hvalue rfl
      exact h.linear.commit (by rw [ht]; rfl) (.push (s.value node))
  | free =>
      refine ⟨_, h.push hhand hnext rfl trivial ?_⟩
      exact h.linear.answer (by rw [ht]; rfl)

/-! ## The steps -/

theorem write {n : Node T} (ht : s.thread t = pc) (hpc : pc.hand = some node)
    (hhand : pc'.hand = some node) (hknows : Knows (s.setNode node n) pc')
    (howed : pc'.owed (s.setNode node n).value = pc.owed s.value) :
    Inv maxsize ((s.setNode node n).goto t pc') lists := by
  have hstep : Beside s ((s.setNode node n).goto t pc') t pc' := {
    thread := rfl
    atomicHead := rfl
    hand := by rw [ht, hpc, hhand]
    nodeBuf := fun other hother => Function.update_of_ne
      (fun heq => hother (by rw [ht, hpc, heq])) _ _
    knows := hknows }
  exact h.beside_stay hstep rfl rfl (by rw [ht]; exact howed)

theorem next? {weak : Bool} (hnext : s.next? t weak = some s') :
    ∃ lists', Inv maxsize s' lists' := by
  rw [Stack.next?.eq_def] at hnext
  cases hpc : s.thread t with
  | idle =>
      rw [hpc] at hnext
      cases hnext
  | popLoad op =>
      rw [hpc] at hnext
      cases hnext
      exact ⟨lists, h.popOld (by rw [hpc]; rfl) (by rw [hpc]; rfl)⟩
  | popNext op abaTag node =>
      rw [hpc] at hnext
      cases hnext
      have hknows := h.knows_at hpc
      exact ⟨lists, h.goto hpc rfl ⟨hknows.1, fun htag => ⟨hknows.2 htag, rfl⟩⟩ rfl⟩
  | popExchange op abaTag node next =>
      rw [hpc] at hnext
      dsimp only at hnext
      split_ifs at hnext with hsuccess
      · cases hnext
        exact h.popExchange hpc hsuccess.2
      · cases hnext
        exact ⟨lists, h.popOld (by rw [hpc]; rfl) (by rw [hpc]; rfl)⟩
  | writeValue ele node =>
      rw [hpc] at hnext
      cases hnext
      refine ⟨lists, h.write hpc rfl rfl ?_ rfl⟩
      show (Function.update s.nodeBuf node _ node).value = ele
      rw [Function.update_self]
  | decSize node =>
      rw [hpc] at hnext
      cases hnext
      have hstep : Beside s ({ s with size := s.size - 1 }.goto t (.readValue node)) t
          (.readValue node) := ⟨rfl, rfl, by rw [hpc]; rfl, fun _ _ => rfl, trivial⟩
      exact ⟨lists, h.beside_stay hstep rfl rfl (by rw [hpc]; rfl)⟩
  | readValue node =>
      rw [hpc] at hnext
      cases hnext
      exact ⟨lists, h.goto hpc rfl trivial rfl⟩
  | retEmpty =>
      rw [hpc] at hnext
      cases hnext
      exact ⟨lists, h.ret (by rw [hpc]; rfl) (by rw [hpc]; rfl)⟩
  | pushLoad list ele node =>
      rw [hpc] at hnext
      cases hnext
      have hknows := h.knows_at hpc
      cases list with
      | head => exact ⟨lists, h.goto hpc rfl hknows rfl⟩
      | free => exact ⟨lists, h.goto hpc rfl trivial rfl⟩
  | pushNext list ele node old =>
      rw [hpc] at hnext
      cases hnext
      have hknows := h.knows_at hpc
      have hself : (s.setNode node { s.nodeBuf node with next := old.node }).nodeBuf node =
          { s.nodeBuf node with next := old.node } := Function.update_self _ _ _
      have hwritten : Knows (s.setNode node { s.nodeBuf node with next := old.node })
          (.pushExchange list ele node old) := by
        refine ⟨by rw [Stack.next, hself], ?_⟩
        rintro rfl
        rw [Stack.value, hself]
        exact hknows
      refine ⟨lists, h.write hpc rfl rfl hwritten ?_⟩
      cases list <;> rfl
  | pushExchange list ele node old =>
      rw [hpc] at hnext
      dsimp only at hnext
      split_ifs at hnext with hsuccess
      · cases hnext
        exact h.pushExchange hpc hsuccess.2
      · cases hnext
        have hknows := h.knows_at hpc
        cases list with
        | head => exact ⟨lists, h.goto hpc rfl (hknows.2 rfl) rfl⟩
        | free => exact ⟨lists, h.goto hpc rfl trivial rfl⟩
  | incSize =>
      rw [hpc] at hnext
      cases hnext
      have hstep : Beside s ({ s with size := s.size + 1 }.ret t .pushed) t .idle :=
        ⟨rfl, rfl, by rw [hpc]; rfl, fun _ _ => rfl, trivial⟩
      exact ⟨lists, h.beside hstep (h.linear.answer (by rw [hpc]; rfl))⟩

theorem step {action : Action Thread T} (hstep : step s action = some s') :
    ∃ lists', Inv maxsize s' lists' := by
  cases action with
  | call t op =>
      rw [LockfreeStack.step.eq_def] at hstep
      dsimp only at hstep
      split at hstep
      · next hpc =>
          cases hstep
          exact ⟨lists, h.goto hpc rfl trivial rfl⟩
      · cases hstep
  | step t weak => exact h.next? hstep

end Inv

omit [DecidableEq Thread] in
theorem chain_initial [Inhabited T] {k : ℕ} (hk : k < maxsize) :
    Chain (initial maxsize : Stack Thread T).next (some k) (List.range' k (maxsize - k)) := by
  obtain ⟨d, rfl⟩ := Nat.exists_eq_add_of_lt hk
  induction d generalizing k with
  | zero =>
      rw [show k + 0 + 1 - k = 1 by omega]
      refine ⟨rfl, ?_⟩
      show (if k < k + 0 + 1 - 1 then some (k + 1) else none) = none
      rw [if_neg (by omega)]
  | succ d ih =>
      rw [show k + (d + 1) + 1 - k = d + 1 + 1 by omega, List.range'_succ]
      refine ⟨rfl, ?_⟩
      have hrest := ih (k := k + 1) (by omega)
      rw [show k + 1 + d + 1 = k + (d + 1) + 1 by omega,
        show k + (d + 1) + 1 - (k + 1) = d + 1 by omega] at hrest
      show Chain _ (if k < k + (d + 1) + 1 - 1 then some (k + 1) else none) _
      rw [if_pos (by omega)]
      exact hrest

theorem inv_initial [Inhabited T] (hsize : 1 ≤ maxsize) :
    Inv maxsize (initial maxsize : Stack Thread T)
      (fun | .head => [] | .free => List.range' 0 maxsize) where
  chain
    | .head => rfl
    | .free => chain_initial hsize
  bounded
    | .head => nofun
    | .free => fun node hnode => by
        have := List.mem_range'_1.mp hnode
        omega
  list_once
    | .head, _, _ => nofun
    | .free, .head, _ => nofun
    | .free, .free, _ => fun _ _ => rfl
  hand_off := nofun
  hand_once := nofun
  covered node hnode := .inl ⟨.free, List.mem_range'_1.mpr ⟨Nat.zero_le _, by omega⟩⟩
  knows _ := trivial
  linear := .start fun _ => rfl

theorem inv_of_reachable [Inhabited T] (hsize : 1 ≤ maxsize)
    (hreach : (lstack Thread T maxsize).Reachable s) : ∃ lists, Inv maxsize s lists := by
  refine hreach.invariant (P := fun s => ∃ lists, Inv maxsize s lists) ?_ ?_
  · rintro s rfl
    exact ⟨_, inv_initial hsize⟩
  · rintro s action s' ⟨lists, h⟩ hstep
    exact h.step hstep

/-! ## Where the nodes are -/

/-- The places of a node. -/
inductive Place (Thread : Type)
  | list (which : Which)
  | hand (t : Thread)

/-- The node is there. -/
def IsAt (s : Stack Thread T) (lists : Which → List ℕ) (node : ℕ) : Place Thread → Prop
  | .list which => node ∈ lists which
  | .hand t => (s.thread t).hand = some node

theorem Inv.existsUnique_place (h : Inv maxsize s lists) (hnode : node < maxsize) :
    ∃! place, IsAt s lists node place := by
  have hunique : ∀ place place', IsAt s lists node place → IsAt s lists node place' →
      place = place' := by
    rintro (which | t) (which' | t') hplace hplace'
    · rw [h.list_once which which' node hplace hplace']
    · exact absurd hplace ((h.hand_off t' node hplace').2 which)
    · exact absurd hplace' ((h.hand_off t node hplace).2 which')
    · rw [h.hand_once t t' node hplace hplace']
  rcases h.covered node hnode with ⟨which, hwhich⟩ | ⟨t, ht⟩
  · exact ⟨.list which, hwhich, fun place hplace => hunique place _ hplace hwhich⟩
  · exact ⟨.hand t, ht, fun place hplace => hunique place _ hplace ht⟩

/-- **The lock-free stack is a bounded stack**, for any threads and any order of their steps.  The
two lists have no cycles, every node of the buffer is on one of them or in the hand of one thread,
at one place only, and no other nodes are.  What the calls return, and what those owe that have
taken effect and not returned, is what a sequential stack answers to the exchanges on `head_` in
their order; and it then holds the values on the list from `head_`. -/
theorem stack_under_concurrency [Inhabited T] (hsize : 1 ≤ maxsize)
    (hreach : (lstack Thread T maxsize).Reachable s) :
    ∃ lists : Which → List ℕ,
      (∀ which, Chain s.next (s.atomicHead which).node (lists which) ∧ (lists which).Nodup) ∧
      (∀ node < maxsize, ∃! place, IsAt s lists node place) ∧
      (∀ node place, IsAt s lists node place → node < maxsize) ∧
      Linearizes (stack T) s.history s.returned (fun t => (s.thread t).owed s.value)
        ((lists .head).map s.value) := by
  obtain ⟨lists, h⟩ := inv_of_reachable hsize hreach
  refine ⟨lists, fun which => ⟨h.chain which, (h.chain which).nodup⟩,
    fun node hnode => h.existsUnique_place hnode, ?_, h.linear⟩
  rintro node (which | t) hplace
  · exact h.bounded which node hplace
  · exact (h.hand_off t node hplace).1

/-- One thread has loaded the head and read its `next`, when another one pops the node and pushes it
again with another value.  The head has the same node, and the exchange fails by the tag. -/
def sameNode : List (Action Bool ℕ) :=
  Action.call false (.push 5) :: List.replicate 8 (Action.step false false) ++
    Action.call true .pop :: List.replicate 2 (Action.step true false) ++
    Action.call false .pop :: List.replicate 8 (Action.step false false) ++
    Action.call false (.push 8) :: List.replicate 8 (Action.step false false) ++
    List.replicate 8 (Action.step true false)

theorem stack_under_concurrency_same_node :
    ∃ s, (lstack Bool ℕ 1).run (initial 1) sameNode = some s ∧
      s.returned = [(false, .pushed), (false, .popped 5), (false, .pushed), (true, .popped 8)] ∧
      ∃ lists : Which → List ℕ, (∃! place, IsAt s lists 0 place) ∧
        Linearizes (stack ℕ) s.history s.returned (fun t => (s.thread t).owed s.value)
          ((lists .head).map s.value) := by
  have hfacts : ((lstack Bool ℕ 1).run (initial 1) sameNode).map (fun s => s.returned) =
      some [(false, .pushed), (false, .popped 5), (false, .pushed), (true, .popped 8)] := rfl
  obtain ⟨s, hrun, hs⟩ := Option.map_eq_some_iff.mp hfacts
  obtain ⟨lists, -, hplace, -, hlinear⟩ :=
    stack_under_concurrency (by decide) ⟨initial 1, sameNode, rfl, hrun⟩
  exact ⟨s, hrun, hs, lists, hplace 0 (by decide), hlinear⟩

end Eureka.LockfreeStack

import Eureka.Library.Mutex
import Eureka.TwoLockQueue.Queue

/-!
# The two-lock queue is a queue

The list from `head_` starts with the sentinel.  Enqueuers append to it and
dequeuers take from its front, so they only meet when the sentinel is the last
node.  Then a dequeuer may delete a node that `tail_` still names, namely between
the two writes of an enqueuer; but `tail_` is read by nobody before the second one.

* `Inv`: the invariant between any two steps, over the nodes of the list and
  their values;
* `Inv.moves`, `Inv.setOwned`: the steps that leave the list as it is;
* `fifo_run`: what a sequential queue takes out is what was put in, in order;
* `queue_under_concurrency`: what holds in every reachable state.
-/

namespace Eureka.TwoLockQueue

open Transition LinkedList

/-! ## The sequential queue -/

section Sequential

variable {Thread T : Type}

/-- The values that are put in, in their order. -/
def insertions (history : List (Thread × Op T)) : List T :=
  history.filterMap fun call =>
    match call.2 with
    | .enqueue value => some value
    | .dequeue => none

/-- The values that are taken out, in their order. -/
def removals (answers : List (Thread × Ret T)) : List T :=
  answers.filterMap fun answer =>
    match answer.2 with
    | .dequeued value => some value
    | _ => none

/-- **None lost, none duplicated, none out of order.** -/
theorem fifo_run (values : List T) (history : List (Thread × Op T)) :
    values ++ insertions history =
      removals ((fifo T).run values history).1 ++ ((fifo T).run values history).2 := by
  induction history generalizing values with
  | nil => exact List.append_nil values
  | cons call history ih =>
      obtain ⟨t, value | _⟩ := call
      · calc values ++ (value :: insertions history)
            = (values ++ [value]) ++ insertions history := by simp
          _ = _ := ih (values ++ [value])
      · cases values with
        | nil => exact ih []
        | cons first values => exact congrArg (first :: ·) (ih values)

end Sequential

/-! ## What a thread holds -/

namespace Local

variable {Addr T : Type}

/-- The thread is in the section of `tail_mtx_`. -/
def inTail : Local Addr T → Bool
  | readTail _ _ => true
  | writeNext _ _ _ => true
  | writeTail _ => true
  | unlockTail => true
  | _ => false

/-- The thread is in the section of `head_mtx_`. -/
def inHead : Local Addr T → Bool
  | readHead => true
  | readNext _ => true
  | unlockEmpty => true
  | readOldHead _ => true
  | readValue _ _ => true
  | writeHead _ _ _ => true
  | unlockHead _ _ => true
  | _ => false

/-- The node that only the thread can reach: not linked in yet, or not any more. -/
def owned : Local Addr T → Option Addr
  | lockTail _ newTail => some newTail
  | readTail _ newTail => some newTail
  | writeNext _ newTail _ => some newTail
  | unlockHead oldHead _ => some oldHead
  | delete oldHead _ => some oldHead
  | _ => none

/-- The answer of a call that has taken effect and not returned. -/
def owed : Local Addr T → Option (Ret T)
  | writeTail _ => some .enqueued
  | unlockTail => some .enqueued
  | unlockEmpty => some .empty
  | unlockHead _ value => some (.dequeued value)
  | delete _ value => some (.dequeued value)
  | _ => none

end Local

variable {Thread Addr T : Type} {q q' : Queue Thread Addr T} {nodes : List Addr} {values : List T} {t u : Thread}
  {pc : Local Addr T} {addr : Addr}

namespace Queue

theorem access_some {node : Node Addr T} (hnode : q.node addr = some node)
    (use : Node Addr T → Queue Thread Addr T) : q.access addr use = use node := by
  rw [access, hnode]

variable [DecidableEq Addr]

theorem next_setNode (q : Queue Thread Addr T) (addr : Addr) (node : Option (Node Addr T)) :
    (q.setNode addr node).next = Function.update q.next addr (node.bind Node.next) := by
  funext other
  by_cases hother : other = addr
  · subst hother
    simp [next, setNode]
  · simp [next, setNode, Function.update_of_ne hother]

@[simp] theorem node_setNode_self (q : Queue Thread Addr T) (addr : Addr)
    (node : Option (Node Addr T)) : (q.setNode addr node).node addr = node :=
  Function.update_self _ _ _

theorem node_setNode_of_ne {other : Addr} (hne : other ≠ addr) (node : Option (Node Addr T)) :
    (q.setNode addr node).node other = q.node other :=
  Function.update_of_ne hne _ _

theorem value?_link {node : Node Addr T} (hnode : q.node addr = some node)
    (target : Option Addr) :
    (q.setNode addr (some { node with next := target })).value? = q.value? := by
  funext other
  by_cases hother : other = addr
  · rw [hother, value?, node_setNode_self, value?, hnode]
    rfl
  · rw [value?, node_setNode_of_ne hother, value?]

end Queue

/-! ## The invariant -/

variable [DecidableEq Thread]

/-- What a thread knows of the queue from its earlier steps. -/
def Knows (q : Queue Thread Addr T) (nodes : List Addr) : Local Addr T → Prop
  | .lockTail value newTail => q.node newTail = some ⟨value, none⟩
  | .readTail value newTail => q.node newTail = some ⟨value, none⟩
  | .writeNext value newTail tail =>
      q.node newTail = some ⟨value, none⟩ ∧ nodes.getLast? = some tail
  | .writeTail newTail => nodes.getLast? = some newTail
  | .readNext head => head = q.head
  | .readOldHead newHead => q.next q.head = some newHead
  | .readValue newHead oldHead => oldHead = q.head ∧ q.next q.head = some newHead
  | .writeHead newHead oldHead value =>
      oldHead = q.head ∧ q.next q.head = some newHead ∧ q.value? newHead = some value
  | _ => True

/-- The list from `head_` has these nodes, and behind the sentinel these values. -/
structure Inv (q : Queue Thread Addr T) (nodes : List Addr) (values : List T) : Prop where
  fault : q.fault = false
  chain : Chain q.next (some q.head) nodes
  used : ∀ addr ∈ nodes, (q.node addr).isSome
  values_eq : nodes.tail.map q.value? = values.map some
  /-- Between its two writes an enqueuer keeps `tail_` behind. -/
  tail : (∀ t newTail, q.thread t ≠ .writeTail newTail) → nodes.getLast? = some q.tail
  headMtx : Guards q.headMtx (Local.inHead ∘ q.thread)
  tailMtx : Guards q.tailMtx (Local.inTail ∘ q.thread)
  owned_used : ∀ t addr, (q.thread t).owned = some addr → (q.node addr).isSome ∧ addr ∉ nodes
  owned_once : ∀ t u addr, (q.thread t).owned = some addr → (q.thread u).owned = some addr → t = u
  knows : ∀ t, Knows q nodes (q.thread t)
  linear : Linearizes (fifo T) q.history q.returned (Local.owed ∘ q.thread) values

/-- The thread goes on to `pc` and leaves the list and the nodes of the others as they are. -/
structure Beside (q q' : Queue Thread Addr T) (nodes : List Addr) (t : Thread)
    (pc : Local Addr T) : Prop where
  thread : q'.thread = Function.update q.thread t pc
  head : q'.head = q.head
  fault : q'.fault = q.fault
  node : ∀ addr, (addr ∈ nodes ∨ ∃ u, u ≠ t ∧ (q.thread u).owned = some addr) →
    q'.node addr = q.node addr
  owned : ∀ addr, pc.owned = some addr →
    (q'.node addr).isSome ∧ addr ∉ nodes ∧ ∀ u, u ≠ t → (q.thread u).owned ≠ some addr
  knows : Knows q' nodes pc

namespace Inv

variable (h : Inv q nodes values)

include h

theorem head_mem : q.head ∈ nodes := by
  obtain ⟨rest, rfl, -⟩ := h.chain.exists_cons
  exact List.mem_cons_self

/-- What the thread knows stays true if nothing it can see of the list is changed. -/
theorem knows_of_same (hhead : q'.head = q.head)
    (hnode : ∀ addr, addr ∈ nodes ∨ (q.thread u).owned = some addr → q'.node addr = q.node addr) :
    Knows q' nodes (q.thread u) := by
  have hknows := h.knows u
  have hnext : q'.next q.head = q.next q.head := by
    rw [Queue.next, hnode _ (.inl h.head_mem), Queue.next]
  obtain ⟨rest, rfl, hrest⟩ := h.chain.exists_cons
  cases hpc : q.thread u with
  | lockTail value newTail | readTail value newTail =>
      rw [hpc] at hknows hnode
      exact (hnode newTail (.inr rfl)).trans hknows
  | writeNext value newTail tail =>
      rw [hpc] at hknows hnode
      exact ⟨(hnode newTail (.inr rfl)).trans hknows.1, hknows.2⟩
  | readNext head =>
      rw [hpc] at hknows
      exact hknows.trans hhead.symm
  | readOldHead newHead =>
      rw [hpc] at hknows
      show q'.next q'.head = some newHead
      rw [hhead, hnext]
      exact hknows
  | readValue newHead oldHead =>
      rw [hpc] at hknows
      show oldHead = q'.head ∧ q'.next q'.head = some newHead
      rw [hhead, hnext]
      exact hknows
  | writeHead newHead oldHead value =>
      rw [hpc] at hknows
      obtain ⟨rfl, hnew, hvalue⟩ := hknows
      have hmem : newHead ∈ q.head :: rest := by
        rw [hnew] at hrest
        obtain ⟨rest', rfl, -⟩ := hrest.exists_cons
        exact List.mem_cons_of_mem _ List.mem_cons_self
      show q.head = q'.head ∧ q'.next q'.head = some newHead ∧ q'.value? newHead = some value
      rw [hhead, hnext, Queue.value?, hnode newHead (.inl hmem)]
      exact ⟨rfl, hnew, hvalue⟩
  | writeTail newTail =>
      rw [hpc] at hknows
      exact hknows
  | idle | alloc | unlockTail | lockHead | readHead | unlockEmpty | unlockHead | delete =>
      trivial

theorem beside_of_node_eq (hthread : q'.thread = Function.update q.thread t pc)
    (hhead : q'.head = q.head) (hfault : q'.fault = q.fault) (hnode : q'.node = q.node)
    (howned : ∀ addr, pc.owned = some addr → (q.thread t).owned = some addr)
    (hknows : Knows q' nodes pc) : Beside q q' nodes t pc where
  thread := hthread
  head := hhead
  fault := hfault
  node addr _ := congrFun hnode addr
  owned addr haddr := by
    have hwas := howned addr haddr
    obtain ⟨hused, hoff⟩ := h.owned_used t addr hwas
    exact ⟨by rw [hnode]; exact hused, hoff, fun u hu hu' => hu (h.owned_once u t addr hu' hwas)⟩
  knows := hknows

/-- Such a step keeps the invariant if the mutexes, `tail_` and the history do. -/
theorem beside (hstep : Beside q q' nodes t pc)
    (htail : (∀ u newTail, q'.thread u ≠ .writeTail newTail) → nodes.getLast? = some q'.tail)
    (hheadMtx : Guards q'.headMtx (Function.update (Local.inHead ∘ q.thread) t pc.inHead))
    (htailMtx : Guards q'.tailMtx (Function.update (Local.inTail ∘ q.thread) t pc.inTail))
    (hlinear : Linearizes (fifo T) q'.history q'.returned
      (Function.update (Local.owed ∘ q.thread) t pc.owed) values) :
    Inv q' nodes values where
  fault := hstep.fault.trans h.fault
  chain := by
    rw [hstep.head]
    refine h.chain.congr fun addr hmem => ?_
    rw [Queue.next, hstep.node addr (.inl hmem), Queue.next]
  used addr hmem := by
    rw [hstep.node addr (.inl hmem)]
    exact h.used addr hmem
  values_eq := by
    rw [← h.values_eq]
    refine List.map_congr_left fun addr hmem => ?_
    rw [Queue.value?, hstep.node addr (.inl (List.mem_of_mem_tail hmem)), Queue.value?]
  tail := htail
  headMtx := by rw [hstep.thread, Function.comp_update]; exact hheadMtx
  tailMtx := by rw [hstep.thread, Function.comp_update]; exact htailMtx
  owned_used u addr hu := by
    rw [hstep.thread] at hu
    by_cases hut : u = t
    · subst hut
      rw [Function.update_self] at hu
      exact ⟨(hstep.owned addr hu).1, (hstep.owned addr hu).2.1⟩
    · rw [Function.update_of_ne hut] at hu
      rw [hstep.node addr (.inr ⟨u, hut, hu⟩)]
      exact h.owned_used u addr hu
  owned_once u v addr hu hv := by
    rw [hstep.thread] at hu hv
    by_cases hut : u = t <;> by_cases hvt : v = t
    · rw [hut, hvt]
    · rw [hut, Function.update_self] at hu
      rw [Function.update_of_ne hvt] at hv
      exact absurd hv ((hstep.owned addr hu).2.2 v hvt)
    · rw [hvt, Function.update_self] at hv
      rw [Function.update_of_ne hut] at hu
      exact absurd hu ((hstep.owned addr hv).2.2 u hut)
    · rw [Function.update_of_ne hut] at hu
      rw [Function.update_of_ne hvt] at hv
      exact h.owned_once u v addr hu hv
  knows u := by
    rw [hstep.thread]
    by_cases hut : u = t
    · subst hut
      rw [Function.update_self]
      exact hstep.knows
    · rw [Function.update_of_ne hut]
      refine h.knows_of_same hstep.head ?_
      rintro addr (hmem | howned)
      · exact hstep.node addr (.inl hmem)
      · exact hstep.node addr (.inr ⟨u, hut, howned⟩)
  linear := by rw [hstep.thread, Function.comp_update]; exact hlinear

/-! What the thread's own state says of it: nothing changes by a step to a state alike. -/

theorem knows_at (ht : q.thread t = pc) : Knows q nodes pc := ht ▸ h.knows t

theorem head_stay (ht : q.thread t = pc) {pc' : Local Addr T} (hsame : pc'.inHead = pc.inHead) :
    Guards q.headMtx (Function.update (Local.inHead ∘ q.thread) t pc'.inHead) :=
  h.headMtx.stay (by rw [Function.comp_apply, ht]; exact hsame)

theorem tail_stay (ht : q.thread t = pc) {pc' : Local Addr T} (hsame : pc'.inTail = pc.inTail) :
    Guards q.tailMtx (Function.update (Local.inTail ∘ q.thread) t pc'.inTail) :=
  h.tailMtx.stay (by rw [Function.comp_apply, ht]; exact hsame)

theorem linear_stay (ht : q.thread t = pc) {pc' : Local Addr T} (hsame : pc'.owed = pc.owed) :
    Linearizes (fifo T) q.history q.returned
      (Function.update (Local.owed ∘ q.thread) t pc'.owed) values :=
  h.linear.stay (by rw [Function.comp_apply, ht]; exact hsame)

/-! ## The steps that write no node -/

/-- While nobody is between the two writes, `tail_` is the last node. -/
theorem tail_of_idle (ht : q.thread t = pc) (hpc : ∀ newTail, pc ≠ .writeTail newTail)
    {pc' : Local Addr T} :
    (∀ u newTail, Function.update q.thread t pc' u ≠ .writeTail newTail) →
      nodes.getLast? = some q.tail := by
  intro hnone
  refine h.tail fun u newTail hu => ?_
  by_cases hut : u = t
  · subst hut
    exact hpc newTail (ht.symm.trans hu)
  · exact hnone u newTail (by rw [Function.update_of_ne hut, hu])

theorem goto (ht : q.thread t = pc) {pc' : Local Addr T} (hpc : ∀ newTail, pc ≠ .writeTail newTail)
    (hhead : pc'.inHead = pc.inHead) (htail : pc'.inTail = pc.inTail) (howed : pc'.owed = pc.owed)
    (howned : ∀ addr, pc'.owned = some addr → pc.owned = some addr)
    (hknows : Knows q nodes pc') : Inv (q.goto t pc') nodes values := by
  have hstep : Beside q (q.goto t pc') nodes t pc' :=
    h.beside_of_node_eq rfl rfl rfl rfl (fun addr haddr => ht ▸ howned addr haddr) hknows
  exact h.beside hstep (h.tail_of_idle ht hpc) (h.head_stay ht hhead) (h.tail_stay ht htail)
    (h.linear_stay ht howed)

theorem lockTail {value : T} (ht : q.thread t = .lockTail value addr) (hopen : q.tailMtx = none) :
    Inv ({ q with tailMtx := some t }.goto t (.readTail value addr)) nodes values := by
  have hstep : Beside q ({ q with tailMtx := some t }.goto t (.readTail value addr)) nodes t
      (.readTail value addr) :=
    h.beside_of_node_eq rfl rfl rfl rfl (fun _ howned => ht ▸ howned) (h.knows_at ht)
  refine h.beside hstep (h.tail_of_idle ht nofun) (h.head_stay ht rfl) ?_ (h.linear_stay ht rfl)
  have hguards := h.tailMtx
  rw [hopen] at hguards
  exact hguards.lock t

/-- In the section of `tail_mtx_`, and in front of its two writes, `tail_` is the last node. -/
theorem readTail {value : T} (ht : q.thread t = .readTail value addr) :
    Inv (q.goto t (.writeNext value addr q.tail)) nodes values := by
  have hlast : nodes.getLast? = some q.tail := by
    refine h.tail fun u newTail hu => ?_
    have htu : t = u := h.tailMtx.unique (by rw [Function.comp_apply, ht]; rfl)
      (by rw [Function.comp_apply, hu]; rfl)
    rw [← htu, ht] at hu
    cases hu
  exact h.goto ht nofun rfl rfl rfl (fun _ howned => howned) ⟨h.knows_at ht, hlast⟩

theorem writeTail {newTail : Addr} (ht : q.thread t = .writeTail newTail) :
    Inv ({ q with tail := newTail }.goto t .unlockTail) nodes values := by
  have hstep : Beside q ({ q with tail := newTail }.goto t .unlockTail) nodes t .unlockTail :=
    h.beside_of_node_eq rfl rfl rfl rfl nofun trivial
  exact h.beside hstep (fun _ => h.knows_at ht) (h.head_stay ht rfl) (h.tail_stay ht rfl)
    (h.linear_stay ht rfl)

theorem unlockTail (ht : q.thread t = .unlockTail) :
    Inv ({ q with tailMtx := none }.ret t .enqueued) nodes values := by
  have hstep : Beside q ({ q with tailMtx := none }.ret t .enqueued) nodes t .idle :=
    h.beside_of_node_eq rfl rfl rfl rfl nofun trivial
  refine h.beside hstep (h.tail_of_idle ht nofun) (h.head_stay ht rfl) ?_ ?_
  · exact h.tailMtx.unlock (by rw [Function.comp_apply, ht]; rfl)
  · exact h.linear.answer (by rw [Function.comp_apply, ht]; rfl)

theorem lockHead (ht : q.thread t = .lockHead) (hopen : q.headMtx = none) :
    Inv ({ q with headMtx := some t }.goto t .readHead) nodes values := by
  have hstep : Beside q ({ q with headMtx := some t }.goto t .readHead) nodes t .readHead :=
    h.beside_of_node_eq rfl rfl rfl rfl nofun trivial
  refine h.beside hstep (h.tail_of_idle ht nofun) ?_ (h.tail_stay ht rfl) (h.linear_stay ht rfl)
  have hguards := h.headMtx
  rw [hopen] at hguards
  exact hguards.lock t

/-- Behind the sentinel there is nothing: at this moment the queue is empty. -/
theorem values_eq_nil (hnull : q.next q.head = none) : values = [] := by
  have hvalues := h.values_eq
  rw [h.chain.eq_singleton hnull] at hvalues
  exact List.map_eq_nil_iff.mp hvalues.symm

theorem readNull (ht : q.thread t = .readNext q.head) (hnull : q.next q.head = none) :
    Inv ((q.record t .dequeue).goto t .unlockEmpty) nodes values := by
  have hstep : Beside q ((q.record t .dequeue).goto t .unlockEmpty) nodes t .unlockEmpty :=
    h.beside_of_node_eq rfl rfl rfl rfl nofun trivial
  refine h.beside hstep (h.tail_of_idle ht nofun) (h.head_stay ht rfl) (h.tail_stay ht rfl) ?_
  have hcommit := h.linear.commit (by rw [Function.comp_apply, ht]; rfl) .dequeue
  rw [h.values_eq_nil hnull] at hcommit ⊢
  exact hcommit

theorem unlockEmpty (ht : q.thread t = .unlockEmpty) :
    Inv ({ q with headMtx := none }.ret t .empty) nodes values := by
  have hstep : Beside q ({ q with headMtx := none }.ret t .empty) nodes t .idle :=
    h.beside_of_node_eq rfl rfl rfl rfl nofun trivial
  refine h.beside hstep (h.tail_of_idle ht nofun) ?_ (h.tail_stay ht rfl) ?_
  · exact h.headMtx.unlock (by rw [Function.comp_apply, ht]; rfl)
  · exact h.linear.answer (by rw [Function.comp_apply, ht]; rfl)

theorem readValue {newHead oldHead : Addr} {node : Node Addr T}
    (ht : q.thread t = .readValue newHead oldHead) (hnode : q.node newHead = some node) :
    Inv (q.goto t (.writeHead newHead oldHead node.value)) nodes values := by
  obtain ⟨hold, hnew⟩ : oldHead = q.head ∧ q.next q.head = some newHead := h.knows_at ht
  have hvalue : q.value? newHead = some node.value := by
    rw [Queue.value?, hnode]
    rfl
  exact h.goto ht nofun rfl rfl rfl nofun ⟨hold, hnew, hvalue⟩

theorem behind_head {newHead : Addr} (hnext : q.next q.head = some newHead) :
    ∃ rest, nodes = q.head :: newHead :: rest := by
  obtain ⟨rest, rfl, hrest⟩ := h.chain.exists_cons
  rw [hnext] at hrest
  obtain ⟨rest', rfl, -⟩ := hrest.exists_cons
  exact ⟨rest', rfl⟩

/-- `head_` is only used by the thread in the section of `head_mtx_`; the others know of the end of
the list, which stays. -/
theorem knows_of_unlinked {newHead oldHead : Addr} {value : T} {nodes' : List Addr}
    (ht : q.thread t = .writeHead newHead oldHead value)
    (hlast : nodes'.getLast? = nodes.getLast?) (hut : u ≠ t) :
    Knows { q with head := newHead } nodes' (q.thread u) := by
  have houtside : (q.thread u).inHead = false := by
    refine Bool.eq_false_iff.mpr fun hin => hut ?_
    exact h.headMtx.unique (t := u) hin (by rw [Function.comp_apply, ht]; rfl)
  have hknows := h.knows u
  cases hu : q.thread u with
  | lockTail | readTail =>
      rw [hu] at hknows
      exact hknows
  | writeNext value' newTail tail =>
      rw [hu] at hknows
      exact ⟨hknows.1, hlast.trans hknows.2⟩
  | writeTail newTail =>
      rw [hu] at hknows
      exact hlast.trans hknows
  | readNext | readOldHead | readValue | writeHead =>
      rw [hu] at houtside
      cases houtside
  | idle | alloc | unlockTail | lockHead | readHead | unlockEmpty | unlockHead | delete =>
      trivial

/-- **The removal.**  The old sentinel is off the list, and only this thread knows of it. -/
theorem writeHead {newHead oldHead : Addr} {value : T}
    (ht : q.thread t = .writeHead newHead oldHead value) :
    ∃ values', values = value :: values' ∧
      Inv (({ q with head := newHead }.record t .dequeue).goto t (.unlockHead oldHead value))
        nodes.tail values' := by
  obtain ⟨rfl, hnext, hvalue⟩ :
      oldHead = q.head ∧ q.next q.head = some newHead ∧ q.value? newHead = some value :=
    h.knows_at ht
  obtain ⟨rest, rfl⟩ := h.behind_head hnext
  have hvalues := h.values_eq
  rw [List.tail_cons, List.map_cons, hvalue] at hvalues
  obtain ⟨values', rfl, hbehind⟩ : ∃ values', values = value :: values' ∧
      rest.map q.value? = values'.map some := by
    cases values with
    | nil => cases hvalues
    | cons value' values' =>
        obtain ⟨hfirst, hrest⟩ := List.cons.inj hvalues
        exact ⟨values', by rw [Option.some.inj hfirst], hrest⟩
  have hlast : (newHead :: rest).getLast? = (q.head :: newHead :: rest).getLast? :=
    List.getLast?_cons_cons.symm
  have howned : ∀ u a, (Function.update q.thread t (.unlockHead q.head value) u).owned = some a →
      u = t ∧ a = q.head ∨ u ≠ t ∧ (q.thread u).owned = some a := by
    intro u a hu
    by_cases hut : u = t
    · subst hut
      rw [Function.update_self] at hu
      exact .inl ⟨rfl, (Option.some.inj hu).symm⟩
    · rw [Function.update_of_ne hut] at hu
      exact .inr ⟨hut, hu⟩
  have hothers : ∀ u a, (q.thread u).owned = some a → a ≠ q.head := by
    rintro u a hu rfl
    exact (h.owned_used u _ hu).2 List.mem_cons_self
  refine ⟨values', rfl, {
    fault := h.fault
    chain := hnext ▸ h.chain.2
    used := fun a ha => h.used a (List.mem_cons_of_mem _ ha)
    values_eq := hbehind
    tail := fun hnone => hlast.trans (h.tail_of_idle ht nofun hnone)
    headMtx := ?_
    tailMtx := ?_
    owned_used := ?_
    owned_once := ?_
    knows := ?_
    linear := ?_ }⟩
  · show Guards q.headMtx (Local.inHead ∘ Function.update q.thread t _)
    rw [Function.comp_update]
    exact h.head_stay ht rfl
  · show Guards q.tailMtx (Local.inTail ∘ Function.update q.thread t _)
    rw [Function.comp_update]
    exact h.tail_stay ht rfl
  · intro u a hu
    rcases howned u a hu with ⟨-, rfl⟩ | ⟨-, hwas⟩
    · exact ⟨h.used _ List.mem_cons_self, (List.nodup_cons.mp h.chain.nodup).1⟩
    · obtain ⟨hin, hout⟩ := h.owned_used u a hwas
      exact ⟨hin, fun hmem => hout (List.mem_cons_of_mem _ hmem)⟩
  · intro u v a hu hv
    rcases howned u a hu with ⟨rfl, ha⟩ | ⟨-, hu'⟩ <;>
      rcases howned v a hv with ⟨rfl, ha'⟩ | ⟨-, hv'⟩
    · rfl
    · exact absurd ha (hothers v a hv')
    · exact absurd ha' (hothers u a hu')
    · exact h.owned_once u v a hu' hv'
  · intro u
    by_cases hut : u = t
    · subst hut
      show Knows _ _ (Function.update q.thread u _ u)
      rw [Function.update_self]
      trivial
    · show Knows _ _ (Function.update q.thread t _ u)
      rw [Function.update_of_ne hut]
      exact h.knows_of_unlinked ht hlast hut
  · show Linearizes (fifo T) _ _ (Local.owed ∘ Function.update q.thread t _) _
    rw [Function.comp_update]
    exact h.linear.commit (by rw [Function.comp_apply, ht]; rfl) .dequeue

theorem unlockHead {oldHead : Addr} {value : T} (ht : q.thread t = .unlockHead oldHead value) :
    Inv ({ q with headMtx := none }.goto t (.delete oldHead value)) nodes values := by
  have hstep : Beside q ({ q with headMtx := none }.goto t (.delete oldHead value)) nodes t
      (.delete oldHead value) :=
    h.beside_of_node_eq rfl rfl rfl rfl (fun _ howned => ht ▸ howned) trivial
  refine h.beside hstep (h.tail_of_idle ht nofun) ?_ (h.tail_stay ht rfl) (h.linear_stay ht rfl)
  exact h.headMtx.unlock (by rw [Function.comp_apply, ht]; rfl)

/-! ## The steps that write nodes -/

variable [DecidableEq Addr]

theorem new {value : T} (ht : q.thread t = .alloc value) (haddr : q.node addr = none) :
    Inv ((q.setNode addr (some ⟨value, none⟩)).goto t (.lockTail value addr)) nodes values := by
  have hfree : ∀ other, (q.node other).isSome → other ≠ addr := by
    rintro other hused rfl
    rw [haddr] at hused
    exact Bool.false_ne_true hused
  have hstep : Beside q ((q.setNode addr (some ⟨value, none⟩)).goto t (.lockTail value addr))
      nodes t (.lockTail value addr) := {
    thread := rfl
    head := rfl
    fault := rfl
    node := by
      rintro other (hmem | ⟨u, -, howned⟩)
      · exact Queue.node_setNode_of_ne (hfree _ (h.used _ hmem)) _
      · exact Queue.node_setNode_of_ne (hfree _ (h.owned_used u _ howned).1) _
    owned := by
      rintro other hother
      obtain rfl : addr = other := Option.some.inj hother
      refine ⟨?_, fun hmem => hfree _ (h.used _ hmem) rfl,
        fun u _ howned => hfree _ (h.owned_used u _ howned).1 rfl⟩
      show ((q.setNode addr _).node addr).isSome
      rw [Queue.node_setNode_self]
      rfl
    knows := Function.update_self _ _ _ }
  exact h.beside hstep (h.tail_of_idle ht nofun) (h.head_stay ht rfl) (h.tail_stay ht rfl)
    (h.linear_stay ht rfl)

/-- The pointer of the last node is only written by the thread in the section of `tail_mtx_`; what
another thread knows of it is nothing. -/
theorem knows_of_linked {value : T} {newTail tail : Addr} {node : Node Addr T}
    (ht : q.thread t = .writeNext value newTail tail) (hnode : q.node tail = some node)
    (hlast : nodes.getLast? = some tail) (hut : u ≠ t) :
    Knows (q.setNode tail (some { node with next := some newTail })) (nodes ++ [newTail])
      (q.thread u) := by
  have hnull : q.next tail = none := h.chain.next_last hlast
  have hmem : tail ∈ nodes := List.mem_of_getLast? hlast
  have hnext : ∀ a b, q.next a = some b →
      (q.setNode tail (some { node with next := some newTail })).next a = some b := by
    intro a b hab
    rw [Queue.next_setNode, Function.update_of_ne, hab]
    rintro rfl
    exact nomatch hab.symm.trans hnull
  have houtside : (q.thread u).inTail = false := by
    refine Bool.eq_false_iff.mpr fun hin => hut ?_
    exact h.tailMtx.unique (t := u) hin (by rw [Function.comp_apply, ht]; rfl)
  have hknows := h.knows u
  cases hu : q.thread u with
  | lockTail value' newTail' =>
      rw [hu] at hknows
      have hoff := (h.owned_used u newTail' (by rw [hu]; rfl)).2
      exact (Queue.node_setNode_of_ne (fun heq : newTail' = tail => hoff (heq ▸ hmem)) _).trans
        hknows
  | readNext head =>
      rw [hu] at hknows
      exact hknows
  | readOldHead newHead =>
      rw [hu] at hknows
      exact hnext _ _ hknows
  | readValue newHead oldHead =>
      rw [hu] at hknows
      exact ⟨hknows.1, hnext _ _ hknows.2⟩
  | writeHead newHead oldHead value' =>
      rw [hu] at hknows
      refine ⟨hknows.1, hnext _ _ hknows.2.1, ?_⟩
      rw [Queue.value?_link hnode]
      exact hknows.2.2
  | readTail | writeNext | writeTail =>
      rw [hu] at houtside
      cases houtside
  | idle | alloc | unlockTail | lockHead | readHead | unlockEmpty | unlockHead | delete =>
      trivial

/-- **The insertion.**  The new node comes behind the last one, and the others see no difference
but in the pointer of that one, which was null. -/
theorem writeNext {value : T} {newTail tail : Addr} {node : Node Addr T}
    (ht : q.thread t = .writeNext value newTail tail) (hnode : q.node tail = some node) :
    Inv (((q.setNode tail (some { node with next := some newTail })).record t
      (.enqueue value)).goto t (.writeTail newTail)) (nodes ++ [newTail]) (values ++ [value]) := by
  obtain ⟨hnew, hlast⟩ : q.node newTail = some ⟨value, none⟩ ∧ nodes.getLast? = some tail :=
    h.knows_at ht
  obtain ⟨-, hoff⟩ := h.owned_used t newTail (by rw [ht]; rfl)
  have hmem : tail ∈ nodes := List.mem_of_getLast? hlast
  have hne : newTail ≠ tail := fun heq => hoff (heq ▸ hmem)
  have hnull : q.next tail = none := h.chain.next_last hlast
  have hused : ∀ other, (q.node other).isSome →
      ((q.setNode tail (some { node with next := some newTail })).node other).isSome := by
    intro other hother
    by_cases htail : other = tail
    · rw [htail, Queue.node_setNode_self]
      rfl
    · rw [Queue.node_setNode_of_ne htail]
      exact hother
  have howned : ∀ u a, (Function.update q.thread t (.writeTail newTail) u).owned = some a →
      u ≠ t ∧ (q.thread u).owned = some a := by
    intro u a hu
    by_cases hut : u = t
    · subst hut
      rw [Function.update_self] at hu
      cases hu
    · rw [Function.update_of_ne hut] at hu
      exact ⟨hut, hu⟩
  refine {
    fault := h.fault
    chain := ?_
    used := ?_
    values_eq := ?_
    tail := fun hnone => absurd (Function.update_self _ _ _) (hnone t newTail)
    headMtx := ?_
    tailMtx := ?_
    owned_used := ?_
    owned_once := ?_
    knows := ?_
    linear := ?_ }
  · show Chain (q.setNode tail _).next (some q.head) (nodes ++ [newTail])
    rw [Queue.next_setNode]
    exact h.chain.append_node hlast hoff (by rw [Queue.next, hnew]; rfl)
  · intro other hother
    rcases List.mem_append.mp hother with hother | hother
    · exact hused other (h.used other hother)
    · obtain rfl := List.mem_singleton.mp hother
      exact hused _ (by rw [hnew]; rfl)
  · show (nodes ++ [newTail]).tail.map (q.setNode tail _).value? = _
    rw [Queue.value?_link hnode, List.tail_append_of_ne_nil (List.ne_nil_of_mem hmem), List.map_append,
      h.values_eq, List.map_append, List.map_singleton, List.map_singleton, Queue.value?, hnew]
    rfl
  · show Guards q.headMtx (Local.inHead ∘ Function.update q.thread t _)
    rw [Function.comp_update]
    exact h.head_stay ht rfl
  · show Guards q.tailMtx (Local.inTail ∘ Function.update q.thread t _)
    rw [Function.comp_update]
    exact h.tail_stay ht rfl
  · intro u a hu
    obtain ⟨hut, hwas⟩ := howned u a hu
    obtain ⟨hin, hout⟩ := h.owned_used u a hwas
    refine ⟨hused a hin, fun hmem => ?_⟩
    rcases List.mem_append.mp hmem with hmem | hmem
    · exact hout hmem
    · obtain rfl := List.mem_singleton.mp hmem
      exact hut (h.owned_once u t _ hwas (by rw [ht]; rfl))
  · intro u v a hu hv
    exact h.owned_once u v a (howned u a hu).2 (howned v a hv).2
  · intro u
    by_cases hut : u = t
    · subst hut
      show Knows _ _ (Function.update q.thread u (.writeTail newTail) u)
      rw [Function.update_self]
      exact List.getLast?_concat
    · show Knows _ _ (Function.update q.thread t (.writeTail newTail) u)
      rw [Function.update_of_ne hut]
      exact h.knows_of_linked ht hnode hlast hut
  · show Linearizes (fifo T) _ _ (Local.owed ∘ Function.update q.thread t _) _
    rw [Function.comp_update]
    exact h.linear.commit (by rw [Function.comp_apply, ht]; rfl) (.enqueue value)

theorem delete {oldHead : Addr} {value : T} (ht : q.thread t = .delete oldHead value) :
    Inv ((q.setNode oldHead none).ret t (.dequeued value)) nodes values := by
  have howned : (q.thread t).owned = some oldHead := by rw [ht]; rfl
  have hoff := (h.owned_used t oldHead howned).2
  have hstep : Beside q ((q.setNode oldHead none).ret t (.dequeued value)) nodes t .idle := {
    thread := rfl
    head := rfl
    fault := rfl
    node := by
      rintro other (hmem | ⟨u, hut, hother⟩)
      · exact Queue.node_setNode_of_ne (fun heq : other = oldHead => hoff (heq ▸ hmem)) _
      · refine Queue.node_setNode_of_ne (fun heq : other = oldHead => hut ?_) _
        exact h.owned_once u t oldHead (heq ▸ hother) howned
    owned := nofun
    knows := trivial }
  refine h.beside hstep (h.tail_of_idle ht nofun) (h.head_stay ht rfl) (h.tail_stay ht rfl) ?_
  exact h.linear.answer (by rw [Function.comp_apply, ht]; rfl)

/-- **Every step of a thread** keeps the invariant, and accesses nodes that are in use only. -/
theorem next? (hnext : q.next? t = some q') : ∃ nodes' values', Inv q' nodes' values' := by
  rw [Queue.next?.eq_def] at hnext
  cases hpc : q.thread t with
  | idle | alloc value => rw [hpc] at hnext; cases hnext
  | lockTail value newTail =>
      rw [hpc] at hnext
      dsimp only at hnext
      split_ifs at hnext with hopen
      cases hnext
      exact ⟨nodes, values, h.lockTail hpc hopen⟩
  | readTail value newTail =>
      rw [hpc] at hnext
      cases hnext
      exact ⟨nodes, values, h.readTail hpc⟩
  | writeNext value newTail tail =>
      rw [hpc] at hnext
      have hknows := h.knows_at hpc
      obtain ⟨node, hnode⟩ := Option.isSome_iff_exists.mp
        (h.used tail (List.mem_of_getLast? hknows.2))
      dsimp only at hnext
      rw [Queue.access_some hnode] at hnext
      cases hnext
      exact ⟨_, _, h.writeNext hpc hnode⟩
  | writeTail newTail =>
      rw [hpc] at hnext
      cases hnext
      exact ⟨nodes, values, h.writeTail hpc⟩
  | unlockTail =>
      rw [hpc] at hnext
      cases hnext
      exact ⟨nodes, values, h.unlockTail hpc⟩
  | lockHead =>
      rw [hpc] at hnext
      dsimp only at hnext
      split_ifs at hnext with hopen
      cases hnext
      exact ⟨nodes, values, h.lockHead hpc hopen⟩
  | readHead =>
      rw [hpc] at hnext
      cases hnext
      exact ⟨nodes, values, h.goto hpc nofun rfl rfl rfl nofun rfl⟩
  | readNext head =>
      rw [hpc] at hnext
      obtain rfl : head = q.head := h.knows_at hpc
      obtain ⟨node, hnode⟩ := Option.isSome_iff_exists.mp (h.used q.head h.head_mem)
      dsimp only at hnext
      rw [Queue.access_some hnode] at hnext
      have hnode' : q.next q.head = node.next := by
        rw [Queue.next, hnode]
        rfl
      cases hread : node.next with
      | none =>
          rw [hread] at hnext
          cases hnext
          exact ⟨nodes, values, h.readNull hpc (hnode'.trans hread)⟩
      | some newHead =>
          rw [hread] at hnext
          cases hnext
          exact ⟨nodes, values, h.goto hpc nofun rfl rfl rfl nofun (hnode'.trans hread)⟩
  | unlockEmpty =>
      rw [hpc] at hnext
      cases hnext
      exact ⟨nodes, values, h.unlockEmpty hpc⟩
  | readOldHead newHead =>
      rw [hpc] at hnext
      cases hnext
      exact ⟨nodes, values, h.goto hpc nofun rfl rfl rfl nofun ⟨rfl, h.knows_at hpc⟩⟩
  | readValue newHead oldHead =>
      rw [hpc] at hnext
      obtain ⟨-, hnew⟩ : oldHead = q.head ∧ q.next q.head = some newHead := h.knows_at hpc
      obtain ⟨rest, hnodes⟩ := h.behind_head hnew
      have hmem : newHead ∈ nodes := by
        rw [hnodes]
        exact List.mem_cons_of_mem _ List.mem_cons_self
      obtain ⟨node, hnode⟩ := Option.isSome_iff_exists.mp (h.used newHead hmem)
      dsimp only at hnext
      rw [Queue.access_some hnode] at hnext
      cases hnext
      exact ⟨nodes, values, h.readValue hpc hnode⟩
  | writeHead newHead oldHead value =>
      rw [hpc] at hnext
      cases hnext
      obtain ⟨values', -, hinv⟩ := h.writeHead hpc
      exact ⟨_, values', hinv⟩
  | unlockHead oldHead value =>
      rw [hpc] at hnext
      cases hnext
      exact ⟨nodes, values, h.unlockHead hpc⟩
  | delete oldHead value =>
      rw [hpc] at hnext
      have hused := (h.owned_used t oldHead (by rw [hpc]; rfl)).1
      obtain ⟨node, hnode⟩ := Option.isSome_iff_exists.mp hused
      dsimp only at hnext
      rw [Queue.access_some hnode] at hnext
      cases hnext
      exact ⟨nodes, values, h.delete hpc⟩

theorem step {action : Action Thread Addr T} (hstep : step q action = some q') :
    ∃ nodes' values', Inv q' nodes' values' := by
  rw [TwoLockQueue.step.eq_def, if_neg (by rw [h.fault]; exact Bool.false_ne_true)] at hstep
  cases action with
  | enqueue t value =>
      dsimp only at hstep
      split at hstep
      · next hpc =>
          cases hstep
          exact ⟨nodes, values, h.goto hpc nofun rfl rfl rfl nofun trivial⟩
      · cases hstep
  | dequeue t =>
      dsimp only at hstep
      split at hstep
      · next hpc =>
          cases hstep
          exact ⟨nodes, values, h.goto hpc nofun rfl rfl rfl nofun trivial⟩
      · cases hstep
  | new t addr =>
      dsimp only at hstep
      split at hstep
      · next hpc haddr =>
          cases hstep
          exact ⟨nodes, values, h.new hpc haddr⟩
      · cases hstep
  | step t => exact h.next? hstep

end Inv

variable [DecidableEq Addr]

omit [DecidableEq Thread] in
theorem initial_node [Inhabited T] (sentinel : Addr) :
    (initial sentinel : Queue Thread Addr T).node sentinel = some ⟨default, none⟩ := by
  simp [initial]

theorem inv_initial [Inhabited T] (sentinel : Addr) :
    Inv (initial sentinel : Queue Thread Addr T) [sentinel] [] where
  fault := rfl
  chain := by
    refine ⟨rfl, ?_⟩
    rw [chain_nil, Queue.next, initial_node]
    rfl
  used addr hmem := by
    rw [List.mem_singleton.mp hmem, initial_node]
    rfl
  values_eq := rfl
  tail _ := rfl
  headMtx := .open_of_outside fun _ => rfl
  tailMtx := .open_of_outside fun _ => rfl
  owned_used := nofun
  owned_once := nofun
  knows _ := trivial
  linear := .start fun _ => rfl

theorem inv_of_reachable [Inhabited T] (hreach : (tlQueue Thread Addr T).Reachable q) :
    ∃ nodes values, Inv q nodes values := by
  refine hreach.invariant (P := fun q => ∃ nodes values, Inv q nodes values) ?_ ?_
  · rintro q ⟨sentinel, rfl⟩
    exact ⟨_, _, inv_initial sentinel⟩
  · rintro q action q' ⟨nodes, values, h⟩ hstep
    exact h.step hstep

/-- `Dequeue` has seen the end of the list. -/
theorem next_head_of_empty (h : Inv q nodes values)
    (hnext : q.next? t = some q') (hempty : q'.thread t = .unlockEmpty) :
    q.next q.head = none := by
  rw [Queue.next?.eq_def] at hnext
  have hgoto : ∀ (q : Queue Thread Addr T) (pc : Local Addr T), pc ≠ .unlockEmpty →
      (q.goto t pc).thread t ≠ .unlockEmpty := by
    intro q pc hpc
    simpa [Queue.goto] using hpc
  cases hpc : q.thread t with
  | readNext head =>
      obtain rfl : head = q.head := h.knows_at hpc
      obtain ⟨node, hnode⟩ := Option.isSome_iff_exists.mp (h.used q.head h.head_mem)
      rw [hpc] at hnext
      dsimp only at hnext
      rw [Queue.access_some hnode] at hnext
      rw [Queue.next, hnode, Option.bind_some]
      cases hread : node.next with
      | none => rfl
      | some newHead =>
          rw [hread] at hnext
          cases hnext
          exact absurd hempty (hgoto _ _ nofun)
  | idle | alloc =>
      rw [hpc] at hnext
      cases hnext
  | lockTail | lockHead =>
      rw [hpc] at hnext
      dsimp only at hnext
      split_ifs at hnext
      cases hnext
      exact absurd hempty (hgoto _ _ nofun)
  | writeNext | readValue | delete =>
      rw [hpc] at hnext
      dsimp only at hnext
      rw [Queue.access] at hnext
      split at hnext
      · cases hnext
        exact absurd hempty (hgoto _ _ nofun)
      · cases hnext
        exact nomatch hpc.symm.trans hempty
  | readTail | writeTail | unlockTail | readHead | unlockEmpty | readOldHead | writeHead
  | unlockHead =>
      rw [hpc] at hnext
      cases hnext
      exact absurd hempty (hgoto _ _ nofun)

/-- **The two-lock queue is a FIFO queue**, for any threads and any order of their steps.  No step
touches a node that is not in use.  What the calls return, and what those owe that have taken effect
and not returned, is what a sequential queue answers to the insertions and removals in their order;
what is in the list is what it then holds; its removals are the first of its insertions, and a
`Dequeue` that returns `false` has found nothing behind `head_`. -/
theorem queue_under_concurrency [Inhabited T] (hreach : (tlQueue Thread Addr T).Reachable q) :
    q.fault = false ∧
      (∃ nodes values, Chain q.next (some q.head) nodes ∧
        nodes.tail.map q.value? = values.map some ∧
        Linearizes (fifo T) q.history q.returned (fun t => (q.thread t).owed) values ∧
        insertions q.history = removals ((fifo T).run [] q.history).1 ++ values) ∧
      ∀ t q', step q (.step t) = some q' → q'.thread t = .unlockEmpty → q.next q.head = none := by
  obtain ⟨nodes, values, h⟩ := inv_of_reachable hreach
  refine ⟨h.fault, ⟨nodes, values, h.chain, h.values_eq, h.linear, ?_⟩, ?_⟩
  · have hrun := fifo_run [] q.history
    rw [List.nil_append] at hrun
    rw [hrun, ← h.linear.contents_eq]
    rfl
  · intro t q' hstep hempty
    rw [step.eq_def, if_neg (by rw [h.fault]; exact Bool.false_ne_true)] at hstep
    exact next_head_of_empty h hstep hempty

/-- One thread is between the two writes of an `Enqueue` when another one takes the value out and
deletes the sentinel that `tail_` names. -/
def overlap : List (Action Bool ℕ ℕ) :=
  [.enqueue true 7, .new true 1, .step true, .step true, .step true, .dequeue false, .step false,
    .step false, .step false, .step false, .step false, .step false, .step false, .step false]

theorem queue_under_concurrency_overlap :
    ∃ q, (tlQueue Bool ℕ ℕ).run (initial 0) overlap = some q ∧
      q.tail = 0 ∧ (q.node 0).isNone ∧ q.fault = false ∧
      insertions q.history = removals ((fifo ℕ).run [] q.history).1 ++ [] := by
  have hfacts : ((tlQueue Bool ℕ ℕ).run (initial 0) overlap).map
      (fun q => (q.tail, (q.node 0).isNone, (q.next q.head).isNone)) = some (0, true, true) := rfl
  obtain ⟨q, hrun, hq⟩ := Option.map_eq_some_iff.mp hfacts
  simp only [Prod.mk.injEq, Option.isNone_iff_eq_none] at hq
  obtain ⟨htail, hnode, hnext⟩ := hq
  obtain ⟨hfault, ⟨nodes, values, hchain, hvalues, -, hinsertions⟩, -⟩ :=
    queue_under_concurrency ⟨initial 0, overlap, ⟨0, rfl⟩, hrun⟩
  rw [hchain.eq_singleton hnext] at hvalues
  rw [List.map_eq_nil_iff.mp hvalues.symm] at hinsertions
  exact ⟨q, hrun, htail, by rw [hnode]; rfl, hfault, hinsertions⟩

end Eureka.TwoLockQueue

import Eureka.Library.LinkedList
import Eureka.Library.Mutex
import Eureka.Library.Transition
import Mathlib.Data.List.Chain
import Mathlib.Order.WithBot

/-!
# The sorted list with hand-over-hand locking

`insert` of `SevenConcurrencyinSevenWeeks/ThreadsAndLocks/src/usinglocks/ConcurrentSortedList.java`,
called by any threads at the same time.  A thread locks the next node before it
unlocks the current one, so that it always holds a lock and other threads cannot
overtake it.

* `sorted_under_concurrency`: in every reachable state the list runs from `head` to
  `tail`, is sorted, and has exactly the inserted values; no step follows a null pointer;
* `list_no_deadlock`: the threads that wait for each other's locks wait for one that can go on.

A lock is reentrant, but it is only asked for by threads that do not hold it: a step
that would lock it again is not possible here, and `list_no_deadlock` says that none is missed.
-/

namespace Eureka.SortedList

open Transition LinkedList

variable (Addr : Type)

/-- The steps of `insert`: `current` is locked from `readNext` on, and `next` from `compare` on. -/
inductive At
  | idle
  | lockHead (newValue : ℤ)
  | readNext (newValue : ℤ) (current : Addr)
  | lockNext (newValue : ℤ) (current next : Addr)
  | compare (newValue : ℤ) (current next : Addr)
  | link (newValue : ℤ) (current next : Addr)
  | linkBack (current next newNode : Addr)
  /-- the inner `finally`, on the way to the next node -/
  | advance (newValue : ℤ) (current next : Addr)
  /-- the inner `finally`, on the way out -/
  | unlockCurrent (current next : Addr)
  /-- the outer `finally` -/
  | unlockNext (next : Addr)
  /-- a null pointer was followed -/
  | fault
  deriving DecidableEq

variable {Addr} {Thread : Type}

/-- The nodes whose locks the thread holds. -/
def At.holds : At Addr → List Addr
  | .idle | .lockHead _ | .fault => []
  | .readNext _ current | .lockNext _ current _ => [current]
  | .compare _ current next | .link _ current next | .linkBack current next _
  | .advance _ current next | .unlockCurrent current next => [current, next]
  | .unlockNext next => [next]

/-- The node whose lock the thread asks for. -/
def At.wants (head : Addr) : At Addr → Option Addr
  | .lockHead _ => some head
  | .lockNext _ _ next => some next
  | _ => none

/-- The nodes and the threads.  The log `inserted` has the values that were linked in. -/
structure State (Addr Thread : Type) where
  head : Addr
  tail : Addr
  value : Addr → ℤ
  next : Addr → Option Addr
  prev : Addr → Option Addr
  lock : Addr → Option Thread
  /-- the nodes that exist -/
  used : Finset Addr
  pc : Thread → At Addr
  inserted : List ℤ

inductive Action (Addr Thread : Type)
  | insert (t : Thread) (newValue : ℤ)
  /-- the next step of `t`; if it makes a node, that is `newNode` -/
  | step (t : Thread) (newNode : Addr)
  deriving DecidableEq

variable [DecidableEq Addr] [DecidableEq Thread]

namespace State

def goto (s : State Addr Thread) (t : Thread) (pc : At Addr) : State Addr Thread :=
  { s with pc := Function.update s.pc t pc }

def acquire (s : State Addr Thread) (t : Thread) (node : Addr) : State Addr Thread :=
  { s with lock := Function.update s.lock node (some t) }

def release (s : State Addr Thread) (node : Addr) : State Addr Thread :=
  { s with lock := Function.update s.lock node none }

/-- `new Node(new_value, current, next)`, which nobody else knows, and `current.next = new_node`. -/
def link (s : State Addr Thread) (newValue : ℤ) (current next newNode : Addr) :
    State Addr Thread :=
  { s with
    value := Function.update s.value newNode newValue
    prev := Function.update s.prev newNode (some current)
    next := Function.update (Function.update s.next newNode (some next)) current (some newNode)
    used := insert newNode s.used
    inserted := s.inserted ++ [newValue] }

/-- The next step of a thread, if it can be done. -/
def step (s : State Addr Thread) (t : Thread) (newNode : Addr) : Option (State Addr Thread) :=
  match s.pc t with
  | .idle | .fault => none
  | .lockHead newValue =>
      if s.lock s.head = none then some ((s.acquire t s.head).goto t (.readNext newValue s.head))
      else none
  | .readNext newValue current =>
      match s.next current with
      | none => some (s.goto t .fault)
      | some next => some (s.goto t (.lockNext newValue current next))
  | .lockNext newValue current next =>
      if s.lock next = none then some ((s.acquire t next).goto t (.compare newValue current next))
      else none
  | .compare newValue current next =>
      if next = s.tail ∨ s.value next > newValue then some (s.goto t (.link newValue current next))
      else some (s.goto t (.advance newValue current next))
  | .link newValue current next =>
      if newNode ∉ s.used then
        some ((s.link newValue current next newNode).goto t (.linkBack current next newNode))
      else none
  | .linkBack current next newNode =>
      some ({ s with prev := Function.update s.prev next (some newNode) }.goto t
        (.unlockCurrent current next))
  | .advance newValue current next => some ((s.release current).goto t (.readNext newValue next))
  | .unlockCurrent current next => some ((s.release current).goto t (.unlockNext next))
  | .unlockNext next => some ((s.release next).goto t .idle)

end State

/-- The runs of a list that starts empty. -/
def lists (Addr Thread : Type) [DecidableEq Addr] [DecidableEq Thread] :
    System (State Addr Thread) (Action Addr Thread) where
  start s := ∃ head tail, head ≠ tail ∧ s =
    { head := head
      tail := tail
      value := fun _ => 0
      next := Function.update (fun _ => none) head (some tail)
      prev := Function.update (fun _ => none) tail (some head)
      lock := fun _ => none
      used := {head, tail}
      pc := fun _ => .idle
      inserted := [] }
  step s
    | .insert t newValue =>
        match s.pc t with
        | .idle => some (s.goto t (.lockHead newValue))
        | _ => none
    | .step t newNode => s.step t newNode

/-- A value as the key of a node. -/
def keyOf (newValue : ℤ) : WithBot (WithTop ℤ) := ((newValue : WithTop ℤ) : WithBot (WithTop ℤ))

/-- The value of a node, where `head` is below and `tail` above all others. -/
def State.key (s : State Addr Thread) (node : Addr) : WithBot (WithTop ℤ) :=
  if node = s.head then ⊥ else if node = s.tail then ⊤ else keyOf (s.value node)

/-- What holds of a thread at each step of `insert`. -/
def At.Ok (s : State Addr Thread) (nodes : List Addr) : At Addr → Prop
  | .idle | .lockHead _ | .unlockNext _ => True
  | .readNext newValue current =>
      current ∈ nodes ∧ current ≠ s.tail ∧ s.key current ≤ keyOf newValue
  | .lockNext newValue current next | .compare newValue current next =>
      current ∈ nodes ∧ s.next current = some next ∧ s.key current ≤ keyOf newValue
  | .link newValue current next =>
      current ∈ nodes ∧ s.next current = some next ∧ s.key current ≤ keyOf newValue ∧
        keyOf newValue ≤ s.key next
  | .linkBack current next newNode =>
      current ≠ next ∧ newNode ∈ nodes ∧ s.next newNode = some next
  | .advance newValue current next =>
      current ≠ next ∧ next ∈ nodes ∧ next ≠ s.tail ∧ s.key next ≤ keyOf newValue
  | .unlockCurrent current next => current ≠ next
  | .fault => False

/-- The list from `head` to `tail`, the locks, and the threads.  A node's `prev` may lag behind
while the node before it is being linked in. -/
structure Inv (s : State Addr Thread) (nodes : List Addr) : Prop where
  chain : Chain s.next (some s.head) nodes
  head_ne : s.head ≠ s.tail
  tail_mem : s.tail ∈ nodes
  next_tail : s.next s.tail = none
  used : ∀ node ∈ nodes, node ∈ s.used
  sorted : (nodes.map s.key).IsChain (· ≤ ·)
  values : (nodes.map s.key).Perm (⊥ :: ⊤ :: s.inserted.map keyOf)
  locks : ∀ t node, s.lock node = some t ↔ node ∈ (s.pc t).holds
  threads : ∀ t, (s.pc t).Ok s nodes
  prev : ∀ node ∈ nodes, ∀ next, s.next node = some next →
    s.prev next = some node ∨ ∃ t current, s.pc t = .linkBack current next node

variable {s s' : State Addr Thread} {nodes : List Addr} {t : Thread}

omit [DecidableEq Addr] in
@[simp] theorem goto_pc_self (s : State Addr Thread) (t : Thread) (pc : At Addr) :
    (s.goto t pc).pc t = pc := Function.update_self ..

omit [DecidableEq Addr] in
theorem goto_pc_of_ne (s : State Addr Thread) {t u : Thread} (pc : At Addr) (h : u ≠ t) :
    (s.goto t pc).pc u = s.pc u := Function.update_of_ne h ..

/-! ### The locks -/

/-- A step of `t` that neither locks nor unlocks. -/
theorem Inv.locks_stay (h : Inv s nodes) {pc : At Addr} (hpc : pc.holds = (s.pc t).holds)
    (u : Thread) (node : Addr) :
    s.lock node = some u ↔ node ∈ ((s.goto t pc).pc u).holds := by
  by_cases hu : u = t
  · subst hu
    simpa [State.goto, hpc] using h.locks u node
  · simpa [State.goto, Function.update_of_ne hu] using h.locks u node

theorem Inv.locks_acquire (h : Inv s nodes) {pc : At Addr} {node : Addr}
    (hopen : s.lock node = none)
    (hpc : ∀ other, other ∈ pc.holds ↔ other = node ∨ other ∈ (s.pc t).holds)
    (u : Thread) (other : Addr) :
    (s.acquire t node).lock other = some u ↔ other ∈ ((s.goto t pc).pc u).holds := by
  by_cases hother : other = node
  · subst hother
    by_cases hu : u = t
    · subst hu
      simp [State.acquire, State.goto, hpc]
    · have hnot : other ∉ (s.pc u).holds := by simp [← h.locks, hopen]
      simp [State.acquire, State.goto, Function.update_of_ne hu, hnot, Ne.symm hu]
  · by_cases hu : u = t
    · subst hu
      simp [State.acquire, State.goto, hother, hpc, h.locks]
    · simp [State.acquire, State.goto, hother, Function.update_of_ne hu, h.locks]

theorem Inv.locks_release (h : Inv s nodes) {pc : At Addr} {node : Addr}
    (hnode : node ∈ (s.pc t).holds)
    (hpc : ∀ other, other ∈ pc.holds ↔ other ≠ node ∧ other ∈ (s.pc t).holds)
    (u : Thread) (other : Addr) :
    (s.release node).lock other = some u ↔ other ∈ ((s.goto t pc).pc u).holds := by
  by_cases hother : other = node
  · subst hother
    by_cases hu : u = t
    · subst hu
      simp [State.release, State.goto, hpc]
    · have howner := (h.locks t other).mpr hnode
      have hnot : other ∉ (s.pc u).holds := by simp [← h.locks, howner, Ne.symm hu]
      simp [State.release, State.goto, Function.update_of_ne hu, hnot]
  · by_cases hu : u = t
    · subst hu
      simp [State.release, State.goto, hother, hpc, h.locks]
    · simp [State.release, State.goto, hother, Function.update_of_ne hu, h.locks]

omit [DecidableEq Thread] in
theorem Inv.not_both (h : Inv s nodes) {u : Thread} {node : Addr} (ht : node ∈ (s.pc t).holds)
    (hu : node ∈ (s.pc u).holds) : u = t := by
  have howner := (h.locks t node).mpr ht
  have howner' := (h.locks u node).mpr hu
  exact Option.some.inj (howner'.symm.trans howner)

/-! ### Neighbours -/

omit [DecidableEq Thread] in
theorem Inv.next_mem (h : Inv s nodes) {node next : Addr} (hnode : node ∈ nodes)
    (hnext : s.next node = some next) : next ∈ nodes ∧ node ≠ next ∧ next ≠ s.head := by
  obtain ⟨before, after, hsplit⟩ := h.chain.exists_split hnode hnext
  have hnodup := h.chain.nodup
  refine ⟨by simp [hsplit], ?_, ?_⟩
  · rw [hsplit] at hnodup
    have := hnodup.of_append_right
    simp only [List.nodup_cons, List.mem_cons, not_or] at this
    exact this.1.1
  · rintro rfl
    exact h.chain.next_ne_first hnode hnext

omit [DecidableEq Thread] in
/-- Only `tail` has no next node. -/
theorem Inv.exists_next (h : Inv s nodes) {node : Addr} (hnode : node ∈ nodes)
    (hne : node ≠ s.tail) : ∃ next, s.next node = some next := by
  cases hnext : s.next node with
  | some next => exact ⟨next, rfl⟩
  | none =>
      have hlast := h.chain.getLast?_of_next hnode hnext
      have htail := h.chain.getLast?_of_next h.tail_mem h.next_tail
      exact absurd (Option.some.inj (hlast.symm.trans htail)) hne

/-! ### Steps that leave the nodes alone -/

omit [DecidableEq Thread] in
theorem At.Ok.congr {pc : At Addr} (h : pc.Ok s nodes) (hhead : s'.head = s.head)
    (htail : s'.tail = s.tail) (hvalue : s'.value = s.value) (hnext : s'.next = s.next) :
    pc.Ok s' nodes := by
  have hkey : s'.key = s.key := by
    funext node
    simp only [State.key, hhead, htail, hvalue]
  revert h
  cases pc <;> simp only [At.Ok, hkey, htail, hnext] <;> exact id

/-- `t` goes on, with other locks, from a place where it is not linking back. -/
theorem Inv.move (h : Inv s nodes) {pc : At Addr} {lock : Addr → Option Thread}
    (hlocks : ∀ u node, lock node = some u ↔ node ∈ ((s.goto t pc).pc u).holds)
    (hok : pc.Ok s nodes) (hback : ∀ current next node, s.pc t ≠ .linkBack current next node) :
    Inv ({ s with lock := lock }.goto t pc) nodes where
  chain := h.chain
  head_ne := h.head_ne
  tail_mem := h.tail_mem
  next_tail := h.next_tail
  used := h.used
  sorted := h.sorted
  values := h.values
  locks := hlocks
  threads u := by
    by_cases hu : u = t
    · subst hu
      rw [goto_pc_self]
      exact hok.congr rfl rfl rfl rfl
    · rw [goto_pc_of_ne _ _ hu]
      exact (h.threads u).congr rfl rfl rfl rfl
  prev node hnode next hnext := by
    rcases h.prev node hnode next hnext with hprev | ⟨u, current, hu⟩
    · exact .inl hprev
    · refine .inr ⟨u, current, ?_⟩
      have hut : u ≠ t := by
        rintro rfl
        exact hback current next node hu
      exact (goto_pc_of_ne _ _ hut).trans hu

/-! ### The new node is linked in -/

section Link

variable {newValue : ℤ} {current next newNode : Addr}

omit [DecidableEq Thread] in
theorem Inv.key_link (h : Inv s nodes) (hnew : newNode ∉ s.used) (newValue : ℤ)
    (current next : Addr) :
    (∀ node ∈ nodes, (s.link newValue current next newNode).key node = s.key node) ∧
      (s.link newValue current next newNode).key newNode = keyOf newValue := by
  have hnot : newNode ∉ nodes := fun hmem => hnew (h.used _ hmem)
  have hhead : newNode ≠ s.head := by
    rintro rfl
    obtain ⟨rest, rfl, -⟩ := h.chain.exists_cons
    exact hnot List.mem_cons_self
  have htail : newNode ≠ s.tail := by
    rintro rfl
    exact hnot h.tail_mem
  refine ⟨fun node hnode => ?_, ?_⟩
  · have hne : node ≠ newNode := fun heq => hnot (heq ▸ hnode)
    simp only [State.key, State.link, Function.update_of_ne hne]
  · simp [State.key, State.link, hhead, htail, keyOf]

omit [DecidableEq Thread] in
theorem Inv.next_link (h : Inv s nodes) (hnew : newNode ∉ s.used) (newValue : ℤ) (next : Addr)
    {node : Addr} (hnode : node ∈ nodes) (hne : node ≠ current) :
    (s.link newValue current next newNode).next node = s.next node := by
  have hnewNode : node ≠ newNode := by
    rintro rfl
    exact hnew (h.used _ hnode)
  simp [State.link, Function.update_of_ne hne, Function.update_of_ne hnewNode]

omit [DecidableEq Thread] in
theorem Inv.others_link (h : Inv s nodes) (hpc : s.pc t = .link newValue current next)
    (hnew : newNode ∉ s.used) {nodes' : List Addr} (hsub : ∀ node ∈ nodes, node ∈ nodes')
    {u : Thread} (hu : u ≠ t) : (s.pc u).Ok (s.link newValue current next newNode) nodes' := by
  obtain ⟨hkey, -⟩ := h.key_link hnew newValue current next
  have hholds : current ∈ (s.pc t).holds ∧ next ∈ (s.pc t).holds := by simp [hpc, At.holds]
  have hcurrent : ∀ node ∈ (s.pc u).holds, node ≠ current := by
    rintro node hmem rfl
    exact hu (h.not_both hholds.1 hmem)
  have hok := h.threads u
  have hokt := h.threads t
  rw [hpc] at hokt
  cases hpcu : s.pc u with
  | idle | lockHead | unlockNext => exact trivial
  | unlockCurrent => rwa [hpcu] at hok
  | fault => simp [hpcu, At.Ok] at hok
  | readNext v node =>
      rw [hpcu] at hok
      obtain ⟨hmem, htail, hle⟩ := hok
      exact ⟨hsub _ hmem, htail, (hkey _ hmem).trans_le hle⟩
  | lockNext v node next' | compare v node next' =>
      rw [hpcu] at hok
      obtain ⟨hmem, hnext, hle⟩ := hok
      have hne := hcurrent node (by simp [hpcu, At.holds])
      exact ⟨hsub _ hmem, (h.next_link hnew newValue next hmem hne).trans hnext,
        (hkey _ hmem).trans_le hle⟩
  | link v node next' =>
      rw [hpcu] at hok
      obtain ⟨hmem, hnext, hle, hle'⟩ := hok
      have hne := hcurrent node (by simp [hpcu, At.holds])
      refine ⟨hsub _ hmem, (h.next_link hnew newValue next hmem hne).trans hnext,
        (hkey _ hmem).trans_le hle, ?_⟩
      rw [hkey _ (h.next_mem hmem hnext).1]
      exact hle'
  | linkBack node next' newNode' =>
      rw [hpcu] at hok
      obtain ⟨hne, hmem, hnext⟩ := hok
      have hne' : newNode' ≠ current := by
        rintro rfl
        obtain rfl : next' = next := Option.some.inj (hnext.symm.trans hokt.2.1)
        exact hu (h.not_both hholds.2 (by simp [hpcu, At.holds]))
      exact ⟨hne, hsub _ hmem, (h.next_link hnew newValue next hmem hne').trans hnext⟩
  | advance v node next' =>
      rw [hpcu] at hok
      obtain ⟨hne, hmem, htail, hle⟩ := hok
      exact ⟨hne, hsub _ hmem, htail, (hkey _ hmem).trans_le hle⟩

/-- **The new node is linked in between its neighbours.** -/
theorem Inv.link (h : Inv s nodes) (hpc : s.pc t = .link newValue current next)
    (hnew : newNode ∉ s.used) :
    ∃ nodes', Inv ((s.link newValue current next newNode).goto t (.linkBack current next newNode))
      nodes' := by
  have hok := h.threads t
  rw [hpc] at hok
  obtain ⟨hmem, hnext, hle, hle'⟩ := hok
  obtain ⟨hnextMem, hne, -⟩ := h.next_mem hmem hnext
  obtain ⟨hkey, hkeyNew⟩ := h.key_link hnew newValue current next
  have hnot : newNode ∉ nodes := fun hnode => hnew (h.used _ hnode)
  have hnewCurrent : newNode ≠ current := fun heq => hnot (heq ▸ hmem)
  obtain ⟨before, after, hsplit⟩ := h.chain.exists_split hmem hnext
  have hperm : (before ++ current :: newNode :: next :: after).Perm (newNode :: nodes) := by
    rw [hsplit]
    calc before ++ current :: newNode :: next :: after
        _ = (before ++ [current]) ++ newNode :: next :: after := by simp
        List.Perm _ (newNode :: ((before ++ [current]) ++ next :: after)) := List.perm_middle
        _ = newNode :: (before ++ current :: next :: after) := by simp
  have hsub : ∀ node ∈ nodes, node ∈ before ++ current :: newNode :: next :: after :=
    fun node hnode => hperm.mem_iff.mpr (List.mem_cons_of_mem _ hnode)
  have hback : ∀ node, node ∈ before ++ current :: newNode :: next :: after →
      node = newNode ∨ node ∈ nodes := fun node hnode => List.mem_cons.mp (hperm.mem_iff.mp hnode)
  have hnextNew : (s.link newValue current next newNode).next newNode = some next := by
    simp [State.link, Function.update_of_ne hnewCurrent]
  have hkeyBefore : ∀ l : List Addr, (∀ node ∈ l, node ∈ nodes) →
      l.map (s.link newValue current next newNode).key = l.map s.key := fun l hl =>
    List.map_congr_left fun node hnode => hkey node (hl node hnode)
  refine ⟨before ++ current :: newNode :: next :: after, ?_, h.head_ne, hsub _ h.tail_mem, ?_, ?_,
    ?_, ?_, h.locks_stay (by rw [hpc]; rfl), fun u => ?_, ?_⟩
  · -- the list runs through the new node
    have hchain : Chain (Function.update s.next newNode (some next)) (some s.head)
        (before ++ current :: next :: after) := by
      rw [← hsplit]
      refine h.chain.congr fun node hnode => Function.update_of_ne ?_ _ _
      rintro rfl
      exact hnot hnode
    exact hchain.insert (hsplit ▸ hnot) (Function.update_self ..)
  · -- `tail` is still the last node
    have hcurrent : s.tail ≠ current := by
      rintro heq
      exact nomatch (heq ▸ h.next_tail).symm.trans hnext
    exact (h.next_link hnew newValue next h.tail_mem hcurrent).trans h.next_tail
  · intro node hnode
    rcases hback node hnode with rfl | hnode
    · exact Finset.mem_insert_self _ _
    · exact Finset.mem_insert_of_mem (h.used node hnode)
  · have hsorted := h.sorted
    rw [hsplit, List.map_append, List.map_cons, List.map_cons,
      List.isChain_append_cons_cons] at hsorted
    obtain ⟨hfirst, -, hlast⟩ := hsorted
    have hb := hkeyBefore before fun node hnode => by simp [hsplit, hnode]
    have ha := hkeyBefore after fun node hnode => by simp [hsplit, hnode]
    have hgoal : ((before ++ current :: newNode :: next :: after).map
        (s.link newValue current next newNode).key).IsChain (· ≤ ·) := by
      rw [List.map_append, List.map_cons, List.map_cons, List.map_cons, hb, ha, hkey _ hmem,
        hkeyNew, hkey _ hnextMem, List.isChain_append_cons_cons, List.isChain_cons_cons]
      exact ⟨hfirst, hle, hle', hlast⟩
    exact hgoal
  · have hmap := (hperm.map (s.link newValue current next newNode).key).trans
      (List.Perm.of_eq (by rw [List.map_cons, hkeyNew, hkeyBefore nodes fun _ => id]))
    have hvalues := h.values.cons (keyOf newValue)
    have hrotate : (keyOf newValue :: ⊥ :: ⊤ :: s.inserted.map keyOf).Perm
        (⊥ :: ⊤ :: (s.inserted ++ [newValue]).map keyOf) := by
      rw [List.map_append, List.map_singleton]
      exact (List.perm_append_singleton _ (⊥ :: ⊤ :: s.inserted.map keyOf)).symm
    exact hmap.trans (hvalues.trans hrotate)
  · by_cases hu : u = t
    · subst hu
      rw [goto_pc_self]
      exact ⟨hne, by simp, hnextNew⟩
    · rw [goto_pc_of_ne _ _ hu]
      exact (h.others_link hpc hnew hsub hu).congr rfl rfl rfl rfl
  · intro node hnode next' hnext'
    rcases hback node hnode with rfl | hold
    · -- the new node: `next.prev` is still to be written
      obtain rfl : next = next' := Option.some.inj (hnextNew.symm.trans hnext')
      exact .inr ⟨t, current, goto_pc_self ..⟩
    · by_cases hcurrent : node = current
      · subst hcurrent
        have hnewNext : (s.link newValue node next newNode).next node = some newNode :=
          Function.update_self ..
        obtain rfl : newNode = next' := Option.some.inj (hnewNext.symm.trans hnext')
        exact .inl (Function.update_self ..)
      · have hsame := (h.next_link hnew newValue next hold hcurrent).symm.trans hnext'
        rcases h.prev node hold next' hsame with hprev | ⟨u, current', hu⟩
        · have hnext'' : next' ≠ newNode := by
            rintro rfl
            exact hnot (h.next_mem hold hsame).1
          exact .inl ((Function.update_of_ne hnext'' _ _).trans hprev)
        · have hut : u ≠ t := by
            rintro rfl
            exact nomatch hpc.symm.trans hu
          exact .inr ⟨u, current', (goto_pc_of_ne _ _ hut).trans hu⟩

end Link

/-- `next.prev` is written. -/
theorem Inv.linkBack (h : Inv s nodes) {current next newNode : Addr}
    (hpc : s.pc t = .linkBack current next newNode) :
    Inv ({ s with prev := Function.update s.prev next (some newNode) }.goto t
      (.unlockCurrent current next)) nodes := by
  have hok := h.threads t
  rw [hpc] at hok
  obtain ⟨hne, hmem, hnext⟩ := hok
  refine ⟨h.chain, h.head_ne, h.tail_mem, h.next_tail, h.used, h.sorted, h.values,
    h.locks_stay (by rw [hpc]; rfl), fun u => ?_, ?_⟩
  · by_cases hu : u = t
    · subst hu
      rw [goto_pc_self]
      exact hne
    · rw [goto_pc_of_ne _ _ hu]
      exact (h.threads u).congr rfl rfl rfl rfl
  · intro node hnode next' hnext'
    by_cases hsame : next' = next
    · subst hsame
      obtain rfl := h.chain.next_inj hnode hmem hnext' hnext
      exact .inl (Function.update_self ..)
    · rcases h.prev node hnode next' hnext' with hprev | ⟨u, current', hu⟩
      · exact .inl ((Function.update_of_ne hsame _ _).trans hprev)
      · have hut : u ≠ t := by
          rintro rfl
          have hpcs := hpc.symm.trans hu
          simp only [At.linkBack.injEq] at hpcs
          exact hsame hpcs.2.1.symm
        exact .inr ⟨u, current', (goto_pc_of_ne _ _ hut).trans hu⟩

/-! ### Runs -/

theorem Inv.step (h : Inv s nodes) {newNode : Addr} (hstep : s.step t newNode = some s') :
    ∃ nodes', Inv s' nodes' := by
  have hok := h.threads t
  rw [State.step] at hstep
  cases hpc : s.pc t with
  | idle | fault => simp [hpc] at hstep
  | lockHead newValue =>
      simp only [hpc, Option.ite_none_right_eq_some, Option.some.injEq] at hstep
      obtain ⟨hopen, rfl⟩ := hstep
      have hhead : s.head ∈ nodes := by
        obtain ⟨rest, rfl, -⟩ := h.chain.exists_cons
        exact List.mem_cons_self
      refine ⟨nodes, h.move (h.locks_acquire hopen ?_) ⟨hhead, h.head_ne, ?_⟩ (by simp [hpc])⟩
      · simp [hpc, At.holds]
      · simp [State.key]
  | readNext newValue current =>
      rw [hpc] at hok
      obtain ⟨hmem, hne, hle⟩ := hok
      obtain ⟨next, hnext⟩ := h.exists_next hmem hne
      simp only [hpc, hnext, Option.some.injEq] at hstep
      subst hstep
      refine ⟨nodes, h.move (h.locks_stay ?_) ⟨hmem, hnext, hle⟩ (by simp [hpc])⟩
      simp [hpc, At.holds]
  | lockNext newValue current next =>
      simp only [hpc, Option.ite_none_right_eq_some, Option.some.injEq] at hstep
      obtain ⟨hopen, rfl⟩ := hstep
      rw [hpc] at hok
      refine ⟨nodes, h.move (h.locks_acquire hopen ?_) hok (by simp [hpc])⟩
      simp [hpc, At.holds, or_comm]
  | compare newValue current next =>
      rw [hpc] at hok
      obtain ⟨hmem, hnext, hle⟩ := hok
      obtain ⟨hnextMem, hne, hhead⟩ := h.next_mem hmem hnext
      simp only [hpc] at hstep
      split at hstep
      case isTrue hfound =>
          obtain rfl := Option.some.inj hstep
          refine ⟨nodes, h.move (h.locks_stay ?_) ⟨hmem, hnext, hle, ?_⟩ (by simp [hpc])⟩
          · simp [hpc, At.holds]
          · by_cases htail : next = s.tail
            · simp [State.key, htail, Ne.symm h.head_ne, keyOf]
            · have hlt := hfound.resolve_left htail
              simpa [State.key, hhead, htail, keyOf] using hlt.le
      case isFalse hfound =>
          obtain rfl := Option.some.inj hstep
          obtain ⟨htail, hvalue⟩ := not_or.mp hfound
          refine ⟨nodes, h.move (h.locks_stay ?_) ⟨hne, hnextMem, htail, ?_⟩ (by simp [hpc])⟩
          · simp [hpc, At.holds]
          · simpa [State.key, hhead, htail, keyOf] using hvalue
  | link newValue current next =>
      simp only [hpc, Option.ite_none_right_eq_some, Option.some.injEq] at hstep
      obtain ⟨hnew, rfl⟩ := hstep
      exact h.link hpc hnew
  | linkBack current next newNode' =>
      simp only [hpc, Option.some.injEq] at hstep
      subst hstep
      exact ⟨nodes, h.linkBack hpc⟩
  | advance newValue current next =>
      rw [hpc] at hok
      obtain ⟨hne, hmem, htail, hle⟩ := hok
      simp only [hpc, Option.some.injEq] at hstep
      subst hstep
      refine ⟨nodes, h.move (h.locks_release ?_ ?_) ⟨hmem, htail, hle⟩ (by simp [hpc])⟩
      · simp [hpc, At.holds]
      · intro other
        by_cases hother : other = current <;> simp [hpc, At.holds, hother, hne]
  | unlockCurrent current next =>
      rw [hpc] at hok
      have hne : current ≠ next := hok
      simp only [hpc, Option.some.injEq] at hstep
      subst hstep
      refine ⟨nodes, h.move (h.locks_release ?_ ?_) trivial (by simp [hpc])⟩
      · simp [hpc, At.holds]
      · intro other
        by_cases hother : other = current <;> simp [hpc, At.holds, hother, hne]
  | unlockNext next =>
      simp only [hpc, Option.some.injEq] at hstep
      subst hstep
      refine ⟨nodes, h.move (h.locks_release ?_ ?_) trivial (by simp [hpc])⟩
      · simp [hpc, At.holds]
      · simp [hpc, At.holds]

theorem inv_of_reachable (hreach : (lists Addr Thread).Reachable s) : ∃ nodes, Inv s nodes := by
  refine hreach.invariant (P := fun s => ∃ nodes, Inv s nodes) ?_ ?_
  · rintro s ⟨head, tail, hne, rfl⟩
    refine ⟨[head, tail], ?_, hne, by simp, by simp [Ne.symm hne], by simp, ?_, ?_, ?_, ?_, ?_⟩
    · simp [Ne.symm hne]
    · simp [State.key]
    · simp [State.key, Ne.symm hne]
    · simp [At.holds]
    · simp [At.Ok]
    · simp [Ne.symm hne]
  · rintro s action s' ⟨nodes, h⟩ hstep
    cases action with
    | insert t newValue =>
        simp only [lists] at hstep
        split at hstep
        case h_1 hpc =>
            obtain rfl := Option.some.inj hstep
            refine ⟨nodes, h.move (h.locks_stay ?_) trivial (by simp [hpc])⟩
            simp [hpc, At.holds]
        case h_2 => cases hstep
    | step t newNode => exact h.step hstep

omit [DecidableEq Thread] in
theorem Inv.exists_middle (h : Inv s nodes) :
    ∃ middle, nodes = s.head :: (middle ++ [s.tail]) ∧
      ∀ node ∈ middle, s.key node = keyOf (s.value node) := by
  obtain ⟨rest, rfl, -⟩ := h.chain.exists_cons
  obtain ⟨init, hinit⟩ := List.getLast?_eq_some_iff.mp
    (h.chain.getLast?_of_next h.tail_mem h.next_tail)
  cases init with
  | nil => exact absurd (List.cons.inj hinit).1 h.head_ne
  | cons first middle =>
      obtain ⟨rfl, rfl⟩ := List.cons.inj hinit
      refine ⟨middle, rfl, fun node hnode => ?_⟩
      have hnodup := h.chain.nodup
      have hhead : node ≠ s.head := by
        rintro rfl
        exact (List.nodup_cons.mp hnodup).1 (List.mem_append_left _ hnode)
      have htail : node ≠ s.tail := by
        rintro rfl
        have hdisjoint := (List.nodup_append.mp (List.nodup_cons.mp hnodup).2).2.2
        exact hdisjoint _ hnode _ (List.mem_singleton_self _) rfl
      simp [State.key, hhead, htail, keyOf]

omit [DecidableEq Addr] in
theorem keyOf_le_keyOf {a b : ℤ} : keyOf a ≤ keyOf b ↔ a ≤ b := by
  simp [keyOf]

theorem keyOf_injective : Function.Injective keyOf := fun a b h => by simpa [keyOf] using h

/-- **Sorted under concurrency.**  Whatever the threads do, the list runs from `head` to `tail`, its
values are in order and they are the inserted ones; no null pointer is followed; and while no
call is under way the `prev` pointers mirror the `next` pointers. -/
theorem sorted_under_concurrency (hreach : (lists Addr Thread).Reachable s) :
    ∃ middle, Chain s.next (some s.head) (s.head :: (middle ++ [s.tail])) ∧
      (middle.map s.value).Pairwise (· ≤ ·) ∧ (middle.map s.value).Perm s.inserted ∧
        (∀ t, s.pc t ≠ .fault) ∧
          ((∀ t, s.pc t = .idle) → ∀ node ∈ s.head :: (middle ++ [s.tail]), ∀ next,
            s.next node = some next → s.prev next = some node) := by
  obtain ⟨nodes, h⟩ := inv_of_reachable hreach
  obtain ⟨middle, rfl, hkey⟩ := h.exists_middle
  have hmap : middle.map s.key = (middle.map s.value).map keyOf := by
    rw [List.map_map]
    exact List.map_congr_left hkey
  have hhead : s.key s.head = ⊥ := by simp [State.key]
  have htail : s.key s.tail = ⊤ := by
    simp [State.key, Ne.symm h.head_ne]
  refine ⟨middle, h.chain, ?_, ?_, fun t hfault => ?_, fun hidle node hnode next hnext => ?_⟩
  · have hsorted := List.isChain_iff_pairwise.mp h.sorted
    rw [List.map_cons, List.map_append, List.pairwise_cons, List.pairwise_append, hmap,
      List.pairwise_map] at hsorted
    exact hsorted.2.1.imp fun hle => keyOf_le_keyOf.mp hle
  · have hvalues := h.values
    rw [List.map_cons, List.map_append, List.map_singleton, hhead, htail, hmap,
      List.perm_cons] at hvalues
    have hmiddle := (List.perm_append_singleton _ _).symm.trans hvalues
    rw [List.perm_cons] at hmiddle
    exact (List.map_perm_map_iff keyOf_injective).mp hmiddle
  · have hok := h.threads t
    rw [hfault] at hok
    exact hok
  · rcases h.prev node hnode next hnext with hprev | ⟨t, current, ht⟩
    · exact hprev
    · exact nomatch (hidle t).symm.trans ht

/-- **No deadlock**: who waits for the lock of a node holds that of the node before it, so the
threads that wait for each other stand one behind the other, and the foremost can go on. -/
theorem list_no_deadlock (hreach : (lists Addr Thread).Reachable s) (t : Thread) :
    ∃ u, Relation.ReflTransGen (WaitsFor s.lock fun t => (s.pc t).wants s.head) t u ∧
      Runnable s.lock (fun t => (s.pc t).wants s.head) u := by
  obtain ⟨nodes, h⟩ := inv_of_reachable hreach
  have hdescending : Descending (fun node => nodes.length - nodes.idxOf node) s.lock
      fun t => (s.pc t).wants s.head := by
    intro t node held hwants hheld
    have hholds := (h.locks t held).mp hheld
    have hok := h.threads t
    cases hpc : s.pc t with
    | lockNext newValue current next =>
        rw [hpc] at hok
        obtain ⟨hmem, hnext, -⟩ := hok
        obtain rfl : next = node := by simpa [hpc, At.wants] using hwants
        obtain rfl : held = current := by simpa [hpc, At.holds] using hholds
        have hne := (h.next_mem hmem hnext).2.1
        obtain ⟨before, after, rfl⟩ := h.chain.exists_split hmem hnext
        have hdisjoint := (List.nodup_append.mp h.chain.nodup).2.2
        have hheld' : held ∉ before := fun hin => hdisjoint held hin held (by simp) rfl
        have hnext' : next ∉ before := fun hin => hdisjoint next hin next (by simp) rfl
        simp only [List.idxOf_append_of_notMem hheld', List.idxOf_append_of_notMem hnext',
          List.idxOf_cons_self, List.idxOf_cons_ne _ hne, List.length_append, List.length_cons]
        omega
    | lockHead => simp [hpc, At.holds] at hholds
    | _ => simp [hpc, At.wants] at hwants
  exact hdescending.exists_runnable t

/-- Two threads insert behind each other: the second one has to wait for the node that the first
one holds, while the first one has linked its node in one direction only. -/
def following : List (Action ℕ Bool) :=
  List.flatten [[.insert true 5], List.replicate 8 (.step true 2),
    [.insert true 9, .insert false 7], List.replicate 6 (.step true 3),
    List.replicate 2 (.step false 0), List.replicate 3 (.step true 3)]

/-- The list `following` starts with. -/
def emptyList : State ℕ Bool where
  head := 0
  tail := 1
  value := fun _ => 0
  next := Function.update (fun _ => none) 0 (some 1)
  prev := Function.update (fun _ => none) 1 (some 0)
  lock := fun _ => none
  used := {0, 1}
  pc := fun _ => .idle
  inserted := []

theorem sorted_under_concurrency_following :
    ∃ s : State ℕ Bool, s.inserted = [5, 9] ∧
      ∃ middle, Chain s.next (some s.head) (s.head :: (middle ++ [s.tail])) ∧
        (middle.map s.value).Pairwise (· ≤ ·) ∧ (middle.map s.value).Perm [5, 9] := by
  have hfacts : ((lists ℕ Bool).run emptyList following).map (fun s => s.inserted) =
      some [5, 9] := by decide
  obtain ⟨s, hrun, hs⟩ := Option.map_eq_some_iff.mp hfacts
  obtain ⟨middle, hchain, hsorted, hperm, -⟩ :=
    sorted_under_concurrency ⟨_, following, ⟨0, 1, by decide, rfl⟩, hrun⟩
  exact ⟨s, hs, middle, hchain, hsorted, hs ▸ hperm⟩

theorem list_no_deadlock_following :
    ∃ s : State ℕ Bool, (s.pc false).wants s.head = some 2 ∧ s.lock 2 = some true ∧
      ∃ u, Relation.ReflTransGen (WaitsFor s.lock fun t => (s.pc t).wants s.head) false u ∧
        Runnable s.lock (fun t => (s.pc t).wants s.head) u := by
  have hfacts : ((lists ℕ Bool).run emptyList following).map
      (fun s => ((s.pc false).wants s.head, s.lock 2)) = some (some 2, some true) := by decide
  obtain ⟨s, hrun, hs⟩ := Option.map_eq_some_iff.mp hfacts
  simp only [Prod.mk.injEq] at hs
  exact ⟨s, hs.1, hs.2, list_no_deadlock ⟨_, following, ⟨0, 1, by decide, rfl⟩, hrun⟩ false⟩

end Eureka.SortedList

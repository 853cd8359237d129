import Eureka.Router.Routes

/-!
# Priorities

A node's priority is counted up before the handler is put in below it, and at several places
by which the route may go on; `Entered` is the state in between.  A call that succeeds
leaves every priority equal to the number of handlers below it (`Adds.counted`).

The children stand in the order of their priorities.  `Continues` does not know their
order, so this is an induction over the code itself (`addRoute_ordered`): the child that was
counted up is moved in front of all smaller ones.
-/

namespace Eureka.Router

namespace Node

variable {H : Type}

def handlerCount (n : Node H) : ℕ :=
  n.handler.toList.length + (n.children.map handlerCount).sum
termination_by sizeOf n
decreasing_by exact sizeOf_lt_of_mem ‹_›

theorem handlerCount_congr {n n' : Node H} (hhandler : n'.handler = n.handler)
    (hchildren : n'.children = n.children) : n'.handlerCount = n.handlerCount := by
  rw [handlerCount, handlerCount, hhandler, hchildren]

/-- In the whole tree the priorities are the numbers of handlers. -/
inductive Counted : Node H → Prop
  | mk {n} (hpriority : n.priority = n.handlerCount) (hbelow : ∀ child ∈ n.children, Counted child) :
      Counted n

/-- The node was counted up, and the handler is still to come. -/
structure Entered (n : Node H) : Prop where
  priority_eq : n.priority = n.handlerCount + 1
  counted : ∀ child ∈ n.children, child.Counted

theorem Counted.priority_eq {n : Node H} (hcounted : n.Counted) : n.priority = n.handlerCount := by
  cases hcounted with
  | mk hpriority => exact hpriority

theorem Counted.of_mem {n child : Node H} (hcounted : n.Counted) (hmem : child ∈ n.children) :
    child.Counted := by
  cases hcounted with
  | mk _ hbelow => exact hbelow child hmem

theorem Counted.bump {n : Node H} (hcounted : n.Counted) : n.bump.Entered where
  priority_eq := by
    have hcount : n.bump.handlerCount = n.handlerCount := handlerCount_congr rfl rfl
    rw [hcount, ← hcounted.priority_eq]
    rfl
  counted _ := hcounted.of_mem

theorem entered_fresh : Entered { (empty : Node H) with priority := 1 } where
  priority_eq := by
    rw [handlerCount]
    rfl
  counted _ hmem := absurd hmem List.not_mem_nil

/-! ## Counting -/

theorem Splits.priority_eq {n m : Node H} {path rem : Bytes} (hsplits : Splits n path m rem) :
    m.priority = n.priority := by
  cases hsplits <;> rfl

theorem Entered.split {n m child : Node H} (hentered : n.Entered) (hpriority : m.priority = n.priority)
    (hhandler : m.handler = none) (hchildren : m.children = [child])
    (hpriority' : child.priority = n.priority - 1) (hhandler' : child.handler = n.handler)
    (hchildren' : child.children = n.children) : m.Entered := by
  have hcount : child.handlerCount = n.handlerCount := handlerCount_congr hhandler' hchildren'
  have hpriority_eq := hentered.priority_eq
  constructor
  · rw [handlerCount, hhandler, hchildren, List.map_singleton, List.sum_singleton, hcount, hpriority,
      hpriority_eq, Option.toList_none, List.length_nil, Nat.zero_add]
  · intro child' hmem
    rw [hchildren, List.mem_singleton] at hmem
    subst hmem
    refine .mk (by omega) fun grandChild hmem => hentered.counted grandChild (hchildren' ▸ hmem)

theorem Splits.entered {n m : Node H} {path rem : Bytes} (hsplits : Splits n path m rem)
    (hentered : n.Entered) : m.Entered := by
  cases hsplits with
  | whole => exact hentered
  | part hpath =>
      rw [splitAt_eq hpath]
      exact hentered.split rfl rfl rfl rfl rfl rfl

theorem counted_singleton {n n' child : Node H} (hentered : n.Entered) (hchildren : n.children = [])
    (hpriority : n'.priority = n.priority) (hhandler : n'.handler = n.handler)
    (hchildren' : n'.children = [child]) (hchild : child.Counted) (hone : child.priority = 1) :
    n'.Counted := by
  have hcount := hentered.priority_eq
  refine .mk ?_ fun child' hmem => ?_
  · rw [handlerCount, hchildren, List.map_nil, List.sum_nil] at hcount
    rw [handlerCount, hhandler, hchildren', List.map_singleton, List.sum_singleton, hpriority, hcount,
      Nat.cast_add, Nat.cast_add, ← hchild.priority_eq, hone]
    rfl
  · rw [hchildren', List.mem_singleton] at hmem
    rwa [hmem]

theorem counted_leaf {n : Node H} (hchildren : n.children = []) (hhandler : n.handler.isSome)
    (hone : n.priority = 1) : n.Counted := by
  obtain ⟨v, hv⟩ := Option.isSome_iff_exists.mp hhandler
  refine .mk ?_ fun child hmem => ?_
  · rw [handlerCount, hchildren, hv, hone]
    rfl
  · rw [hchildren] at hmem
    exact absurd hmem List.not_mem_nil

theorem Fills.priority_eq {handler : Option H} {n n' : Node H} {path : Bytes} {verdict : Verdict}
    (hfills : Fills handler n path n' verdict) : n'.priority = n.priority := by
  cases hfills <;> rfl

theorem Fills.counted {v : H} {n n' : Node H} {path : Bytes} {verdict : Verdict}
    (hfills : Fills (some v) n path n' verdict) (haccepted : verdict = .accepted)
    (hentered : n.Entered) (hchildren : n.children = [])
    (hfresh : scan path = .plain → n.handler = none) : n'.Counted := by
  induction hfills with
  | invalid | occupied | catchAllRejected | catchAllAborted => exact nomatch haccepted
  | @plain n path hscan =>
      refine counted_leaf hchildren rfl ?_
      have hcount := hentered.priority_eq
      rw [handlerCount, hfresh hscan, hchildren] at hcount
      exact hcount
  | paramEnd => exact counted_singleton hentered hchildren rfl rfl rfl (counted_leaf rfl rfl rfl) rfl
  | @param n path plain name rest child verdict _ _ _ hfills ih =>
      have hchild := ih haccepted entered_fresh rfl fun _ => rfl
      refine counted_singleton hentered hchildren rfl rfl rfl ?_ rfl
      refine .mk ?_ fun child' hmem => ?_
      · rw [handlerCount, paramNode, List.map_singleton, List.sum_singleton, Nat.cast_add,
          ← hchild.priority_eq, hfills.priority_eq]
        rfl
      · rwa [List.mem_singleton.mp hmem]
  | @catchAll n path plain name =>
      have hleaf : Counted { (empty : Node H) with
          path := slash :: star :: name, type := .catchAll, priority := 1, handler := some v } :=
        counted_leaf rfl rfl rfl
      refine counted_singleton hentered hchildren rfl rfl rfl ?_ rfl
      refine .mk ?_ fun child' hmem => ?_
      · rw [handlerCount, catchAllNode, List.map_singleton, List.sum_singleton, Nat.cast_add,
          ← hleaf.priority_eq]
        rfl
      · rwa [List.mem_singleton.mp hmem]

theorem Continues.priority_eq {handler : Option H} {m n' : Node H} {rem : Bytes} {verdict : Verdict}
    (hcontinues : Continues handler m rem n' verdict) : n'.priority = m.priority := by
  cases hcontinues with
  | special _ _ _ _ hfills => exact hfills.priority_eq
  | _ => rfl

theorem children_perm {indices : Bytes} {children : List (Node H)} {edges : List (Byte × Node H)}
    (hlength : indices.length = children.length) (hperm : (indices.zip children).Perm edges) :
    children.Perm (edges.map Prod.snd) := by
  have hsnd := hperm.map Prod.snd
  rwa [List.map_snd_zip hlength.ge] at hsnd

theorem Entered.counted_child {n n' child : Node H} (sum rest : ℕ) (hentered : n.Entered)
    (hpriority : n'.priority = n.priority) (hhandler : n'.handler = n.handler)
    (hsum : (n.children.map handlerCount).sum = sum + rest)
    (hsum' : (n'.children.map handlerCount).sum = child.handlerCount + rest)
    (hchild : child.Counted) (hone : child.priority = sum + 1)
    (hbelow : ∀ child ∈ n'.children, child.Counted) : n'.Counted := by
  have hcount := hentered.priority_eq
  have hcount' := hchild.priority_eq
  refine .mk ?_ hbelow
  rw [handlerCount, hsum] at hcount
  rw [handlerCount, hhandler, hsum', hpriority]
  omega

/-- **A route that is put in leaves the handlers counted.** -/
theorem Continues.counted {v : H} {m n' : Node H} {rem : Bytes} {verdict : Verdict}
    (hcontinues : Continues (some v) m rem n' verdict) (haccepted : verdict = .accepted)
    (hshape : m.Shape) (hreaches : m.Reaches rem) (hentered : m.Entered) : n'.Counted := by
  have hbelow : ∀ {front m child : Node H} {path rem : Bytes} {verdict : Verdict}, front.Counted →
      Splits front.bump path m rem → Continues (some v) m rem child verdict →
      child.priority = front.handlerCount + 1 := by
    intro front m child path rem verdict hcounted hsplits hcontinues
    rw [hcontinues.priority_eq, hsplits.priority_eq, ← hcounted.priority_eq]
    rfl
  induction hcontinues with
  | registered | wildConflict => exact nomatch haccepted
  | @fill n hhandler =>
      have hcount := hentered.priority_eq
      refine .mk ?_ hentered.counted
      rw [handlerCount, hhandler] at hcount
      rw [handlerCount, Option.toList_some, List.length_singleton, hcount]
      push_cast
      simp [add_comm]
  | @wildDescend n front others path m rem child verdict _ hwild hchildren hfollows hsplits
      hcontinues ih =>
      obtain ⟨rfl, -, hfront⟩ := hshape.of_follows hwild hchildren hfollows
      have hshape' := hfront.bump
      have henters := hfollows.bump.enters
      have hcounted := hentered.counted front (hchildren ▸ List.mem_cons_self)
      have hcounted' := ih haccepted (hsplits.shape hshape' henters) (hsplits.reaches hshape' henters)
        (hsplits.entered hcounted.bump)
      refine hentered.counted_child _ _ rfl rfl ?_ (List.sum_cons ..) hcounted'
        (hbelow hcounted hsplits hcontinues) (List.forall_mem_singleton.mpr hcounted')
      rw [hchildren, List.map_cons, List.sum_cons]
  | @paramDescend n front path m rem child verdict _ htype hpath hchildren hsplits hcontinues ih =>
      obtain ⟨hhangs, hshape'⟩ := hshape.below_param htype hchildren
      have henters := hhangs.bump.enters hpath
      have hcounted := hentered.counted front (hchildren ▸ List.mem_cons_self)
      have hcounted' := ih haccepted (hsplits.shape hshape'.bump henters)
        (hsplits.reaches hshape'.bump henters) (hsplits.entered hcounted.bump)
      refine hentered.counted_child _ _ rfl rfl ?_ (List.sum_cons ..) hcounted'
        (hbelow hcounted hsplits hcontinues) (List.forall_mem_singleton.mpr hcounted')
      rw [hchildren, List.map_cons, List.sum_cons]
  | @indexDescend n c rest front before after m rem child indices children verdict hwild htype hedges
      hsplits hcontinues hlength hperm ih =>
      have hmem := mem_edges_of_zip htype hedges
      obtain ⟨hfront, hhangs, hshape'⟩ := hshape.child_of_edge hmem
      have henters : front.bump.Enters (c :: rest) := hhangs.bump.enters rfl
      have hcounted := hentered.counted front hfront
      have hcounted' := ih haccepted (hsplits.shape hshape'.bump henters)
        (hsplits.reaches hshape'.bump henters) (hsplits.entered hcounted.bump)
      -- but for the child that was entered, the children are the same
      have hold := children_perm (hshape.length_indices hwild fun h => absurd h htype)
        (.of_eq hedges)
      have hnew := children_perm hlength hperm
      rw [List.map_append, List.map_cons] at hold hnew
      refine hentered.counted_child front.handlerCount
        ((before ++ after).map fun edge => edge.2.handlerCount).sum rfl rfl ?_ ?_ hcounted'
        (hbelow hcounted hsplits hcontinues) ?_
      · rw [(hold.map handlerCount).sum_eq]
        simp [Function.comp_def, Nat.add_left_comm]
      · rw [(hnew.map handlerCount).sum_eq]
        simp [Function.comp_def, Nat.add_left_comm]
      · intro child' hchild'
        rcases List.mem_append.mp (hnew.subset hchild') with hmem' | hmem'
        · exact hentered.counted _ (hold.symm.subset (List.mem_append_left _ hmem'))
        · rcases List.mem_cons.mp hmem' with rfl | hmem'
          · exact hcounted'
          · exact hentered.counted _ (hold.symm.subset
              (List.mem_append_right _ (List.mem_cons_of_mem _ hmem')))
  | @push n c rest child indices children verdict hwild _ hparam _ hfills hlength hperm =>
      have hcounted' := hfills.counted haccepted entered_fresh rfl fun _ => rfl
      have hold := children_perm (hshape.length_indices hwild fun h => (hparam h).2)
        (List.Perm.refl _)
      have hnew := children_perm hlength hperm
      rw [List.map_append, List.map_singleton] at hnew
      refine hentered.counted_child 0 _ rfl rfl (Nat.zero_add _).symm ?_ hcounted'
        hfills.priority_eq ?_
      · rw [(hnew.map handlerCount).sum_eq, (hold.map handlerCount).sum_eq, List.map_append,
          List.sum_append, List.map_singleton, List.sum_singleton, Nat.add_comm]
      · intro child' hchild'
        rcases List.mem_append.mp (hnew.subset hchild') with hmem' | hmem'
        · exact hentered.counted _ (hold.symm.subset hmem')
        · rwa [List.mem_singleton.mp hmem']
  | @special n c rest n' verdict _ _ _ hc hfills =>
      by_cases hchildren : n.children = []
      · refine hfills.counted haccepted hentered hchildren fun hscan => ?_
        have hliteral := literal_of_scan_plain hscan c List.mem_cons_self
        rw [hc] at hliteral
        exact nomatch hliteral
      · rw [(hfills.eq_of_occupied hchildren hc).2] at haccepted
        exact nomatch haccepted

/-- **A call that succeeds leaves the handlers counted.** -/
theorem Adds.counted {v : H} {n n' : Node H} {path : Bytes} {verdict : Verdict}
    (hadds : Adds (some v) n path n' verdict) (haccepted : verdict = .accepted) (hroot : n.Root)
    (hcounted : n.Counted) : n'.Counted := by
  cases hadds with
  | @first n' hblank hfills =>
      have hunused : n.bump.Unused := hroot.bump.unused_of_blank hblank
      have hfilled := hfills.counted rfl hcounted.bump hunused.children_eq fun _ => hunused.handler_eq
      have hcount : n'.asRoot.handlerCount = n'.handlerCount := handlerCount_congr rfl rfl
      exact .mk (hfilled.priority_eq.trans (congrArg _ hcount.symm)) fun _ => hfilled.of_mem
  | firstFails _ hverdict => exact absurd haccepted hverdict
  | later _ hsplits hcontinues =>
      exact hcontinues.counted haccepted (hsplits.shape hroot.shape.bump (hroot.bump.enters _))
        (hsplits.reaches hroot.shape.bump (hroot.bump.enters _)) (hsplits.entered hcounted.bump)

/-! ## The order of the children -/

/-- In the whole tree the children stand in the order of their priorities. -/
inductive Ordered : Node H → Prop
  | mk {n} (hsorted : n.children.Pairwise fun left right => right.priority ≤ left.priority)
      (hnonneg : ∀ child ∈ n.children, 0 ≤ child.priority)
      (hbelow : ∀ child ∈ n.children, Ordered child) : Ordered n

theorem Ordered.nonneg {n child : Node H} (hordered : n.Ordered) (hmem : child ∈ n.children) :
    0 ≤ child.priority := by
  cases hordered with
  | mk _ hnonneg => exact hnonneg child hmem

theorem Ordered.of_mem {n child : Node H} (hordered : n.Ordered) (hmem : child ∈ n.children) :
    child.Ordered := by
  cases hordered with
  | mk _ _ hbelow => exact hbelow child hmem

theorem Ordered.congr {n n' : Node H} (hordered : n.Ordered) (hchildren : n'.children = n.children) :
    n'.Ordered := by
  obtain ⟨hsorted, hnonneg, hbelow⟩ := hordered
  exact .mk (hchildren ▸ hsorted) (hchildren ▸ hnonneg) (hchildren ▸ hbelow)

theorem ordered_of_children_nil {n : Node H} (hchildren : n.children = []) : n.Ordered := by
  refine .mk ?_ ?_ ?_ <;> rw [hchildren]
  · exact .nil
  · exact fun _ hmem => absurd hmem List.not_mem_nil
  · exact fun _ hmem => absurd hmem List.not_mem_nil

theorem ordered_of_singleton {n child : Node H} (hchildren : n.children = [child])
    (hnonneg : 0 ≤ child.priority) (hordered : child.Ordered) : n.Ordered := by
  refine .mk ?_ ?_ ?_ <;> rw [hchildren]
  · exact List.pairwise_singleton _ _
  · exact List.forall_mem_singleton.mpr hnonneg
  · exact List.forall_mem_singleton.mpr hordered

theorem Ordered.set {n child child' : Node H} {pos : ℕ} (hordered : n.Ordered)
    (hchild : n.children[pos]? = some child) (hpriority : child'.priority = child.priority)
    (hordered' : child'.Ordered) : Ordered { n with children := n.children.set pos child' } := by
  obtain ⟨hsorted, hnonneg, hbelow⟩ := hordered
  obtain ⟨hpos, rfl⟩ := List.getElem?_eq_some_iff.mp hchild
  have hmem : ∀ other ∈ n.children.set pos child', other = child' ∨ other ∈ n.children :=
    fun other hother => (List.mem_or_eq_of_mem_set hother).symm
  refine .mk ?_ ?_ ?_
  · have hmap : (n.children.set pos child').map priority = n.children.map priority := by
      rw [List.map_set, hpriority]
      refine List.ext_getElem (by simp) fun i hi hi' => ?_
      by_cases heq : pos = i
      · subst heq
        simp
      · simp [heq]
    rw [← List.pairwise_map (f := priority) (R := fun left right => right ≤ left), hmap]
    exact List.pairwise_map.mpr hsorted
  · intro other hother
    rcases hmem other hother with rfl | hother
    · exact hpriority ▸ hnonneg _ (List.getElem_mem hpos)
    · exact hnonneg other hother
  · intro other hother
    rcases hmem other hother with rfl | hother
    · exact hordered'
    · exact hbelow other hother

/-- `slideLeft` stops behind the first child that is not smaller. -/
theorem slideLeft_spec (children : List (Node H)) (prio : ℤ) (pos : ℕ) :
    (∀ i left, slideLeft children prio pos ≤ i → i < pos → children[i]? = some left →
      left.priority < prio) ∧
    ∀ i left, i + 1 = slideLeft children prio pos → children[i]? = some left →
      prio ≤ left.priority := by
  induction pos with
  | zero => exact ⟨fun _ _ _ hlt => absurd hlt (Nat.not_lt_zero _), nofun⟩
  | succ pos ih =>
      have hstop : ∀ i, pos + 1 ≤ i → ¬ i < pos + 1 := fun i hle => not_lt.mpr hle
      unfold slideLeft
      split
      · next hnone =>
        refine ⟨fun i left hle hlt => absurd hlt (hstop i hle), fun i left hi hleft => ?_⟩
        obtain rfl := Nat.succ.inj hi
        rw [hnone] at hleft
        cases hleft
      · next left hleft =>
        split_ifs with hless
        · refine ⟨fun i left' hle hlt hleft' => ?_, ih.2⟩
          obtain hlt | rfl := Nat.lt_or_eq_of_le (Nat.le_of_lt_succ hlt)
          · exact ih.1 i left' hle hlt hleft'
          · obtain rfl := Option.some.inj (hleft.symm.trans hleft')
            exact hless
        · refine ⟨fun i left hle hlt => absurd hlt (hstop i hle), fun i left' hi hleft' => ?_⟩
          obtain rfl := Nat.succ.inj hi
          obtain rfl := Option.some.inj (hleft.symm.trans hleft')
          exact not_lt.mp hless

/-- The child is moved in front of all smaller ones. -/
theorem sorted_of_moved {before between after : List (Node H)} {child : Node H}
    (hsorted : (before ++ (between ++ child :: after)).Pairwise
      fun left right => right.priority ≤ left.priority)
    (hplace : before.length = slideLeft (before ++ (between ++ child.bump :: after))
      child.bump.priority (before.length + between.length)) :
    (before ++ child.bump :: (between ++ after)).Pairwise
      fun left right => right.priority ≤ left.priority := by
  obtain ⟨hsmaller, hgreater⟩ := slideLeft_spec (before ++ (between ++ child.bump :: after))
    child.bump.priority (before.length + between.length)
  rw [← hplace] at hsmaller hgreater
  simp only [List.pairwise_append, List.pairwise_cons, List.mem_append, List.mem_cons] at hsorted ⊢
  obtain ⟨hbefore, ⟨hbetween, ⟨hchild, hafter⟩, hright⟩, hleft⟩ := hsorted
  have hbump : child.priority ≤ child.bump.priority := by
    change child.priority ≤ child.priority + 1
    omega
  refine ⟨hbefore, ⟨?_, hbetween, hafter, ?_⟩, ?_⟩
  · rintro other (hother | hother)
    · obtain ⟨i, hi, rfl⟩ := List.mem_iff_getElem.mp hother
      refine (hsmaller (before.length + i) between[i] (Nat.le_add_right _ _) (by omega) ?_).le
      rw [List.getElem?_append_right (Nat.le_add_right _ _), Nat.add_sub_cancel_left,
        List.getElem?_append_left hi, List.getElem?_eq_getElem hi]
    · exact (hchild other hother).trans hbump
  · intro left hmem other hother
    exact hright left hmem other (.inr hother)
  · rintro left hmem other (rfl | hother | hother)
    · -- the last child in front of the place is not smaller, and the others are not smaller than it
      obtain ⟨front, last, rfl⟩ : ∃ front last, before = front ++ [last] :=
        ⟨before.dropLast, _, (List.dropLast_append_getLast (List.ne_nil_of_mem hmem)).symm⟩
      have hlast : child.bump.priority ≤ last.priority := by
        refine hgreater front.length last (by simp) ?_
        rw [List.append_assoc, List.getElem?_append_right le_rfl, Nat.sub_self]
        rfl
      rcases List.mem_append.mp hmem with hmem | hmem
      · refine hlast.trans ((List.pairwise_append.mp hbefore).2.2 left hmem last ?_)
        exact List.mem_singleton_self last
      · rwa [List.mem_singleton.mp hmem]
    · exact hleft left hmem other (.inl hother)
    · exact hleft left hmem other (.inr (.inr hother))

theorem incrementChildPriority_ordered {n n' : Node H} {pos newPos : ℕ} (hordered : n.Ordered)
    (hrun : n.incrementChildPriority pos = .ok (n', newPos)) :
    n'.Ordered ∧ n'.priority = n.priority ∧
      ∀ child, n'.children[newPos]? = some child → 1 ≤ child.priority := by
  obtain ⟨hlength, child, hchild⟩ : n.indices.length = n.children.length ∧
      ∃ child, n.children[pos]? = some child := by
    unfold incrementChildPriority at hrun
    split_ifs at hrun with hlength
    split at hrun
    · cases hrun
    · next child hchild => exact ⟨not_not.mp hlength, child, hchild⟩
  obtain ⟨hpos, -⟩ := List.getElem?_eq_some_iff.mp hchild
  have hc : n.indices[pos]? = some n.indices[pos] := List.getElem?_eq_getElem (hlength ▸ hpos)
  obtain ⟨before, between, after, before', between', after', hchildren, -, hplace, hsum, -, -, -,
    hmoved⟩ := incrementChildPriority_moved hlength hc hchild
  obtain ⟨rfl, rfl⟩ := Prod.mk.inj (Except.ok.inj (hrun.symm.trans hmoved))
  obtain ⟨hsorted, hnonneg, hbelow⟩ := hordered
  have hset : n.children.set pos child.bump = before ++ (between ++ child.bump :: after) := by
    rw [hchildren, List.set_append_right _ _ (by omega), List.set_append_right _ _ (by omega),
      show pos - before.length - between.length = 0 by omega, List.set_cons_zero]
  rw [hset, ← hsum] at hplace
  rw [hchildren] at hsorted
  have hmem : ∀ other ∈ before ++ child.bump :: (between ++ after),
      other = child.bump ∨ other ∈ n.children := by
    intro other hother
    rw [hchildren]
    simp only [List.mem_append, List.mem_cons] at hother ⊢
    tauto
  have hchild' : child ∈ n.children := List.mem_of_getElem? hchild
  have hbump : 1 ≤ child.bump.priority := by
    have hle := hnonneg child hchild'
    change 1 ≤ child.priority + 1
    omega
  refine ⟨.mk (sorted_of_moved hsorted hplace) ?_ ?_, rfl, ?_⟩
  · intro other hother
    rcases hmem other hother with rfl | hother
    · exact le_trans (by decide) hbump
    · exact hnonneg other hother
  · intro other hother
    rcases hmem other hother with rfl | hother
    · exact (hbelow child hchild').congr rfl
    · exact hbelow other hother
  · intro other hother
    dsimp only at hother
    rw [List.getElem?_append_right le_rfl, Nat.sub_self, List.getElem?_cons_zero] at hother
    rwa [← Option.some.inj hother]

/-! ## The order after a call -/

theorem Fills.ordered {handler : Option H} {n n' : Node H} {path : Bytes} {verdict : Verdict}
    (hfills : Fills handler n path n' verdict) (hordered : n.Ordered) : n'.Ordered := by
  have hleaf : ∀ {name : Bytes} {handler : Option H}, (paramNode name handler []).Ordered :=
    ordered_of_children_nil rfl
  induction hfills with
  | plain => exact hordered.congr rfl
  | invalid | occupied | catchAllRejected | catchAllAborted => exact hordered
  | paramEnd => exact ordered_of_singleton rfl Int.one_nonneg hleaf
  | param _ _ _ hfills ih =>
      refine ordered_of_singleton rfl Int.one_nonneg (ordered_of_singleton rfl ?_ ?_)
      · rw [hfills.priority_eq]
        exact Int.one_nonneg
      · exact ih (ordered_of_children_nil rfl)
  | catchAll =>
      refine ordered_of_singleton rfl Int.one_nonneg (ordered_of_singleton rfl Int.one_nonneg ?_)
      exact ordered_of_children_nil rfl

theorem insertPath_ordered {n : Node H} (hordered : n.Ordered) (path fullPath : Bytes)
    (handler : Option H) :
    (insertPath (path.length + 1) n path fullPath unknownWildcard handler).1.Ordered ∧
      (insertPath (path.length + 1) n path fullPath unknownWildcard handler).1.priority =
        n.priority := by
  have hfills := insertPath_fills fullPath handler n (Nat.lt_succ_self path.length)
  exact ⟨hfills.ordered hordered, hfills.priority_eq⟩

/-- The call on a child that was counted up keeps its priority, and the order below it. -/
def KeepsOrder (recurse : Node H → Bytes → Node H × Outcome) : Prop :=
  ∀ child path, child.Ordered → 1 ≤ child.priority → (recurse child path).2 = .ok →
    (recurse child path).1.Ordered ∧ (recurse child path).1.priority = child.priority

/-- The child at the place that `increment_child_priority` returns. -/
theorem descend_ordered {recurse : Node H → Bytes → Node H × Outcome} (hrecurse : KeepsOrder recurse)
    {n m child : Node H} {pos newPos : ℕ} {path : Bytes} (hordered : n.Ordered)
    (hrun : n.incrementChildPriority pos = .ok (m, newPos)) (hchild : m.children[newPos]? = some child)
    (hok : (recurse child path).2 = .ok) :
    Ordered { m with children := m.children.set newPos (recurse child path).1 } ∧
      m.priority = n.priority := by
  obtain ⟨hm, hpriority, hone⟩ := incrementChildPriority_ordered hordered hrun
  obtain ⟨hordered', hpriority'⟩ :=
    hrecurse child path (hm.of_mem (List.mem_of_getElem? hchild)) (hone child hchild) hok
  exact ⟨hm.set hchild hpriority' hordered', hpriority⟩

theorem Ordered.push {n : Node H} (hordered : n.Ordered) (indices : Bytes) :
    Ordered { n with indices := indices, children := n.children ++ [empty] } := by
  obtain ⟨hsorted, hnonneg, hbelow⟩ := hordered
  refine .mk (List.pairwise_append.mpr ⟨hsorted, List.pairwise_singleton _ _, ?_⟩) ?_ ?_
  · intro left hmem right hright
    rw [List.mem_singleton.mp hright]
    exact hnonneg left hmem
  · exact List.forall_mem_append.mpr ⟨hnonneg, List.forall_mem_singleton.mpr le_rfl⟩
  · refine List.forall_mem_append.mpr ⟨hbelow, List.forall_mem_singleton.mpr ?_⟩
    exact ordered_of_children_nil rfl

theorem Ordered.front {n front child : Node H} {others : List (Node H)} (hordered : n.Ordered)
    (hchildren : n.children = front :: others) (hpriority : child.priority = front.priority + 1)
    (hordered' : child.Ordered) : Ordered { n with children := child :: others } := by
  obtain ⟨hsorted, hnonneg, hbelow⟩ := hordered
  rw [hchildren] at hsorted hnonneg hbelow
  rw [List.pairwise_cons] at hsorted
  rw [List.forall_mem_cons] at hnonneg hbelow
  refine .mk (List.pairwise_cons.mpr ⟨fun other hother => ?_, hsorted.2⟩)
    (List.forall_mem_cons.mpr ⟨?_, hnonneg.2⟩) (List.forall_mem_cons.mpr ⟨hordered', hbelow.2⟩)
  · have hle := hsorted.1 other hother
    omega
  · have hle := hnonneg.1
    omega

theorem continueRoute_ordered {recurse : Node H → Bytes → Node H × Outcome}
    (hrecurse : KeepsOrder recurse) {n : Node H} (hordered : n.Ordered) {len : ℕ}
    {path fullPath : Bytes} {handler : Option H}
    (hok : (n.continueRoute recurse len path fullPath handler).2 = .ok) :
    (n.continueRoute recurse len path fullPath handler).1.Ordered ∧
      (n.continueRoute recurse len path fullPath handler).1.priority = n.priority := by
  have hfront : ∀ {front : Node H} {others : List (Node H)} {path : Bytes},
      n.children = front :: others → (recurse front.bump path).2 = .ok →
      Ordered { n with children := (recurse front.bump path).1 :: others } := by
    intro front others path hchildren hok
    have hmem : front ∈ n.children := hchildren ▸ List.mem_cons_self
    have hone : 1 ≤ front.bump.priority := Int.le_add_of_nonneg_left (hordered.nonneg hmem)
    obtain ⟨hordered', hpriority⟩ :=
      hrecurse front.bump path ((hordered.of_mem hmem).congr rfl) hone hok
    exact hordered.front hchildren hpriority hordered'
  unfold continueRoute at hok ⊢
  generalize path.drop len = rem at hok ⊢
  cases rem with
  | nil =>
      dsimp only at hok ⊢
      split_ifs at hok ⊢
      exact ⟨hordered.congr rfl, rfl⟩
  | cons c rest =>
      dsimp only at hok ⊢
      by_cases hwild : n.hasWildChild = true
      · rw [if_pos hwild] at hok ⊢
        cases hchildren : n.children with
        | nil =>
            rw [hchildren] at hok
            cases hok
        | cons front others =>
            rw [hchildren] at hok
            dsimp only at hok ⊢
            split_ifs at hok ⊢
            exact ⟨hfront hchildren hok, rfl⟩
      · rw [if_neg hwild] at hok ⊢
        by_cases hbelow : n.type = .param ∧ c = slash ∧ n.children ≠ []
        · rw [if_pos hbelow] at hok ⊢
          match hchildren : n.children with
          | [] => exact absurd hchildren hbelow.2.2
          | [front] =>
              rw [hchildren] at hok
              exact ⟨hfront hchildren hok, rfl⟩
          | _ :: _ :: _ =>
              rw [hchildren] at hok
              cases hok
        · rw [if_neg hbelow] at hok ⊢
          cases hpos : n.indices.idxOf? c with
          | some pos =>
              rw [hpos] at hok
              dsimp only at hok ⊢
              match hrun : n.incrementChildPriority pos with
              | .error fault =>
                  rw [hrun] at hok
                  cases hok
              | .ok (m, newPos) =>
                  rw [hrun] at hok
                  dsimp only at hok ⊢
                  cases hchild : m.children[newPos]? with
                  | none =>
                      rw [hchild] at hok
                      cases hok
                  | some child =>
                      rw [hchild] at hok
                      exact descend_ordered hrecurse hordered hrun hchild hok
          | none =>
              rw [hpos] at hok
              dsimp only at hok ⊢
              by_cases hspecial : c ≠ colon ∧ c ≠ star
              · rw [if_pos hspecial] at hok ⊢
                have hpush := hordered.push (n.indices ++ [c])
                set pushed : Node H := { n with indices := n.indices ++ [c],
                                                children := n.children ++ [empty] }
                match hrun : pushed.incrementChildPriority ((n.indices ++ [c]).length - 1) with
                | .error fault =>
                    rw [hrun] at hok
                    cases hok
                | .ok (m, newPos) =>
                    rw [hrun] at hok
                    dsimp only at hok ⊢
                    cases hchild : m.children[newPos]? with
                    | none =>
                        rw [hchild] at hok
                        cases hok
                    | some child =>
                        rw [hchild] at hok
                        have hfill : KeepsOrder fun child path => insertPath (path.length + 1)
                            child path fullPath unknownWildcard handler :=
                          fun child path hordered _ _ =>
                            insertPath_ordered hordered path fullPath handler
                        exact descend_ordered (n := pushed) hfill hpush hrun hchild hok
              · rw [if_neg hspecial]
                exact insertPath_ordered hordered (c :: rest) fullPath handler

theorem insertRoute_ordered {fuel : ℕ} {n : Node H} (hordered : n.Ordered) (hone : 1 ≤ n.priority)
    {path fullPath : Bytes} {handler : Option H}
    (hok : (insertRoute fuel n path fullPath handler).2 = .ok) :
    (insertRoute fuel n path fullPath handler).1.Ordered ∧
      (insertRoute fuel n path fullPath handler).1.priority = n.priority := by
  induction fuel generalizing n path with
  | zero => cases hok
  | succ fuel ih =>
      have hsplit : ∀ len, (n.splitAt len).Ordered := fun len =>
        ordered_of_singleton rfl (Int.sub_nonneg_of_le hone) (hordered.congr rfl)
      unfold insertRoute at hok ⊢
      dsimp only at hok ⊢
      have hkeeps : KeepsOrder fun child path => insertRoute fuel child path fullPath handler :=
        fun child path hordered hone hok => ih hordered hone hok
      have hcontinue := continueRoute_ordered hkeeps ?_ hok
      · refine ⟨hcontinue.1, hcontinue.2.trans ?_⟩
        split_ifs <;> rfl
      · split_ifs
        · exact hsplit _
        · exact hordered

/-- **A call that succeeds leaves the children in order.** -/
theorem addRoute_ordered {n : Node H} (hordered : n.Ordered) (hnonneg : 0 ≤ n.priority)
    {path : Bytes} {handler : Option H} (hok : (n.addRoute path handler).2 = .ok) :
    (n.addRoute path handler).1.Ordered ∧
      (n.addRoute path handler).1.priority = n.priority + 1 := by
  unfold addRoute at hok ⊢
  dsimp only at hok ⊢
  split_ifs at hok ⊢ with hblank
  · have hfilled := insertPath_ordered (hordered.congr rfl : n.bump.Ordered) path path handler
    have hbump : n.bump = { n with priority := n.priority + 1 } := rfl
    rw [← hbump] at hok ⊢
    generalize insertPath (path.length + 1) n.bump path path unknownWildcard handler = result
      at hfilled hok ⊢
    match result, hok with
    | (n', .ok), _ => exact ⟨hfilled.1.congr rfl, hfilled.2⟩
  · exact insertRoute_ordered (n := n.bump) (hordered.congr rfl)
      (Int.le_add_of_nonneg_left hnonneg) hok

end Node

end Eureka.Router

import Eureka.Library.Transition

/-!
# A group of goroutines

`Group.Run`: every actor's `executor` runs in a goroutine of its own and sends its result to a
channel that has room for all of them.  The first result ends the group: every actor is
interrupted with it, and the other results are received and thrown away.

* `send_not_blocked`: a goroutine that has its result can send it, whatever `Run` does;
* `run_returned`: `Run` returns the first result, when every actor has been interrupted with it
  once and in order, and every executor has returned;
* `run_waits_for`: what a group can wait for; without actors it waits for ever.
-/

namespace Eureka.GoroutineGroup

open Transition

inductive Goroutine (Err : Type)
  | waiting
  | running
  /-- the executor has returned -/
  | sending (result : Err)
  | done
deriving DecidableEq, Repr

/-- Where `Run` is; the numbers are those of the loop variables. -/
inductive RunPhase (Err : Type)
  | starting (i : ℕ)
  | receiving
  | interrupting (rv : Err) (i : ℕ)
  | draining (rv : Err) (i : ℕ)
  | returned (rv : Err)
deriving DecidableEq, Repr

/-- A call of `Run`, with logs of what was sent and of the calls of the interruptors. -/
structure Group (Err : Type) where
  phase : RunPhase Err
  goroutines : ℕ → Goroutine Err
  results : List Err
  sent : List (ℕ × Err)
  interrupted : List (ℕ × Err)

inductive Action (Err : Type)
  /-- `Run` goes on -/
  | run
  /-- the executor of an actor returns -/
  | finish (i : ℕ) (result : Err)
  | send (i : ℕ)
deriving DecidableEq, Repr

namespace Group

variable {Err : Type}

def initial : Group Err := ⟨.starting 0, fun _ => .waiting, [], [], []⟩

def setGoroutine (s : Group Err) (i : ℕ) (goroutine : Goroutine Err) : Group Err :=
  { s with goroutines := Function.update s.goroutines i goroutine }

/-- The next step of `Run` with `count` actors, if it does not wait for a result. -/
def run (count : ℕ) (s : Group Err) : Option (Group Err) :=
  match s.phase with
  | .starting i =>
      if i < count then some { s.setGoroutine i .running with phase := .starting (i + 1) }
      else some { s with phase := .receiving }
  | .receiving =>
      match s.results with
      | [] => none
      | rv :: results => some { s with results := results, phase := .interrupting rv 0 }
  | .interrupting rv i =>
      if i < count then
        some { s with interrupted := s.interrupted ++ [(i, rv)], phase := .interrupting rv (i + 1) }
      else some { s with phase := .draining rv 1 }
  | .draining rv i =>
      if i < count then
        match s.results with
        | [] => none
        | _ :: results => some { s with results := results, phase := .draining rv (i + 1) }
      else some { s with phase := .returned rv }
  | .returned _ => none

/-- `results <- a.executor()`, where the channel has room for `count` results. -/
def send (count : ℕ) (s : Group Err) (i : ℕ) : Option (Group Err) :=
  match s.goroutines i with
  | .sending result =>
      if s.results.length < count then
        some { s.setGoroutine i .done with
          results := s.results ++ [result]
          sent := s.sent ++ [(i, result)] }
      else none
  | .waiting | .running | .done => none

end Group

/-- The runs of a group with `count` actors. -/
def groups (Err : Type) (count : ℕ) : System (Group Err) (Action Err) where
  start s := s = .initial
  step s
    | .run => s.run count
    | .finish i result =>
        match s.goroutines i with
        | .running => some (s.setGoroutine i (.sending result))
        | _ => none
    | .send i => s.send count i

/-! ### What the steps keep -/

variable {Err : Type} {count : ℕ}

/-- The number of results that `Run` has received. -/
def RunPhase.received (count : ℕ) : RunPhase Err → ℕ
  | .starting _ | .receiving => 0
  | .interrupting _ _ => 1
  | .draining _ i => i
  | .returned _ => count

/-- The result that `Run` has received first. -/
def RunPhase.first? : RunPhase Err → Option Err
  | .starting _ | .receiving => none
  | .interrupting rv _ | .draining rv _ | .returned rv => some rv

/-- The calls of the interruptors so far. -/
def RunPhase.interrupts (count : ℕ) : RunPhase Err → List (ℕ × Err)
  | .starting _ | .receiving => []
  | .interrupting rv i => (List.range i).map fun j => (j, rv)
  | .draining rv _ | .returned rv => (List.range count).map fun j => (j, rv)

/-- The number of goroutines that have been started. -/
def RunPhase.started (count : ℕ) : RunPhase Err → ℕ
  | .starting i => i
  | .receiving | .interrupting _ _ | .draining _ _ | .returned _ => count

structure Inv (count : ℕ) (s : Group Err) : Prop where
  /-- the goroutines that have been started are those that do not wait -/
  started : ∀ i, s.goroutines i ≠ .waiting ↔ i < s.phase.started count
  startedLe : s.phase.started count ≤ count
  /-- the goroutines that are done are those that have sent -/
  sent : ∀ i, s.goroutines i = .done ↔ i ∈ s.sent.map Prod.fst
  once : (s.sent.map Prod.fst).Nodup
  /-- what `Run` has received, and the channel -/
  results : s.results = (s.sent.drop (s.phase.received count)).map Prod.snd
  received : s.phase.received count ≤ s.sent.length
  first : s.phase.first?.isSome → s.phase.first? = (s.sent.map Prod.snd).head?
  interrupted : s.interrupted = s.phase.interrupts count
  loop : ∀ rv i, s.phase = .interrupting rv i → i ≤ count
  drained : ∀ rv i, s.phase = .draining rv i → 1 ≤ i ∧ i ≤ count

namespace Inv

variable {s s' : Group Err} {i : ℕ} {rv : Err}

theorem lt_of_mem (hI : Inv count s) (hi : i ∈ s.sent.map Prod.fst) : i < count := by
  have hdone : s.goroutines i = .done := (hI.sent i).mpr hi
  have hstarted : s.goroutines i ≠ .waiting := by rw [hdone]; exact nofun
  exact ((hI.started i).mp hstarted).trans_le hI.startedLe

theorem subset_range (hI : Inv count s) : s.sent.map Prod.fst ⊆ List.range count :=
  fun _ hi => List.mem_range.mpr (hI.lt_of_mem hi)

/-- Who has not sent leaves room for all that have. -/
theorem length_lt (hI : Inv count s) (hlt : i < count) (hi : s.goroutines i ≠ .done) :
    s.sent.length < count := by
  have hnot : i ∉ s.sent.map Prod.fst := fun hmem => hi ((hI.sent i).mpr hmem)
  have hsub : i :: s.sent.map Prod.fst ⊆ List.range count :=
    List.cons_subset.mpr ⟨List.mem_range.mpr hlt, hI.subset_range⟩
  simpa using ((List.nodup_cons.mpr ⟨hnot, hI.once⟩).subperm hsub).length_le

/-- Where not all have sent, some actor has not. -/
theorem exists_not_done (hI : Inv count s) (hlt : s.sent.length < count) :
    ∃ i < count, s.goroutines i ≠ .done := by
  have hcard : (s.sent.map Prod.fst).toFinset.card < (Finset.range count).card := by
    rw [Finset.card_range]
    refine (List.toFinset_card_le _).trans_lt ?_
    rwa [List.length_map]
  obtain ⟨i, hi, hnot⟩ := Finset.exists_mem_notMem_of_card_lt_card hcard
  refine ⟨i, Finset.mem_range.mp hi, fun hdone => hnot ?_⟩
  exact List.mem_toFinset.mpr ((hI.sent i).mp hdone)

theorem count_pos (hI : Inv count s) (hfirst : s.phase.first?.isSome) : 0 < count := by
  have hhead := hI.first hfirst
  cases hsent : s.sent with
  | nil =>
      rw [hsent] at hhead
      rw [hhead] at hfirst
      exact nomatch hfirst
  | cons head tail => exact (Nat.zero_le _).trans_lt (hI.lt_of_mem (i := head.1) (by simp [hsent]))

theorem received_next {sent : List (ℕ × Err)} {rest : List Err} {n : ℕ}
    (h : rv :: rest = (sent.drop n).map Prod.snd) :
    n + 1 ≤ sent.length ∧ sent[n]?.map Prod.snd = some rv ∧
      rest = (sent.drop (n + 1)).map Prod.snd := by
  cases hdrop : sent.drop n with
  | nil =>
      rw [hdrop] at h
      exact nomatch h
  | cons head tail =>
      rw [hdrop] at h
      have hlength : (sent.drop n).length = tail.length + 1 := by rw [hdrop]; rfl
      rw [List.length_drop] at hlength
      have hget : sent[n]? = some head := by
        rw [← List.head?_drop, hdrop]
        rfl
      have htail : sent.drop (n + 1) = tail := by
        rw [← List.tail_drop, hdrop]
        rfl
      obtain ⟨rfl, rfl⟩ := List.cons.inj h
      exact ⟨by omega, by rw [hget]; rfl, by rw [htail]⟩

theorem run (hI : Inv count s) (hstep : s.run count = some s') : Inv count s' := by
  have hstarted := hI.started
  have hle := hI.startedLe
  have hresults := hI.results
  have hreceived := hI.received
  have hinterrupted := hI.interrupted
  rw [Group.run] at hstep
  split at hstep
  case h_1 j hphase =>
    rw [hphase] at hstarted hle hresults hreceived hinterrupted
    split at hstep
    · next hlt =>
        obtain rfl := Option.some.inj hstep
        have hwaiting : s.goroutines j = .waiting := by
          by_contra hne
          exact absurd ((hstarted j).mp hne) (lt_irrefl j)
        refine ⟨fun k => ?_, hlt, fun k => ?_, hI.once, hresults, hreceived, nofun, hinterrupted,
          nofun, nofun⟩
        · by_cases hk : k = j
          · subst hk
            simp [Group.setGoroutine, RunPhase.started]
          · have hiff : k < j ↔ k < j + 1 := by omega
            simpa [Group.setGoroutine, RunPhase.started, hk, ← hiff] using hstarted k
        · by_cases hk : k = j
          · subst hk
            have hnot : k ∉ s.sent.map Prod.fst := fun hmem =>
              nomatch hwaiting.symm.trans ((hI.sent k).mpr hmem)
            simpa [Group.setGoroutine] using hnot
          · simpa [Group.setGoroutine, hk] using hI.sent k
    · next hge =>
        obtain rfl := Option.some.inj hstep
        have heq : j = count := le_antisymm hle (Nat.le_of_not_lt hge)
        subst heq
        exact ⟨hstarted, le_rfl, hI.sent, hI.once, hresults, hreceived, nofun, hinterrupted, nofun,
          nofun⟩
  case h_2 hphase =>
    rw [hphase] at hstarted hle hresults hreceived hinterrupted
    split at hstep
    · exact nomatch hstep
    · next rv results hhead =>
        obtain rfl := Option.some.inj hstep
        rw [hhead] at hresults
        obtain ⟨hlength, hrv, hrest⟩ := received_next hresults
        refine ⟨hstarted, hle, hI.sent, hI.once, hrest, hlength, fun _ => ?_, hinterrupted, ?_,
          nofun⟩
        · rw [List.head?_map, ← List.drop_zero (l := s.sent), List.head?_drop]
          exact hrv.symm
        · rintro _ _ ⟨⟩
          exact Nat.zero_le _
  case h_3 rv j hphase =>
    have hfirst := hI.first
    have hpos := hI.count_pos (by rw [hphase]; rfl)
    have hloop := hI.loop rv j hphase
    rw [hphase] at hstarted hle hresults hreceived hinterrupted hfirst
    split at hstep
    · next hlt =>
        obtain rfl := Option.some.inj hstep
        refine ⟨hstarted, hle, hI.sent, hI.once, hresults, hreceived, hfirst, ?_, ?_, nofun⟩
        · simp only [hinterrupted, RunPhase.interrupts, List.range_succ, List.map_append,
            List.map_singleton]
        · rintro _ _ ⟨⟩
          exact hlt
    · next hge =>
        obtain rfl := Option.some.inj hstep
        have heq : j = count := le_antisymm hloop (Nat.le_of_not_lt hge)
        subst heq
        refine ⟨hstarted, hle, hI.sent, hI.once, hresults, hreceived, hfirst, hinterrupted, nofun,
          ?_⟩
        rintro _ _ ⟨⟩
        exact ⟨le_rfl, hpos⟩
  case h_4 rv j hphase =>
    have hfirst := hI.first
    obtain ⟨hone, hloop⟩ := hI.drained rv j hphase
    rw [hphase] at hstarted hle hresults hreceived hinterrupted hfirst
    split at hstep
    · next hlt =>
        split at hstep
        · exact nomatch hstep
        · next other results hhead =>
            obtain rfl := Option.some.inj hstep
            rw [hhead] at hresults
            obtain ⟨hlength, -, hrest⟩ := received_next hresults
            refine ⟨hstarted, hle, hI.sent, hI.once, hrest, hlength, hfirst, hinterrupted, nofun,
              ?_⟩
            rintro _ _ ⟨⟩
            exact ⟨Nat.succ_pos _, hlt⟩
    · next hge =>
        obtain rfl := Option.some.inj hstep
        have heq : j = count := le_antisymm hloop (Nat.le_of_not_lt hge)
        subst heq
        exact ⟨hstarted, hle, hI.sent, hI.once, hresults, hreceived, hfirst, hinterrupted, nofun,
          nofun⟩
  case h_5 => exact nomatch hstep

theorem finish (hI : Inv count s) (hi : s.goroutines i = .running) (result : Err) :
    Inv count (s.setGoroutine i (.sending result)) := by
  have hothers : ∀ j, j ≠ i → (s.setGoroutine i (.sending result)).goroutines j = s.goroutines j :=
    fun j hj => Function.update_of_ne hj ..
  have hself : (s.setGoroutine i (.sending result)).goroutines i = .sending result :=
    Function.update_self ..
  refine ⟨fun j => ?_, hI.startedLe, fun j => ?_, hI.once, hI.results, hI.received, hI.first,
    hI.interrupted, hI.loop, hI.drained⟩
  · by_cases hj : j = i
    · subst hj
      rw [hself]
      refine iff_of_true nofun ((hI.started j).mp ?_)
      rw [hi]
      exact nofun
    · rw [hothers j hj]
      exact hI.started j
  · by_cases hj : j = i
    · subst hj
      rw [hself]
      refine iff_of_false nofun fun hmem => ?_
      exact nomatch hi.symm.trans ((hI.sent j).mpr hmem)
    · rw [hothers j hj]
      exact hI.sent j

theorem send (hI : Inv count s) (hstep : s.send count i = some s') : Inv count s' := by
  rw [Group.send] at hstep
  split at hstep
  · next result hi =>
      simp only [Option.ite_none_right_eq_some, Option.some.injEq] at hstep
      obtain ⟨-, rfl⟩ := hstep
      have hnot : i ∉ s.sent.map Prod.fst := fun hmem =>
        nomatch hi.symm.trans ((hI.sent i).mpr hmem)
      refine ⟨fun j => ?_, hI.startedLe, fun j => ?_, ?_, ?_, ?_, fun hfirst => ?_, hI.interrupted,
        hI.loop, hI.drained⟩
      · by_cases hj : j = i
        · subst hj
          have hstarted : s.goroutines j ≠ .waiting := by rw [hi]; exact nofun
          simpa [Group.setGoroutine] using (hI.started j).mp hstarted
        · simpa [Group.setGoroutine, hj] using hI.started j
      · by_cases hj : j = i
        · subst hj
          simp [Group.setGoroutine]
        · simpa [Group.setGoroutine, hj] using hI.sent j
      · change ((s.sent ++ [(i, result)]).map Prod.fst).Nodup
        rw [List.map_append]
        exact hI.once.append (List.nodup_singleton i) (List.disjoint_singleton.mpr hnot)
      · change s.results ++ [result] =
          ((s.sent ++ [(i, result)]).drop (s.phase.received count)).map Prod.snd
        rw [List.drop_append_of_le_length hI.received, List.map_append, ← hI.results]
        rfl
      · exact hI.received.trans (by simp)
      · change s.phase.first?.isSome at hfirst
        have hhead := hI.first hfirst
        have hne : s.sent.map Prod.snd ≠ [] := by
          intro hnil
          rw [hhead, hnil] at hfirst
          exact nomatch hfirst
        change s.phase.first? = ((s.sent ++ [(i, result)]).map Prod.snd).head?
        rw [List.map_append, List.head?_append_of_ne_nil _ hne]
        exact hhead
  all_goals exact nomatch hstep

end Inv

theorem groups_inv {s : Group Err} (hreach : (groups Err count).Reachable s) : Inv count s := by
  refine hreach.invariant ?_ ?_
  · rintro s rfl
    refine ⟨fun i => ?_, Nat.zero_le _, fun i => ?_, List.nodup_nil, rfl, le_rfl, nofun, rfl, nofun,
      nofun⟩
    · exact iff_of_false (fun hne => hne rfl) (Nat.not_lt_zero i)
    · exact iff_of_false nofun nofun
  · intro s action s' hI hstep
    cases action with
    | run => exact hI.run hstep
    | finish i result =>
        simp only [groups] at hstep
        split at hstep
        · next hi =>
            obtain rfl := Option.some.inj hstep
            exact hI.finish hi result
        · exact nomatch hstep
    | send i => exact hI.send hstep

/-! ### What a group comes to -/

theorem Inv.exists_send {s : Group Err} (hI : Inv count s) {i : ℕ} {result : Err}
    (hi : s.goroutines i = .sending result) : ∃ s', s.send count i = some s' := by
  have hstarted : s.goroutines i ≠ .waiting := by rw [hi]; exact nofun
  have hlt : i < count := ((hI.started i).mp hstarted).trans_le hI.startedLe
  have hlength : s.results.length ≤ s.sent.length := by
    rw [hI.results, List.length_map, List.length_drop]
    exact Nat.sub_le _ _
  have hroom : s.results.length < count :=
    hlength.trans_lt (hI.length_lt hlt (by rw [hi]; exact nofun))
  simp only [Group.send, hi, if_pos hroom]
  exact ⟨_, rfl⟩

/-- **No goroutine is left behind.**  A goroutine that has a result finds room for it in the
channel, wherever `Run` is, also when it has returned. -/
theorem send_not_blocked {s : Group Err} (hreach : (groups Err count).Reachable s) {i : ℕ}
    {result : Err} (hi : s.goroutines i = .sending result) : ∃ s', s.send count i = some s' :=
  (groups_inv hreach).exists_send hi

/-- The second of two goroutines sends its result when `Run` has not received the first one yet. -/
theorem send_not_blocked_both :
    ∃ s, (groups ℕ 2).Reachable s ∧ s.results = [5] ∧ s.goroutines 0 = .sending 4 ∧
      ∃ s', s.send 2 0 = some s' := by
  have hfields : ((groups ℕ 2).run .initial
      [.run, .run, .finish 1 5, .finish 0 4, .send 1]).map (fun s => (s.results, s.goroutines 0)) =
      some ([5], .sending 4) := by
    decide
  obtain ⟨s, hrun, hfields⟩ := Option.map_eq_some_iff.mp hfields
  obtain ⟨hresults, hi⟩ := Prod.mk.inj hfields
  have hreach : (groups ℕ 2).Reachable s := ⟨.initial, _, rfl, hrun⟩
  exact ⟨s, hreach, hresults, hi, send_not_blocked hreach hi⟩

/-- **What `Run` returns**: the result that was sent first, when every actor has been interrupted
with it, once and in the order of the group, and every executor has returned and its result been
received. -/
theorem run_returned {s : Group Err} (hreach : (groups Err count).Reachable s) {rv : Err}
    (hphase : s.phase = .returned rv) :
    (s.sent.map Prod.snd).head? = some rv ∧
      s.interrupted = (List.range count).map (fun i => (i, rv)) ∧
      (∀ i < count, s.goroutines i = .done) ∧ s.results = [] := by
  have hI := groups_inv hreach
  have hfirst := hI.first (by rw [hphase]; rfl)
  have hreceived := hI.received
  have hinterrupted := hI.interrupted
  have hresults := hI.results
  rw [hphase] at hfirst hreceived hinterrupted hresults
  have hdone : ∀ i < count, s.goroutines i = .done := by
    intro i hi
    by_contra hne
    exact absurd (hI.length_lt hi hne) (Nat.not_lt.mpr hreceived)
  have hall : s.sent.length ≤ count := by
    simpa using (hI.once.subperm hI.subset_range).length_le
  refine ⟨hfirst.symm, hinterrupted, hdone, ?_⟩
  rw [hresults, RunPhase.received, List.drop_of_length_le hall]
  rfl

/-- The example of the source: the second actor ends the group, and then the first one returns. -/
theorem run_returned_second :
    ∃ s, (groups ℕ 2).Reachable s ∧ s.phase = .returned 1 ∧
      s.interrupted = [(0, 1), (1, 1)] ∧ (∀ i < 2, s.goroutines i = .done) ∧ s.results = [] := by
  have hphase : ((groups ℕ 2).run .initial
      [.run, .run, .run, .finish 1 1, .send 1, .run, .run, .run, .run, .finish 0 0, .send 0, .run,
        .run]).map (fun s => s.phase) = some (.returned 1) := by
    decide
  obtain ⟨s, hrun, hphase⟩ := Option.map_eq_some_iff.mp hphase
  have hreach : (groups ℕ 2).Reachable s := ⟨.initial, _, rfl, hrun⟩
  obtain ⟨-, hinterrupted, hdone, hresults⟩ := run_returned hreach hphase
  exact ⟨s, hreach, hphase, hinterrupted, hdone, hresults⟩

/-- **What a group can wait for.**  Where neither `Run` nor a goroutine with a result can go on,
`Run` has returned; or it waits for the first result, and all executors are running; or it has
interrupted every actor, and waits for an executor that is running.  Without actors it waits for
ever. -/
theorem run_waits_for {s : Group Err} (hreach : (groups Err count).Reachable s)
    (hrun : s.run count = none) (hsend : ∀ i, s.send count i = none) :
    (∃ rv, s.phase = .returned rv) ∨
      (s.phase = .receiving ∧ ∀ i < count, s.goroutines i = .running) ∨
      ∃ rv i, s.phase = .draining rv i ∧
        s.interrupted = (List.range count).map (fun i => (i, rv)) ∧
        ∃ j < count, s.goroutines j = .running := by
  have hI := groups_inv hreach
  -- who has been started and has not sent is running
  have hrunning : s.phase.started count = count → ∀ i < count, s.goroutines i ≠ .done →
      s.goroutines i = .running := by
    intro hall i hi hdone
    have hwaiting : s.goroutines i ≠ .waiting := (hI.started i).mpr (hi.trans_eq hall.symm)
    cases hgoroutine : s.goroutines i with
    | waiting => exact absurd hgoroutine hwaiting
    | running => rfl
    | sending result =>
        obtain ⟨s', hs'⟩ := hI.exists_send hgoroutine
        exact nomatch (hsend i).symm.trans hs'
    | done => exact absurd hgoroutine hdone
  have hresults := hI.results
  have hinterrupted := hI.interrupted
  cases hphase : s.phase with
  | starting i =>
      simp only [Group.run, hphase] at hrun
      split at hrun <;> exact nomatch hrun
  | receiving =>
      refine .inr (.inl ⟨rfl, fun i hi => hrunning (by rw [hphase]; rfl) i hi fun hdone => ?_⟩)
      have hmem := (hI.sent i).mp hdone
      cases hchannel : s.results with
      | nil =>
          rw [hphase, hchannel] at hresults
          have hnil : s.sent = [] := List.map_eq_nil_iff.mp hresults.symm
          rw [hnil] at hmem
          exact nomatch hmem
      | cons => simp [Group.run, hphase, hchannel] at hrun
  | interrupting rv i =>
      simp only [Group.run, hphase] at hrun
      split at hrun <;> exact nomatch hrun
  | draining rv i =>
      rw [hphase] at hresults hinterrupted
      refine .inr (.inr ⟨rv, i, rfl, hinterrupted, ?_⟩)
      simp only [Group.run, hphase] at hrun
      split at hrun
      · next hlt =>
          cases hchannel : s.results with
          | nil =>
              rw [hchannel] at hresults
              have hnil : s.sent.drop i = [] := List.map_eq_nil_iff.mp hresults.symm
              have hfew : s.sent.length < count := (List.drop_eq_nil_iff.mp hnil).trans_lt hlt
              obtain ⟨j, hj, hdone⟩ := hI.exists_not_done hfew
              exact ⟨j, hj, hrunning (by rw [hphase]; rfl) j hj hdone⟩
          | cons => simp [hchannel] at hrun
      · exact nomatch hrun
  | returned rv => exact .inl ⟨rv, rfl⟩

/-- A group without actors waits for a result that nobody sends. -/
theorem run_waits_for_nobody :
    ∃ s, (groups ℕ 0).Reachable s ∧ s.phase = .receiving ∧
      ((∃ rv, s.phase = .returned rv) ∨
        (s.phase = .receiving ∧ ∀ i < 0, s.goroutines i = .running) ∨
        ∃ rv i, s.phase = .draining rv i ∧
          s.interrupted = (List.range 0).map (fun i => (i, rv)) ∧
          ∃ j < 0, s.goroutines j = .running) := by
  have hreach : (groups ℕ 0).Reachable { Group.initial with phase := .receiving } :=
    ⟨.initial, [.run], rfl, rfl⟩
  exact ⟨_, hreach, rfl, run_waits_for hreach rfl fun _ => rfl⟩

end Eureka.GoroutineGroup

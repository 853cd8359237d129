import Eureka.Router.Routes

/-!
# Trees with the same trie

What a call does to a tree is determined by the trie of the tree, and so two trees with the
same trie accept and reject the same calls, also later on (`Peers.verdicts_eq`).
-/

namespace Eureka.Router

open PatternTrie

namespace Node

variable {H : Type}

/-- Trees that accept and reject the same calls. -/
inductive Peers : Node H → Node H → Prop
  | blank {n} (htop : n.Top) (hblank : n.Blank) (priority : ℤ) :
      Peers n { n with priority := priority }
  | built {n n'} (htop : n.Top) (htop' : n'.Top) (hblank : ¬ n.Blank) (hblank' : ¬ n'.Blank)
      (hflatten : n.flatten = n'.flatten) : Peers n n'

/-- The priority of a node is only carried along by `insert_path`. -/
theorem insertPath_priority (fuel : ℕ) (n : Node H) (path fullPath : Bytes)
    (wildcard : WildcardResult) (handler : Option H) (priority : ℤ) :
    insertPath fuel { n with priority := priority } path fullPath wildcard handler =
      ({ (insertPath fuel n path fullPath wildcard handler).1 with priority := priority },
        (insertPath fuel n path fullPath wildcard handler).2) := by
  cases fuel with
  | zero => rfl
  | succ fuel =>
      unfold insertPath insertCatchAll
      dsimp only
      generalize (if wildcard.found = true then wildcard else findWildcard path) = scanned
      cases scanned.pos with
      | none => rfl
      | some pos =>
          dsimp only
          split_ifs <;> try rfl
          cases pos with
          | zero => rfl
          | succ pos =>
              dsimp only
              split_ifs <;> rfl

theorem addRoute_priority {n : Node H} (hblank : n.Blank) (path : Bytes) (handler : Option H)
    (priority : ℤ) :
    addRoute { n with priority := priority } path handler =
      ({ (n.addRoute path handler).1 with priority := priority + 1 },
        (n.addRoute path handler).2) := by
  have hblank' : Blank { n with priority := priority } := hblank
  have hbump : bump { n with priority := priority } = { n.bump with priority := priority + 1 } := rfl
  rw [addRoute_of_blank hblank, addRoute_of_blank hblank', hbump, insertPath_priority]
  rcases insertPath (path.length + 1) n.bump path path unknownWildcard handler with
    ⟨n', _ | error | fault⟩
  all_goals rfl

theorem flatten_priority (n : Node H) (priority : ℤ) :
    flatten { n with priority := priority } = n.flatten :=
  congrArg (Trie.chain n.path) (core_congr rfl rfl Iff.rfl rfl rfl)

theorem Adds.top {handler : Option H} {n n' : Node H} {path : Bytes} {verdict : Verdict}
    (hadds : Adds handler n path n' verdict) (htop : n.Top) : n'.Top := by
  have hfilled : ∀ {n' : Node H} {verdict}, Fills handler n.bump path n' verdict → n'.Top := by
    intro n' verdict hfills
    obtain ⟨hshape, htype⟩ := hfills.shape htop.bump.shape htop.type_eq
    exact ⟨hshape, htype ▸ htop.type_eq⟩
  by_cases hblank : n.Blank
  · cases hadds with
    | first _ hfills => exact ⟨(hfilled hfills).shape.asRoot (hfilled hfills).type_eq, .inr rfl⟩
    | firstFails _ _ hfills => exact hfilled hfills
    | later h => exact absurd hblank h
  · exact (hadds.not_blank htop hblank).1

theorem Peers.addRoute {n n' : Node H} (hpeers : Peers n n') (path : Bytes) (handler : Option H) :
    (n.addRoute path handler).2.verdict = (n'.addRoute path handler).2.verdict ∧
      Peers (n.addRoute path handler).1 (n'.addRoute path handler).1 := by
  cases hpeers with
  | blank htop hblank priority =>
      have hadds := addRoute_adds htop path handler
      rw [addRoute_priority hblank]
      refine ⟨rfl, ?_⟩
      by_cases hblank' : (n.addRoute path handler).1.Blank
      · exact .blank (hadds.top htop) hblank' _
      · refine .built (hadds.top htop) ⟨(hadds.top htop).shape.with_priority _, ?_⟩ hblank' hblank'
          (flatten_priority _ _).symm
        exact (hadds.top htop).type_eq
  | built htop htop' hblank hblank' hflatten =>
      have hadds := addRoute_adds htop path handler
      have hadds' := addRoute_adds htop' path handler
      have hattempt := hadds.eq_attempt htop hblank
      rw [hflatten, hadds'.eq_attempt htop' hblank', Prod.mk.injEq] at hattempt
      refine ⟨hattempt.2.symm, ?_⟩
      exact .built (hadds.not_blank htop hblank).1 (hadds'.not_blank htop' hblank').1
        (hadds.not_blank htop hblank).2 (hadds'.not_blank htop' hblank').2 hattempt.1.symm

/-- How the calls of a sequence end.  A failing assertion ends the program. -/
def verdicts (n : Node H) : List (Bytes × Option H) → List Verdict
  | [] => []
  | (path, handler) :: calls =>
      match (n.addRoute path handler).2 with
      | .fault _ => [.aborted]
      | outcome => outcome.verdict :: (n.addRoute path handler).1.verdicts calls

/-- **Peers** accept and reject every later sequence of calls alike. -/
theorem Peers.verdicts_eq {n n' : Node H} (hpeers : Peers n n')
    (calls : List (Bytes × Option H)) : n.verdicts calls = n'.verdicts calls := by
  induction calls generalizing n n' with
  | nil => rfl
  | cons call calls ih =>
      obtain ⟨hverdict, hpeers'⟩ := hpeers.addRoute call.1 call.2
      have hrest := ih hpeers'
      rw [verdicts, verdicts, hrest]
      rcases hout : (n.addRoute call.1 call.2).2 with _ | error | fault <;>
        rcases hout' : (n'.addRoute call.1 call.2).2 with _ | error' | fault' <;>
        rw [hout, hout'] at hverdict <;> first | rfl | exact nomatch hverdict

end Node

end Eureka.Router

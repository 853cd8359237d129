import Eureka.LightMutex.Recursive

/-!
# Exclusion by the recursive light mutex

`use_count_` has a part for every acquisition that has begun and not been given
back, nested ones and waiting ones alike.  There is one token: it is free, in a
thread, on its way to the semaphore or in the semaphore.  It is free exactly if
the count is 0, so that no thread can gain the guard at the counter while
another one is inside or a wake-up is under way, and no wake-up is lost.

The parts are counted by a list of threads, `tickets`.  All this holds as long
as the count stays in the range of a `long`.

* `Inv`: the invariant, over the tickets and the place of the token;
* `Inv.change`: what has to be shown for a step of one thread;
* `always_safe`: what holds in all states of a run that does not overflow;
* `overflow_unsafe`: a run that does.
-/

namespace Eureka.LightMutex

open Transition

/-- A value in the range of a `long` is one. -/
theorem long_eq {n : ℤ} (hlow : 0 ≤ n) (hhigh : n ≤ longMax) : long n = n := by
  rw [longMax] at hhigh
  exact Int.bmod_eq_of_le (by omega) (by omega)

/-! ## What a thread holds -/

namespace Local

/-- The thread has added its part to the count for an acquisition that is not complete. -/
def entered : Local → Bool
  | lockRead => true
  | wait => true
  | setOwner => true
  | loadRecursion => true
  | storeRecursion _ => true
  | _ => false

/-- The thread has been granted the lock. -/
def granted : Local → Bool
  | setOwner => true
  | loadRecursion => true
  | storeRecursion _ => true
  | _ => false

/-- The parts of the count that belong to the thread. -/
def weight (pc : Local) (depth : ℕ) : ℕ := depth + pc.entered.toNat

/-- From being granted the lock to the decrement of the final unlock. -/
def Inside (pc : Local) (depth : ℕ) : Prop := 0 < depth ∨ pc.granted = true

/-- The thread has written `owner_tid_` for an acquisition that is not complete. -/
def written : Local → Bool
  | loadRecursion => true
  | storeRecursion _ => true
  | _ => false

/-- The thread has cleared `owner_tid_`. -/
def cleared : Local → Bool
  | unlockSub newRecur => newRecur = 0
  | _ => false

/-- `owner_tid_` names the thread. -/
def Named (pc : Local) (depth : ℕ) : Prop :=
  pc.written = true ∨ 0 < depth ∧ pc.cleared = false

/-- What a thread knows of its depth and of `recursion_count_`. -/
def Fits (recursion : ℤ) (depth : ℕ) : Local → Prop
  | wait => depth = 0
  | tryExchange => depth = 0
  | release => depth = 0
  | tryAdd => 0 < depth ∧ recursion = depth
  | setOwner => recursion = depth
  | loadRecursion => recursion = depth
  | storeRecursion count => recursion = depth ∧ count = depth
  | unlockAssert => 0 < depth ∧ recursion = depth
  | unlockLoad => 0 < depth ∧ recursion = depth
  | unlockStore count => 0 < depth ∧ recursion = depth ∧ count = depth
  | clearOwner => depth = 1 ∧ recursion = 0
  | unlockSub newRecur => 0 < depth ∧ newRecur + 1 = depth ∧ recursion = newRecur
  | _ => 0 < depth → recursion = depth

theorem inside_of_named {pc : Local} {depth : ℕ} (h : pc.Named depth) : pc.Inside depth := by
  rcases h with hwritten | ⟨hdepth, -⟩
  · cases pc with
    | loadRecursion | storeRecursion => exact .inr rfl
    | _ => cases hwritten
  · exact .inl hdepth

theorem not_inside_zero {pc : Local} (hpc : pc.granted = false) : ¬ pc.Inside 0 := by
  rintro (hpos | hgranted)
  · exact absurd hpos (lt_irrefl 0)
  · rw [hpc] at hgranted
    cases hgranted

theorem not_named_zero {pc : Local} (hpc : pc.written = false) : ¬ pc.Named 0 := by
  rintro (hwritten | ⟨hpos, -⟩)
  · rw [hpc] at hwritten
    cases hwritten
  · exact absurd hpos (lt_irrefl 0)

/-- Elsewhere `owner_tid_` names the threads with a depth. -/
theorem named_iff {pc : Local} {depth : ℕ} (hwritten : pc.written = false)
    (hcleared : pc.cleared = false) : pc.Named depth ↔ 0 < depth := by
  rw [Named, hwritten, hcleared]
  simp

/-- A thread that is not inside knows nothing of `recursion_count_`. -/
theorem Fits.outside {pc : Local} {recursion recursion' : ℤ} {depth : ℕ}
    (h : pc.Fits recursion depth) (hout : ¬ pc.Inside depth) : pc.Fits recursion' depth := by
  have hdepth : ¬ 0 < depth := fun hpos => hout (.inl hpos)
  have hgranted : ¬ pc.granted = true := fun hg => hout (.inr hg)
  cases pc with
  | wait | tryExchange | release => exact h
  | setOwner | loadRecursion | storeRecursion => exact absurd rfl hgranted
  | tryAdd | unlockAssert | unlockLoad | unlockStore | unlockSub => exact absurd h.1 hdepth
  | clearOwner => exact absurd (h.1 ▸ Nat.one_pos) hdepth
  | idle | lockAdd | lockRead | tryRead => exact fun hpos => absurd hpos hdepth

end Local

/-- The places of the token. -/
inductive Token (Thread : Type)
  | free
  | inside (t : Thread)
  | releasing (t : Thread)
  | posted

/-- The count of the semaphore. -/
def Token.sem {Thread : Type} : Token Thread → ℕ
  | posted => 1
  | _ => 0

open Local

variable {Thread : Type} [DecidableEq Thread]

structure Inv (m : Mutex Thread) (tickets : List Thread) (token : Token Thread) : Prop where
  count : ∀ t, tickets.count t = (m.thread t).weight (m.depth t)
  use : m.useCount = tickets.length
  bound : (tickets.length : ℤ) ≤ longMax
  inside : ∀ t, (m.thread t).Inside (m.depth t) ↔ token = .inside t
  releasing : ∀ t, m.thread t = .release ↔ token = .releasing t
  sem : m.sem = token.sem
  free : token = .free ↔ tickets = []
  owner : ∀ t, m.ownerTid = some t ↔ (m.thread t).Named (m.depth t)
  rest : (∀ t, token ≠ .inside t) → m.recursionCount = 0
  fits : ∀ t, (m.thread t).Fits m.recursionCount (m.depth t)
  assert_ok : m.assertFailed = false
  release_ok : m.releaseFailed = false

variable {m m' : Mutex Thread} {tickets tickets' : List Thread} {token token' : Token Thread}
  {t : Thread} {pc : Local} {d : ℕ}

/-- What has to be shown for a step of the thread `t` to `pc`. -/
structure Change (m m' : Mutex Thread) (tickets tickets' : List Thread)
    (token token' : Token Thread) (t : Thread) (pc : Local) (d : ℕ) : Prop where
  thread : m'.thread = Function.update m.thread t pc
  depth : m'.depth = Function.update m.depth t d
  count : tickets'.count t = pc.weight d
  counts : ∀ u, u ≠ t → tickets'.count u = tickets.count u
  use : m'.useCount = tickets'.length
  bound : (tickets'.length : ℤ) ≤ longMax
  inside : pc.Inside d ↔ token' = .inside t
  releasing : pc = .release ↔ token' = .releasing t
  tokens : ∀ u, u ≠ t → (token' = .inside u ↔ token = .inside u) ∧
    (token' = .releasing u ↔ token = .releasing u)
  sem : m'.sem = token'.sem
  free : token' = .free ↔ tickets' = []
  owner : m'.ownerTid = some t ↔ pc.Named d
  owners : ∀ u, u ≠ t → (m'.ownerTid = some u ↔ m.ownerTid = some u)
  rest : (∀ u, token' ≠ .inside u) → m'.recursionCount = 0
  fits : pc.Fits m'.recursionCount d
  recursion : m'.recursionCount = m.recursionCount ∨ token = .inside t
  assert_ok : m'.assertFailed = m.assertFailed
  release_ok : m'.releaseFailed = m.releaseFailed

namespace Inv

variable (h : Inv m tickets token)

include h

theorem change (hstep : Change m m' tickets tickets' token token' t pc d) :
    Inv m' tickets' token' := by
  have hcases : ∀ P : Thread → Local → ℕ → Prop, P t pc d →
      (∀ u, u ≠ t → P u (m.thread u) (m.depth u)) → ∀ u, P u (m'.thread u) (m'.depth u) := by
    intro P hself hothers u
    rw [hstep.thread, hstep.depth]
    by_cases hut : u = t
    · rw [hut, Function.update_self, Function.update_self]
      exact hself
    · rw [Function.update_of_ne hut, Function.update_of_ne hut]
      exact hothers u hut
  have hcount := hcases (fun u pc d => tickets'.count u = pc.weight d) hstep.count
    fun u hut => (hstep.counts u hut).trans (h.count u)
  have hinside := hcases (fun u pc d => pc.Inside d ↔ token' = .inside u) hstep.inside
    fun u hut => (h.inside u).trans (hstep.tokens u hut).1.symm
  have hreleasing := hcases (fun u pc _ => pc = .release ↔ token' = .releasing u) hstep.releasing
    fun u hut => (h.releasing u).trans (hstep.tokens u hut).2.symm
  have howner := hcases (fun u pc d => m'.ownerTid = some u ↔ pc.Named d) hstep.owner
    fun u hut => (hstep.owners u hut).trans (h.owner u)
  have hfits := hcases (fun _ pc d => pc.Fits m'.recursionCount d) hstep.fits <| by
    intro u hut
    rcases hstep.recursion with hsame | hin
    · rw [hsame]
      exact h.fits u
    · -- another thread is inside, and it has written the count
      refine (h.fits u).outside fun hu => hut ?_
      have heq : Token.inside t = Token.inside u := hin.symm.trans ((h.inside u).mp hu)
      cases heq
      rfl
  exact {
    count := hcount
    use := hstep.use
    bound := hstep.bound
    inside := hinside
    releasing := hreleasing
    sem := hstep.sem
    free := hstep.free
    owner := howner
    rest := hstep.rest
    fits := hfits
    assert_ok := hstep.assert_ok.trans h.assert_ok
    release_ok := hstep.release_ok.trans h.release_ok }

theorem goto (hweight : pc.entered = (m.thread t).entered)
    (hinside : pc.Inside (m.depth t) ↔ (m.thread t).Inside (m.depth t))
    (hnamed : pc.Named (m.depth t) ↔ (m.thread t).Named (m.depth t))
    (hrelease : pc ≠ .release) (hrelease' : m.thread t ≠ .release)
    (hfits : pc.Fits m.recursionCount (m.depth t)) : Inv (m.goto t pc) tickets token := by
  have hstep : Change m (m.goto t pc) tickets tickets token token t pc (m.depth t) := {
    thread := rfl
    depth := (Function.update_eq_self _ _).symm
    count := by rw [h.count t, Local.weight, Local.weight, hweight]
    counts := fun _ _ => rfl
    use := h.use
    bound := h.bound
    inside := hinside.trans (h.inside t)
    releasing := iff_of_false hrelease fun hcontra => hrelease' ((h.releasing t).mpr hcontra)
    tokens := fun _ _ => ⟨Iff.rfl, Iff.rfl⟩
    sem := h.sem
    free := h.free
    owner := (h.owner t).trans hnamed.symm
    owners := fun _ _ => Iff.rfl
    rest := h.rest
    fits := hfits
    recursion := .inl rfl
    assert_ok := rfl
    release_ok := rfl }
  exact h.change hstep

theorem fits_at (ht : m.thread t = pc) : pc.Fits m.recursionCount (m.depth t) := ht ▸ h.fits t

theorem tickets_ne_nil (hweight : 0 < (m.thread t).weight (m.depth t)) : tickets ≠ [] := by
  rintro rfl
  have hcount := h.count t
  rw [List.count_nil] at hcount
  omega

theorem token_inside (hin : (m.thread t).Inside (m.depth t)) : token = .inside t :=
  (h.inside t).mp hin

theorem owner_of_inside {u : Thread} (hin : token = .inside t) (hut : u ≠ t) :
    m.ownerTid ≠ some u := by
  intro howner
  have hu := h.token_inside (inside_of_named ((h.owner u).mp howner))
  cases hin.symm.trans hu
  exact hut rfl

theorem depth_le (t : Thread) : (m.depth t : ℤ) + (m.thread t).entered.toNat ≤ longMax := by
  have hcount := h.count t
  have hlength := List.count_le_length (a := t) (l := tickets)
  have hbound := h.bound
  rw [hcount, Local.weight] at hlength
  omega

theorem addUse (hentered : (m.thread t).entered = false) (hpc : pc.entered = true)
    (hinside : pc.Inside (m.depth t) ↔ (m.thread t).Inside (m.depth t))
    (hnamed : pc.Named (m.depth t) ↔ (m.thread t).Named (m.depth t))
    (hrelease : pc ≠ .release) (hrelease' : m.thread t ≠ .release)
    (hfits : pc.Fits m.recursionCount (m.depth t)) (hpos : tickets ≠ [])
    (hlt : m.useCount < longMax) : Inv ((m.addUse 1).goto t pc) (t :: tickets) token := by
  have hlength : ((t :: tickets).length : ℤ) = m.useCount + 1 := by
    rw [h.use, List.length_cons, Nat.cast_succ]
  have hstep : Change m ((m.addUse 1).goto t pc) tickets (t :: tickets) token token t pc
      (m.depth t) := {
    thread := rfl
    depth := (Function.update_eq_self _ _).symm
    count := by
      rw [List.count_cons_self, h.count t, Local.weight, Local.weight, hentered, hpc]
      rfl
    counts := fun u hut => List.count_cons_of_ne (Ne.symm hut)
    use := by
      rw [hlength]
      exact long_eq (by rw [h.use]; omega) (by omega)
    bound := by rw [hlength]; omega
    inside := hinside.trans (h.inside t)
    releasing := iff_of_false hrelease fun hcontra => hrelease' ((h.releasing t).mpr hcontra)
    tokens := fun _ _ => ⟨Iff.rfl, Iff.rfl⟩
    sem := h.sem
    free := iff_of_false (fun hfree => hpos (h.free.mp hfree)) (List.cons_ne_nil _ _)
    owner := (h.owner t).trans hnamed.symm
    owners := fun _ _ => Iff.rfl
    rest := h.rest
    fits := hfits
    recursion := .inl rfl
    assert_ok := rfl
    release_ok := rfl }
  exact h.change hstep

/-- The thread gets the guard, which nobody has. -/
theorem enter {useCount : ℤ} (hinside : ∀ u, token ≠ .inside u) (hrelease : ∀ u, token ≠ .releasing u)
    (hdepth : m.depth t = 0) (hcount : tickets'.count t = 1)
    (hcounts : ∀ u, u ≠ t → tickets'.count u = tickets.count u)
    (huse : useCount = tickets'.length) (hbound : (tickets'.length : ℤ) ≤ longMax) :
    Inv ({ m with useCount := useCount, sem := 0 }.goto t .setOwner) tickets' (.inside t) := by
  have hstep : Change m ({ m with useCount := useCount, sem := 0 }.goto t .setOwner) tickets tickets'
      token (.inside t) t .setOwner (m.depth t) := {
    thread := rfl
    depth := (Function.update_eq_self _ _).symm
    count := by rw [hcount, hdepth]; rfl
    counts := hcounts
    use := huse
    bound := hbound
    inside := iff_of_true (.inr rfl) rfl
    releasing := iff_of_false nofun nofun
    tokens := fun u hut => ⟨iff_of_false (fun heq => hut (by cases heq; rfl)) (hinside u),
      iff_of_false nofun (hrelease u)⟩
    sem := rfl
    free := iff_of_false nofun (by rintro rfl; cases hcount)
    owner := (h.owner t).trans (iff_of_false
      (fun hnamed => hinside t (h.token_inside (inside_of_named hnamed)))
      (by rw [hdepth]; exact not_named_zero rfl))
    owners := fun _ _ => Iff.rfl
    rest := fun hnone => absurd rfl (hnone t)
    fits := by
      show m.recursionCount = (m.depth t : ℤ)
      rw [h.rest hinside, hdepth]
      rfl
    recursion := .inl rfl
    assert_ok := rfl
    release_ok := rfl }
  exact h.change hstep

/-- The thread gains the guard at the counter, whose parts were all given back. -/
theorem gain (t : Thread) (hfree : m.useCount = 0) :
    Inv ({ m with useCount := 1 }.goto t .setOwner) [t] (.inside t) := by
  have htickets : tickets = [] := by
    have huse := h.use
    rw [hfree] at huse
    exact List.length_eq_zero_iff.mp (by omega)
  have htoken : token = .free := h.free.mpr htickets
  have hdepth : m.depth t = 0 := by
    have hcount := h.count t
    rw [htickets, List.count_nil, Local.weight] at hcount
    omega
  have hsem : m.sem = 0 := by
    rw [h.sem, htoken]
    rfl
  have henter : Inv ({ m with useCount := 1, sem := 0 }.goto t .setOwner) [t] (.inside t) :=
    h.enter (by simp [htoken]) (by simp [htoken]) hdepth List.count_cons_self
      (fun u hut => by rw [htickets, List.count_cons_of_ne (Ne.symm hut)]) rfl
      (by rw [longMax, List.length_singleton]; decide)
  rwa [← hsem] at henter

theorem wake (ht : m.thread t = .wait) (hsem : 0 < m.sem) :
    Inv ({ m with sem := m.sem - 1 }.goto t .setOwner) tickets (.inside t) := by
  have hdepth : m.depth t = 0 := h.fits_at ht
  have hposted : token = .posted := by
    rw [h.sem] at hsem
    cases token with
    | posted => rfl
    | free | inside | releasing => exact absurd hsem (lt_irrefl 0)
  have hone : m.sem - 1 = 0 := by
    rw [h.sem, hposted]
    rfl
  rw [hone]
  exact h.enter (by simp [hposted]) (by simp [hposted]) hdepth
    (by rw [h.count t, ht, hdepth]; rfl) (fun _ _ => rfl) h.use h.bound

/-- The thread inside writes `owner_tid_`. -/
theorem setOwner (ht : m.thread t = .setOwner) :
    Inv ({ m with ownerTid := some t }.goto t .loadRecursion) tickets token := by
  have hin : token = .inside t := h.token_inside (by rw [ht]; exact .inr rfl)
  have hfits : m.recursionCount = m.depth t := h.fits_at ht
  have hstep : Change m ({ m with ownerTid := some t }.goto t .loadRecursion) tickets tickets token
      token t .loadRecursion (m.depth t) := {
    thread := rfl
    depth := (Function.update_eq_self _ _).symm
    count := by rw [h.count t, ht]; rfl
    counts := fun _ _ => rfl
    use := h.use
    bound := h.bound
    inside := iff_of_true (.inr rfl) hin
    releasing := iff_of_false nofun (by rw [hin]; nofun)
    tokens := fun _ _ => ⟨Iff.rfl, Iff.rfl⟩
    sem := h.sem
    free := h.free
    owner := iff_of_true rfl (.inl rfl)
    owners := fun u hut => iff_of_false (fun heq => hut (Option.some.inj heq).symm)
      (h.owner_of_inside hin hut)
    rest := h.rest
    fits := hfits
    recursion := .inl rfl
    assert_ok := rfl
    release_ok := rfl }
  exact h.change hstep

theorem storeRecursion {count : ℤ} (ht : m.thread t = .storeRecursion count) :
    Inv (((m.setRecursion (count + 1)).setDepth t (m.depth t + 1)).goto t .idle) tickets token := by
  obtain ⟨-, rfl⟩ : m.recursionCount = m.depth t ∧ count = m.depth t := h.fits_at ht
  have hin : token = .inside t := h.token_inside (by rw [ht]; exact .inr rfl)
  have hle : (m.depth t : ℤ) + 1 ≤ longMax := by
    have := h.depth_le t
    rw [ht] at this
    exact this
  have hlong : long ((m.depth t : ℤ) + 1) = ((m.depth t + 1 : ℕ) : ℤ) := by
    rw [long_eq (by omega) hle, Nat.cast_succ]
  rw [Mutex.setRecursion, hlong]
  have hstep : Change m (({ m with recursionCount := ((m.depth t + 1 : ℕ) : ℤ) }.setDepth t
      (m.depth t + 1)).goto t .idle) tickets tickets token token t .idle (m.depth t + 1) := {
    thread := rfl
    depth := rfl
    count := by rw [h.count t, ht, Local.weight, Local.weight]; rfl
    counts := fun _ _ => rfl
    use := h.use
    bound := h.bound
    inside := iff_of_true (.inl (Nat.succ_pos _)) hin
    releasing := iff_of_false nofun (by rw [hin]; nofun)
    tokens := fun _ _ => ⟨Iff.rfl, Iff.rfl⟩
    sem := h.sem
    free := h.free
    owner := (h.owner t).trans (iff_of_true (by rw [ht]; exact .inl rfl)
      (.inr ⟨Nat.succ_pos _, rfl⟩))
    owners := fun _ _ => Iff.rfl
    rest := fun hnone => absurd hin (hnone t)
    fits := fun _ => rfl
    recursion := .inr hin
    assert_ok := rfl
    release_ok := rfl }
  exact h.change hstep

theorem unlockStore {count : ℤ} (ht : m.thread t = .unlockStore count) :
    Inv ((m.setRecursion (count - 1)).goto t
      (if long (count - 1) = 0 then .clearOwner else .unlockSub (long (count - 1))))
      tickets token := by
  obtain ⟨hpos, -, rfl⟩ :
      0 < m.depth t ∧ m.recursionCount = m.depth t ∧ count = m.depth t := h.fits_at ht
  have hin : token = .inside t := h.token_inside (by rw [ht]; exact .inl hpos)
  have hlong : long ((m.depth t : ℤ) - 1) = (m.depth t : ℤ) - 1 := by
    have := h.depth_le t
    exact long_eq (by omega) (by omega)
  have hstep : ∀ pc : Local, pc.entered = false → pc ≠ .release → pc.cleared = false →
      pc.Fits (long ((m.depth t : ℤ) - 1)) (m.depth t) →
      Inv ((m.setRecursion ((m.depth t : ℤ) - 1)).goto t pc) tickets token := by
    intro pc hentered hrelease hsub hfits
    have hstep : Change m ((m.setRecursion ((m.depth t : ℤ) - 1)).goto t pc) tickets tickets token
        token t pc (m.depth t) := {
      thread := rfl
      depth := (Function.update_eq_self _ _).symm
      count := by rw [h.count t, ht, Local.weight, Local.weight, hentered]; rfl
      counts := fun _ _ => rfl
      use := h.use
      bound := h.bound
      inside := iff_of_true (.inl hpos) hin
      releasing := iff_of_false hrelease (by rw [hin]; nofun)
      tokens := fun _ _ => ⟨Iff.rfl, Iff.rfl⟩
      sem := h.sem
      free := h.free
      owner := (h.owner t).trans (iff_of_true (by rw [ht]; exact .inr ⟨hpos, rfl⟩)
        (.inr ⟨hpos, hsub⟩))
      owners := fun _ _ => Iff.rfl
      rest := fun hnone => absurd hin (hnone t)
      fits := hfits
      recursion := .inr hin
      assert_ok := rfl
      release_ok := rfl }
    exact h.change hstep
  split_ifs with hzero
  · refine hstep _ rfl nofun rfl ⟨?_, hzero⟩
    omega
  · refine hstep _ rfl nofun (decide_eq_false hzero) ⟨hpos, ?_, rfl⟩
    omega

theorem clearOwner (ht : m.thread t = .clearOwner) :
    Inv ({ m with ownerTid := none }.goto t (.unlockSub 0)) tickets token := by
  obtain ⟨hone, hzero⟩ : m.depth t = 1 ∧ m.recursionCount = 0 := h.fits_at ht
  have hpos : 0 < m.depth t := by omega
  have hin : token = .inside t := h.token_inside (by rw [ht]; exact .inl hpos)
  have hstep : Change m ({ m with ownerTid := none }.goto t (.unlockSub 0)) tickets tickets token
      token t (.unlockSub 0) (m.depth t) := {
    thread := rfl
    depth := (Function.update_eq_self _ _).symm
    count := by rw [h.count t, ht]; rfl
    counts := fun _ _ => rfl
    use := h.use
    bound := h.bound
    inside := iff_of_true (.inl hpos) hin
    releasing := iff_of_false nofun (by rw [hin]; nofun)
    tokens := fun _ _ => ⟨Iff.rfl, Iff.rfl⟩
    sem := h.sem
    free := h.free
    owner := iff_of_false nofun (by rintro (hwritten | ⟨-, hcleared⟩) <;> contradiction)
    owners := fun u hut => iff_of_false nofun (h.owner_of_inside hin hut)
    rest := h.rest
    fits := ⟨hpos, by rw [hone]; rfl, hzero⟩
    recursion := .inl rfl
    assert_ok := rfl
    release_ok := rfl }
  exact h.change hstep

/-- What a thread knows that has the mutex and is about to give back one use of it. -/
theorem unlock_at {newRecur : ℤ} (ht : m.thread t = .unlockSub newRecur) :
    token = .inside t ∧ newRecur + 1 = m.depth t ∧ m.recursionCount = newRecur ∧
      tickets.count t = m.depth t ∧ ((tickets.erase t).length : ℤ) = m.useCount - 1 := by
  obtain ⟨hpos, hdepth, hrecursion⟩ :
      0 < m.depth t ∧ newRecur + 1 = m.depth t ∧ m.recursionCount = newRecur := h.fits_at ht
  have hcount : tickets.count t = m.depth t := by
    rw [h.count t, ht]
    rfl
  have hmem : t ∈ tickets := List.count_pos_iff.mp (hcount ▸ hpos)
  refine ⟨h.token_inside (by rw [ht]; exact .inl hpos), hdepth, hrecursion, hcount, ?_⟩
  have hne := List.length_pos_of_mem hmem
  rw [h.use, List.length_erase_of_mem hmem]
  omega

theorem giveBack {newRecur : ℤ} (ht : m.thread t = .unlockSub newRecur) {token' : Token Thread}
    (hentered : pc.entered = false)
    (hinside : pc.Inside (m.depth t - 1) ↔ token' = .inside t)
    (hrelease : pc = .release ↔ token' = .releasing t)
    (htokens : ∀ u, u ≠ t → token' ≠ .inside u ∧ token' ≠ .releasing u) (hsem : token'.sem = 0)
    (hfree : token' = .free ↔ tickets.erase t = [])
    (howner : m.ownerTid = some t ↔ pc.Named (m.depth t - 1))
    (hrest : (∀ u, token' ≠ .inside u) → newRecur = 0) (hfits : pc.Fits newRecur (m.depth t - 1)) :
    Inv (((m.addUse (-1)).setDepth t (m.depth t - 1)).goto t pc) (tickets.erase t) token' := by
  obtain ⟨hin, -, hrecursion, hcount, hlength⟩ := h.unlock_at ht
  have hbound := h.bound
  rw [← h.use] at hbound
  have huse : long (m.useCount + -1) = (tickets.erase t).length := by
    rw [← sub_eq_add_neg, ← hlength]
    exact long_eq (by omega) (by omega)
  rw [Mutex.addUse, huse]
  have hstep : Change m
      (({ m with useCount := (tickets.erase t).length }.setDepth t (m.depth t - 1)).goto t pc)
      tickets (tickets.erase t) token token' t pc (m.depth t - 1) := {
    thread := rfl
    depth := rfl
    count := by rw [List.count_erase_self, hcount, Local.weight, hentered]; rfl
    counts := fun u hut => List.count_erase_of_ne hut
    use := rfl
    bound := by omega
    inside := hinside
    releasing := hrelease
    tokens := fun u hut => by
      rw [hin]
      exact ⟨iff_of_false (htokens u hut).1 (fun heq => hut (by cases heq; rfl)),
        iff_of_false (htokens u hut).2 nofun⟩
    sem := by
      show m.sem = _
      rw [h.sem, hin, hsem]
      rfl
    free := hfree
    owner := howner
    owners := fun _ _ => Iff.rfl
    rest := fun hnone => hrecursion.trans (hrest hnone)
    fits := by
      show pc.Fits m.recursionCount _
      rw [hrecursion]
      exact hfits
    recursion := .inl rfl
    assert_ok := rfl
    release_ok := rfl }
  exact h.change hstep

/-- A part of the count is given back, and with the last one of the thread the token. -/
theorem unlockSub {newRecur : ℤ} (ht : m.thread t = .unlockSub newRecur) :
    ∃ tickets' token', Inv (((m.addUse (-1)).setDepth t (m.depth t - 1)).goto t
      (if m.useCount > 1 ∧ newRecur = 0 then .release else .idle)) tickets' token' := by
  obtain ⟨hpos, -⟩ : 0 < m.depth t ∧ _ := h.fits_at ht
  obtain ⟨-, hdepth, -, hcount, hlength⟩ := h.unlock_at ht
  by_cases hzero : newRecur = 0
  · -- the final unlock
    subst hzero
    have hdepth' : m.depth t - 1 = 0 := by omega
    have howner : ¬ m.ownerTid = some t := by
      rw [h.owner t, ht]
      rintro (hwritten | ⟨-, hcleared⟩) <;> contradiction
    have hinside : ∀ pc : Local, pc.granted = false → ¬ pc.Inside (m.depth t - 1) := by
      rw [hdepth']
      exact fun pc => not_inside_zero
    have hnamed : ∀ pc : Local, pc.written = false → ¬ pc.Named (m.depth t - 1) := by
      rw [hdepth']
      exact fun pc => not_named_zero
    by_cases hwaiting : m.useCount > 1
    · rw [if_pos ⟨hwaiting, rfl⟩]
      refine ⟨_, .releasing t, h.giveBack ht rfl (iff_of_false (hinside _ rfl) nofun)
        (iff_of_true rfl rfl) ?_ rfl ?_ (iff_of_false howner (hnamed _ rfl)) (fun _ => rfl) hdepth'⟩
      · exact fun u hut => ⟨nofun, fun heq => hut (by cases heq; rfl)⟩
      · refine iff_of_false nofun fun hnil => ?_
        rw [hnil, List.length_nil] at hlength
        omega
    · rw [if_neg fun hcond => hwaiting hcond.1]
      refine ⟨_, .free, h.giveBack ht rfl (iff_of_false (hinside _ rfl) nofun)
        (iff_of_false nofun nofun) (fun _ _ => ⟨nofun, nofun⟩) rfl ?_
        (iff_of_false howner (hnamed _ rfl)) (fun _ => rfl) ?_⟩
      · refine iff_of_true rfl (List.length_eq_zero_iff.mp ?_)
        omega
      · rw [hdepth']
        exact nofun
  · -- a nested unlock
    rw [if_neg fun hcond => hzero hcond.2]
    have hpos' : 0 < m.depth t - 1 := by omega
    refine ⟨_, .inside t, h.giveBack ht rfl (iff_of_true (.inl hpos') rfl)
      (iff_of_false nofun nofun) ?_ rfl ?_ ?_ (fun hnone => absurd rfl (hnone t)) ?_⟩
    · exact fun u hut => ⟨fun heq => hut (by cases heq; rfl), nofun⟩
    · refine iff_of_false nofun fun hnil => ?_
      have hleft : (tickets.erase t).count t = m.depth t - 1 := by
        rw [List.count_erase_self, hcount]
      rw [hnil, List.count_nil] at hleft
      omega
    · rw [h.owner t, ht]
      exact iff_of_true (.inr ⟨hpos, decide_eq_false hzero⟩) (.inr ⟨hpos', rfl⟩)
    · intro _
      omega

theorem release (ht : m.thread t = .release) :
    m.sem < 1 ∧ Inv ({ m with sem := m.sem + 1 }.goto t .idle) tickets .posted := by
  have hdepth : m.depth t = 0 := h.fits_at ht
  have htoken : token = .releasing t := (h.releasing t).mp ht
  have hsem : m.sem = 0 := by
    rw [h.sem, htoken]
    rfl
  refine ⟨by omega, ?_⟩
  have hstep : Change m ({ m with sem := m.sem + 1 }.goto t .idle) tickets tickets token .posted t
      .idle (m.depth t) := {
    thread := rfl
    depth := (Function.update_eq_self _ _).symm
    count := by rw [h.count t, ht]; rfl
    counts := fun _ _ => rfl
    use := h.use
    bound := h.bound
    inside := iff_of_false (by rw [hdepth]; exact not_inside_zero rfl) nofun
    releasing := iff_of_false nofun nofun
    tokens := fun u hut => by
      rw [htoken]
      exact ⟨iff_of_false nofun nofun,
        iff_of_false nofun (fun heq => hut (by cases heq; rfl))⟩
    sem := by
      show m.sem + 1 = 1
      rw [hsem]
    free := iff_of_false nofun fun hnil => by
      have hfree := h.free.mpr hnil
      rw [htoken] at hfree
      cases hfree
    owner := (h.owner t).trans <| by
      rw [ht, hdepth]
      exact iff_of_false (not_named_zero rfl) (not_named_zero rfl)
    owners := fun _ _ => Iff.rfl
    rest := fun _ => h.rest fun u => by rw [htoken]; nofun
    fits := fun hpos => by omega
    recursion := .inl rfl
    assert_ok := rfl
    release_ok := rfl }
  exact h.change hstep

/-! ## The steps -/

/-- A step between states in which the thread has the same parts and the same name. -/
theorem move (ht : m.thread t = pc) {pc' : Local} (hweight : pc'.entered = pc.entered)
    (hgranted : pc'.granted = pc.granted) (hwritten : pc'.written = pc.written)
    (hcleared : pc'.cleared = pc.cleared) (hrelease : pc' ≠ .release) (hrelease' : pc ≠ .release)
    (hfits : pc'.Fits m.recursionCount (m.depth t)) : Inv (m.goto t pc') tickets token := by
  subst ht
  refine h.goto hweight ?_ ?_ hrelease hrelease' hfits
  · rw [Inside, Inside, hgranted]
  · rw [Named, Named, hwritten, hcleared]

theorem next? (hrange : m.thread t = .lockAdd ∨ m.thread t = .tryAdd → m.useCount < longMax)
    (hnext : m.next? t = some m') : ∃ tickets' token', Inv m' tickets' token' := by
  rw [Mutex.next?.eq_def] at hnext
  cases hpc : m.thread t with
  | idle =>
      rw [hpc] at hnext
      cases hnext
  | lockAdd =>
      rw [hpc] at hnext hrange
      have hfits := h.fits_at hpc
      obtain rfl := Option.some.inj hnext
      split_ifs with hpos
      · have hne : tickets ≠ [] := by
          rintro rfl
          rw [h.use] at hpos
          exact absurd hpos (lt_irrefl 0)
        refine ⟨_, _, h.addUse (by rw [hpc]; rfl) rfl ?_ ?_ nofun (by rw [hpc]; nofun) hfits hne
          (hrange (.inl rfl))⟩
        · rw [hpc, Inside, Inside]
          rfl
        · rw [hpc, named_iff rfl rfl, named_iff rfl rfl]
      · have hzero : m.useCount = 0 := by
          have huse := h.use
          omega
        have hone : m.addUse 1 = { m with useCount := 1 } := by
          rw [Mutex.addUse, hzero]
          rfl
        rw [hone]
        exact ⟨_, _, h.gain t hzero⟩
  | lockRead =>
      rw [hpc] at hnext
      obtain rfl := Option.some.inj hnext
      have howner := h.owner t
      rw [hpc, named_iff rfl rfl] at howner
      split_ifs with hother
      · have hdepth : m.depth t = 0 := Nat.eq_zero_of_not_pos fun hpos => hother (howner.mpr hpos)
        refine ⟨_, _, h.goto (by rw [hpc]; rfl) ?_ ?_ nofun (by rw [hpc]; nofun) hdepth⟩
        · rw [hpc, Inside, Inside]
          rfl
        · rw [hpc, named_iff rfl rfl, named_iff rfl rfl]
      · have hpos : 0 < m.depth t := howner.mp (not_not.mp hother)
        refine ⟨_, _, h.goto (by rw [hpc]; rfl) (iff_of_true (.inl hpos) (.inl hpos)) ?_ nofun
          (by rw [hpc]; nofun) (h.fits_at hpc hpos)⟩
        rw [hpc, named_iff rfl rfl, named_iff rfl rfl]
  | wait =>
      rw [hpc] at hnext
      dsimp only at hnext
      split_ifs at hnext with hsem
      cases hnext
      exact ⟨_, _, h.wake hpc hsem⟩
  | tryRead =>
      rw [hpc] at hnext
      obtain rfl := Option.some.inj hnext
      have howner := h.owner t
      rw [hpc, named_iff rfl rfl] at howner
      split_ifs with hself
      · have hpos := howner.mp hself
        exact ⟨_, _, h.move hpc rfl rfl rfl rfl nofun nofun
          ⟨hpos, h.fits_at hpc hpos⟩⟩
      · have hdepth : m.depth t = 0 := Nat.eq_zero_of_not_pos fun hpos => hself (howner.mpr hpos)
        exact ⟨_, _, h.move hpc rfl rfl rfl rfl nofun nofun hdepth⟩
  | tryAdd =>
      rw [hpc] at hnext hrange
      obtain rfl := Option.some.inj hnext
      obtain ⟨hpos, hrecursion⟩ : 0 < m.depth t ∧ m.recursionCount = m.depth t := h.fits_at hpc
      have hne := h.tickets_ne_nil (t := t) (by rw [Local.weight]; omega)
      refine ⟨_, _, h.addUse (by rw [hpc]; rfl) rfl (iff_of_true (.inl hpos) (.inl hpos)) ?_ nofun
        (by rw [hpc]; nofun) hrecursion hne (hrange (.inr rfl))⟩
      rw [hpc]
      exact iff_of_true (.inl rfl) (.inr ⟨hpos, rfl⟩)
  | tryExchange =>
      rw [hpc] at hnext
      have hdepth : m.depth t = 0 := h.fits_at hpc
      dsimp only at hnext
      split_ifs at hnext with hused
      · cases hnext
        exact ⟨_, _, h.move hpc rfl rfl rfl rfl nofun nofun fun hpos => by omega⟩
      · cases hnext
        exact ⟨_, _, h.gain t (not_not.mp hused)⟩
  | setOwner =>
      rw [hpc] at hnext
      cases hnext
      exact ⟨_, _, h.setOwner hpc⟩
  | loadRecursion =>
      rw [hpc] at hnext
      cases hnext
      have hrecursion : m.recursionCount = m.depth t := h.fits_at hpc
      refine ⟨_, _, h.goto (by rw [hpc]; rfl) ?_ ?_ nofun (by rw [hpc]; nofun)
        ⟨hrecursion, hrecursion⟩⟩
      · rw [hpc]
        exact iff_of_true (.inr rfl) (.inr rfl)
      · rw [hpc]
        exact iff_of_true (.inl rfl) (.inl rfl)
  | storeRecursion count =>
      rw [hpc] at hnext
      cases hnext
      exact ⟨_, _, h.storeRecursion hpc⟩
  | unlockAssert =>
      rw [hpc] at hnext
      obtain ⟨hpos, hrecursion⟩ : 0 < m.depth t ∧ m.recursionCount = m.depth t := h.fits_at hpc
      have howner := h.owner t
      rw [hpc, named_iff rfl rfl] at howner
      dsimp only at hnext
      rw [if_pos (howner.mpr hpos)] at hnext
      cases hnext
      exact ⟨_, _, h.move hpc rfl rfl rfl rfl nofun nofun
        ⟨hpos, hrecursion⟩⟩
  | unlockLoad =>
      rw [hpc] at hnext
      cases hnext
      obtain ⟨hpos, hrecursion⟩ : 0 < m.depth t ∧ m.recursionCount = m.depth t := h.fits_at hpc
      exact ⟨_, _, h.move hpc rfl rfl rfl rfl nofun nofun
        ⟨hpos, hrecursion, hrecursion⟩⟩
  | unlockStore count =>
      rw [hpc] at hnext
      cases hnext
      exact ⟨_, _, h.unlockStore hpc⟩
  | clearOwner =>
      rw [hpc] at hnext
      cases hnext
      exact ⟨_, _, h.clearOwner hpc⟩
  | unlockSub newRecur =>
      rw [hpc] at hnext
      cases hnext
      exact h.unlockSub hpc
  | release =>
      rw [hpc] at hnext
      obtain ⟨hempty, hinv⟩ := h.release hpc
      dsimp only at hnext
      rw [if_pos hempty] at hnext
      cases hnext
      exact ⟨_, _, hinv⟩

end Inv

/-- The action does not add to a count that is at its maximum. -/
def InRange (m : Mutex Thread) : Action Thread → Prop
  | .step t => m.thread t = .lockAdd ∨ m.thread t = .tryAdd → m.useCount < longMax
  | _ => True

instance (m : Mutex Thread) : DecidablePred (InRange m)
  | .step t =>
      inferInstanceAs (Decidable (m.thread t = .lockAdd ∨ m.thread t = .tryAdd → m.useCount < longMax))
  | .lock _ | .tryLock _ | .unlock _ => .isTrue trivial

theorem Inv.step (h : Inv m tickets token) {action : Action Thread} (hrange : InRange m action)
    (hstep : step m action = some m') : ∃ tickets' token', Inv m' tickets' token' := by
  rw [LightMutex.step.eq_def, if_neg (by rw [h.assert_ok]; exact Bool.false_ne_true)] at hstep
  cases action with
  | lock t =>
      dsimp only at hstep
      split_ifs at hstep with hidle
      cases hstep
      have hknown : 0 < m.depth t → m.recursionCount = m.depth t := h.fits_at hidle
      exact ⟨_, _, h.move hidle rfl rfl rfl rfl nofun nofun hknown⟩
  | tryLock t =>
      dsimp only at hstep
      split_ifs at hstep with hidle
      cases hstep
      have hknown : 0 < m.depth t → m.recursionCount = m.depth t := h.fits_at hidle
      exact ⟨_, _, h.move hidle rfl rfl rfl rfl nofun nofun hknown⟩
  | unlock t =>
      dsimp only at hstep
      split_ifs at hstep with hidle
      cases hstep
      exact ⟨_, _, h.move hidle.1 rfl rfl rfl rfl nofun nofun
        ⟨hidle.2, h.fits_at hidle.1 hidle.2⟩⟩
  | step t => exact h.next? hrange hstep

theorem inv_initial : Inv (initial : Mutex Thread) [] .free where
  count _ := rfl
  use := rfl
  bound := by
    rw [longMax, List.length_nil]
    decide
  inside _ := iff_of_false (not_inside_zero rfl) nofun
  releasing _ := iff_of_false nofun nofun
  sem := rfl
  free := iff_of_true rfl rfl
  owner _ := iff_of_false nofun (not_named_zero rfl)
  rest _ := rfl
  fits _ := nofun
  assert_ok := rfl
  release_ok := rfl

/-! ## What the mutex guarantees -/

/-- The thread has added its part to the count, is not inside, and waits for the semaphore or is
about to. -/
def Waiting (m : Mutex Thread) (t : Thread) : Prop :=
  m.depth t = 0 ∧ (m.thread t = .lockRead ∨ m.thread t = .wait)

structure Safe (m : Mutex Thread) : Prop where
  /-- At most one thread is inside, so also between a completed acquisition and its final unlock. -/
  exclusive : ∀ t u, (m.thread t).Inside (m.depth t) → (m.thread u).Inside (m.depth u) → t = u
  /-- Between its operations the count is the nesting depth of the thread. -/
  recursion : ∀ t, m.thread t = .idle → 0 < m.depth t → m.recursionCount = m.depth t
  assert_ok : m.assertFailed = false
  sem_le : m.sem ≤ 1
  release_ok : m.releaseFailed = false
  /-- No wake-up is lost. -/
  wakes : ∀ t, Waiting m t → (∃ u, (m.thread u).Inside (m.depth u)) ∨
    (∃ u, m.thread u = .release) ∨ m.sem = 1

theorem Inv.safe (h : Inv m tickets token) : Safe m where
  exclusive t u ht hu := by
    have heq : Token.inside t = Token.inside u :=
      ((h.inside t).mp ht).symm.trans ((h.inside u).mp hu)
    cases heq
    rfl
  recursion t hidle hdepth := h.fits_at hidle hdepth
  assert_ok := h.assert_ok
  sem_le := by
    rw [h.sem]
    cases token with
    | posted => exact le_rfl
    | free | inside | releasing => exact Nat.zero_le 1
  release_ok := h.release_ok
  wakes t ht := by
    have hentered : (m.thread t).entered = true := by
      rcases ht.2 with hpc | hpc <;> rw [hpc] <;> rfl
    have hne := h.tickets_ne_nil (t := t) (by rw [weight, hentered]; exact Nat.succ_pos _)
    cases htoken : token with
    | free => exact absurd (h.free.mp htoken) hne
    | inside u => exact .inl ⟨u, (h.inside u).mpr htoken⟩
    | releasing u => exact .inr (.inl ⟨u, (h.releasing u).mpr htoken⟩)
    | posted => exact .inr (.inr (by rw [h.sem, htoken]; rfl))

/-- **Exclusion with recursion, and no lost wake-up**, in all states of a run of any threads in
which no acquisition adds to a `use_count_` that is at the maximum of its type. -/
theorem always_safe {actions : List (Action Thread)}
    (hrange : (recursiveLightMutex Thread).EachStep InRange initial actions) :
    (recursiveLightMutex Thread).Always Safe initial actions := by
  refine System.always_of_eachStep (I := fun m => ∃ tickets token, Inv m tickets token) ?_ ?_
    ⟨_, _, inv_initial⟩ hrange
  · rintro m action m' ⟨tickets, token, h⟩ haction hstep
    exact h.step haction hstep
  · rintro m ⟨tickets, token, h⟩
    exact h.safe

/-- A thread nests two acquisitions while another one begins to wait, and hands the lock over. -/
def handOver : List (Action Bool) :=
  Action.lock false :: List.replicate 4 (Action.step false) ++
    Action.lock true :: List.replicate 2 (Action.step true) ++
    Action.tryLock false :: List.replicate 4 (Action.step false) ++
    Action.unlock false :: List.replicate 4 (Action.step false) ++
    Action.unlock false :: List.replicate 6 (Action.step false) ++
    List.replicate 4 (Action.step true)

theorem always_safe_handOver :
    (recursiveLightMutex Bool).Always Safe initial handOver ∧
      ((recursiveLightMutex Bool).run initial handOver).map
        (fun m => (m.depth false, m.depth true)) = some (0, 1) :=
  ⟨always_safe (by decide), by decide⟩

/-! ## An overflow -/

/-- One thread has acquired the mutex `n` times. -/
def nested (n : ℕ) : Mutex Bool :=
  { initial with
    ownerTid := some false
    useCount := n
    recursionCount := n
    depth := Function.update (fun _ => 0) false n }

/-- A nested acquisition. -/
def acquireAgain : List (Action Bool) :=
  .lock false :: List.replicate 5 (.step false)

theorem run_acquireAgain {n : ℕ} (hpos : 0 < n) (hn : (n : ℤ) < longMax) :
    (recursiveLightMutex Bool).run (nested n) acquireAgain = some (nested (n + 1)) := by
  have huse : long ((n : ℤ) + 1) = (n : ℤ) + 1 := long_eq (by omega) (by omega)
  simp only [acquireAgain, List.replicate, System.run, recursiveLightMutex, step, nested, initial,
    Mutex.next?, Mutex.goto, Mutex.addUse, Mutex.setRecursion, Mutex.setDepth]
  simp [hpos, huse]

/-- The acquisitions of one thread, up to any depth that the count can hold. -/
theorem run_acquire {n : ℕ} (hn : (n : ℤ) + 1 ≤ longMax) :
    ∃ actions, (recursiveLightMutex Bool).run initial actions = some (nested (n + 1)) := by
  induction n with
  | zero =>
      refine ⟨.lock false :: List.replicate 4 (.step false), ?_⟩
      simp [List.replicate, System.run, recursiveLightMutex, step, nested, initial, Mutex.next?,
        Mutex.goto, Mutex.addUse, Mutex.setRecursion, Mutex.setDepth, long, Int.bmod]
  | succ n ih =>
      obtain ⟨actions, hrun⟩ := ih (by omega)
      refine ⟨actions ++ acquireAgain, ?_⟩
      rw [System.run_append, hrun, Option.bind_some]
      exact run_acquireAgain (Nat.succ_pos n) (by omega)

/-- The next acquisition goes over the maximum. -/
theorem run_overflow {n : ℕ} (hpos : 0 < n) :
    (recursiveLightMutex Bool).run (nested n) [.lock false, .step false] =
      some { (nested n).goto false .lockRead with useCount := long (n + 1) } := by
  simp only [System.run, recursiveLightMutex, step, nested, initial, Mutex.next?, Mutex.goto,
    Mutex.addUse]
  simp [hpos]

/-- An acquisition by the other thread. -/
def enter : List (Action Bool) :=
  .lock true :: List.replicate 4 (.step true)

theorem run_enter {m : Mutex Bool} (hidle : m.thread true = .idle) (hok : m.assertFailed = false)
    (hdepth : m.depth true = 0) (hneg : ¬ 0 < m.useCount) :
    ((recursiveLightMutex Bool).run m enter).map Mutex.depth =
      some (Function.update m.depth true 1) := by
  simp only [enter, List.replicate, System.run, recursiveLightMutex, step, Mutex.next?, Mutex.goto,
    Mutex.addUse, Mutex.setRecursion, Mutex.setDepth]
  simp [hidle, hok, hdepth, hneg]

/-- **Two threads inside.**  One has acquired the mutex 2³¹ - 1 times and begun once more. -/
theorem overflow_unsafe :
    ∃ actions m, (recursiveLightMutex Bool).run initial actions = some m ∧
      0 < m.depth false ∧ 0 < m.depth true := by
  obtain ⟨n, hn⟩ : ∃ n : ℕ, ((n + 1 : ℕ) : ℤ) = longMax := ⟨2 ^ 31 - 2, by rw [longMax]; norm_num⟩
  obtain ⟨actions, hrun⟩ := run_acquire hn.le
  have hover := run_overflow (Nat.succ_pos n)
  have hneg : ¬ 0 < long (((n + 1 : ℕ) : ℤ) + 1) := by
    rw [hn, long, longMax, Int.bmod_def]
    norm_num
  generalize long (((n + 1 : ℕ) : ℤ) + 1) = count at hover hneg
  obtain ⟨m, hm, hdepth⟩ := Option.map_eq_some_iff.mp
    (run_enter (m := { (nested (n + 1)).goto false .lockRead with useCount := count }) rfl rfl rfl
      hneg)
  refine ⟨actions ++ ([.lock false, .step false] ++ enter), m, ?_, ?_, ?_⟩
  · rw [System.run_append, hrun, Option.bind_some, System.run_append, hover, Option.bind_some]
    exact hm
  · rw [hdepth]
    exact Nat.succ_pos n
  · rw [hdepth]
    exact Nat.one_pos

end Eureka.LightMutex

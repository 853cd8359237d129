import Eureka.Poller.Bookkeeping

/-!
# Interest sets and poll entries

An entry should carry its channel's fd and interest set, or a negative fd when
that set is empty.  `UpdateChannel` negates the stored fd whenever it finds the
set empty, and never takes that back.

* `agrees_refresh`: a refreshed entry agrees with its channel exactly when the
  entry was not muted before;
* `interest_iff`: the entries follow the channels throughout a run exactly when
  no call registers an empty set, or is made on a registered channel with one;
* `reenabled_not_followed`: a channel that is muted and enabled again stays muted.
-/

namespace Eureka.Poller

open SlotTable Transition State

variable {Id : Type}

/-- The entry is what `poll` should see of the channel. -/
structure Agrees (channel : Channel) (pfd : Pollfd) : Prop where
  interested : channel.events ≠ IOEvent.none →
    pfd.fd = channel.fd ∧ pfd.events.setWidth 32 = channel.events
  muted : channel.events = IOEvent.none → pfd.fd < 0

def Follows (s : State Id) (id : Id) : Prop :=
  ∃ pfd, s.entry id = some pfd ∧ Agrees (s.channels id) pfd

/-- Every registered channel's entry follows the channel. -/
def InterestFollows (s : State Id) : Prop := ∀ id, s.Registered id → Follows s id

/-! ## Interest sets -/

/-- The sets that the four calls lead to. -/
def interestSets : List (BitVec 32) :=
  [IOEvent.none, IOEvent.read, IOEvent.write, IOEvent.read ||| IOEvent.write]

theorem apply_mem_interestSets (interest : Interest) :
    ∀ events ∈ interestSets, interest.apply events ∈ interestSets := by
  cases interest <;>
    simp [interestSets, IOEvent.none, IOEvent.read, IOEvent.write, Interest.apply]

/-- An interest set fits into the `short` of an entry. -/
theorem setWidth_setWidth_interestSets :
    ∀ events ∈ interestSets, (events.setWidth 16).setWidth 32 = events := by
  simp [interestSets, IOEvent.none, IOEvent.read, IOEvent.write]

/-! ## Entries and channels -/

section Agrees

variable {channel : Channel} {pfd : Pollfd}

/-- An entry that agrees with its channel is muted exactly for an empty set. -/
theorem Agrees.fd_eq_iff (h : Agrees channel pfd) (hfd : 0 ≤ channel.fd) :
    pfd.fd = channel.fd ↔ channel.events ≠ IOEvent.none := by
  constructor
  · intro heq hnone
    have hneg := h.muted hnone
    omega
  · intro hsome
    exact (h.interested hsome).1

/-- **Refreshed entries.**  The negation lands on the right sign only from an
entry that is not muted. -/
theorem agrees_refresh (hfd : 0 ≤ channel.fd) (hkey : decodeFd pfd.fd = channel.fd)
    (hevents : channel.events ∈ interestSets) :
    Agrees channel (refresh channel pfd) ↔ pfd.fd = channel.fd := by
  have hstored := (decodeFd_eq_iff hfd).mp hkey
  have hfits := setWidth_setWidth_interestSets _ hevents
  by_cases hnone : channel.events = IOEvent.none
  · have hmute : (refresh channel pfd).fd = -pfd.fd - 1 :=
      if_pos (by rw [Channel.noneEvent, hnone]; rfl)
    constructor
    · intro hagrees
      have hneg := hagrees.muted hnone
      omega
    · intro heq
      refine ⟨fun hsome => absurd hnone hsome, fun _ => ?_⟩
      omega
  · have hkeep : (refresh channel pfd).fd = pfd.fd :=
      if_neg (by simpa [Channel.noneEvent] using hnone)
    constructor
    · intro hagrees
      exact hkeep.symm.trans (hagrees.interested hnone).1
    · intro heq
      exact ⟨fun _ => ⟨hkeep.trans heq, hfits⟩, fun h => absurd h hnone⟩

theorem agrees_new (hfd : 0 ≤ channel.fd) (hevents : channel.events ∈ interestSets) :
    Agrees channel ⟨channel.fd, channel.events.setWidth 16, 0⟩ ↔
      channel.events ≠ IOEvent.none := by
  constructor
  · intro hagrees hnone
    have hneg := hagrees.muted hnone
    dsimp only at hneg
    omega
  · intro hsome
    exact ⟨fun _ => ⟨rfl, setWidth_setWidth_interestSets _ hevents⟩, fun h => absurd h hsome⟩

end Agrees

/-! ## Entries of other channels -/

section Frame

variable [DecidableEq Id] {s s' : State Id} {id other : Id}

omit [DecidableEq Id] in
theorem follows_congr (hentry : s'.entry other = s.entry other)
    (hchannel : ∀ pfd, Agrees (s'.channels other) pfd ↔ Agrees (s.channels other) pfd) :
    Follows s' other ↔ Follows s other := by
  unfold Follows
  rw [hentry]
  exact exists_congr fun pfd => and_congr_right fun _ => hchannel pfd

theorem agrees_congr {channel channel' : Channel} {pfd : Pollfd} (hfd : channel'.fd = channel.fd)
    (hevents : channel'.events = channel.events) : Agrees channel' pfd ↔ Agrees channel pfd := by
  constructor
  · intro h
    exact ⟨by rw [← hfd, ← hevents]; exact h.interested, by rw [← hevents]; exact h.muted⟩
  · intro h
    exact ⟨by rw [hfd, hevents]; exact h.interested, by rw [hevents]; exact h.muted⟩

omit [DecidableEq Id] in
theorem entry_eq {i : ℕ} (hindex : (s.channels id).index.toNat? = some i) :
    s.entry id = s.pfds[i]? := by
  rw [entry, hindex, Option.bind_some]

theorem follows_withEvents (events : BitVec 32) (hne : other ≠ id) :
    Follows (s.withEvents id events) other ↔ Follows s other := by
  have hchannel : (s.withEvents id events).channels other = s.channels other :=
    Function.update_of_ne hne _ _
  refine follows_congr ?_ fun pfd => by rw [hchannel]
  rw [entry, entry, hchannel]
  rfl

omit [DecidableEq Id] in
theorem follows_set (hs : s.Consistent) {i : ℕ} {new : Pollfd} (hid : s.Registered id)
    (hindex : (s.channels id).index.toNat? = some i) (hother : s.Registered other)
    (hne : other ≠ id) :
    Follows { s with pfds := s.pfds.set i new } other ↔ Follows s other := by
  obtain ⟨j, pfd, hj, hpfd, -, -⟩ := hs.slot hother
  have hij : i ≠ j := by
    rintro rfl
    rw [Int.mem_toNat?] at hindex hj
    exact hs.index_ne hother hid hne (hj.trans hindex.symm)
  refine follows_congr ?_ fun _ => Iff.rfl
  rw [entry_eq hj]
  exact (entry_eq (s := { s with pfds := s.pfds.set i new }) hj).trans (List.getElem?_set_ne hij)

theorem follows_register (hs : s.Consistent) (hid : ¬ s.Registered id)
    (hother : s.Registered other) : Follows (s.register id) other ↔ Follows s other := by
  obtain ⟨j, pfd, hj, hpfd, -, -⟩ := hs.slot hother
  have hne : other ≠ id := by
    rintro rfl
    exact hid hother
  have hchannel : (s.register id).channels other = s.channels other :=
    Function.update_of_ne hne _ _
  refine follows_congr ?_ fun pfd => by rw [hchannel]
  rw [entry_eq hj, entry_eq (by rw [hchannel]; exact hj)]
  exact List.getElem?_append_left (List.getElem?_eq_some_iff.mp hpfd).1

/-- A removal may move an entry, but not away from its channel. -/
theorem follows_unregister (hs : s.Consistent) {i : ℕ} {back : Pollfd} {victim : Id}
    (hid : s.Registered id) (hindex : (s.channels id).index.toNat? = some i)
    (hback : s.pfds[s.pfds.length - 1]? = some back)
    (hvictim : s.channelTable.lookup (decodeFd back.fd) = some victim)
    (hother : s.Registered other) (hne : other ≠ id) :
    Follows (s.unregister id i victim) other ↔ Follows s other := by
  obtain ⟨i', _, hi', hpfd, -, -⟩ := hs.slot hid
  obtain rfl : i' = i := Option.some.inj (hi'.symm.trans hindex)
  obtain ⟨j, pfd, hj, hpfdj, hkey, -⟩ := hs.slot hother
  have hlt := (List.getElem?_eq_some_iff.mp hpfd).1
  have hltj := (List.getElem?_eq_some_iff.mp hpfdj).1
  have hij : i' ≠ j := by
    rintro rfl
    rw [Int.mem_toNat?] at hindex hj
    exact hs.index_ne hother hid hne (hj.trans hindex.symm)
  have hfd : ((s.unregister id i' victim).channels other).fd = (s.channels other).fd :=
    unregister_fd
  by_cases hmoved : other = victim
  · subst hmoved
    have hlast : j = s.pfds.length - 1 := by
      have hposition := hs.indexes.position_key hback
      rw [position, hvictim, Option.bind_some, hj] at hposition
      exact Option.some.inj hposition
    have hchannel : (s.unregister id i' other).channels other
        = { s.channels other with index := i' } := by
      simp only [unregister, if_neg hne, Function.update_self]
    have hmovedIndex : ((s.unregister id i' other).channels other).index.toNat? = some i' := by
      rw [hchannel]
      exact Int.mem_toNat?.mpr rfl
    refine follows_congr ?_ fun _ => agrees_congr hfd (by rw [hchannel])
    rw [entry_eq hj, entry_eq hmovedIndex, hlast, hback]
    refine (getElem?_swapRemove hlt hback).trans ?_
    rw [if_pos (by omega), if_pos rfl]
  · have hchannel : (s.unregister id i' victim).channels other = s.channels other := by
      simp only [unregister]
      split
      · rfl
      · rw [Function.update_of_ne hmoved]
    have hjlast : j ≠ s.pfds.length - 1 := by
      rintro rfl
      rw [hback] at hpfdj
      rw [Option.some.inj hpfdj, hkey, hs.lookup hother] at hvictim
      exact hmoved (Option.some.inj hvictim)
    refine follows_congr ?_ fun pfd => by rw [hchannel]
    rw [entry_eq hj, entry_eq (by rw [hchannel]; exact hj)]
    refine (getElem?_swapRemove hlt hback).trans ?_
    rw [if_pos (by omega), if_neg hij]

/-! ## One call -/

/-- What decides whether an update of `id` leaves its entry right: a registered
channel must have had a set before, and a new one must have one now. -/
theorem follows_updateChannel (hs : s.Consistent) (hevents : (s.channels id).events ∈ interestSets)
    (hupdate : s.updateChannel id = some s') :
    (s.Registered id → (Follows s' id ↔ ∃ pfd, s.entry id = some pfd ∧
      pfd.fd = (s.channels id).fd)) ∧
    (¬ s.Registered id → (Follows s' id ↔ (s.channels id).events ≠ IOEvent.none)) ∧
    ∀ other ≠ id, s.Registered other → (Follows s' other ↔ Follows s other) := by
  rcases updateChannel_cases hs id with ⟨i, pfd, hid, hindex, hpfd, heq⟩ | ⟨hid, heq⟩
  · obtain rfl := Option.some.inj (hupdate.symm.trans heq)
    refine ⟨fun _ => ?_, fun hnot => absurd hid hnot, ?_⟩
    · obtain ⟨i', pfd', hi', hpfd', hkey, -⟩ := hs.slot hid
      obtain rfl : i' = i := Option.some.inj (hi'.symm.trans hindex)
      obtain rfl : pfd' = pfd := Option.some.inj (hpfd'.symm.trans hpfd)
      have hentry : State.entry { s with pfds := s.pfds.set i' (refresh (s.channels id) pfd') } id
          = some (refresh (s.channels id) pfd') :=
        (entry_eq (s := { s with pfds := s.pfds.set i' _ }) hindex).trans
          (List.getElem?_set_self (List.getElem?_eq_some_iff.mp hpfd).1)
      have hbefore : s.entry id = some pfd' := (entry_eq hindex).trans hpfd
      simp only [Follows, hentry, hbefore, Option.some.injEq, exists_eq_left']
      exact agrees_refresh (hs.fd_nonneg id) hkey hevents
    · intro other hne hother
      exact follows_set hs hid hindex hother hne
  · obtain rfl := Option.some.inj (hupdate.symm.trans heq)
    refine ⟨fun hyes => absurd hyes hid, fun _ => ?_, ?_⟩
    · have hchannel : (s.register id).channels id
          = { s.channels id with index := s.pfds.length } := Function.update_self _ _ _
      have hindex : ((s.register id).channels id).index.toNat? = some s.pfds.length := by
        rw [hchannel]
        exact Int.mem_toNat?.mpr rfl
      have hentry : (s.register id).entry id
          = some ⟨(s.channels id).fd, (s.channels id).events.setWidth 16, 0⟩ := by
        rw [entry_eq hindex]
        exact List.getElem?_concat_length
      simp only [Follows, hentry, Option.some.injEq, exists_eq_left']
      rw [hchannel]
      have hfd : 0 ≤ ({ s.channels id with index := s.pfds.length } : Channel).fd := hs.fd_nonneg id
      exact agrees_new hfd hevents
    · intro other hne hother
      exact follows_register hs hid hother

/-- Every channel's interest set is one of the four. -/
def KnownSets (s : State Id) : Prop := ∀ id, (s.channels id).events ∈ interestSets

/-- The condition on a call: no registered channel is updated while its interest
set is already empty, and no channel is registered with an empty set. -/
def Lively (s : State Id) : Action Id → Prop
  | .setInterest id interest =>
      if s.Registered id then (s.channels id).events ≠ IOEvent.none
      else interest.apply (s.channels id).events ≠ IOEvent.none
  | .updateChannel id => (s.channels id).events ≠ IOEvent.none
  | .removeChannel _ => True

instance (s : State Id) : (action : Action Id) → Decidable (Lively s action)
  | .setInterest id interest => inferInstanceAs <| Decidable <|
      if s.Registered id then (s.channels id).events ≠ IOEvent.none
      else interest.apply (s.channels id).events ≠ IOEvent.none
  | .updateChannel id => inferInstanceAs <| Decidable <| (s.channels id).events ≠ IOEvent.none
  | .removeChannel _ => inferInstanceAs <| Decidable True

theorem interestFollows_updateChannel (hs : s.Consistent)
    (hevents : (s.channels id).events ∈ interestSets)
    (hothers : ∀ other ≠ id, s.Registered other → Follows s other)
    (hupdate : s.updateChannel id = some s') : InterestFollows s' ↔ Follows s' id := by
  obtain ⟨s'', heq, -, hregistered⟩ := updateChannel_spec hs id
  obtain rfl : s'' = s' := Option.some.inj (heq.symm.trans hupdate)
  obtain ⟨-, -, hframe⟩ := follows_updateChannel hs hevents hupdate
  constructor
  · intro hall
    exact hall id ((hregistered id).mpr (.inl rfl))
  · intro hown other hother
    by_cases hne : other = id
    · exact hne ▸ hown
    · have hbefore := ((hregistered other).mp hother).resolve_left hne
      exact (hframe other hne hbefore).mpr (hothers other hne hbefore)

omit [DecidableEq Id] in
/-- Before the call, the entry shows whether the set was empty. -/
theorem entry_fd_iff (hs : s.Consistent) (hfollows : Follows s id) :
    (∃ pfd, s.entry id = some pfd ∧ pfd.fd = (s.channels id).fd) ↔
      (s.channels id).events ≠ IOEvent.none := by
  obtain ⟨pfd, hentry, hagrees⟩ := hfollows
  rw [← hagrees.fd_eq_iff (hs.fd_nonneg id), hentry]
  simp only [Option.some.injEq, exists_eq_left']

/-- **One call** keeps the entries right exactly when it is lively. -/
theorem step_iff {action : Action Id} (hs : s.Consistent) (hknown : KnownSets s)
    (hfollows : InterestFollows s) (hstep : (calls Id).step s action = some s') :
    InterestFollows s' ↔ Lively s action := by
  cases action with
  | setInterest id interest =>
      have hs₁ := hs.withEvents id (interest.apply (s.channels id).events)
      have hupdate : (s.withEvents id (interest.apply (s.channels id).events)).updateChannel id
          = some s' := hstep
      have hset : ((s.withEvents id (interest.apply (s.channels id).events)).channels id).events
          = interest.apply (s.channels id).events := by
        rw [withEvents, setChannel]
        simp only [Function.update_self]
      have hevents := apply_mem_interestSets interest _ (hknown id)
      rw [← hset] at hevents
      have hregistered : ∀ other,
          (s.withEvents id (interest.apply (s.channels id).events)).Registered other ↔
            s.Registered other := by
        intro other
        rw [Registered, withEvents_fd]
        rfl
      have hentry : (s.withEvents id (interest.apply (s.channels id).events)).entry id
          = s.entry id := by
        rw [entry, withEvents_index]
        rfl
      rw [interestFollows_updateChannel hs₁ hevents ?_ hupdate]
      · obtain ⟨hold, hnew, -⟩ := follows_updateChannel hs₁ hevents hupdate
        rw [hregistered, hset] at hnew
        rw [hregistered, hentry, withEvents_fd] at hold
        by_cases hid : s.Registered id
        · rw [Lively, if_pos hid, hold hid]
          exact entry_fd_iff hs (hfollows id hid)
        · rw [Lively, if_neg hid, hnew hid]
      · intro other hne hother
        rw [follows_withEvents _ hne]
        exact hfollows other ((hregistered other).mp hother)
  | updateChannel id =>
      have hupdate : s.updateChannel id = some s' := hstep
      rw [interestFollows_updateChannel hs (hknown id) (fun other _ => hfollows other) hupdate]
      obtain ⟨hold, hnew, -⟩ := follows_updateChannel hs (hknown id) hupdate
      by_cases hid : s.Registered id
      · rw [Lively, hold hid]
        exact entry_fd_iff hs (hfollows id hid)
      · rw [Lively, hnew hid]
  | removeChannel id =>
      refine iff_of_true ?_ trivial
      have hid : s.Registered id := allowed_of_step hstep id rfl
      obtain ⟨i, pfd, hindex, -, -, -⟩ := hs.slot hid
      obtain ⟨back, victim, hback, hvictim, hremove⟩ := removeChannel_registered hs hid hindex
      have heq : s.removeChannel id = some s' := (if_pos hid).symm.trans hstep
      obtain rfl := Option.some.inj (hremove.symm.trans heq)
      intro other hother
      have hbefore : other ≠ id ∧ s.Registered other := by
        rw [Registered, unregister_fd] at hother
        obtain ⟨hne, hmem⟩ := AList.mem_erase.mp hother
        exact ⟨fun heq => hne (by rw [heq]), hmem⟩
      exact (follows_unregister hs hid hindex hback hvictim hbefore.2 hbefore.1).mpr
        (hfollows other hbefore.2)

theorem KnownSets.step {action : Action Id} (hs : s.Consistent) (hknown : KnownSets s)
    (hstep : (calls Id).step s action = some s') : KnownSets s' := by
  have hupdate : ∀ {t t' : State Id} {id : Id}, t.Consistent → KnownSets t →
      t.updateChannel id = some t' → KnownSets t' := by
    intro t t' id ht hknown hupdate other
    rcases updateChannel_cases ht id with ⟨i, pfd, -, -, -, heq⟩ | ⟨-, heq⟩
    · obtain rfl := Option.some.inj (hupdate.symm.trans heq)
      exact hknown other
    · obtain rfl := Option.some.inj (hupdate.symm.trans heq)
      simp only [register, Function.update_apply]
      split
      · exact hknown id
      · exact hknown other
  cases action with
  | setInterest id interest =>
      refine hupdate (hs.withEvents id (interest.apply (s.channels id).events)) ?_ hstep
      intro other
      simp only [withEvents, setChannel, Function.update_apply]
      split
      · exact apply_mem_interestSets interest _ (hknown id)
      · exact hknown other
  | updateChannel id => exact hupdate hs hknown hstep
  | removeChannel id =>
      have hid : s.Registered id := allowed_of_step hstep id rfl
      obtain ⟨i, pfd, hindex, -, -, -⟩ := hs.slot hid
      obtain ⟨back, victim, -, -, hremove⟩ := removeChannel_registered hs hid hindex
      have heq : s.removeChannel id = some s' := (if_pos hid).symm.trans hstep
      obtain rfl := Option.some.inj (hremove.symm.trans heq)
      intro other
      simp only [unregister]
      split
      · exact hknown other
      · rw [Function.update_apply]
        split
        · exact hknown victim
        · exact hknown other

/-- **Interest follows the channels** throughout a run exactly when all its
calls are lively. -/
theorem interest_iff {s₀ : State Id} {actions : List (Action Id)} (hstart : (calls Id).start s₀)
    (hrun : (calls Id).run s₀ actions = some s) :
    (calls Id).Always InterestFollows s₀ actions ↔ (calls Id).EachStep Lively s₀ actions := by
  have hnone : InterestFollows s₀ := by
    intro id hid
    rw [Registered, hstart.2.2.2] at hid
    exact absurd hid (AList.notMem_empty _)
  have hknown : KnownSets s₀ := by
    intro id
    rw [(hstart.1 id).2.1]
    exact List.mem_cons_self
  refine System.always_iff_eachStep (I := fun s => s.Consistent ∧ KnownSets s) ?_ ?_
    ⟨consistent_of_start hstart, hknown⟩ hnone hrun
  · rintro s action s' ⟨hs, hknown⟩ hstep
    obtain ⟨s'', heq, hs', -⟩ := step_spec hs (allowed_of_step hstep)
    obtain rfl := Option.some.inj (heq.symm.trans hstep)
    exact ⟨hs', hknown.step hs hstep⟩
  · rintro s action s' ⟨hs, hknown⟩ hfollows hstep
    exact step_iff hs hknown hfollows hstep

end Frame

/-- A channel that is enabled, muted for the first time and removed. -/
theorem interest_iff_muted :
    (calls Bool).Always InterestFollows twoChannels
      [.setInterest true .enableReading, .setInterest true .disableAll, .removeChannel true] := by
  obtain ⟨s, hrun⟩ : ∃ s, (calls Bool).run twoChannels
      [.setInterest true .enableReading, .setInterest true .disableAll, .removeChannel true]
        = some s := ⟨_, rfl⟩
  exact (interest_iff twoChannels_start hrun).mpr (by decide)

/-- A channel that is muted and then enabled again keeps its negative fd. -/
theorem reenabled_not_followed :
    ∃ s, (calls Bool).run twoChannels
        [.setInterest true .enableReading, .setInterest true .disableAll,
          .setInterest true .enableReading] = some s ∧
      ¬ InterestFollows s := by
  refine ⟨_, rfl, ?_⟩
  intro hfollows
  obtain ⟨pfd, hentry, hagrees⟩ := hfollows true (by decide)
  obtain rfl := Option.some.inj hentry
  exact absurd (hagrees.interested (by decide)).1 (by decide)

end Eureka.Poller

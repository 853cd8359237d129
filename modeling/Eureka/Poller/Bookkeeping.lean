import Eureka.Library.SlotTable
import Eureka.Library.Transition
import Mathlib

/-!
# The poller and its channels

`Poller::UpdateChannel` and `Poller::RemoveChannel` of `NetworkInfra/src/poller.cpp`,
with the interest sets of `channel.h`.  Channels are objects behind pointers,
here names `Id` of an arbitrary type; what the source reads out of range, or
through a null pointer, has no result.
-/

namespace Eureka.Poller

namespace IOEvent

def none : BitVec 32 := 0

/-- `POLLIN | POLLPRI`. -/
def read : BitVec 32 := 1 ||| 2

/-- `POLLOUT`. -/
def write : BitVec 32 := 4

end IOEvent

structure Channel where
  fd : ℤ
  events : BitVec 32
  index : ℤ
deriving Repr, DecidableEq

def Channel.noneEvent (channel : Channel) : Bool := channel.events == IOEvent.none

/-- The four ways of changing an interest set; each one calls `Update`. -/
inductive Interest
  | enableReading
  | enableWriting
  | disableWriting
  | disableAll
deriving Repr, DecidableEq

def Interest.apply : Interest → BitVec 32 → BitVec 32
  | .enableReading, events => events ||| IOEvent.read
  | .enableWriting, events => events ||| IOEvent.write
  | .disableWriting, events => events &&& ~~~IOEvent.write
  | .disableAll, _ => IOEvent.none

structure Pollfd where
  fd : ℤ
  events : BitVec 16
  revents : BitVec 16
deriving Repr, DecidableEq

/-- The channel objects and the two structures of the poller. -/
structure State (Id : Type) where
  channels : Id → Channel
  pfds : List Pollfd
  channelTable : AList fun _ : ℤ => Id

variable {Id : Type} [DecidableEq Id]

namespace State

def setChannel (s : State Id) (id : Id) (channel : Channel) : State Id :=
  { s with channels := Function.update s.channels id channel }

/-- A registered entry after an update: a muted one has its fd negated. -/
def refresh (channel : Channel) (pfd : Pollfd) : Pollfd :=
  { fd := if channel.noneEvent then -pfd.fd - 1 else pfd.fd
    events := channel.events.setWidth 16
    revents := 0 }

/-- `Poller::UpdateChannel`. -/
def updateChannel (s : State Id) (id : Id) : Option (State Id) :=
  let channel := s.channels id
  if channel.fd ∈ s.channelTable then do
    let index ← channel.index.toNat?
    let pfd ← s.pfds[index]?
    return { s with pfds := s.pfds.set index (refresh channel pfd) }
  else
    let pfds := s.pfds ++ [⟨channel.fd, channel.events.setWidth 16, 0⟩]
    some
      { channels := Function.update s.channels id { channel with index := (pfds.length : ℤ) - 1 }
        pfds := pfds
        channelTable := s.channelTable.insert channel.fd id }

/-- The fd that a possibly muted entry stands for. -/
def decodeFd (fd : ℤ) : ℤ := if fd < 0 then -fd - 1 else fd

/-- `Poller::RemoveChannel`; both `ENSURE`s are checks that it may fail. -/
def removeChannel (s : State Id) (id : Id) : Option (State Id) := do
  let channel := s.channels id
  let index ← channel.index.toNat?
  let pfd ← s.pfds[index]?
  if channel.fd ∈ s.channelTable then
    let channelTable := s.channelTable.erase channel.fd
    if index = s.pfds.length - 1 then
      return { s with pfds := s.pfds.dropLast, channelTable := channelTable }
    else
      let back ← s.pfds.getLast?
      let victim ← channelTable.lookup (decodeFd back.fd)
      -- The entries are swapped before the last one is dropped.
      return {
        channels := Function.update s.channels victim { s.channels victim with index := index }
        pfds := ((s.pfds.set index back).set (s.pfds.length - 1) pfd).dropLast
        channelTable := channelTable }
  else none

/-- `EnableReading` and its like. -/
def setInterest (s : State Id) (id : Id) (interest : Interest) : Option (State Id) :=
  let channel := s.channels id
  (s.setChannel id { channel with events := interest.apply channel.events }).updateChannel id

/-- The poller knows the channel's fd. -/
def Registered (s : State Id) (id : Id) : Prop := (s.channels id).fd ∈ s.channelTable

instance (s : State Id) (id : Id) : Decidable (s.Registered id) :=
  inferInstanceAs (Decidable (_ ∈ _))

/-- The entry that a channel's index leads to. -/
def entry (s : State Id) (id : Id) : Option Pollfd :=
  (s.channels id).index.toNat?.bind fun i => s.pfds[i]?

end State

end Eureka.Poller

/-!
## The poller's bookkeeping

The table, the entries and the index inside each channel stay in step: the fds
of the table are the keys of a slot table whose slots are the entries, and
whose positions are the indices (`State.Consistent`).

* `updateChannel_registered`, `updateChannel_unregistered`,
  `removeChannel_registered`: what the calls do to a consistent state;
* `bookkeeping`: the bijection, for every run.
-/

namespace Eureka.Poller

open SlotTable Transition

variable {Id : Type}

namespace State

/-- The index of the channel registered under an fd. -/
def position (s : State Id) (fd : ℤ) : Option ℕ :=
  (s.channelTable.lookup fd).bind fun id => (s.channels id).index.toNat?

/-- The invariant of all runs. -/
structure Consistent (s : State Id) : Prop where
  fd_nonneg : ∀ id, 0 ≤ (s.channels id).fd
  fd_injective : Function.Injective fun id => (s.channels id).fd
  table : ∀ fd id, s.channelTable.lookup fd = some id →
    (s.channels id).fd = fd ∧ 0 ≤ (s.channels id).index
  indexes : Indexes s.pfds (fun pfd => decodeFd pfd.fd) s.position

variable {s s' : State Id} {id other : Id}

/-! ## Reading a consistent state -/

theorem decodeFd_of_nonneg {fd : ℤ} (hfd : 0 ≤ fd) : decodeFd fd = fd :=
  if_neg (not_lt.mpr hfd)

theorem decodeFd_mute (fd : ℤ) : decodeFd (-fd - 1) = decodeFd fd := by
  unfold decodeFd
  split_ifs <;> omega

theorem decodeFd_eq_iff {fd stored : ℤ} (hfd : 0 ≤ fd) :
    decodeFd stored = fd ↔ stored = fd ∨ stored = -fd - 1 := by
  unfold decodeFd
  split <;> omega

theorem decodeFd_refresh (channel : Channel) (pfd : Pollfd) :
    decodeFd (refresh channel pfd).fd = decodeFd pfd.fd := by
  unfold refresh
  dsimp only
  split
  · exact decodeFd_mute pfd.fd
  · rfl

theorem Consistent.lookup (hs : s.Consistent) (hid : s.Registered id) :
    s.channelTable.lookup (s.channels id).fd = some id := by
  obtain ⟨id', hid'⟩ := Option.isSome_iff_exists.mp (AList.lookup_isSome.mpr hid)
  rw [hid', hs.fd_injective (hs.table _ _ hid').1]

/-- A registered channel has an index, and an entry there that stands for its fd. -/
theorem Consistent.slot (hs : s.Consistent) (hid : s.Registered id) :
    ∃ i pfd, (s.channels id).index.toNat? = some i ∧ s.pfds[i]? = some pfd ∧
      decodeFd pfd.fd = (s.channels id).fd ∧ s.position (s.channels id).fd = some i := by
  have hlookup := hs.lookup hid
  have hindex : (s.channels id).index.toNat? = some (s.channels id).index.toNat :=
    Int.mem_toNat?.mpr (Int.toNat_of_nonneg (hs.table _ _ hlookup).2).symm
  have hposition : s.position (s.channels id).fd = some (s.channels id).index.toNat := by
    rw [position, hlookup, Option.bind_some, hindex]
  obtain ⟨pfd, hpfd, hkey⟩ := hs.indexes.slot hposition
  exact ⟨_, pfd, hindex, hpfd, hkey, hposition⟩

/-- Two registered channels never share an index. -/
theorem Consistent.index_ne (hs : s.Consistent) (hid : s.Registered id)
    (hother : s.Registered other) (hne : id ≠ other) :
    (s.channels id).index ≠ (s.channels other).index := by
  intro heq
  obtain ⟨i, -, hi, -, -, hpi⟩ := hs.slot hid
  obtain ⟨j, -, hj, -, -, hpj⟩ := hs.slot hother
  rw [heq, hj] at hi
  rw [← Option.some.inj hi] at hpi
  exact hne (hs.fd_injective (hs.indexes.injective hpi hpj))

theorem Consistent.size_eq (hs : s.Consistent) :
    s.channelTable.keys.length = s.pfds.length := by
  apply hs.indexes.length_eq s.channelTable.keys_nodup
  intro fd
  rw [← AList.mem_keys, ← AList.lookup_isSome]
  cases hlookup : s.channelTable.lookup fd with
  | none => simp [position, hlookup]
  | some id =>
      have hfd := (hs.table fd id hlookup).1
      have hid : s.Registered id := by
        rw [Registered, hfd, ← AList.lookup_isSome, hlookup]
        rfl
      obtain ⟨i, -, -, -, -, hposition⟩ := hs.slot hid
      rw [← hfd, hposition]
      rfl

/-! ## What the calls do -/

variable [DecidableEq Id]

/-- The state behind the first update of a channel. -/
def register (s : State Id) (id : Id) : State Id :=
  { channels := Function.update s.channels id { s.channels id with index := s.pfds.length }
    pfds := s.pfds ++ [⟨(s.channels id).fd, (s.channels id).events.setWidth 16, 0⟩]
    channelTable := s.channelTable.insert (s.channels id).fd id }

theorem updateChannel_unregistered (hid : ¬ s.Registered id) :
    s.updateChannel id = some (s.register id) := by
  have hlength : ((s.pfds ++ [(⟨(s.channels id).fd, (s.channels id).events.setWidth 16, 0⟩ :
      Pollfd)]).length : ℤ) - 1 = s.pfds.length := by simp
  unfold Registered at hid
  unfold updateChannel register
  dsimp only
  rw [if_neg hid, hlength]

theorem updateChannel_registered {i : ℕ} {pfd : Pollfd} (hid : s.Registered id)
    (hindex : (s.channels id).index.toNat? = some i) (hpfd : s.pfds[i]? = some pfd) :
    s.updateChannel id = some { s with pfds := s.pfds.set i (refresh (s.channels id) pfd) } := by
  unfold Registered at hid
  unfold updateChannel
  dsimp only
  rw [if_pos hid, hindex, Option.bind_eq_bind, Option.bind_some, hpfd]
  rfl

/-- The state behind a removal that moves the entry of `victim`, if one is moved at all. -/
def unregister (s : State Id) (id : Id) (i : ℕ) (victim : Id) : State Id :=
  { channels :=
      if victim = id then s.channels
      else Function.update s.channels victim { s.channels victim with index := i }
    pfds := swapRemove s.pfds i
    channelTable := s.channelTable.erase (s.channels id).fd }

/-- **Removal** of a registered channel always succeeds: the last entry takes
the place of the removed one. -/
theorem removeChannel_registered (hs : s.Consistent) (hid : s.Registered id) {i : ℕ}
    (hindex : (s.channels id).index.toNat? = some i) :
    ∃ back victim, s.pfds[s.pfds.length - 1]? = some back ∧
      s.channelTable.lookup (decodeFd back.fd) = some victim ∧
      s.removeChannel id = some (s.unregister id i victim) := by
  obtain ⟨i', pfd, hi', hpfd, hkey, hposition⟩ := hs.slot hid
  obtain rfl : i' = i := Option.some.inj (hi'.symm.trans hindex)
  have hlt := hs.indexes.lt_length hposition
  have hlast : s.pfds.length - 1 < s.pfds.length := by omega
  obtain ⟨back, hback⟩ : ∃ back, s.pfds[s.pfds.length - 1]? = some back :=
    ⟨_, List.getElem?_eq_getElem hlast⟩
  have hgetLast : s.pfds.getLast? = some back := by rw [List.getLast?_eq_getElem?, hback]
  have hbackPosition := hs.indexes.position_key hback
  obtain ⟨victim, hvictim, hvictimIndex⟩ := Option.bind_eq_some_iff.mp hbackPosition
  refine ⟨back, victim, hback, hvictim, ?_⟩
  have hmem : (s.channels id).fd ∈ s.channelTable := hid
  unfold removeChannel unregister
  simp only [Option.bind_eq_bind, hindex, hpfd, Option.bind_some]
  rw [if_pos hmem]
  by_cases hend : i' = s.pfds.length - 1
  · -- The removed entry is the last one.
    have hsame : victim = id := by
      rw [← hend, hpfd] at hback
      rw [← Option.some.inj hback, hkey, hs.lookup hid] at hvictim
      exact (Option.some.inj hvictim).symm
    have hset : s.pfds.set i' back = s.pfds := by
      obtain ⟨hlen, heq⟩ := List.getElem?_eq_some_iff.mp hback
      rw [hend, ← heq, List.set_getElem_self]
    rw [if_pos hend, if_pos hsame, swapRemove, hgetLast]
    dsimp only
    rw [hset]
    rfl
  · have hdifferent : victim ≠ id := by
      rintro rfl
      rw [hindex] at hvictimIndex
      exact hend (Option.some.inj hvictimIndex)
    have hfd : decodeFd back.fd ≠ (s.channels id).fd := by
      intro heq
      rw [heq, hs.lookup hid] at hvictim
      exact hdifferent (Option.some.inj hvictim).symm
    have hdrop : ((s.pfds.set i' back).set (s.pfds.length - 1) pfd).dropLast
        = (s.pfds.set i' back).dropLast := by
      rw [List.dropLast_eq_take, List.dropLast_eq_take, List.length_set, List.take_set_of_le]
      rw [List.length_set]
    rw [if_neg hend, if_neg hdifferent, hgetLast, Option.bind_some,
      AList.lookup_erase_ne hfd, hvictim, Option.bind_some, swapRemove, hgetLast]
    dsimp only
    rw [hdrop]
    rfl

/-! ## Consistency is kept -/

def withEvents (s : State Id) (id : Id) (events : BitVec 32) : State Id :=
  s.setChannel id { s.channels id with events := events }

@[simp] theorem withEvents_fd (events : BitVec 32) :
    ((s.withEvents id events).channels other).fd = (s.channels other).fd := by
  simp only [withEvents, setChannel, Function.update_apply]
  split
  · next heq => rw [heq]
  · rfl

@[simp] theorem withEvents_index (events : BitVec 32) :
    ((s.withEvents id events).channels other).index = (s.channels other).index := by
  simp only [withEvents, setChannel, Function.update_apply]
  split
  · next heq => rw [heq]
  · rfl

@[simp] theorem register_fd : ((s.register id).channels other).fd = (s.channels other).fd := by
  simp only [register, Function.update_apply]
  split
  · next heq => rw [heq]
  · rfl

@[simp] theorem unregister_fd {i : ℕ} {victim : Id} :
    ((s.unregister id i victim).channels other).fd = (s.channels other).fd := by
  simp only [unregister]
  split
  · rfl
  · rw [Function.update_apply]
    split
    · next heq => rw [heq]
    · rfl

theorem Consistent.withEvents (hs : s.Consistent) (id : Id) (events : BitVec 32) :
    (s.withEvents id events).Consistent := by
  have hposition : (s.withEvents id events).position = s.position := by
    funext fd
    simp only [position, withEvents_index]
    rfl
  refine ⟨fun other => ?_, fun other other' heq => ?_, fun fd other hlookup => ?_, ?_⟩
  · rw [withEvents_fd]
    exact hs.fd_nonneg other
  · simp only [withEvents_fd] at heq
    exact hs.fd_injective heq
  · rw [withEvents_fd, withEvents_index]
    exact hs.table fd other hlookup
  · rw [hposition]
    exact hs.indexes

omit [DecidableEq Id] in
theorem Consistent.refresh (hs : s.Consistent) {i : ℕ} {pfd : Pollfd} {channel : Channel}
    (hpfd : s.pfds[i]? = some pfd) :
    Consistent { s with pfds := s.pfds.set i (refresh channel pfd) } :=
  ⟨hs.fd_nonneg, hs.fd_injective, hs.table, hs.indexes.set hpfd (decodeFd_refresh channel pfd)⟩

theorem Consistent.position_register (hs : s.Consistent) :
    (s.register id).position =
      Function.update s.position (s.channels id).fd (some s.pfds.length) := by
  funext fd
  by_cases hfd : fd = (s.channels id).fd
  · subst hfd
    rw [Function.update_self, position]
    simp only [register, AList.lookup_insert, Option.bind_some, Function.update_self]
    exact Int.mem_toNat?.mpr rfl
  · rw [Function.update_of_ne hfd, position, position]
    simp only [register, AList.lookup_insert_ne hfd]
    cases hlookup : s.channelTable.lookup fd with
    | none => rfl
    | some other =>
        have hother : other ≠ id := by
          rintro rfl
          exact hfd (hs.table fd other hlookup).1.symm
        rw [Option.bind_some, Option.bind_some, Function.update_of_ne hother]

theorem Consistent.register (hs : s.Consistent) (hid : ¬ s.Registered id) :
    (s.register id).Consistent := by
  refine ⟨fun other => ?_, fun other other' heq => ?_, fun fd other hlookup => ?_, ?_⟩
  · rw [register_fd]
    exact hs.fd_nonneg other
  · simp only [register_fd] at heq
    exact hs.fd_injective heq
  · rw [register_fd]
    by_cases hfd : fd = (s.channels id).fd
    · subst hfd
      simp only [State.register, AList.lookup_insert, Option.some.injEq] at hlookup
      subst hlookup
      refine ⟨rfl, ?_⟩
      simp only [State.register, Function.update_self]
      exact Int.natCast_nonneg _
    · simp only [State.register, AList.lookup_insert_ne hfd] at hlookup
      have hother : other ≠ id := by
        rintro rfl
        exact hfd (hs.table fd other hlookup).1.symm
      simp only [State.register, Function.update_of_ne hother]
      exact hs.table fd other hlookup
  · have hkey : decodeFd (s.channels id).fd = (s.channels id).fd :=
      decodeFd_of_nonneg (hs.fd_nonneg id)
    have hnone : s.position (s.channels id).fd = none := by
      rw [position, AList.lookup_eq_none.mpr hid]
      rfl
    have hpush := hs.indexes.push
      ⟨(s.channels id).fd, (s.channels id).events.setWidth 16, 0⟩ (by rw [hkey]; exact hnone)
    rw [hs.position_register]
    simp only [hkey] at hpush
    exact hpush

theorem Consistent.position_unregister (hs : s.Consistent) {i : ℕ} {back : Pollfd} {victim : Id}
    (hindex : (s.channels id).index.toNat? = some i)
    (hvictim : s.channelTable.lookup (decodeFd back.fd) = some victim) :
    (s.unregister id i victim).position =
      Function.update (Function.update s.position (decodeFd back.fd) (some i))
        (s.channels id).fd none := by
  funext fd
  by_cases hfd : fd = (s.channels id).fd
  · subst hfd
    rw [Function.update_self, position, unregister, AList.lookup_erase]
    rfl
  · rw [Function.update_of_ne hfd, position]
    simp only [unregister, AList.lookup_erase_ne hfd]
    by_cases hmoved : fd = decodeFd back.fd
    · have hdifferent : victim ≠ id := by
        rintro rfl
        exact hfd (hmoved.trans (hs.table _ _ hvictim).1.symm)
      subst hmoved
      rw [Function.update_self, hvictim, Option.bind_some, if_neg hdifferent, Function.update_self]
      exact Int.mem_toNat?.mpr rfl
    · rw [Function.update_of_ne hmoved, position]
      cases hlookup : s.channelTable.lookup fd with
      | none => rfl
      | some other =>
          have hother : other ≠ victim := by
            rintro rfl
            exact hmoved ((hs.table _ _ hlookup).1.symm.trans (hs.table _ _ hvictim).1)
          rw [Option.bind_some, Option.bind_some]
          split
          · rfl
          · rw [Function.update_of_ne hother]

theorem Consistent.unregister (hs : s.Consistent) (hid : s.Registered id) {i : ℕ} {back : Pollfd}
    {victim : Id} (hindex : (s.channels id).index.toNat? = some i)
    (hback : s.pfds[s.pfds.length - 1]? = some back)
    (hvictim : s.channelTable.lookup (decodeFd back.fd) = some victim) :
    (s.unregister id i victim).Consistent := by
  refine ⟨fun other => ?_, fun other other' heq => ?_, fun fd other hlookup => ?_, ?_⟩
  · rw [unregister_fd]
    exact hs.fd_nonneg other
  · simp only [unregister_fd] at heq
    exact hs.fd_injective heq
  · have hfd : fd ≠ (s.channels id).fd := by
      rintro rfl
      simp only [State.unregister, AList.lookup_erase, reduceCtorEq] at hlookup
    simp only [State.unregister, AList.lookup_erase_ne hfd] at hlookup
    have hbefore := hs.table fd other hlookup
    refine ⟨unregister_fd.trans hbefore.1, ?_⟩
    simp only [State.unregister]
    split
    · exact hbefore.2
    · rw [Function.update_apply]
      split
      · exact Int.natCast_nonneg i
      · exact hbefore.2
  · obtain ⟨i', pfd, hi', hpfd, hkey, -⟩ := hs.slot hid
    obtain rfl : i' = i := Option.some.inj (hi'.symm.trans hindex)
    have hremoved := hs.indexes.swapRemove hpfd hback
    rw [hs.position_unregister hindex hvictim]
    simp only [hkey] at hremoved
    exact hremoved

end State

/-! ## Runs -/

inductive Action (Id : Type)
  | setInterest (id : Id) (interest : Interest)
  | updateChannel (id : Id)
  | removeChannel (id : Id)
deriving Repr, DecidableEq

open State

/-- Any calls on channels with distinct fds; only registered channels are removed. -/
def calls (Id : Type) [DecidableEq Id] : System (State Id) (Action Id) where
  start s :=
    (∀ id, 0 ≤ (s.channels id).fd ∧ (s.channels id).events = IOEvent.none ∧
      (s.channels id).index = -1) ∧
    (Function.Injective fun id => (s.channels id).fd) ∧ s.pfds = [] ∧ s.channelTable = ∅
  step s
    | .setInterest id interest => s.setInterest id interest
    | .updateChannel id => s.updateChannel id
    | .removeChannel id => if s.Registered id then s.removeChannel id else none

variable [DecidableEq Id] {s s' : State Id} {id other : Id}

/-- An update either refreshes the entry of a registered channel or registers it. -/
theorem updateChannel_cases (hs : s.Consistent) (id : Id) :
    (∃ i pfd, s.Registered id ∧ (s.channels id).index.toNat? = some i ∧ s.pfds[i]? = some pfd ∧
      s.updateChannel id = some { s with pfds := s.pfds.set i (refresh (s.channels id) pfd) }) ∨
    (¬ s.Registered id ∧ s.updateChannel id = some (s.register id)) := by
  by_cases hid : s.Registered id
  · obtain ⟨i, pfd, hindex, hpfd, -, -⟩ := hs.slot hid
    exact .inl ⟨i, pfd, hid, hindex, hpfd, updateChannel_registered hid hindex hpfd⟩
  · exact .inr ⟨hid, updateChannel_unregistered hid⟩

/-- **One update.**  It succeeds, and afterwards its channel is registered, too. -/
theorem updateChannel_spec (hs : s.Consistent) (id : Id) :
    ∃ s', s.updateChannel id = some s' ∧ s'.Consistent ∧
      ∀ other, s'.Registered other ↔ other = id ∨ s.Registered other := by
  rcases updateChannel_cases hs id with ⟨i, pfd, hid, -, hpfd, hupdate⟩ | ⟨hid, hupdate⟩
  · refine ⟨_, hupdate, hs.refresh hpfd, ?_⟩
    intro other
    refine ⟨.inr, ?_⟩
    rintro (rfl | hother)
    · exact hid
    · exact hother
  · refine ⟨_, hupdate, hs.register hid, ?_⟩
    intro other
    rw [Registered, register_fd, Registered]
    simp only [register, AList.mem_insert]
    exact or_congr_left ⟨fun heq => hs.fd_injective heq, fun heq => by rw [heq]⟩

/-- **One removal.**  Afterwards its channel is not registered any more. -/
theorem removeChannel_spec (hs : s.Consistent) (hid : s.Registered id) :
    ∃ s', s.removeChannel id = some s' ∧ s'.Consistent ∧
      ∀ other, s'.Registered other ↔ other ≠ id ∧ s.Registered other := by
  obtain ⟨i, pfd, hindex, -, -, -⟩ := hs.slot hid
  obtain ⟨back, victim, hback, hvictim, hremove⟩ := removeChannel_registered hs hid hindex
  refine ⟨_, hremove, hs.unregister hid hindex hback hvictim, ?_⟩
  intro other
  rw [Registered, unregister_fd, Registered]
  simp only [unregister, AList.mem_erase]
  exact and_congr_left' ⟨fun hne heq => hne (by rw [heq]), fun hne heq => hne (hs.fd_injective heq)⟩

/-- The channels registered by a list of calls: the last call on them was no removal. -/
def registeredAfter (actions : List (Action Id)) (id : Id) : Bool :=
  actions.foldl (fun registered action =>
    match action with
    | .setInterest other _ => registered || decide (other = id)
    | .updateChannel other => registered || decide (other = id)
    | .removeChannel other => registered && !decide (other = id)) false

theorem registeredAfter_append_singleton (actions : List (Action Id)) (action : Action Id) :
    registeredAfter (actions ++ [action]) id =
      match action with
      | .setInterest other _ => registeredAfter actions id || decide (other = id)
      | .updateChannel other => registeredAfter actions id || decide (other = id)
      | .removeChannel other => registeredAfter actions id && !decide (other = id) := by
  simp only [registeredAfter, List.foldl_append, List.foldl_cons, List.foldl_nil]

/-- The calls that the poller's contract allows in `s`. -/
def Allowed (s : State Id) (action : Action Id) : Prop :=
  ∀ id, action = .removeChannel id → s.Registered id

/-- **One call.**  An allowed call succeeds and keeps the state consistent. -/
theorem step_spec (hs : s.Consistent) {action : Action Id} (hallowed : Allowed s action) :
    ∃ s', (calls Id).step s action = some s' ∧ s'.Consistent ∧ ∀ actions : List (Action Id),
      (∀ id, registeredAfter actions id = true ↔ s.Registered id) →
      ∀ id, registeredAfter (actions ++ [action]) id = true ↔ s'.Registered id := by
  cases action with
  | setInterest id interest =>
      obtain ⟨s', hupdate, hs', hregistered⟩ :=
        updateChannel_spec (hs.withEvents id (interest.apply (s.channels id).events)) id
      refine ⟨s', hupdate, hs', ?_⟩
      intro actions hactions other
      rw [registeredAfter_append_singleton, hregistered, Registered, withEvents_fd,
        Bool.or_eq_true, decide_eq_true_eq, hactions, or_comm, eq_comm]
      rfl
  | updateChannel id =>
      obtain ⟨s', hupdate, hs', hregistered⟩ := updateChannel_spec hs id
      refine ⟨s', hupdate, hs', ?_⟩
      intro actions hactions other
      rw [registeredAfter_append_singleton, hregistered, Bool.or_eq_true, decide_eq_true_eq,
        hactions, or_comm, eq_comm]
  | removeChannel id =>
      have hid := hallowed id rfl
      obtain ⟨s', hremove, hs', hregistered⟩ := removeChannel_spec hs hid
      refine ⟨s', (if_pos hid).trans hremove, hs', ?_⟩
      intro actions hactions other
      rw [registeredAfter_append_singleton, hregistered, Bool.and_eq_true, Bool.not_eq_true',
        decide_eq_false_iff_not, hactions, and_comm, eq_comm]

theorem allowed_of_step {action : Action Id} (hstep : (calls Id).step s action = some s') :
    Allowed s action := by
  rintro id rfl
  simp only [calls, Option.ite_none_right_eq_some] at hstep
  exact hstep.1

theorem consistent_of_start (hs : (calls Id).start s) : s.Consistent := by
  obtain ⟨hchannels, hinjective, hpfds, htable⟩ := hs
  refine ⟨fun id => (hchannels id).1, hinjective, ?_, ?_⟩
  · intro fd id hlookup
    rw [htable, AList.lookup_empty] at hlookup
    cases hlookup
  · have hposition : s.position = fun _ => none := by
      funext fd
      rw [position, htable, AList.lookup_empty]
      rfl
    rw [hpfds, hposition]
    exact Indexes.nil

/-- The table, the entries and the indices of the registered channels match one to one. -/
structure Bijection (s : State Id) (registered : Id → Prop) : Prop where
  size_eq : s.channelTable.keys.length = s.pfds.length
  entry : ∀ id, registered id → ∃ (i : ℕ) (pfd : Pollfd), (s.channels id).index = i ∧
    s.pfds[i]? = some pfd ∧ (pfd.fd = (s.channels id).fd ∨ pfd.fd = -(s.channels id).fd - 1)
  index_ne : ∀ id other, registered id → registered other → id ≠ other →
    (s.channels id).index ≠ (s.channels other).index
  lookup : ∀ id, registered id → s.channelTable.lookup (s.channels id).fd = some id

omit [DecidableEq Id] in
theorem State.Consistent.bijection (hs : s.Consistent) : Bijection s s.Registered := by
  refine ⟨hs.size_eq, ?_, fun id other hid hother hne => hs.index_ne hid hother hne,
    fun id hid => hs.lookup hid⟩
  intro id hid
  obtain ⟨i, pfd, hindex, hpfd, hkey, -⟩ := hs.slot hid
  exact ⟨i, pfd, Int.mem_toNat?.mp hindex, hpfd, (decodeFd_eq_iff (hs.fd_nonneg id)).mp hkey⟩

/-- The run lemma: consistency, and the registered channels by their history. -/
theorem run_spec {s₀ : State Id} {before actions : List (Action Id)} (hs : s₀.Consistent)
    (hbefore : ∀ id, registeredAfter before id = true ↔ s₀.Registered id)
    (hrun : (calls Id).run s₀ actions = some s) :
    s.Consistent ∧ ∀ id, registeredAfter (before ++ actions) id = true ↔ s.Registered id := by
  induction actions generalizing s₀ before with
  | nil =>
      simp only [System.run, Option.some.injEq] at hrun
      rw [List.append_nil]
      exact hrun ▸ ⟨hs, hbefore⟩
  | cons action actions ih =>
      obtain ⟨mid, hmid, hrest⟩ := System.run_cons_eq_some.mp hrun
      obtain ⟨s', hstep, hs', hregistered⟩ := step_spec hs (allowed_of_step hmid)
      obtain rfl : s' = mid := Option.some.inj (hstep.symm.trans hmid)
      rw [List.append_cons]
      exact ih hs' (hregistered before hbefore) hrest

/-- **Poller bookkeeping.**  After any calls the table, the entries and the
indices match, and every allowed call succeeds. -/
theorem bookkeeping {s₀ : State Id} {actions : List (Action Id)} (hstart : (calls Id).start s₀)
    (hrun : (calls Id).run s₀ actions = some s) :
    Bijection s (fun id => registeredAfter actions id = true) ∧
      ∀ action, (∀ id, action = .removeChannel id → registeredAfter actions id = true) →
        ((calls Id).step s action).isSome := by
  have hnone : ∀ id, registeredAfter ([] : List (Action Id)) id = true ↔ s₀.Registered id := by
    intro id
    rw [Registered, hstart.2.2.2]
    exact ⟨nofun, fun hmem => absurd hmem (AList.notMem_empty _)⟩
  obtain ⟨hs, hregistered⟩ := run_spec (consistent_of_start hstart) hnone hrun
  rw [List.nil_append] at hregistered
  have heq : (fun id => registeredAfter actions id = true) = s.Registered :=
    funext fun id => propext (hregistered id)
  refine ⟨heq ▸ hs.bijection, ?_⟩
  intro action hallowed
  have hstate : Allowed s action := fun id hid => (hregistered id).mp (hallowed id hid)
  obtain ⟨s', hstep, -⟩ := step_spec hs hstate
  rw [hstep]
  rfl

def twoChannels : State Bool where
  channels id := ⟨if id then 5 else 7, IOEvent.none, -1⟩
  pfds := []
  channelTable := ∅

theorem twoChannels_start : (calls Bool).start twoChannels := by
  refine ⟨fun id => ⟨?_, rfl, rfl⟩, ?_, rfl, rfl⟩
  · cases id <;> decide
  · intro id other heq
    revert heq
    cases id <;> cases other <;> decide

/-- The first of two channels is muted and removed: the entry of the second one moves. -/
theorem bookkeeping_twoChannels :
    ∃ s, (calls Bool).run twoChannels
        [.setInterest true .enableReading, .setInterest false .enableWriting,
          .setInterest true .disableAll, .removeChannel true] = some s ∧
      (s.channels false).index = 0 ∧
      Bijection s fun id => registeredAfter
        [.setInterest true .enableReading, .setInterest false .enableWriting,
          .setInterest true .disableAll, .removeChannel true] id = true := by
  obtain ⟨s, hrun, hindex⟩ : ∃ s, (calls Bool).run twoChannels
      [.setInterest true .enableReading, .setInterest false .enableWriting,
        .setInterest true .disableAll, .removeChannel true] = some s ∧
      (s.channels false).index = 0 := ⟨_, rfl, rfl⟩
  exact ⟨s, hrun, hindex, (bookkeeping twoChannels_start hrun).1⟩

end Eureka.Poller

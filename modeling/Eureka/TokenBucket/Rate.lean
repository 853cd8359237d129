import Eureka.Library.Transition
import Eureka.TokenBucket.Bucket

/-!
# The rate a bucket lets through

The runs of `DoTake` and `DoTakeAvailable` with positive counts and
non-decreasing ticks.  Every call leaves an entry behind: what it asked for,
what it got, and the tick from which its caller may go on.

The window bound rests on two facts, for the entries released at tick `lo` or
later and the slack `available - quantum * latestTick` of the bucket:

* their tokens and the slack together stay below `allowance - quantum * lo`,
  from the first of them on (`Ledger.Bounded.since`);
* a caller released at tick `hi` leaves a slack of `-(quantum * hi)` at least,
  because its wait covers its debt.
-/

namespace Eureka.TokenBucket

open Transition

/-- A call of `DoTake` or `DoTakeAvailable`. -/
structure Call where
  kind : Bucket.Kind
  tick : ℤ
  count : ℤ
deriving Repr, DecidableEq

/-- What is known about a finished call. -/
structure Entry where
  requested : ℤ
  tokens : ℤ
  released : ℤ
deriving Repr, DecidableEq

structure Ledger where
  bucket : Bucket
  entries : List Entry
deriving Repr, DecidableEq

namespace Ledger

/-- A `DoTake` is released at its call tick plus its wait, and a `DoTakeAvailable` at once. -/
def releaseTick (behind : Bucket) (call : Call) : ℤ :=
  match call.kind with
  | .take => call.tick + behind.waitTicks
  | .takeAvailable => call.tick

def call (l : Ledger) (c : Call) : Ledger :=
  let (behind, tokens) := l.bucket.lockSection c.kind c.tick c.count
  ⟨behind, l.entries ++ [⟨c.count, tokens, releaseTick behind c⟩]⟩

/-- Calls with positive counts, whose ticks the bucket's assertion accepts. -/
def calls (cap fillTick quantum : ℤ) : System Ledger Call where
  start l := ∃ now, Bucket.construct cap fillTick quantum now = .ok l.bucket ∧ l.entries = []
  step l c := if 0 < c.count ∧ l.bucket.Asserts c.tick then some (l.call c) else none

/-- The tokens of the entries released at tick `lo` or later. -/
def since (lo : ℤ) (entries : List Entry) : ℤ :=
  (entries.map fun e => if lo ≤ e.released then e.tokens else 0).sum

/-- The tokens of the entries released in the ticks `lo` to `hi`. -/
def within (lo hi : ℤ) (entries : List Entry) : ℤ :=
  (entries.map fun e => if lo ≤ e.released ∧ e.released ≤ hi then e.tokens else 0).sum

/-- What a window of a single tick may let through, when no call asks for more than `m`. -/
def allowance (b : Bucket) (m : ℤ) : ℤ := max b.capacity (m + b.quantum - 1)

/-! ## The entries of a window -/

@[simp] theorem since_nil (lo : ℤ) : since lo [] = 0 := rfl

@[simp] theorem within_nil (lo hi : ℤ) : within lo hi [] = 0 := rfl

theorem since_append_singleton (lo : ℤ) (entries : List Entry) (e : Entry) :
    since lo (entries ++ [e]) = since lo entries + if lo ≤ e.released then e.tokens else 0 := by
  simp only [since, List.map_append, List.map_singleton, List.sum_append, List.sum_singleton]

theorem within_append_singleton (lo hi : ℤ) (entries : List Entry) (e : Entry) :
    within lo hi (entries ++ [e]) =
      within lo hi entries + if lo ≤ e.released ∧ e.released ≤ hi then e.tokens else 0 := by
  simp only [within, List.map_append, List.map_singleton, List.sum_append, List.sum_singleton]

theorem within_le_since (lo hi : ℤ) {entries : List Entry} (hentries : ∀ e ∈ entries, 0 ≤ e.tokens) :
    within lo hi entries ≤ since lo entries := by
  apply List.sum_le_sum
  intro e he
  have htokens := hentries e he
  split_ifs <;> omega

/-! ## The invariant -/

/-- The invariant of all runs in which no call asks for more than `m`. -/
structure Bounded (l : Ledger) (m : ℤ) : Prop where
  valid : l.bucket.Valid
  tokens_nonneg : ∀ e ∈ l.entries, 0 ≤ e.tokens
  /-- Either nothing is released since `lo`, or it is paid for by the slack. -/
  since : ∀ lo, since lo l.entries = 0 ∨
    since lo l.entries + l.bucket.slack ≤ allowance l.bucket m - l.bucket.quantum * lo
  within : ∀ lo hi, lo ≤ hi →
    within lo hi l.entries ≤ allowance l.bucket m + l.bucket.quantum * (hi - lo)

variable {l : Ledger} {m : ℤ} {c : Call}

/-- A call as a refill, a debit of at most `count` tokens and a new entry, with
a wait that covers the debt. -/
theorem call_cases (hvalid : l.bucket.Valid) (hcount : 0 < c.count) :
    ∃ taken released, 0 ≤ taken ∧ taken ≤ c.count ∧ c.tick ≤ released ∧
      l.call c = ⟨(l.bucket.adjustAvailableTokens c.tick).debit taken,
        l.entries ++ [⟨c.count, taken, released⟩]⟩ ∧
      (0 < taken → -(l.bucket.quantum * released) ≤
        ((l.bucket.adjustAvailableTokens c.tick).debit taken).slack) ∧
      (c.tick < released →
        ((l.bucket.adjustAvailableTokens c.tick).debit taken).slack
          < -(l.bucket.quantum * (released - 1))) := by
  obtain ⟨taken, hnonneg, hle, heq, hcover⟩ :=
    Bucket.lockSection_cases l.bucket c.kind c.tick hcount
  have hbehind := (hvalid.adjust c.tick).debit hnonneg
  have hcall : l.call c = ⟨(l.bucket.adjustAvailableTokens c.tick).debit taken,
      l.entries ++ [⟨c.count, taken,
        releaseTick ((l.bucket.adjustAvailableTokens c.tick).debit taken) c⟩]⟩ := by
    unfold call
    rw [heq]
  refine ⟨taken, _, hnonneg, hle, ?_, hcall, ?_⟩
  all_goals unfold releaseTick; cases hkind : c.kind
  case refine_1.take => exact le_add_of_nonneg_right (Bucket.waitTicks_nonneg hbehind)
  case refine_1.takeAvailable => exact le_refl _
  case refine_2.take =>
      have hcovers := Bucket.neg_le_slack hbehind
      have hless := Bucket.slack_lt_of_waits hbehind
      simp only [Bucket.debit_quantum, Bucket.debit_latestTick, Bucket.adjust_quantum,
        Bucket.adjust_latestTick] at hcovers hless
      refine ⟨fun _ => hcovers, ?_⟩
      intro hlt
      exact hless (by simpa using hlt)
  case refine_2.takeAvailable =>
      refine ⟨?_, fun hlt => absurd hlt (lt_irrefl _)⟩
      intro htaken
      have havailable := hcover hkind htaken
      simp only [Bucket.slack, Bucket.debit_quantum, Bucket.debit_latestTick,
        Bucket.adjust_quantum, Bucket.adjust_latestTick]
      omega

/-- The first entry released since `lo` is within the allowance. -/
theorem first_since {b : Bucket} (hb : b.Valid) {count taken released lo : ℤ}
    (htaken : taken ≤ count) (hcount : count ≤ m) (hlo : lo ≤ released) (htick : b.latestTick ≤ released)
    (hwaits : b.latestTick < released →
      (b.debit taken).slack < -(b.quantum * (released - 1))) :
    taken + (b.debit taken).slack ≤ allowance b m - b.quantum * lo := by
  have hslack := Bucket.debit_slack b taken
  have hmono : b.quantum * lo ≤ b.quantum * released :=
    mul_le_mul_of_nonneg_left hlo hb.quantum_pos.le
  have hcap := le_max_left b.capacity (m + b.quantum - 1)
  have hrequest := le_max_right b.capacity (m + b.quantum - 1)
  have hfull := hb.available_le
  unfold allowance
  rcases htick.eq_or_lt with heq | hlt
  · -- It did not wait: the balance it found was the capacity at most.
    have hbalance : b.slack = b.available - b.quantum * released := by
      rw [Bucket.slack, heq]
    omega
  · -- It waited: a tick earlier its request was not covered.
    have hless := hwaits hlt
    rw [mul_sub, mul_one] at hless
    omega

/-- What is released since `lo` stays paid for: by the slack if something was
released before, and by the allowance for the first entry. -/
theorem Bounded.since_call (hl : l.Bounded m) {taken released : ℤ} (hnonneg : 0 ≤ taken)
    (hle : taken ≤ c.count) (hm : c.count ≤ m) (hassert : l.bucket.Asserts c.tick)
    (hreleased : c.tick ≤ released)
    (hwaits : c.tick < released → ((l.bucket.adjustAvailableTokens c.tick).debit taken).slack
      < -(l.bucket.quantum * (released - 1))) (lo : ℤ) :
    Ledger.since lo (l.entries ++ [⟨c.count, taken, released⟩]) = 0 ∨
      Ledger.since lo (l.entries ++ [⟨c.count, taken, released⟩])
          + ((l.bucket.adjustAvailableTokens c.tick).debit taken).slack
        ≤ allowance l.bucket m - l.bucket.quantum * lo := by
  have hrefill := Bucket.adjustAvailableTokens_slack hl.valid (fun _ => hassert)
  have hdebit := Bucket.debit_slack (l.bucket.adjustAvailableTokens c.tick) taken
  rw [since_append_singleton]
  dsimp only
  rcases hl.since lo with hnone | hsome
  · by_cases hlo : lo ≤ released
    · right
      have hfirst := first_since (m := m) (hl.valid.adjust c.tick) hle hm hlo
        (by rw [Bucket.adjust_latestTick]; exact hreleased)
        (by rw [Bucket.adjust_latestTick, Bucket.adjust_quantum]; exact hwaits)
      unfold allowance at hfirst ⊢
      rw [Bucket.adjust_capacity, Bucket.adjust_quantum] at hfirst
      rw [if_pos hlo]
      omega
    · left
      rw [if_neg hlo]
      omega
  · right
    split_ifs <;> omega

theorem Bounded.zero_le (hl : l.Bounded m) {lo hi : ℤ} (hlohi : lo ≤ hi) :
    0 ≤ allowance l.bucket m + l.bucket.quantum * (hi - lo) := by
  have hzero : 0 ≤ l.bucket.quantum * (hi - lo) :=
    mul_nonneg hl.valid.quantum_pos.le (by omega)
  have hcap := le_max_left l.bucket.capacity (m + l.bucket.quantum - 1)
  have hpos := hl.valid.quantum_pos.trans_le hl.valid.quantum_le
  unfold allowance
  omega

theorem Bounded.call (hl : l.Bounded m) (hcount : 0 < c.count) (hm : c.count ≤ m)
    (hassert : l.bucket.Asserts c.tick) : (l.call c).Bounded m := by
  obtain ⟨taken, released, hnonneg, hle, hreleased, heq, hcover, hwaits⟩ :=
    call_cases hl.valid hcount
  have hsince := hl.since_call hnonneg hle hm hassert hreleased hwaits
  have hallowance : ∀ n, allowance ((l.bucket.adjustAvailableTokens c.tick).debit n) m
      = allowance l.bucket m := by
    intro n
    simp only [allowance, Bucket.debit, Bucket.adjust_capacity, Bucket.adjust_quantum]
  have hquantum : ∀ n, ((l.bucket.adjustAvailableTokens c.tick).debit n).quantum
      = l.bucket.quantum := by
    intro n
    simp only [Bucket.debit, Bucket.adjust_quantum]
  have htokens : ∀ e ∈ l.entries ++ [⟨c.count, taken, released⟩], 0 ≤ e.tokens := by
    intro e he
    rcases List.mem_append.mp he with he | he
    · exact hl.tokens_nonneg e he
    · rw [List.mem_singleton.mp he]
      exact hnonneg
  rw [heq]
  refine ⟨(hl.valid.adjust c.tick).debit hnonneg, htokens, ?_, ?_⟩
  · intro lo
    rw [hallowance, hquantum]
    exact hsince lo
  · intro lo hi hlohi
    have hbefore := hl.within lo hi hlohi
    rw [hallowance, hquantum]
    dsimp only
    by_cases hcounted : (lo ≤ released ∧ released ≤ hi) ∧ 0 < taken
    · -- The window ends with this entry, whose wait covers the debt.
      have hdebt := hcover hcounted.2
      have hwithin := within_le_since lo hi htokens
      have hmono : l.bucket.quantum * released ≤ l.bucket.quantum * hi :=
        mul_le_mul_of_nonneg_left hcounted.1.2 hl.valid.quantum_pos.le
      rcases hsince lo with hnone | hsome
      · exact (hwithin.trans_eq hnone).trans (hl.zero_le hlohi)
      · rw [mul_sub]
        omega
    · rw [within_append_singleton]
      dsimp only
      split_ifs <;> omega

theorem bounded_of_start {cap fillTick quantum : ℤ} {s : Ledger}
    (hs : (calls cap fillTick quantum).start s) (m : ℤ) : s.Bounded m := by
  obtain ⟨now, hbucket, hentries⟩ := hs
  have hvalid := Bucket.valid_of_construct hbucket
  have hcap := le_max_left s.bucket.capacity (m + s.bucket.quantum - 1)
  have hpos := hvalid.quantum_pos.trans_le hvalid.quantum_le
  refine ⟨hvalid, by simp [hentries], fun lo => .inl (by simp [hentries]), ?_⟩
  intro lo hi hlohi
  have hzero : 0 ≤ s.bucket.quantum * (hi - lo) :=
    mul_nonneg hvalid.quantum_pos.le (by omega)
  rw [hentries, within_nil]
  unfold allowance
  omega

theorem step_cases {cap fillTick quantum : ℤ} {l' : Ledger}
    (hstep : (calls cap fillTick quantum).step l c = some l') :
    0 < c.count ∧ l.bucket.Asserts c.tick ∧ l' = l.call c := by
  simp only [calls, Option.ite_none_right_eq_some, Option.some.injEq] at hstep
  exact ⟨hstep.1.1, hstep.1.2, hstep.2.symm⟩

/-- What holds of every ledger that the calls lead to. -/
structure Reached (cap fillTick quantum : ℤ) (l : Ledger) : Prop where
  capacity_eq : l.bucket.capacity = cap
  fillTick_eq : l.bucket.fillTick = fillTick
  quantum_eq : l.bucket.quantum = quantum
  bounded : ∀ m, (∀ e ∈ l.entries, e.requested ≤ m) → l.Bounded m

theorem Reached.valid {cap fillTick quantum : ℤ} (hl : l.Reached cap fillTick quantum) :
    l.bucket.Valid := by
  obtain ⟨m, hm⟩ : ∃ m : ℤ, ∀ e ∈ l.entries, e.requested ≤ m := by
    refine ⟨(l.entries.map fun e => |e.requested|).sum, ?_⟩
    intro e he
    have habs : |e.requested| ≤ (l.entries.map fun e => |e.requested|).sum := by
      refine List.single_le_sum ?_ _ (List.mem_map_of_mem he)
      intro x hx
      obtain ⟨e', -, rfl⟩ := List.mem_map.mp hx
      exact abs_nonneg _
    exact (le_abs_self _).trans habs
  exact (hl.bounded m hm).valid

theorem reached {cap fillTick quantum : ℤ}
    (hl : (calls cap fillTick quantum).Reachable l) : l.Reached cap fillTick quantum := by
  refine hl.invariant ?_ ?_
  · intro l hstart
    obtain ⟨now, hbucket, hentries⟩ := hstart
    obtain ⟨-, -, heq⟩ := Bucket.construct_eq_ok hbucket
    refine ⟨by rw [heq], by rw [heq], by rw [heq], ?_⟩
    intro m _
    exact bounded_of_start ⟨now, hbucket, hentries⟩ m
  · intro l c l' hl hstep
    obtain ⟨hcount, hassert, rfl⟩ := step_cases hstep
    refine ⟨(Bucket.lockSection_capacity _ _ _ _).trans hl.capacity_eq,
      (Bucket.lockSection_fillTick _ _ _ _).trans hl.fillTick_eq,
      (Bucket.lockSection_quantum _ _ _ _).trans hl.quantum_eq, ?_⟩
    intro m hm
    have hentries : (l.call c).entries
        = l.entries ++ [⟨c.count, (l.bucket.lockSection c.kind c.tick c.count).2,
          releaseTick (l.call c).bucket c⟩] := rfl
    rw [hentries] at hm
    refine (hl.bounded m ?_).call hcount ?_ hassert
    · intro e he
      exact hm e (List.mem_append_left _ he)
    · exact hm _ (List.mem_append_right _ (List.mem_singleton_self _))

/-- **Rate safety.**  The balance stays below the capacity, the wait of a
`DoTake` is the least one that covers its debt, and every window of ticks lets
through its refill and one allowance at most. -/
theorem rate_safe {cap fillTick quantum : ℤ} {s : Ledger}
    (hs : (calls cap fillTick quantum).Reachable s) :
    s.bucket.available ≤ cap ∧
      (∀ tick count, 0 < count → ∃ wait,
        (s.bucket.doTake tick count).2 = wait * fillTick ∧
        (s.call ⟨.take, tick, count⟩).entries = s.entries ++ [⟨count, count, tick + wait⟩] ∧
        IsLeast {n : ℤ | 0 ≤ n ∧
          0 ≤ ((s.bucket.doTake tick count).1.adjustAvailableTokens (tick + n)).available}
          wait) ∧
      ∀ m lo hi, (∀ e ∈ s.entries, e.requested ≤ m) → lo ≤ hi →
        within lo hi s.entries ≤ max cap (m + quantum - 1) + quantum * (hi - lo) := by
  have hreached := reached hs
  refine ⟨hreached.valid.available_le.trans_eq hreached.capacity_eq, ?_, ?_⟩
  · intro tick count hcount
    have hbehind := (hreached.valid.adjust tick).debit hcount.le
    have hleast := Bucket.waitTicks_isLeast hbehind
    rw [Bucket.debit_latestTick, Bucket.adjust_latestTick] at hleast
    have htake := Bucket.doTake_eq s.bucket tick count
    refine ⟨((s.bucket.adjustAvailableTokens tick).debit count).waitTicks, ?_, ?_, ?_⟩
    · rw [htake, hreached.fillTick_eq]
    · simp only [call, Bucket.lockSection, releaseTick, htake]
    · rw [htake]
      exact hleast
  · intro m lo hi hm hlohi
    have hwithin := (hreached.bounded m hm).within lo hi hlohi
    rw [allowance, hreached.capacity_eq, hreached.quantum_eq] at hwithin
    exact hwithin

/-- A bucket of 10 tokens with 4 more every tick: a `Take` of 15 and one of 10
are released at the ticks 2 and 4. -/
theorem rate_safe_two_takes :
    (calls 10 5 4).Reachable
        ⟨⟨10, -15, 5, 4, 0, 0⟩, [⟨15, 15, 2⟩, ⟨10, 10, 4⟩]⟩ ∧
      within 2 4 [⟨15, 15, 2⟩, ⟨10, 10, 4⟩] ≤ max 10 (15 + 4 - 1) + 4 * (4 - 2) := by
  have hreach : (calls 10 5 4).Reachable
      ⟨⟨10, -15, 5, 4, 0, 0⟩, [⟨15, 15, 2⟩, ⟨10, 10, 4⟩]⟩ :=
    ⟨⟨⟨10, 10, 5, 4, 0, 0⟩, []⟩, [⟨.take, 0, 15⟩, ⟨.take, 0, 10⟩], ⟨0, rfl, rfl⟩, by decide⟩
  exact ⟨hreach, (rate_safe hreach).2.2 15 2 4 (by decide) (by decide)⟩

end Ledger

end Eureka.TokenBucket

import Mathlib
import Eureka.BloomFilter.Filter

/-!
# Histories of a Bloom filter

What a filter answers after any sequence of calls.  All of it is read off the
set of its bits, which is the union of the probes of the elements that were
added (`run_eq`): a set does not remember in which order it was joined, every
element added is a part of it, and it grows whenever an addition succeeds, so
`size` cannot wrap around.

`run_obeys` assembles this.
-/

namespace Eureka.BloomFilter

open BitArray

/-- The numbers a filter is constructed with. -/
structure Params where
  hashes : ℕ
  numBits : ℕ
  hashes_pos : 0 < hashes
  power_of_two : ∃ exponent, 3 ≤ exponent ∧ exponent < 64 ∧ numBits = 2 ^ exponent

inductive Call
  | add (data : Bytes) (len : ℤ)
  | mayContain (data : Bytes) (len : ℤ)
deriving DecidableEq, Repr

namespace Call

def len : Call → ℤ
  | add _ len => len
  | mayContain _ len => len

def isAdd : Call → Bool
  | add _ _ => true
  | mayContain _ _ => false

end Call

def perform (hash : Hash) (f : Filter) : Call → Except Fault (Bool × Filter)
  | .add data len => f.addElement hash data len
  | .mayContain data len => f.mayContain hash data len

def run (hash : Hash) : Filter → List Call → Except Fault (List Bool × Filter)
  | f, [] => .ok ([], f)
  | f, call :: calls => do
      let (answer, f) ← perform hash f call
      let (answers, f) ← run hash f calls
      return (answer :: answers, f)

def successes : List Call → List Bool → ℕ
  | call :: calls, answer :: answers =>
      (if call.isAdd && answer then 1 else 0) + successes calls answers
  | _, _ => 0

def addedBits (hash : Hash) (hashes numBits : ℕ) : List Call → Finset ℕ
  | [] => ∅
  | .add data len :: calls =>
      Filter.probes hash hashes numBits data len ∪ addedBits hash hashes numBits calls
  | .mayContain _ _ :: calls => addedBits hash hashes numBits calls

/-- What is promised of a filter that was constructed and called like this. -/
structure Obeys (hash : Hash) (p : Params) (calls : List Call) (answers : List Bool)
    (f : Filter) : Prop where
  /-- An addition succeeds exactly if the element was not there, and to ask changes nothing. -/
  add_iff : ∀ data len, 0 < len → ∃ added next, f.addElement hash data len = .ok (added, next) ∧
    f.mayContain hash data len = .ok (!added, f)
  /-- What was added stays. -/
  contains : ∀ data len, Call.add data len ∈ calls → f.mayContain hash data len = .ok (true, f)
  size_eq : f.size = successes calls answers
  /-- Only what was added matters for the bits, not when. -/
  bytes_eq : ∀ others otherAnswers other, (∀ call ∈ others, 0 < call.len) →
    run hash (Filter.create p.hashes p.numBits) others = .ok (otherAnswers, other) →
    (∀ data len, Call.add data len ∈ others ↔ Call.add data len ∈ calls) → other.bytes = f.bytes

/-! ## One call -/

variable {hash : Hash} {f : Filter} {data : Bytes} {len : ℤ} {calls : List Call}
  {answers : List Bool} {hashes numBits : ℕ}

/-- The bits of an element, in a filter of this shape. -/
abbrev Filter.probesOf (hash : Hash) (f : Filter) (data : Bytes) (len : ℤ) : Finset ℕ :=
  Filter.probes hash f.hashes f.numBits data len

theorem mayContain_eq (hf : f.Valid) (hlen : 0 < len) :
    f.mayContain hash data len =
      .ok (decide (f.probesOf hash data len ⊆ ones f.bytes), f) := by
  unfold Filter.mayContain
  rw [if_neg (not_le.mpr hlen)]
  exact Filter.checkAddHash_read hf

/-- `size` after an addition. -/
def Filter.sizeAfter (f : Filter) (added : Bool) : ℕ :=
  if added then (f.size + 1) % 2 ^ 64 else f.size

theorem addElement_eq (hash : Hash) (data : Bytes) (hf : f.Valid) (hlen : 0 < len) :
    ∃ bytes, f.addElement hash data len =
        .ok (!decide (f.probesOf hash data len ⊆ ones f.bytes),
          { f with
            bytes
            size := f.sizeAfter !decide (f.probesOf hash data len ⊆ ones f.bytes) }) ∧
      bytes.length = f.bytes.length ∧ ones bytes = f.probesOf hash data len ∪ ones f.bytes := by
  have hwrite : ∃ bytes, f.checkAddHash (calcDataHash hash data len).1.toNat
        (calcDataHash hash data len).2.toNat .write =
          .ok (!decide (f.probesOf hash data len ⊆ ones f.bytes), { f with bytes }) ∧
        bytes.length = f.bytes.length ∧ ones bytes = f.probesOf hash data len ∪ ones f.bytes :=
    Filter.checkAddHash_write hf
  obtain ⟨bytes, hloop, hbytes⟩ := hwrite
  refine ⟨bytes, ?_, hbytes⟩
  unfold Filter.addElement Filter.sizeAfter
  rw [if_neg (not_le.mpr hlen)]
  dsimp only
  rw [hloop]
  cases !decide (f.probesOf hash data len ⊆ ones f.bytes) <;> rfl

/-! ## Runs -/

theorem mem_addedBits {i : ℕ} :
    i ∈ addedBits hash hashes numBits calls ↔
      ∃ data len, Call.add data len ∈ calls ∧ i ∈ Filter.probes hash hashes numBits data len := by
  induction calls with
  | nil => simp [addedBits]
  | cons call calls ih =>
      cases call with
      | add data len =>
          rw [addedBits, Finset.mem_union, ih]
          constructor
          · rintro (hi | ⟨later, laterLen, hmem, hi⟩)
            · exact ⟨data, len, List.mem_cons_self, hi⟩
            · exact ⟨later, laterLen, List.mem_cons_of_mem _ hmem, hi⟩
          · rintro ⟨other, otherLen, hmem, hi⟩
            obtain heq | hmem := List.mem_cons.mp hmem
            · cases heq
              exact .inl hi
            · exact .inr ⟨other, otherLen, hmem, hi⟩
      | mayContain data len =>
          rw [addedBits, ih]
          simp

/-- As many elements were counted as bits are set at most. -/
structure Counted (f : Filter) : Prop extends f.Valid where
  numBits_lt : f.numBits < 2 ^ 64
  size_le : f.size ≤ (ones f.bytes).card

theorem counted_create (p : Params) : Counted (Filter.create p.hashes p.numBits) := by
  obtain ⟨exponent, hge, hlt, heq⟩ := p.power_of_two
  refine ⟨Filter.valid_create ?_ ?_, ?_, Nat.zero_le _⟩
  · rw [heq]
    exact Nat.pow_dvd_pow 2 hge
  · rw [heq]
    exact Nat.pow_pos (by decide)
  · show p.numBits < _
    rw [heq]
    exact Nat.pow_lt_pow_right (by decide) hlt

/-- An addition that succeeds sets a bit, so that the size stays below the bits. -/
theorem Counted.sizeAfter_eq (hf : Counted f) {bytes : Bytes} {bits : Finset ℕ}
    (hlength : bytes.length = f.bytes.length) (hones : ones bytes = bits ∪ ones f.bytes) :
    f.sizeAfter (!decide (bits ⊆ ones f.bytes)) =
        (if !decide (bits ⊆ ones f.bytes) then 1 else 0) + f.size ∧
      (if !decide (bits ⊆ ones f.bytes) then 1 else 0) + f.size ≤ (ones bytes).card := by
  have hle := hf.size_le
  unfold Filter.sizeAfter
  by_cases hold : bits ⊆ ones f.bytes
  · rw [hones, Finset.union_eq_right.mpr hold]
    simp [hold, hle]
  · have hgrows : (ones f.bytes).card < (ones bytes).card := by
      apply Finset.card_lt_card
      rw [hones]
      exact ⟨Finset.subset_union_right, fun hle => hold (Finset.subset_union_left.trans hle)⟩
    have hbound : (ones bytes).card < 2 ^ 64 :=
      calc (ones bytes).card ≤ (Finset.range (8 * bytes.length)).card :=
            Finset.card_le_card ones_subset
        _ = f.numBits := by rw [Finset.card_range, hlength, hf.numBits_eq]
        _ < 2 ^ 64 := hf.numBits_lt
    simp only [hold, decide_false, Bool.not_false, if_true]
    omega

theorem perform_spec (hash : Hash) (hf : Counted f) {call : Call} (hlen : 0 < call.len) :
    ∃ answer next, perform hash f call = .ok (answer, next) ∧ Counted next ∧
      next.hashes = f.hashes ∧ next.numBits = f.numBits ∧
      next.bytes.length = f.bytes.length ∧
      ones next.bytes = addedBits hash f.hashes f.numBits [call] ∪ ones f.bytes ∧
      next.size = (if call.isAdd && answer then 1 else 0) + f.size := by
  cases call with
  | mayContain data len =>
      refine ⟨_, f, mayContain_eq hf.toValid hlen, hf, rfl, rfl, rfl, ?_, ?_⟩
      · rw [addedBits, addedBits, Finset.empty_union]
      · exact (Nat.zero_add _).symm
  | add data len =>
      have hpos : 0 < len := hlen
      obtain ⟨bytes, hadd, hlength, hones⟩ := addElement_eq hash data hf.toValid hpos
      obtain ⟨hsize, hle⟩ := hf.sizeAfter_eq hlength hones
      refine ⟨_, _, hadd, ⟨⟨?_, hf.numBits_pos⟩, hf.numBits_lt, ?_⟩, rfl, rfl, hlength, ?_, hsize⟩
      · exact hf.numBits_eq.trans (by rw [hlength])
      · exact hsize.trans_le hle
      · rw [addedBits, addedBits, Finset.union_empty, hones]

theorem addedBits_cons (call : Call) :
    addedBits hash hashes numBits (call :: calls) =
      addedBits hash hashes numBits [call] ∪ addedBits hash hashes numBits calls := by
  cases call with
  | add data len => rw [addedBits, addedBits, addedBits, Finset.union_empty]
  | mayContain data len => rw [addedBits, addedBits, addedBits, Finset.empty_union]

/-- **A run ends in the bits of what was added.** -/
theorem run_eq (hash : Hash) (hf : Counted f) (hpos : ∀ call ∈ calls, 0 < call.len) :
    ∃ answers next, run hash f calls = .ok (answers, next) ∧ Counted next ∧
      next.hashes = f.hashes ∧ next.numBits = f.numBits ∧
      next.bytes.length = f.bytes.length ∧
      ones next.bytes = addedBits hash f.hashes f.numBits calls ∪ ones f.bytes ∧
      next.size = successes calls answers + f.size := by
  induction calls generalizing f with
  | nil =>
      refine ⟨[], f, rfl, hf, rfl, rfl, rfl, ?_, ?_⟩
      · rw [addedBits, Finset.empty_union]
      · exact (Nat.zero_add _).symm
  | cons call calls ih =>
      obtain ⟨hcall, hcalls⟩ := List.forall_mem_cons.mp hpos
      obtain ⟨answer, next, hperform, hnext, hhashes, hbits, hlength, hones, hsize⟩ :=
        perform_spec hash hf hcall
      obtain ⟨answers, last, hrun, hlast, hhashes', hbits', hlength', hones', hsize'⟩ :=
        ih hnext hcalls
      refine ⟨answer :: answers, last, ?_, hlast, hhashes'.trans hhashes, hbits'.trans hbits,
        hlength'.trans hlength, ?_, ?_⟩
      · rw [run, hperform]
        show (run hash next calls >>= _) = _
        rw [hrun]
        rfl
      · have hcons : addedBits hash f.hashes f.numBits (call :: calls) = _ := addedBits_cons call
        rw [hones', hones, hhashes, hbits, hcons, Finset.union_left_comm, Finset.union_assoc]
      · rw [hsize', hsize, successes]
        omega

/-- **A Bloom filter keeps its promises over every history.** -/
theorem run_obeys (hash : Hash) (p : Params) (hpos : ∀ call ∈ calls, 0 < call.len) :
    ∃ answers f, run hash (Filter.create p.hashes p.numBits) calls = .ok (answers, f) ∧
      Obeys hash p calls answers f := by
  obtain ⟨answers, f, hrun, hf, hhashes, hbits, hlength, hones, hsize⟩ :=
    run_eq hash (counted_create p) hpos
  have hempty : ones (Filter.create p.hashes p.numBits).bytes = ∅ := ones_replicate_zero _
  rw [hempty, Finset.union_empty] at hones
  refine ⟨answers, f, hrun, ?_, ?_, ?_, ?_⟩
  · intro data len hlen
    obtain ⟨bytes, hadd, -⟩ := addElement_eq hash data hf.toValid hlen
    refine ⟨_, _, hadd, ?_⟩
    rw [mayContain_eq hf.toValid hlen, Bool.not_not]
  · intro data len hmem
    have hlen : 0 < len := hpos _ hmem
    rw [mayContain_eq hf.toValid hlen, decide_eq_true]
    intro i hi
    rw [hones, mem_addedBits]
    exact ⟨data, len, hmem, hhashes ▸ hbits ▸ hi⟩
  · exact hsize
  · intro others otherAnswers other hothers hother hsame
    obtain ⟨_, _, hagain, -, -, -, hlength', hones', -⟩ :=
      run_eq hash (counted_create p) hothers
    obtain ⟨-, rfl⟩ := Prod.mk.inj (Except.ok.inj (hother.symm.trans hagain))
    apply eq_of_ones_eq (hlength'.trans hlength.symm)
    rw [hones', hones, hempty, Finset.union_empty]
    ext i
    simp only [mem_addedBits, hsame]

/-- A hash that ignores its seed, so that all probes of an element may be the same bit. -/
theorem run_obeys_of_collisions :
    ∃ answers f,
      run (fun data _ _ => UInt32.ofNat data.length) (Filter.create 3 8)
          [.mayContain [1] 1, .add [1] 1, .add [2] 1, .mayContain [1, 2] 2] = .ok (answers, f) ∧
        Obeys (fun data _ _ => UInt32.ofNat data.length)
          ⟨3, 8, by decide, 3, by decide, by decide, by decide⟩
          [.mayContain [1] 1, .add [1] 1, .add [2] 1, .mayContain [1, 2] 2] answers f :=
  run_obeys _ ⟨3, 8, by decide, 3, by decide, by decide, by decide⟩ (by decide)

end Eureka.BloomFilter

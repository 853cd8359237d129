import Mathlib

/-!
# Bounded maps that forget the least recently used key

A map with at most `n` keys, most recently used key first.  Reading a key and writing it are uses of
it, and a write into a full map pushes the key at the end out.

The uses of a map are recorded most recent use first.  Against them

* `ordered_replay`: the keys stand in the order of their last use;
* `lastPut_of_mem_replay`: every key has the value that was written last;
* `put_of_full`, `put_of_mem`: which key a write pushes out, if any.
-/

namespace Eureka

/-- A map with at most `n` keys, most recently used first. -/
@[ext]
structure LruMap (K V : Type) (n : ℕ) where
  entries : List (K × V)
  nodup : (entries.map Prod.fst).Nodup
  length_le : entries.length ≤ n

namespace LruMap

/-- One use of a map. -/
inductive Use (K V : Type)
  | get (key : K)
  | put (key : K) (value : V)
  deriving DecidableEq

def Use.key {K V : Type} : Use K V → K
  | .get key => key
  | .put key _ => key

variable {K V : Type} [DecidableEq K] {n : ℕ}

/-- The entries of the other keys, in their order. -/
def others (entries : List (K × V)) (key : K) : List (K × V) :=
  entries.filter (·.1 ≠ key)

/-- The entries with that of `key` in front, if there is one. -/
def toFront (entries : List (K × V)) (key : K) : List (K × V) :=
  entries.filter (·.1 = key) ++ others entries key

theorem mem_others {entries : List (K × V)} {key : K} {entry : K × V} :
    entry ∈ others entries key ↔ entry ∈ entries ∧ entry.1 ≠ key := by
  rw [others, List.mem_filter, decide_eq_true_eq]

theorem others_sublist (entries : List (K × V)) (key : K) :
    (others entries key).Sublist entries :=
  List.filter_sublist

theorem others_of_notMem {entries : List (K × V)} {key : K} (h : key ∉ entries.map Prod.fst) :
    others entries key = entries := by
  refine List.filter_eq_self.mpr fun entry hentry => ?_
  rw [decide_eq_true_eq]
  rintro rfl
  exact h (List.mem_map_of_mem hentry)

theorem others_length_lt {entries : List (K × V)} {key : K} (h : key ∈ entries.map Prod.fst) :
    (others entries key).length < entries.length := by
  obtain ⟨entry, hentry, rfl⟩ := List.mem_map.mp h
  refine List.length_filter_lt_length_iff_exists.mpr ⟨entry, hentry, ?_⟩
  simp only [ne_eq, not_true_eq_false, decide_false, Bool.false_eq_true, not_false_eq_true]

theorem toFront_perm (entries : List (K × V)) (key : K) :
    (toFront entries key).Perm entries := by
  have hperm := List.filter_append_perm (fun entry : K × V => decide (entry.1 = key)) entries
  simpa only [toFront, others, ne_eq, decide_not] using hperm

theorem toFront_of_notMem {entries : List (K × V)} {key : K} (h : key ∉ entries.map Prod.fst) :
    toFront entries key = entries := by
  have hnone : entries.filter (·.1 = key) = [] := by
    refine List.filter_eq_nil_iff.mpr fun entry hentry => ?_
    rw [decide_eq_true_eq]
    rintro rfl
    exact h (List.mem_map_of_mem hentry)
  rw [toFront, hnone, List.nil_append, others_of_notMem h]

omit [DecidableEq K] in
theorem notMem_of_nodup {before after : List (K × V)} {entry : K × V}
    (hnodup : ((before ++ entry :: after).map Prod.fst).Nodup) :
    entry.1 ∉ (before ++ after).map Prod.fst := by
  rw [List.map_append, List.map_cons, List.nodup_middle, ← List.map_append] at hnodup
  exact (List.nodup_cons.mp hnodup).1

theorem others_append_cons {before after : List (K × V)} {entry : K × V}
    (hnodup : ((before ++ entry :: after).map Prod.fst).Nodup) :
    others (before ++ entry :: after) entry.1 = before ++ after := by
  have hrest := others_of_notMem (notMem_of_nodup hnodup)
  simp only [others, List.filter_append] at hrest ⊢
  rw [List.filter_cons_of_neg (by simp), hrest]

theorem toFront_append_cons {before after : List (K × V)} {entry : K × V}
    (hnodup : ((before ++ entry :: after).map Prod.fst).Nodup) :
    toFront (before ++ entry :: after) entry.1 = entry :: (before ++ after) := by
  have hnone : ∀ part : List (K × V), part ⊆ before ++ after →
      part.filter (·.1 = entry.1) = [] := by
    intro part hpart
    refine List.filter_eq_nil_iff.mpr fun other hother => ?_
    rw [decide_eq_true_eq]
    intro heq
    exact notMem_of_nodup hnodup (heq ▸ List.mem_map_of_mem (hpart hother))
  rw [toFront, others_append_cons hnodup, List.filter_append, List.filter_cons_of_pos (by simp),
    hnone before (List.subset_append_left before after),
    hnone after (List.subset_append_right before after)]
  rfl

/-! ### The operations -/

def empty : LruMap K V n := ⟨[], List.nodup_nil, Nat.zero_le n⟩

/-- Reading a key moves it to the front. -/
def get (m : LruMap K V n) (key : K) : LruMap K V n where
  entries := toFront m.entries key
  nodup := ((toFront_perm m.entries key).map Prod.fst).nodup_iff.mpr m.nodup
  length_le := (toFront_perm m.entries key).length_eq ▸ m.length_le

/-- Writing a key puts it in front, and keeps what fits behind it. -/
def put (m : LruMap K V n) (key : K) (value : V) : LruMap K V n where
  entries := ((key, value) :: others m.entries key).take n
  nodup := by
    have hcons : (((key, value) :: others m.entries key).map Prod.fst).Nodup := by
      refine List.nodup_cons.mpr ⟨?_, m.nodup.sublist ((others_sublist _ _).map _)⟩
      intro hmem
      obtain ⟨entry, hentry, heq⟩ := List.mem_map.mp hmem
      exact (mem_others.mp hentry).2 heq
    exact hcons.sublist ((List.take_sublist _ _).map _)
  length_le := List.length_take_le _ _

/-- The map without the key that was not used for the longest time. -/
def forget (m : LruMap K V n) : LruMap K V n where
  entries := m.entries.dropLast
  nodup := m.nodup.sublist ((List.dropLast_sublist _).map _)
  length_le := (List.dropLast_sublist _).length_le.trans m.length_le

/-- The map after one more use. -/
def use (m : LruMap K V n) : Use K V → LruMap K V n
  | .get key => m.get key
  | .put key value => m.put key value

/-- The map behind its uses, the last of which is the first of the list. -/
def replay (n : ℕ) : List (Use K V) → LruMap K V n
  | [] => empty
  | use :: uses => (replay n uses).use use

theorem put_of_mem {m : LruMap K V n} {key : K} {value : V} (h : key ∈ m.entries.map Prod.fst) :
    (m.put key value).entries = (key, value) :: others m.entries key := by
  refine List.take_of_length_le ?_
  rw [List.length_cons]
  exact (others_length_lt h).trans_le m.length_le

theorem put_of_notMem {m : LruMap K V n} {key : K} {value : V} (h : key ∉ m.entries.map Prod.fst) :
    (m.put key value).entries = ((key, value) :: m.entries).take n :=
  congrArg (fun rest => ((key, value) :: rest).take n) (others_of_notMem h)

theorem put_of_room {m : LruMap K V n} {key : K} {value : V} (h : key ∉ m.entries.map Prod.fst)
    (hroom : m.entries.length < n) :
    (m.put key value).entries = (key, value) :: m.entries := by
  rw [put_of_notMem h]
  exact List.take_of_length_le hroom

theorem put_of_full {m : LruMap K V n} {key : K} {value : V} (h : key ∉ m.entries.map Prod.fst)
    (hn : 0 < n) (hfull : m.entries.length = n) : m.put key value = m.forget.put key value := by
  have hforget : key ∉ m.forget.entries.map Prod.fst := fun hmem =>
    h (((List.dropLast_sublist _).map _).subset hmem)
  have hroom : m.forget.entries.length < n := by
    rw [forget, List.length_dropLast, hfull]
    omega
  ext1
  obtain ⟨k, rfl⟩ := Nat.exists_eq_succ_of_ne_zero hn.ne'
  rw [put_of_room hforget hroom, put_of_notMem h, List.take_succ_cons]
  refine congrArg _ ?_
  change _ = m.entries.dropLast
  rw [List.dropLast_eq_take, hfull]
  rfl

/-- The only key of a map can be pushed out before it is written. -/
theorem put_of_single {m : LruMap K V n} {entry : K × V} (h : m.entries = [entry]) (value : V) :
    m.put entry.1 value = m.forget.put entry.1 value := by
  have hothers : others m.entries entry.1 = others m.entries.dropLast entry.1 := by
    rw [h, List.dropLast_singleton, others, List.filter_cons_of_neg (by simp)]
    rfl
  ext1
  exact congrArg (fun rest => ((entry.1, value) :: rest).take n) hothers

/-! ### The uses of a map -/

/-- The value that the uses, most recent first, have written last for a key. -/
def lastPut : List (Use K V) → K → Option V
  | [], _ => none
  | .get _ :: uses, key => lastPut uses key
  | .put written value :: uses, key => if written = key then some value else lastPut uses key

/-- How many uses ago a key was used last. -/
def age (uses : List (Use K V)) (key : K) : ℕ := (uses.map Use.key).idxOf key

/-- Keys whose last uses follow each other, the most recent one first. -/
def Ordered (uses : List (Use K V)) (keys : List K) : Prop :=
  keys.Pairwise fun newer older => age uses newer < age uses older

theorem age_cons_self (use : Use K V) (uses : List (Use K V)) : age (use :: uses) use.key = 0 := by
  rw [age, List.map_cons, List.idxOf_cons_self]

theorem age_cons_ne {use : Use K V} {uses : List (Use K V)} {key : K} (h : use.key ≠ key) :
    age (use :: uses) key = age uses key + 1 := by
  rw [age, List.map_cons, List.idxOf_cons_ne _ h]
  rfl

theorem Ordered.cons_of_ne {uses : List (Use K V)} {keys : List K} (h : Ordered uses keys)
    {use : Use K V} (hne : ∀ key ∈ keys, use.key ≠ key) : Ordered (use :: uses) keys := by
  refine h.imp_of_mem fun {newer older} hnewer holder hlt => ?_
  rw [age_cons_ne (hne newer hnewer), age_cons_ne (hne older holder)]
  exact Nat.succ_lt_succ hlt

theorem Ordered.cons_others {uses : List (Use K V)} {entries : List (K × V)}
    (h : Ordered uses (entries.map Prod.fst)) (use : Use K V) :
    Ordered (use :: uses) (use.key :: (others entries use.key).map Prod.fst) := by
  have hne : ∀ key ∈ (others entries use.key).map Prod.fst, use.key ≠ key := by
    intro key hkey
    obtain ⟨entry, hentry, rfl⟩ := List.mem_map.mp hkey
    exact (mem_others.mp hentry).2.symm
  have hothers : Ordered uses ((others entries use.key).map Prod.fst) :=
    h.sublist ((others_sublist entries use.key).map Prod.fst)
  refine List.pairwise_cons.mpr ⟨?_, hothers.cons_of_ne hne⟩
  intro key hkey
  rw [age_cons_self, age_cons_ne (hne key hkey)]
  exact Nat.succ_pos _

theorem ordered_use {m : LruMap K V n} {uses : List (Use K V)}
    (h : Ordered uses (m.entries.map Prod.fst)) (use : Use K V) :
    Ordered (use :: uses) ((m.use use).entries.map Prod.fst) := by
  cases use with
  | get key =>
      by_cases hkey : key ∈ m.entries.map Prod.fst
      · obtain ⟨entry, hentry, rfl⟩ := List.mem_map.mp hkey
        obtain ⟨before, after, hsplit⟩ := List.append_of_mem hentry
        have hnodup := m.nodup
        have hfront := h.cons_others (.get entry.1)
        rw [hsplit] at hnodup
        change Ordered _ ((toFront m.entries entry.1).map Prod.fst)
        rw [hsplit, toFront_append_cons hnodup, List.map_cons]
        rwa [hsplit, Use.key, others_append_cons hnodup] at hfront
      · change Ordered _ ((toFront m.entries key).map Prod.fst)
        rw [toFront_of_notMem hkey]
        refine h.cons_of_ne fun other hother heq => hkey ?_
        rwa [← heq] at hother
  | put key value =>
      refine (h.cons_others (.put key value)).sublist ?_
      exact (List.take_sublist n ((key, value) :: others m.entries key)).map Prod.fst

/-- **The keys stand in the order of their last use.** -/
theorem ordered_replay (n : ℕ) (uses : List (Use K V)) :
    Ordered uses ((replay n uses).entries.map Prod.fst) := by
  induction uses with
  | nil => exact List.Pairwise.nil
  | cons use uses ih => exact ordered_use ih use

theorem lastPut_use {m : LruMap K V n} {uses : List (Use K V)}
    (h : ∀ entry ∈ m.entries, lastPut uses entry.1 = some entry.2) (use : Use K V) :
    ∀ entry ∈ (m.use use).entries, lastPut (use :: uses) entry.1 = some entry.2 := by
  intro entry hentry
  cases use with
  | get key => exact h entry ((toFront_perm m.entries key).mem_iff.mp hentry)
  | put key value =>
      obtain rfl | hother := List.mem_cons.mp (List.mem_of_mem_take hentry)
      · exact if_pos rfl
      · rw [mem_others] at hother
        rw [lastPut, if_neg hother.2.symm]
        exact h entry hother.1

/-- **Every key has the value that was written last.** -/
theorem lastPut_of_mem_replay {uses : List (Use K V)} {entry : K × V}
    (hentry : entry ∈ (replay n uses).entries) : lastPut uses entry.1 = some entry.2 := by
  induction uses generalizing entry with
  | nil => cases hentry
  | cons use uses ih => exact lastPut_use (fun _ => ih) use entry hentry

/-- The last of ordered keys is the one that was not used for the longest time. -/
theorem Ordered.last {uses : List (Use K V)} {keys : List K} {last : K}
    (h : Ordered uses (keys ++ [last])) {key : K} (hkey : key ∈ keys) :
    age uses key < age uses last :=
  (List.pairwise_append.mp h).2.2 key hkey last (List.mem_singleton_self last)

end LruMap

end Eureka

import Eureka.Library.LruMap
import Eureka.Library.Transition
import Eureka.LruCache.Cache

/-!
# The cache against a map that forgets the least recently used key

`Represents c m` relates the cache to a bounded map: the list holds the entries of the map in their
order, and every node is the one its key leads to.  A call keeps the relation (`Represents.call`)
except in one case: `put` asks `get` whether the key is there, and takes a key with the value -1 for
one that is not.  The key then has two nodes (`not_nodup_of_not_recognises`), unless the cache has
room for one key only and evicts the old node.

`refines_iff`: along a run the cache is a bounded map exactly while every put recognises its key.
-/

namespace Eureka

open Transition LruMap

namespace LRUCache

def keys (c : LRUCache) : List ℤ := c.ttl.map LruNode.key

/-- The list as entries of a map. -/
def contents (c : LRUCache) : List (ℤ × ℤ) := c.ttl.map fun node => (node.key, node.value)

def call (c : LRUCache) : Use ℤ ℤ → Option LRUCache
  | .get key => (c.get key).map Prod.fst
  | .put key value => c.put key value

theorem contents_fst (c : LRUCache) : c.contents.map Prod.fst = c.keys := by
  rw [contents, List.map_map]
  rfl

/-- The cache holds the entries of the map. -/
structure Represents {n : ℕ} (c : LRUCache) (m : LruMap ℤ ℤ n) : Prop where
  linked : c.Linked
  cap_eq : c.cap = n
  contents_eq : c.contents = m.entries
  lookup_eq : ∀ node ∈ c.ttl, c.cache.lookup node.key = some node.id

/-- A put recognises its key: it does not have the value -1, or the cache holds one key only. -/
def Recognises (c : LRUCache) : Use ℤ ℤ → Prop
  | .get _ => True
  | .put key _ => (∃ node ∈ c.ttl, node.key = key ∧ node.value = -1) → c.cap = 1

instance (c : LRUCache) : DecidablePred c.Recognises
  | .get _ => inferInstanceAs (Decidable True)
  | .put key _ => inferInstanceAs
      (Decidable ((∃ node ∈ c.ttl, node.key = key ∧ node.value = -1) → c.cap = 1))

variable {n : ℕ} {c : LRUCache} {m : LruMap ℤ ℤ n} {key value : ℤ}

namespace Represents

theorem new {capacity : ℕ} (h : 1 ≤ capacity) :
    Represents (new capacity) (empty : LruMap ℤ ℤ capacity) where
  linked := Linked.new (by exact_mod_cast h)
  cap_eq := rfl
  contents_eq := rfl
  lookup_eq := nofun

theorem keys_eq (hr : Represents c m) : m.entries.map Prod.fst = c.keys := by
  rw [← hr.contents_eq, contents_fst]

theorem keys_nodup (hr : Represents c m) : c.keys.Nodup :=
  hr.keys_eq ▸ m.nodup

theorem mem_iff (hr : Represents c m) : key ∈ c.cache ↔ key ∈ c.keys := by
  constructor
  · intro hkey
    obtain ⟨id, hid⟩ := Option.isSome_iff_exists.mp (AList.lookup_isSome.mpr hkey)
    obtain ⟨node, hnode, -, rfl⟩ := hr.linked.leads key id hid
    exact List.mem_map_of_mem hnode
  · intro hkey
    obtain ⟨node, hnode, rfl⟩ := List.mem_map.mp hkey
    exact AList.lookup_isSome.mp (hr.lookup_eq node hnode ▸ rfl)

theorem lookup_eq_some_iff (hr : Represents c m) {id : ℕ} :
    c.cache.lookup key = some id ↔ ∃ node ∈ c.ttl, node.id = id ∧ node.key = key := by
  constructor
  · exact hr.linked.leads key id
  · rintro ⟨node, hnode, rfl, rfl⟩
    exact hr.lookup_eq node hnode

theorem length_eq (hr : Represents c m) : m.entries.length = c.ttl.length := by
  rw [← hr.contents_eq, contents, List.length_map]

theorem entries_split (hr : Represents c m) {before after : List LruNode} {node : LruNode}
    (hsplit : c.ttl = before ++ node :: after) :
    m.entries = before.map (fun node => (node.key, node.value)) ++
      (node.key, node.value) :: after.map (fun node => (node.key, node.value)) := by
  rw [← hr.contents_eq, contents, hsplit, List.map_append, List.map_cons]

/-! ### Reads -/

theorem get (hr : Represents c m) (key : ℤ) :
    ∃ c' found, c.get key = some (c', found) ∧ Represents c' (m.get key) := by
  cases hlookup : c.cache.lookup key with
  | none =>
      have hnot := AList.lookup_eq_none.mp hlookup
      refine ⟨c, -1, get_of_notMem hnot, hr.linked, hr.cap_eq, ?_, hr.lookup_eq⟩
      rw [hr.mem_iff, ← hr.keys_eq] at hnot
      exact hr.contents_eq.trans (toFront_of_notMem hnot).symm
  | some id =>
      obtain ⟨before, node, after, hsplit, -, rfl, hget⟩ := hr.linked.get hlookup
      have hperm : (node :: (before ++ after)).Perm c.ttl := hsplit ▸ List.perm_middle.symm
      refine ⟨_, _, hget, hr.linked.perm hperm, hr.cap_eq, ?_, ?_⟩
      · have hnodup := m.nodup
        have hentries := hr.entries_split hsplit
        rw [hentries] at hnodup
        change _ = toFront m.entries node.key
        rw [hentries, toFront_append_cons hnodup, ← List.map_append]
        rfl
      · exact fun other hother => hr.lookup_eq other (hperm.mem_iff.mp hother)

/-! ### Writes -/

theorem put_of_found (hr : Represents c m) {node : LruNode} (hnode : node ∈ c.ttl)
    (hne : node.value ≠ -1) (value : ℤ) :
    ∃ c', c.put node.key value = some c' ∧ Represents c' (m.put node.key value) := by
  have hlookup := hr.lookup_eq node hnode
  obtain ⟨before, node', after, hsplit, hid, -, hget⟩ := hr.linked.get hlookup
  have hnode' : node' ∈ c.ttl := hsplit ▸ List.mem_append_right _ List.mem_cons_self
  obtain rfl := hr.linked.eq_of_id_eq hnode' hnode hid
  have hperm : (node' :: (before ++ after)).Perm c.ttl := hsplit ▸ List.perm_middle.symm
  refine ⟨_, hr.linked.put_of_found hsplit hget hlookup hne, ?_, hr.cap_eq, ?_, ?_⟩
  · exact (hr.linked.perm hperm).of_overwritten value
  · have hmem : node'.key ∈ m.entries.map Prod.fst := hr.keys_eq ▸ List.mem_map_of_mem hnode
    have hnodup := m.nodup
    have hentries := hr.entries_split hsplit
    rw [hentries] at hnodup
    rw [put_of_mem hmem, hentries, others_append_cons hnodup, ← List.map_append]
    rfl
  · intro other hother
    obtain rfl | hother := List.mem_cons.mp hother
    · exact hlookup
    · exact hr.lookup_eq other (hperm.mem_iff.mp (List.mem_cons_of_mem _ hother))

theorem push (hr : Represents c m) (hkey : key ∉ c.keys) (hroom : c.size < c.cap) (value : ℤ) :
    Represents (c.push key value) (m.put key value) where
  linked := hr.linked.push hroom key value
  cap_eq := hr.cap_eq
  contents_eq := by
    have hlength : m.entries.length < n := by
      have hsize := hr.linked.size_eq
      have hcap := hr.cap_eq
      rw [hr.length_eq]
      omega
    rw [LruMap.put_of_room (hr.keys_eq ▸ hkey) hlength, ← hr.contents_eq]
    rfl
  lookup_eq node hnode := by
    obtain rfl | hnode := List.mem_cons.mp hnode
    · exact AList.lookup_insert c.cache
    · have hne : node.key ≠ key := fun heq => hkey (heq ▸ List.mem_map_of_mem hnode)
      rw [LRUCache.push, AList.lookup_insert_ne hne]
      exact hr.lookup_eq node hnode

theorem evict (hr : Represents c m) {nodes : List LruNode} {item : LruNode}
    (hsplit : c.ttl = nodes ++ [item]) :
    Represents { c with ttl := nodes, size := nodes.length, cache := c.cache.erase item.key }
      m.forget where
  linked := hr.linked.of_evicted hsplit
  cap_eq := hr.cap_eq
  contents_eq := by
    change _ = m.entries.dropLast
    rw [← hr.contents_eq, contents, contents, hsplit, ← List.map_dropLast,
      List.dropLast_concat]
  lookup_eq node hnode := by
    have hnodup := hr.keys_nodup
    rw [keys, hsplit, List.map_append, List.map_singleton] at hnodup
    have hne : node.key ≠ item.key := fun heq =>
      List.disjoint_of_nodup_append hnodup (List.mem_map_of_mem hnode)
        (heq ▸ List.mem_singleton_self _)
    rw [AList.lookup_erase_ne hne]
    exact hr.lookup_eq node (hsplit ▸ List.mem_append_left _ hnode)

theorem put_of_notMem (hr : Represents c m) (hkey : key ∉ c.keys) (value : ℤ) :
    ∃ c', c.put key value = some c' ∧ Represents c' (m.put key value) := by
  have hget : c.get key = some (c, -1) := get_of_notMem (hr.mem_iff.not.mpr hkey)
  by_cases hfull : c.size = c.cap
  · obtain ⟨nodes, item, hsplit, hroom, hevict⟩ := hr.linked.evict hfull
    refine ⟨_, LRUCache.put_of_full hget hfull hevict, ?_⟩
    have hforgotten := hr.evict hsplit
    have hlength : m.entries.length = n := by
      have hsize := hr.linked.size_eq
      have hcap := hr.cap_eq
      rw [hr.length_eq]
      omega
    have hpos : 0 < n := by
      have hcap := hr.cap_eq
      have hpos := hr.linked.cap_pos
      omega
    rw [LruMap.put_of_full (hr.keys_eq ▸ hkey) hpos hlength]
    refine hforgotten.push ?_ hroom value
    intro hmem
    refine hkey ?_
    rw [keys, hsplit, List.map_append]
    exact List.mem_append_left _ hmem
  · refine ⟨_, LRUCache.put_of_room hget hfull, ?_⟩
    exact hr.push hkey (lt_of_le_of_ne hr.linked.size_le hfull) value

/-- A cache for one key evicts the old node of a key with the value -1 and makes a new one. -/
theorem put_of_single (hr : Represents c m) {node : LruNode} (hnode : node ∈ c.ttl)
    (hnone : node.value = -1) (hcap : c.cap = 1) (value : ℤ) :
    ∃ c', c.put node.key value = some c' ∧ Represents c' (m.put node.key value) := by
  have hsize := hr.linked.size_eq
  have hle := hr.linked.size_le
  have hlength := List.length_pos_of_mem hnode
  obtain ⟨only, httl⟩ := List.length_eq_one_iff.mp (show c.ttl.length = 1 by omega)
  obtain rfl : node = only := List.mem_singleton.mp (httl ▸ hnode)
  have hget : c.get node.key = some (c, -1) := by
    obtain ⟨before, node', after, hsplit, -, -, hget⟩ := hr.linked.get (hr.lookup_eq node hnode)
    rw [httl, eq_comm, List.append_eq_singleton_iff] at hsplit
    obtain ⟨rfl, hcons⟩ | ⟨-, hcons⟩ := hsplit
    · obtain ⟨rfl, rfl⟩ := List.cons.inj hcons
      rw [hget, hnone, List.append_nil, ← httl]
    · cases hcons
  obtain ⟨nodes, item, hsplit, hroom, hevict⟩ := hr.linked.evict (show c.size = c.cap by omega)
  obtain ⟨rfl, hitem⟩ : nodes = [] ∧ [item] = [node] := by
    rw [httl, eq_comm, List.append_eq_singleton_iff] at hsplit
    exact hsplit.resolve_right fun h => nomatch h.2
  have hentries : m.entries = [(node.key, node.value)] := by
    rw [← hr.contents_eq, contents, httl]
    rfl
  refine ⟨_, LRUCache.put_of_full hget (by omega) hevict, ?_⟩
  rw [LruMap.put_of_single hentries value]
  exact (hr.evict hsplit).push (List.not_mem_nil) hroom value

/-- **A call that recognises its key** is a use of the map. -/
theorem call (hr : Represents c m) (use : Use ℤ ℤ) (hrec : c.Recognises use) :
    ∃ c', c.call use = some c' ∧ Represents c' (m.use use) := by
  cases use with
  | get key =>
      obtain ⟨c', found, hget, hr'⟩ := hr.get key
      exact ⟨c', by rw [LRUCache.call, hget]; rfl, hr'⟩
  | put key value =>
      by_cases hkey : key ∈ c.keys
      · obtain ⟨node, hnode, rfl⟩ := List.mem_map.mp hkey
        by_cases hnone : node.value = -1
        · exact hr.put_of_single hnode hnone (hrec ⟨node, hnode, rfl, hnone⟩) value
        · exact hr.put_of_found hnode hnone value
      · exact hr.put_of_notMem hkey value

end Represents

/-! ### Two nodes for one key -/

/-- A put that does not recognise its key makes a second node of it. -/
theorem Linked.not_nodup_of_put (hc : c.Linked) {node : LruNode} (hnode : node ∈ c.ttl)
    (hlookup : c.cache.lookup node.key = some node.id) (hnone : node.value = -1)
    (hcap : c.cap ≠ 1) {c' : LRUCache} (hput : c.put node.key value = some c') :
    ¬ c'.keys.Nodup := by
  obtain ⟨before, node', after, hsplit, hid, -, hget⟩ := hc.get hlookup
  have hnode' : node' ∈ c.ttl := hsplit ▸ List.mem_append_right _ List.mem_cons_self
  obtain rfl := hc.eq_of_id_eq hnode' hnode hid
  have hmoved := hc.perm (hsplit ▸ List.perm_middle.symm : (node' :: (before ++ after)).Perm c.ttl)
  rw [hnone] at hget
  by_cases hfull : c.size = c.cap
  · obtain ⟨nodes, item, hlast, -, hevict⟩ := hmoved.evict hfull
    rw [LRUCache.put_of_full hget hfull hevict] at hput
    -- the node has just been moved to the front, so it is not the one that is evicted
    have hkept : node'.key ∈ nodes.map LruNode.key := by
      cases nodes with
      | nil =>
          have hsize := hmoved.size_eq
          have hone : c.size = 1 := by rw [hsize, hlast]; rfl
          exact absurd (hfull.symm.trans hone) hcap
      | cons front nodes =>
          obtain ⟨rfl, -⟩ := List.cons.inj hlast
          exact List.mem_cons_self
    obtain rfl := Option.some.inj hput
    exact fun hnodup => (List.nodup_cons.mp hnodup).1 hkept
  · rw [LRUCache.put_of_room hget hfull] at hput
    obtain rfl := Option.some.inj hput
    exact fun hnodup => (List.nodup_cons.mp hnodup).1 List.mem_cons_self

/-! ### Runs -/

/-- A cache with its uses, most recent first. -/
structure Run where
  cache : LRUCache
  uses : List (Use ℤ ℤ)

/-- The runs of a cache for `capacity` keys. -/
def system (capacity : ℕ) : System Run (Use ℤ ℤ) where
  start s := s = ⟨new capacity, []⟩
  step s use := (s.cache.call use).map fun c => ⟨c, use :: s.uses⟩

/-- The key of the cache that was not used for the longest time. -/
def LeastRecent (s : Run) (key : ℤ) : Prop :=
  key ∈ s.cache.cache ∧
    ∀ other ∈ s.cache.cache, other ≠ key → age s.uses other < age s.uses key

/-- The cache is a bounded map that forgets the least recently used key. -/
structure Refines (capacity : ℕ) (s : Run) : Prop where
  keys_nodup : s.cache.keys.Nodup
  ids_nodup : (s.cache.ttl.map LruNode.id).Nodup
  mem_iff : ∀ key, key ∈ s.cache.cache ↔ key ∈ s.cache.keys
  lookup_iff : ∀ key id, s.cache.cache.lookup key = some id ↔
    ∃ node ∈ s.cache.ttl, node.id = id ∧ node.key = key
  size_eq : s.cache.size = s.cache.keys.length
  cap_eq : s.cache.cap = capacity
  size_le : s.cache.size ≤ s.cache.cap
  ordered : Ordered s.uses s.cache.keys
  get_of_mem : ∀ key ∈ s.cache.cache,
    ∃ c' value, s.cache.get key = some (c', value) ∧ lastPut s.uses key = some value
  get_of_notMem : ∀ key, key ∉ s.cache.cache → ∃ c', s.cache.get key = some (c', -1)
  evicts : ∀ key value, key ∉ s.cache.cache → s.cache.size = s.cache.cap →
    ∃ c' victim, s.cache.put key value = some c' ∧ LeastRecent s victim ∧
      ∀ other, other ∈ c'.cache ↔ other = key ∨ (other ∈ s.cache.cache ∧ other ≠ victim)
  contents_eq : s.cache.contents = (replay capacity s.uses).entries

variable {capacity : ℕ} {s s' : Run}

theorem Represents.entry_mem (hr : Represents c m) {node : LruNode} (hnode : node ∈ c.ttl) :
    (node.key, node.value) ∈ m.entries :=
  hr.contents_eq ▸ List.mem_map_of_mem hnode

/-- The last node of a cache has the key that was not used for the longest time. -/
theorem Represents.leastRecent (hr : Represents s.cache (replay capacity s.uses))
    {nodes : List LruNode} {item : LruNode} (hsplit : s.cache.ttl = nodes ++ [item]) :
    LeastRecent s item.key := by
  have hkeys : s.cache.keys = nodes.map LruNode.key ++ [item.key] := by
    rw [keys, hsplit, List.map_append, List.map_singleton]
  have hordered := ordered_replay capacity s.uses
  rw [hr.keys_eq, hkeys] at hordered
  refine ⟨hr.mem_iff.mpr (hkeys ▸ List.mem_append_right _ (List.mem_singleton_self _)), ?_⟩
  intro other hother hne
  rw [hr.mem_iff, hkeys, List.mem_append, List.mem_singleton] at hother
  exact hordered.last (hother.resolve_right hne)

/-- A put of a new key into a full cache evicts that key. -/
theorem Represents.evicts (hr : Represents s.cache (replay capacity s.uses)) {key : ℤ} (value : ℤ)
    (hkey : key ∉ s.cache.cache) (hfull : s.cache.size = s.cache.cap) :
    ∃ c' victim, s.cache.put key value = some c' ∧ LeastRecent s victim ∧
      ∀ other, other ∈ c'.cache ↔ other = key ∨ (other ∈ s.cache.cache ∧ other ≠ victim) := by
  obtain ⟨nodes, item, hsplit, -, hevict⟩ := hr.linked.evict hfull
  refine ⟨_, item.key, put_of_full (get_of_notMem hkey) hfull hevict, hr.leastRecent hsplit, ?_⟩
  intro other
  rw [LRUCache.push, AList.mem_insert, AList.mem_erase, and_comm]

/-- **A cache that represents its map refines it.** -/
theorem Represents.refines (hr : Represents s.cache (replay capacity s.uses)) :
    Refines capacity s where
  keys_nodup := hr.keys_nodup
  ids_nodup := hr.linked.ids_nodup
  mem_iff _ := hr.mem_iff
  lookup_iff _ _ := hr.lookup_eq_some_iff
  size_eq := by
    rw [keys, List.length_map]
    exact hr.linked.size_eq
  cap_eq := hr.cap_eq
  size_le := hr.linked.size_le
  ordered := hr.keys_eq ▸ ordered_replay capacity s.uses
  get_of_mem key hkey := by
    obtain ⟨id, hid⟩ := Option.isSome_iff_exists.mp (AList.lookup_isSome.mpr hkey)
    obtain ⟨before, node, after, hsplit, -, rfl, hget⟩ := hr.linked.get hid
    have hnode : node ∈ s.cache.ttl := hsplit ▸ List.mem_append_right _ List.mem_cons_self
    exact ⟨_, node.value, hget, lastPut_of_mem_replay (hr.entry_mem hnode)⟩
  get_of_notMem _ hkey := ⟨_, get_of_notMem hkey⟩
  evicts _ value hkey hfull := hr.evicts value hkey hfull
  contents_eq := hr.contents_eq

theorem Refines.represents (hs : Refines capacity s) (hlinked : s.cache.Linked) :
    Represents s.cache (replay capacity s.uses) where
  linked := hlinked
  cap_eq := hs.cap_eq
  contents_eq := hs.contents_eq
  lookup_eq node hnode := (hs.lookup_iff node.key node.id).mpr ⟨node, hnode, rfl, rfl⟩

theorem Linked.call (hc : c.Linked) (use : Use ℤ ℤ) :
    ∃ c', c.call use = some c' ∧ c'.Linked := by
  cases use with
  | get key =>
      obtain ⟨ttl, found, hperm, hget⟩ := hc.get_perm key
      exact ⟨_, by rw [LRUCache.call, hget]; rfl, hc.perm hperm⟩
  | put key value =>
      obtain ⟨c', hput, hc', -⟩ := hc.put key value
      exact ⟨c', hput, hc'⟩

theorem system_step_eq_some {use : Use ℤ ℤ} :
    (system capacity).step s use = some s' ↔
      ∃ c', s.cache.call use = some c' ∧ s' = ⟨c', use :: s.uses⟩ := by
  simp only [system, Option.map_eq_some_iff, @eq_comm _ _ s']

/-- One step keeps the cache a bounded map exactly if it recognises its key. -/
theorem refines_step_iff {use : Use ℤ ℤ} (hlinked : s.cache.Linked) (hs : Refines capacity s)
    (hstep : (system capacity).step s use = some s') :
    Refines capacity s' ↔ s.cache.Recognises use := by
  obtain ⟨c', hcall, rfl⟩ := system_step_eq_some.mp hstep
  have hr := hs.represents hlinked
  constructor
  · intro hs'
    cases use with
    | get key => trivial
    | put key value =>
        rintro ⟨node, hnode, rfl, hnone⟩
        by_contra hcap
        exact hlinked.not_nodup_of_put hnode (hr.lookup_eq node hnode) hnone hcap hcall
          hs'.keys_nodup
  · intro hrec
    obtain ⟨c'', hcall', hr'⟩ := hr.call use hrec
    obtain rfl := Option.some.inj (hcall'.symm.trans hcall)
    exact Represents.refines (s := ⟨c'', use :: s.uses⟩) hr'

theorem exists_run (hlinked : s.cache.Linked) (uses : List (Use ℤ ℤ)) :
    ∃ s', (system capacity).run s uses = some s' := by
  induction uses generalizing s with
  | nil => exact ⟨s, rfl⟩
  | cons use uses ih =>
      obtain ⟨c', hcall, hlinked'⟩ := hlinked.call use
      obtain ⟨s', hrun⟩ := ih (s := ⟨c', use :: s.uses⟩) hlinked'
      exact ⟨s', System.run_cons_eq_some.mpr ⟨_, system_step_eq_some.mpr ⟨c', hcall, rfl⟩, hrun⟩⟩

/-- **The cache is a bounded least-recently-used map** in every state of a run if and only if every
put of the run recognises its key. -/
theorem refines_iff (hcap : 1 ≤ capacity) (uses : List (Use ℤ ℤ)) :
    (∃ s, (system capacity).run ⟨new capacity, []⟩ uses = some s) ∧
      ((system capacity).Always (Refines capacity) ⟨new capacity, []⟩ uses ↔
        (system capacity).EachStep (fun s use => s.cache.Recognises use)
          ⟨new capacity, []⟩ uses) := by
  have hr : Represents (new capacity) (replay capacity []) := Represents.new hcap
  obtain ⟨s, hrun⟩ : ∃ s, (system capacity).run ⟨new capacity, []⟩ uses = some s :=
    exists_run hr.linked uses
  refine ⟨⟨s, hrun⟩, System.always_iff_eachStep (I := fun s => s.cache.Linked) ?_ ?_ hr.linked
    hr.refines hrun⟩
  · intro s use s' hlinked hstep
    obtain ⟨c', hcall, rfl⟩ := system_step_eq_some.mp hstep
    obtain ⟨c'', hcall', hlinked'⟩ := hlinked.call use
    obtain rfl := Option.some.inj (hcall'.symm.trans hcall)
    exact hlinked'
  · exact fun s use s' hlinked hs hstep => refines_step_iff hlinked hs hstep

/-- A cache for two keys evicts the one that was not read. -/
theorem refines_iff_eviction :
    (system 2).Always (Refines 2) ⟨new 2, []⟩
      [.put 1 5, .put 2 (-1), .get 1, .put 3 7, .get 2] :=
  (refines_iff (by decide) _).2.mpr (by decide)

/-- A put of a key with the value -1 makes a second node of it. -/
theorem not_refines_minus_one :
    ¬ ∀ capacity : ℕ, 1 ≤ capacity → ∀ uses : List (Use ℤ ℤ),
      (system capacity).Always (Refines capacity) ⟨new capacity, []⟩ uses := by
  intro h
  have hrefines := (h 2 (by decide) [.put 1 (-1), .put 1 5]).2 _ rfl |>.2 _ rfl
  exact absurd hrefines.keys_nodup (by decide)

end LRUCache

end Eureka

import Mathlib

/-!
# The LRU cache

A list of key-value pairs, most recently used first, and a map from the keys to the nodes of that
list.  An iterator is the identity of its node.  Dereferencing an iterator to a node that is gone,
and taking the last element of an empty list, have no result.

Whatever is put and read, the cache stays linked (`Linked`): every entry of the map leads to a node
of its key, and the size is the length of the list.  `Linked.get`, `Linked.evict` and `Linked.push`
say what one operation does to a linked cache, and `Linked.put` that a put always returns.
-/

namespace Eureka

/-- A node of the list `ttl_`. -/
structure LruNode where
  id : ℕ
  key : ℤ
  value : ℤ
  deriving DecidableEq

/-- `LRUCache`; `nextId` is the identity of the next node that is made. -/
structure LRUCache where
  size : ℤ
  cap : ℤ
  ttl : List LruNode
  cache : AList fun _ : ℤ => ℕ
  nextId : ℕ

namespace LRUCache

def new (capacity : ℤ) : LRUCache := ⟨0, capacity, [], ∅, 0⟩

def node? (c : LRUCache) (id : ℕ) : Option LruNode := c.ttl.find? (·.id = id)

/-- `LRUCache::get`. -/
def get (c : LRUCache) (key : ℤ) : Option (LRUCache × ℤ) :=
  match c.cache.lookup key with
  | none => some (c, -1)
  | some id => (c.node? id).map fun node =>
      ({ c with ttl := node :: c.ttl.filter (·.id ≠ id) }, node.value)

/-- `cache_[key]->second = value`; an iterator that `operator[]` has just made refers to nothing. -/
def overwrite (c : LRUCache) (key value : ℤ) : Option LRUCache :=
  (c.cache.lookup key).bind fun id => (c.node? id).map fun _ =>
    { c with ttl := c.ttl.map fun node => if node.id = id then { node with value } else node }

/-- The eviction in `put`. -/
def evict (c : LRUCache) : Option LRUCache :=
  c.ttl.getLast?.map fun item =>
    { c with ttl := c.ttl.dropLast, size := c.size - 1, cache := c.cache.erase item.key }

/-- The insertion in `put`. -/
def push (c : LRUCache) (key value : ℤ) : LRUCache :=
  { c with
    ttl := ⟨c.nextId, key, value⟩ :: c.ttl
    cache := c.cache.insert key c.nextId
    size := c.size + 1
    nextId := c.nextId + 1 }

/-- `LRUCache::put`. -/
def put (c : LRUCache) (key value : ℤ) : Option LRUCache := do
  let (c, found) ← c.get key
  if found ≠ -1 then
    c.overwrite key value
  else
    let c ← if c.size = c.cap then c.evict else some c
    some (c.push key value)

/-! ### Linked caches -/

/-- Every entry of the map leads to a node of its key, the nodes have identities of their own, and
their number is the size. -/
structure Linked (c : LRUCache) : Prop where
  ids_nodup : (c.ttl.map LruNode.id).Nodup
  id_lt : ∀ node ∈ c.ttl, node.id < c.nextId
  leads : ∀ key id, c.cache.lookup key = some id → ∃ node ∈ c.ttl, node.id = id ∧ node.key = key
  size_eq : c.size = c.ttl.length
  size_le : c.size ≤ c.cap
  cap_pos : 1 ≤ c.cap

variable {c : LRUCache} {key value : ℤ}

theorem Linked.new {capacity : ℤ} (h : 1 ≤ capacity) : (new capacity).Linked where
  ids_nodup := List.nodup_nil
  id_lt := nofun
  leads := nofun
  size_eq := rfl
  size_le := zero_le_one.trans h
  cap_pos := h

theorem Linked.eq_of_id_eq (hc : c.Linked) {node other : LruNode} (hnode : node ∈ c.ttl)
    (hother : other ∈ c.ttl) (h : node.id = other.id) : node = other :=
  List.inj_on_of_nodup_map hc.ids_nodup hnode hother h

theorem Linked.node?_eq (hc : c.Linked) {node : LruNode} (hnode : node ∈ c.ttl) :
    c.node? node.id = some node := by
  cases hfind : c.node? node.id with
  | none =>
      have hnot := List.find?_eq_none.mp hfind node hnode
      rw [decide_eq_true_eq] at hnot
      exact absurd rfl hnot
  | some other =>
      have hid := List.find?_some hfind
      rw [decide_eq_true_eq] at hid
      exact congrArg some (hc.eq_of_id_eq (List.mem_of_find?_eq_some hfind) hnode hid)

theorem Linked.perm (hc : c.Linked) {ttl : List LruNode} (hperm : ttl.Perm c.ttl) :
    Linked { c with ttl } where
  ids_nodup := (hperm.map LruNode.id).nodup_iff.mpr hc.ids_nodup
  id_lt node hnode := hc.id_lt node (hperm.mem_iff.mp hnode)
  leads key id hlookup := by
    obtain ⟨node, hnode, h⟩ := hc.leads key id hlookup
    exact ⟨node, hperm.mem_iff.mpr hnode, h⟩
  size_eq := hperm.length_eq ▸ hc.size_eq
  size_le := hc.size_le
  cap_pos := hc.cap_pos

/-! ### Reading -/

theorem get_of_notMem (h : key ∉ c.cache) : c.get key = some (c, -1) := by
  rw [get, AList.lookup_eq_none.mpr h]

theorem Linked.filter_ne (hc : c.Linked) {before after : List LruNode} {node : LruNode}
    (hsplit : c.ttl = before ++ node :: after) : c.ttl.filter (·.id ≠ node.id) = before ++ after := by
  have hids := hc.ids_nodup
  rw [hsplit, List.map_append, List.map_cons, List.nodup_middle, List.nodup_cons,
    ← List.map_append] at hids
  have hne : ∀ other ∈ before ++ after, decide (other.id ≠ node.id) = true := by
    intro other hother
    rw [decide_eq_true_eq]
    intro hid
    exact hids.1 (hid ▸ List.mem_map_of_mem hother)
  have hrest := List.filter_eq_self.mpr hne
  rw [List.filter_append] at hrest
  rw [hsplit, List.filter_append, List.filter_cons_of_neg (by simp), hrest]

/-- **Reading a key** that is there moves its node to the front. -/
theorem Linked.get (hc : c.Linked) {id : ℕ} (hlookup : c.cache.lookup key = some id) :
    ∃ before node after, c.ttl = before ++ node :: after ∧ node.id = id ∧ node.key = key ∧
      c.get key = some ({ c with ttl := node :: (before ++ after) }, node.value) := by
  obtain ⟨node, hnode, rfl, hkey⟩ := hc.leads key id hlookup
  obtain ⟨before, after, hsplit⟩ := List.append_of_mem hnode
  refine ⟨before, node, after, hsplit, rfl, hkey, ?_⟩
  rw [LRUCache.get, hlookup]
  change (c.node? node.id).map _ = _
  rw [hc.node?_eq hnode, Option.map_some, hc.filter_ne hsplit]

/-- The cache after a read: only the order of the nodes has changed. -/
theorem Linked.get_perm (hc : c.Linked) (key : ℤ) :
    ∃ ttl found, ttl.Perm c.ttl ∧ c.get key = some ({ c with ttl }, found) := by
  cases hlookup : c.cache.lookup key with
  | none => exact ⟨c.ttl, -1, .refl _, get_of_notMem (AList.lookup_eq_none.mp hlookup)⟩
  | some id =>
      obtain ⟨before, node, after, hsplit, -, -, hget⟩ := hc.get hlookup
      exact ⟨_, _, hsplit ▸ List.perm_middle.symm, hget⟩

/-! ### Writing -/

theorem Linked.overwrite (hc : c.Linked) {node : LruNode} {rest : List LruNode}
    (httl : c.ttl = node :: rest) (hlookup : c.cache.lookup key = some node.id) :
    c.overwrite key value = some { c with ttl := { node with value } :: rest } := by
  have hmem : node ∈ c.ttl := httl ▸ List.mem_cons_self
  have hids := hc.ids_nodup
  rw [httl, List.map_cons, List.nodup_cons] at hids
  have hrest : rest.map (fun other => if other.id = node.id then { other with value } else other) =
      rest := by
    refine (List.map_congr_left fun other hother => if_neg fun hid => ?_).trans (List.map_id rest)
    exact hids.1 (hid ▸ List.mem_map_of_mem hother)
  rw [LRUCache.overwrite, hlookup, Option.bind_some, hc.node?_eq hmem, Option.map_some, httl,
    List.map_cons, if_pos rfl, hrest]

theorem Linked.of_overwritten {node : LruNode} {rest : List LruNode}
    (hc : Linked { c with ttl := node :: rest }) (value : ℤ) :
    Linked { c with ttl := { node with value } :: rest } where
  ids_nodup := hc.ids_nodup
  id_lt := by
    intro other hother
    obtain rfl | hother := List.mem_cons.mp hother
    · exact hc.id_lt node List.mem_cons_self
    · exact hc.id_lt other (List.mem_cons_of_mem _ hother)
  leads key id hlookup := by
    obtain ⟨other, hother, h⟩ := hc.leads key id hlookup
    obtain rfl | hother := List.mem_cons.mp hother
    · exact ⟨_, List.mem_cons_self, h⟩
    · exact ⟨other, List.mem_cons_of_mem _ hother, h⟩
  size_eq := hc.size_eq
  size_le := hc.size_le
  cap_pos := hc.cap_pos

/-- **A full cache evicts its last node**, and forgets the key of it. -/
theorem Linked.evict (hc : c.Linked) (hfull : c.size = c.cap) :
    ∃ nodes item, c.ttl = nodes ++ [item] ∧ (nodes.length : ℤ) < c.cap ∧
      c.evict = some { c with
        ttl := nodes, size := nodes.length, cache := c.cache.erase item.key } := by
  have hne : c.ttl ≠ [] := by
    intro hnil
    have hsize := hc.size_eq
    have hpos := hc.cap_pos
    rw [hnil, List.length_nil] at hsize
    omega
  obtain ⟨nodes, item, hsplit⟩ : ∃ nodes item, c.ttl = nodes ++ [item] :=
    ⟨_, _, (List.dropLast_append_getLast hne).symm⟩
  have hsize : c.size - 1 = nodes.length := by
    rw [hc.size_eq, hsplit, List.length_append, List.length_singleton]
    omega
  refine ⟨nodes, item, hsplit, by omega, ?_⟩
  rw [LRUCache.evict, hsize, hsplit, List.getLast?_concat, Option.map_some, List.dropLast_concat]

theorem Linked.of_evicted (hc : c.Linked) {nodes : List LruNode} {item : LruNode}
    (hsplit : c.ttl = nodes ++ [item]) :
    Linked { c with ttl := nodes, size := nodes.length, cache := c.cache.erase item.key } where
  ids_nodup := by
    have hids := hc.ids_nodup
    rw [hsplit, List.map_append] at hids
    exact hids.of_append_left
  id_lt node hnode := hc.id_lt node (hsplit ▸ List.mem_append_left _ hnode)
  leads key id hlookup := by
    have hne : key ≠ item.key := by
      rintro rfl
      rw [AList.lookup_erase] at hlookup
      cases hlookup
    rw [AList.lookup_erase_ne hne] at hlookup
    obtain ⟨node, hnode, hid, hkey⟩ := hc.leads key id hlookup
    rw [hsplit, List.mem_append, List.mem_singleton] at hnode
    obtain hnode | rfl := hnode
    · exact ⟨node, hnode, hid, hkey⟩
    · exact absurd hkey.symm hne
  size_eq := rfl
  size_le := by
    have hsize := hc.size_eq
    rw [hsplit, List.length_append, List.length_singleton] at hsize
    have hle := hc.size_le
    change (nodes.length : ℤ) ≤ c.cap
    omega
  cap_pos := hc.cap_pos

theorem Linked.push (hc : c.Linked) (hroom : c.size < c.cap) (key value : ℤ) :
    (c.push key value).Linked where
  ids_nodup := by
    refine List.nodup_cons.mpr ⟨?_, hc.ids_nodup⟩
    intro hmem
    obtain ⟨node, hnode, hid⟩ := List.mem_map.mp hmem
    exact (hc.id_lt node hnode).ne hid
  id_lt node hnode := by
    obtain rfl | hnode := List.mem_cons.mp hnode
    · exact Nat.lt_succ_self _
    · exact (hc.id_lt node hnode).trans (Nat.lt_succ_self _)
  leads other id hlookup := by
    by_cases hother : other = key
    · subst hother
      rw [LRUCache.push, AList.lookup_insert, Option.some.injEq] at hlookup
      exact ⟨_, List.mem_cons_self, hlookup, rfl⟩
    · rw [LRUCache.push, AList.lookup_insert_ne hother] at hlookup
      obtain ⟨node, hnode, h⟩ := hc.leads other id hlookup
      exact ⟨node, List.mem_cons_of_mem _ hnode, h⟩
  size_eq := by
    change c.size + 1 = ((c.ttl.length + 1 : ℕ) : ℤ)
    rw [hc.size_eq]
    rfl
  size_le := hroom
  cap_pos := hc.cap_pos

/-! ### A put, by what the read before it has found -/

theorem put_eq {c' : LRUCache} {found : ℤ} (hget : c.get key = some (c', found)) :
    c.put key value =
      if found ≠ -1 then c'.overwrite key value
      else (if c'.size = c'.cap then c'.evict else some c').map (·.push key value) := by
  rw [LRUCache.put, hget]
  change (if found ≠ -1 then c'.overwrite key value else _) = _
  refine if_congr Iff.rfl rfl ?_
  split
  · rw [Option.map_eq_bind]
    rfl
  · rfl

theorem Linked.put_of_found (hc : c.Linked) {before after : List LruNode} {node : LruNode}
    (hsplit : c.ttl = before ++ node :: after)
    (hget : c.get node.key = some ({ c with ttl := node :: (before ++ after) }, node.value))
    (hlookup : c.cache.lookup node.key = some node.id) (hne : node.value ≠ -1) :
    c.put node.key value = some { c with ttl := { node with value } :: (before ++ after) } := by
  have hmoved : Linked { c with ttl := node :: (before ++ after) } :=
    hc.perm (hsplit ▸ List.perm_middle.symm)
  rw [put_eq hget, if_pos hne]
  exact hmoved.overwrite rfl hlookup

/-- A read that finds -1 is taken for one that finds nothing; a node is made while there is room. -/
theorem put_of_room {c' : LRUCache} (hget : c.get key = some (c', -1)) (hroom : c'.size ≠ c'.cap) :
    c.put key value = some (c'.push key value) := by
  rw [put_eq hget, if_neg (by simp), if_neg hroom]
  rfl

theorem put_of_full {c' evicted : LRUCache} (hget : c.get key = some (c', -1))
    (hfull : c'.size = c'.cap) (hevict : c'.evict = some evicted) :
    c.put key value = some (evicted.push key value) := by
  rw [put_eq hget, if_neg (by simp), if_pos hfull, hevict]
  rfl

/-- **A put always returns**, and keeps the cache linked. -/
theorem Linked.put (hc : c.Linked) (key value : ℤ) :
    ∃ c', c.put key value = some c' ∧ c'.Linked ∧ c'.cap = c.cap := by
  by_cases hfound : ∃ c' found, c.get key = some (c', found) ∧ found ≠ -1
  · obtain ⟨c', found, hget, hne⟩ := hfound
    cases hlookup : c.cache.lookup key with
    | none =>
        rw [get_of_notMem (AList.lookup_eq_none.mp hlookup)] at hget
        obtain ⟨rfl, rfl⟩ := Prod.mk.inj (Option.some.inj hget)
        exact absurd rfl hne
    | some id =>
        obtain ⟨before, node, after, hsplit, rfl, rfl, hget'⟩ := hc.get hlookup
        rw [hget'] at hget
        obtain ⟨rfl, rfl⟩ := Prod.mk.inj (Option.some.inj hget)
        refine ⟨_, hc.put_of_found hsplit hget' hlookup hne, ?_, rfl⟩
        exact (hc.perm (hsplit ▸ List.perm_middle.symm)).of_overwritten value
  · obtain ⟨ttl, found, hperm, hget⟩ := hc.get_perm key
    have hfound : found = -1 := by
      by_contra hne
      exact hfound ⟨_, _, hget, hne⟩
    subst hfound
    have hmoved := hc.perm hperm
    by_cases hfull : c.size = c.cap
    · obtain ⟨nodes, item, hsplit, hroom, hevict⟩ := hmoved.evict hfull
      refine ⟨_, put_of_full hget hfull hevict, ?_, rfl⟩
      exact (hmoved.of_evicted hsplit).push hroom key value
    · refine ⟨_, put_of_room hget hfull, ?_, rfl⟩
      exact hmoved.push (lt_of_le_of_ne hc.size_le hfull) key value

end LRUCache

end Eureka

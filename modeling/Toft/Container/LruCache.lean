import Mathlib.Data.List.Sort

/-!
# The LRU cache

`LruCache`: a list of key-value pairs, the last used in front, and an index from keys to places in
that list. Every call keeps the two in step (`WF`). A `Put` adds nothing but its own pair, and a
`Get` gives back a pair that is in the list (`mem_put`, `get_cases`).
-/

namespace Toft

open List Std.LawfulEqOrd

/-- A node of `value_list_`. The `id` tells nodes apart, as their addresses do. -/
structure LruCache.Node (K V : Type) where
  id : Nat
  key : K
  value : V

/-- The members of `LruCache`. A list iterator is the `id` of its node. -/
structure LruCache (K V : Type) [Ord K] where
  valueList : List (LruCache.Node K V) := []
  index : Std.TreeMap K Nat := ∅
  capacity : Nat
  freshId : Nat := 0

namespace LruCache

variable {K V : Type} [Ord K]

/-- The node that a list iterator points to. -/
def deref (c : LruCache K V) (id : Nat) : Option (Node K V) :=
  c.valueList.find? (·.id == id)

/-- `Get`: the value, if it returns true. -/
def get (c : LruCache K V) (key : K) : Option V × LruCache K V :=
  match c.index[key]? with
  | none => (none, c)
  | some id =>
    match c.deref id with
    | none => (none, c)  -- an iterator without a node; `WF` excludes it
    | some node =>
      (some node.value, { c with
        valueList := node :: c.valueList.filter (·.id != id)
        index := c.index.insert key node.id })

/-- `InternalRemove`, and `Remove`. -/
def internalRemove (c : LruCache K V) (key : K) : Bool × LruCache K V :=
  match c.index[key]? with
  | none => (false, c)
  | some id =>
    (true, { c with
      valueList := c.valueList.filter (·.id != id)
      index := c.index.erase key })

/-- `Put`, the part that inserts the pair. -/
def pushFront (c : LruCache K V) (key : K) (value : V) : LruCache K V :=
  { c with
    valueList := ⟨c.freshId, key, value⟩ :: c.valueList
    index := c.index.insert key c.freshId
    freshId := c.freshId + 1 }

/-- `Put`, the part that checks for overflow. -/
def evict (c : LruCache K V) : LruCache K V :=
  if c.index.size > c.capacity then
    match c.valueList.getLast? with
    | none => c
    | some node => (c.internalRemove node.key).2
  else c

/-- `Put`. Nothing happens if the same value is there already. -/
def put [DecidableEq V] (c : LruCache K V) (key : K) (value : V) : LruCache K V :=
  if (c.index[key]?.bind c.deref).any (·.value = value) then c
  else ((c.internalRemove key).2.pushFront key value).evict

/-- The list and the index hold the same keys, and each entry of the index points to its node. -/
structure WF (c : LruCache K V) : Prop where
  ids : (c.valueList.map Node.id).Nodup
  fresh : ∀ node ∈ c.valueList, node.id < c.freshId
  index_iff : ∀ key id, c.index[key]? = some id ↔
    ∃ node ∈ c.valueList, node.key = key ∧ node.id = id

variable {c : LruCache K V}

theorem WF.empty [Std.TransOrd K] (capacity : Nat) :
    WF ({ capacity := capacity } : LruCache K V) where
  ids := nodup_nil
  fresh node hnode := by cases hnode
  index_iff key id := by simp

theorem WF.eq_of_id (h : c.WF) {m n : Node K V} (hm : m ∈ c.valueList) (hn : n ∈ c.valueList)
    (hid : m.id = n.id) : m = n :=
  inj_on_of_nodup_map h.ids hm hn hid

theorem WF.deref_of_mem (h : c.WF) {node : Node K V} (hnode : node ∈ c.valueList) :
    c.deref node.id = some node := by
  unfold deref
  cases hfind : c.valueList.find? (·.id == node.id) with
  | none =>
    have hnone := List.find?_eq_none.mp hfind node hnode
    simp at hnone
  | some found =>
    have hid : found.id = node.id := by simpa using List.find?_some hfind
    rw [h.eq_of_id (mem_of_find?_eq_some hfind) hnode hid]

theorem get_of_mem (h : c.WF) {node : Node K V} (hnode : node ∈ c.valueList) :
    c.get node.key = (some node.value, { c with
      valueList := node :: c.valueList.filter (·.id != node.id)
      index := c.index.insert node.key node.id }) := by
  have hindex : c.index[node.key]? = some node.id := (h.index_iff _ _).mpr ⟨node, hnode, rfl, rfl⟩
  simp only [get, hindex, h.deref_of_mem hnode]

theorem get_cases (h : c.WF) (key : K) :
    (∃ node ∈ c.valueList, node.key = key ∧ (c.get key).1 = some node.value) ∨
      (c.get key = (none, c) ∧ c.index[key]? = none) := by
  cases hindex : c.index[key]? with
  | none => exact .inr ⟨by simp only [get, hindex], rfl⟩
  | some id =>
    obtain ⟨node, hnode, rfl, rfl⟩ := (h.index_iff key id).mp hindex
    exact .inl ⟨node, hnode, rfl, by rw [get_of_mem h hnode]⟩

theorem mem_get (h : c.WF) (key : K) (node : Node K V) :
    node ∈ (c.get key).2.valueList ↔ node ∈ c.valueList := by
  rcases get_cases h key with ⟨found, hfound, rfl, -⟩ | ⟨hget, -⟩
  · rw [get_of_mem h hfound]
    simp only [mem_cons, mem_filter, bne_iff_ne]
    constructor
    · rintro (rfl | ⟨hnode, -⟩)
      · exact hfound
      · exact hnode
    · intro hnode
      by_cases hid : node.id = found.id
      · exact .inl (h.eq_of_id hnode hfound hid)
      · exact .inr ⟨hnode, hid⟩
  · rw [hget]

theorem mem_internalRemove (h : c.WF) (key : K) (node : Node K V) :
    node ∈ (c.internalRemove key).2.valueList ↔ node ∈ c.valueList ∧ node.key ≠ key := by
  unfold internalRemove
  cases hindex : c.index[key]? with
  | none =>
    refine ⟨fun hnode => ⟨hnode, ?_⟩, And.left⟩
    rintro rfl
    rw [(h.index_iff _ _).mpr ⟨node, hnode, rfl, rfl⟩] at hindex
    cases hindex
  | some id =>
    obtain ⟨found, hfound, rfl, rfl⟩ := (h.index_iff key id).mp hindex
    simp only [mem_filter, bne_iff_ne]
    refine and_congr_right fun hnode => not_congr ⟨fun hid => ?_, fun hkey => ?_⟩
    · rw [h.eq_of_id hnode hfound hid]
    · have hself := (h.index_iff _ _).mpr ⟨node, hnode, rfl, rfl⟩
      rw [hkey, hindex] at hself
      exact (Option.some.inj hself).symm

theorem internalRemove_sublist (c : LruCache K V) (key : K) :
    (c.internalRemove key).2.valueList.Sublist c.valueList := by
  unfold internalRemove
  split
  · exact List.Sublist.refl _
  · exact filter_sublist

theorem evict_eq (c : LruCache K V) : c.evict = c ∨ ∃ key, c.evict = (c.internalRemove key).2 := by
  unfold evict
  split
  · split
    · exact .inl rfl
    · exact .inr ⟨_, rfl⟩
  · exact .inl rfl

theorem put_cases [DecidableEq V] (c : LruCache K V) (key : K) (value : V) :
    c.put key value = c ∨
      c.put key value = (c.internalRemove key).2.pushFront key value ∨
      ∃ key', c.put key value =
        (((c.internalRemove key).2.pushFront key value).internalRemove key').2 := by
  unfold put
  split
  · exact .inl rfl
  · exact .inr (evict_eq _)

section Lawful

variable [Std.TransOrd K] [Std.LawfulEqOrd K]

theorem WF.pushFront (h : c.WF) {key : K} (hkey : ∀ node ∈ c.valueList, node.key ≠ key)
    (value : V) : (c.pushFront key value).WF := by
  refine ⟨?_, ?_, fun key' id => ?_⟩
  · simp only [LruCache.pushFront, map_cons, nodup_cons, mem_map]
    refine ⟨?_, h.ids⟩
    rintro ⟨node, hnode, hid⟩
    have := h.fresh node hnode
    omega
  · intro node hnode
    simp only [LruCache.pushFront, mem_cons] at hnode ⊢
    rcases hnode with rfl | hnode
    · exact Nat.lt_succ_self _
    · exact Nat.lt_succ_of_lt (h.fresh node hnode)
  · simp only [LruCache.pushFront, Std.TreeMap.getElem?_insert, mem_cons, exists_eq_or_imp]
    split
    · rename_i heq
      obtain rfl := eq_of_compare heq
      constructor
      · intro hid
        exact .inl ⟨rfl, Option.some.inj hid⟩
      · rintro (⟨_, rfl⟩ | ⟨node, hnode, hk, _⟩)
        · rfl
        · exact absurd hk (hkey node hnode)
    · rename_i hne
      rw [h.index_iff]
      constructor
      · exact .inr
      · rintro (⟨rfl, _⟩ | hnode)
        · exact absurd Std.ReflOrd.compare_self hne
        · exact hnode

section

variable (h : c.WF) (key : K)
include h key

theorem WF.get : (c.get key).2.WF := by
  rcases get_cases h key with ⟨found, hfound, rfl, -⟩ | ⟨hget, -⟩
  · have hmem := mem_get h found.key
    rw [get_of_mem h hfound] at hmem ⊢
    refine ⟨?_, fun node hnode => h.fresh node ((hmem node).mp hnode), fun key id => ?_⟩
    · simp only [map_cons, nodup_cons, mem_map, mem_filter, bne_iff_ne]
      refine ⟨fun ⟨node, ⟨_, hne⟩, hid⟩ => hne hid, ?_⟩
      exact h.ids.sublist (filter_sublist.map _)
    · have hindex : c.index[found.key]? = some found.id :=
        (h.index_iff _ _).mpr ⟨found, hfound, rfl, rfl⟩
      simp only [hmem]
      rw [← h.index_iff, Std.TreeMap.getElem?_insert]
      split
      · rename_i heq
        rw [← eq_of_compare heq, hindex]
      · rfl
  · rw [hget]
    exact h

theorem WF.internalRemove : (c.internalRemove key).2.WF := by
  have hmem := mem_internalRemove h key
  have hlist := internalRemove_sublist c key
  have hfresh : (c.internalRemove key).2.freshId = c.freshId := by
    unfold LruCache.internalRemove
    split <;> rfl
  refine ⟨h.ids.sublist (hlist.map _), fun node hnode => ?_, fun key' id => ?_⟩
  · rw [hfresh]
    exact h.fresh node ((hmem node).mp hnode).1
  · simp only [hmem]
    have hindex : (c.internalRemove key).2.index[key']? =
        if compare key key' = .eq then none else c.index[key']? := by
      unfold LruCache.internalRemove
      split
      · rename_i hnone
        split
        · rename_i heq
          rw [← eq_of_compare heq, hnone]
        · rfl
      · exact Std.TreeMap.getElem?_erase
    rw [hindex]
    split
    · rename_i heq
      obtain rfl := eq_of_compare heq
      constructor
      · simp
      · rintro ⟨node, ⟨_, hne⟩, hkey, _⟩
        exact absurd hkey hne
    · rename_i hne
      rw [h.index_iff]
      constructor
      · rintro ⟨node, hnode, rfl, rfl⟩
        refine ⟨node, ⟨hnode, ?_⟩, rfl, rfl⟩
        rintro rfl
        exact hne Std.ReflOrd.compare_self
      · rintro ⟨node, ⟨hnode, _⟩, rfl, rfl⟩
        exact ⟨node, hnode, rfl, rfl⟩

theorem WF.pushed (value : V) : ((c.internalRemove key).2.pushFront key value).WF :=
  (h.internalRemove key).pushFront
    (fun node hnode => ((mem_internalRemove h key node).mp hnode).2) value

theorem WF.put [DecidableEq V] (value : V) : (c.put key value).WF := by
  rcases put_cases c key value with hput | hput | ⟨key', hput⟩ <;> rw [hput]
  · exact h
  · exact h.pushed key value
  · exact (h.pushed key value).internalRemove key'

theorem mem_put [DecidableEq V] (value : V) {node : Node K V}
    (hnode : node ∈ (c.put key value).valueList) :
    (node.key = key ∧ node.value = value) ∨ node ∈ c.valueList := by
  have hpushed : ∀ node ∈ ((c.internalRemove key).2.pushFront key value).valueList,
      (node.key = key ∧ node.value = value) ∨ node ∈ c.valueList := by
    intro node hnode
    simp only [pushFront, mem_cons] at hnode
    rcases hnode with rfl | hnode
    · exact .inl ⟨rfl, rfl⟩
    · exact .inr ((mem_internalRemove h key node).mp hnode).1
  rcases put_cases c key value with hput | hput | ⟨key', hput⟩ <;> rw [hput] at hnode
  · exact .inr hnode
  · exact hpushed node hnode
  · exact hpushed node ((mem_internalRemove (h.pushed key value) key' node).mp hnode).1

end

end Lawful

end LruCache

end Toft

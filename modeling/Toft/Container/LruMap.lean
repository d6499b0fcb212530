import Toft.Container.LruOrder

/-!
# The cache as a bounded map

Over every run of `Put`, `Get`, `Remove` and `Clear` an `LruCache` holds the map from each key to
the value that was last put for it, less the keys that were removed, cleared or evicted since, and
never more keys than its capacity (`Tracks`).
-/

namespace Toft.LruCache

open List Function Nat

variable {K V : Type} [Ord K]

def clear (c : LruCache K V) : LruCache K V := { c with valueList := [], index := ∅ }

/-- The calls that change a cache. -/
inductive Call (K V : Type) where
  | op (op : Op K V)
  | clear

/-- The key that `Put` removes when it checks for overflow. -/
def overflow (c : LruCache K V) : Option K :=
  if c.index.size > c.capacity then c.valueList.getLast?.map Node.key else none

section Runs

variable [DecidableEq K] [DecidableEq V]

def call (c : LruCache K V) : Call K V → LruCache K V
  | .op op => c.step op
  | .clear => c.clear

/-- The map without a key, if there is one to leave out. -/
def without (m : K → Option V) (key? : Option K) : K → Option V :=
  key?.elim m fun key => update m key none

/-- The values last put that were not removed, cleared or evicted since, behind one more call. -/
def record (c : LruCache K V) (m : K → Option V) : Call K V → K → Option V
  | .op (.put key value) =>
    let m := update m key (some value)
    if c.holds key value then m
    else without m ((c.internalRemove key).2.pushFront key value).overflow
  | .op (.get _) => m
  | .op (.remove key) => update m key none
  | .clear => fun _ => none

def runCalls (capacity : Nat) (calls : List (Call K V)) : LruCache K V × (K → Option V) :=
  calls.foldl (fun s op => (s.1.call op, s.1.record s.2 op))
    ({ capacity := capacity }, fun _ => none)

end Runs

/-- The cache is in step with the map. It may have `extra` keys more than its capacity `n`. -/
structure Tracks (n extra : Nat) (c : LruCache K V) (m : K → Option V) : Prop where
  wf : c.WF
  capacity : c.capacity = n
  size : c.valueList.length ≤ n + extra
  value : ∀ key v, m key = some v ↔ ∃ node ∈ c.valueList, node.key = key ∧ node.value = v

variable {n extra : Nat} {c : LruCache K V} {m : K → Option V}

theorem Tracks.get_eq (h : Tracks n extra c m) (key : K) : (c.get key).1 = m key := by
  rcases get_cases h.wf key with ⟨node, hnode, hkey, hget⟩ | ⟨hget, hindex⟩
  · rw [hget, (h.value key node.value).mpr ⟨node, hnode, hkey, rfl⟩]
  · rw [hget]
    refine (Option.eq_none_iff_forall_ne_some.mpr fun v hv => ?_).symm
    obtain ⟨node, hnode, hkey, -⟩ := (h.value key v).mp hv
    rw [(h.wf.index_iff key node.id).mpr ⟨node, hnode, hkey, rfl⟩] at hindex
    cases hindex

theorem WF.nodup_keys (h : c.WF) : (c.valueList.map Node.key).Nodup :=
  (nodup_map_iff_inj_on (Nodup.of_map _ h.ids)).mpr fun _ hm _ hn => h.eq_of_key hm hn

variable [Std.TransOrd K] [Std.LawfulEqOrd K]

theorem WF.size_eq (h : c.WF) : c.index.size = c.valueList.length := by
  have hkeys : c.index.keys.Nodup := c.index.distinct_keys.imp fun hne => by
    rintro rfl
    exact hne Std.ReflOrd.compare_self
  have hperm : c.index.keys.Perm (c.valueList.map Node.key) := by
    refine (perm_ext_iff_of_nodup hkeys h.nodup_keys).mpr fun key => ?_
    rw [Std.TreeMap.mem_keys, mem_map]
    exact h.hasKey_iff key
  rw [← Std.TreeMap.length_keys, hperm.length_eq, length_map]

theorem Tracks.get (h : Tracks n extra c m) (key : K) : Tracks n extra (c.get key).2 m := by
  have hwf := h.wf.get key
  have hmem := mem_get h.wf key
  have hperm := (perm_ext_iff_of_nodup (Nodup.of_map _ hwf.ids) (Nodup.of_map _ h.wf.ids)).mpr hmem
  refine ⟨hwf, ?_, hperm.length_eq.trans_le h.size, fun key' v => ?_⟩
  · rcases get_cases h.wf key with ⟨node, hnode, rfl, -⟩ | ⟨hget, -⟩
    · rw [get_of_mem h.wf hnode]
      exact h.capacity
    · rw [hget]
      exact h.capacity
  · simp only [hmem]
    exact h.value key' v

variable [DecidableEq K]

theorem Tracks.remove (h : Tracks n extra c m) (key : K) :
    Tracks n extra (c.internalRemove key).2 (update m key none) := by
  refine ⟨h.wf.internalRemove key, ?_, (internalRemove_sublist c key).length_le.trans h.size,
    fun key' v => ?_⟩
  · rw [← h.capacity]
    unfold internalRemove
    split <;> rfl
  · simp only [mem_internalRemove h.wf key]
    rcases eq_or_ne key' key with rfl | hne
    · rw [update_self]
      exact iff_of_false (by simp) fun ⟨_, ⟨_, hne⟩, hkey, _⟩ => hne hkey
    · rw [update_of_ne hne, h.value]
      refine exists_congr fun node => and_congr_left fun hnode => ?_
      rw [hnode.1]
      exact (and_iff_left hne).symm

theorem Tracks.pushFront (h : Tracks n extra c m) {key : K} (hkey : m key = none) (value : V) :
    Tracks n (extra + 1) (c.pushFront key value) (update m key (some value)) := by
  have hfree : ∀ node ∈ c.valueList, node.key ≠ key := by
    rintro node hnode rfl
    rw [(h.value _ node.value).mpr ⟨node, hnode, rfl, rfl⟩] at hkey
    cases hkey
  refine ⟨h.wf.pushFront hfree value, h.capacity, succ_le_succ h.size, fun key' v => ?_⟩
  simp only [LruCache.pushFront, mem_cons, exists_eq_or_imp]
  rcases eq_or_ne key' key with rfl | hne
  · rw [update_self, Option.some.injEq]
    refine ⟨fun hv => .inl ⟨rfl, hv⟩, ?_⟩
    rintro (⟨-, hv⟩ | ⟨node, hnode, hk, -⟩)
    · exact hv
    · exact absurd hk (hfree node hnode)
  · rw [update_of_ne hne, h.value]
    exact ⟨.inr, fun hv => hv.resolve_left fun hv => hne hv.1.symm⟩

theorem Tracks.evict (h : Tracks n 1 c m) : Tracks n 0 c.evict (without m c.overflow) := by
  have hsize := h.size
  unfold LruCache.evict overflow
  rw [h.capacity, h.wf.size_eq]
  split
  · cases hlast : c.valueList.getLast? with
    | none =>
      rename_i hlt
      rw [getLast?_eq_none_iff.mp hlast] at hlt
      exact absurd hlt (not_lt_zero n)
    | some node =>
      obtain ⟨hwf, hcapacity, hle, hvalue⟩ := h.remove node.key
      have hnode : node ∉ (c.internalRemove node.key).2.valueList := fun hmem =>
        ((mem_internalRemove h.wf _ _).mp hmem).2 rfl
      have hsub := internalRemove_sublist c node.key
      have hne : (c.internalRemove node.key).2.valueList.length ≠ c.valueList.length := fun heq =>
        hnode (hsub.eq_of_length heq ▸ mem_of_getLast? hlast)
      have hlt := lt_of_le_of_ne hsub.length_le hne
      exact ⟨hwf, hcapacity, le_of_lt_succ (lt_of_lt_of_le hlt hsize), hvalue⟩
  · exact ⟨h.wf, h.capacity, by omega, h.value⟩

theorem Tracks.put [DecidableEq V] (h : Tracks n 0 c m) (key : K) (value : V) :
    Tracks n 0 (c.put key value) (c.record m (.op (.put key value))) := by
  simp only [record]
  split
  · rename_i hholds
    rw [put_of_holds hholds]
    simp only [holds, Option.any_eq_true, Option.bind_eq_some_iff, decide_eq_true_eq] at hholds
    obtain ⟨found, ⟨id, hid, hderef⟩, hvalue⟩ := hholds
    obtain ⟨node, hnode, rfl, rfl⟩ := (h.wf.index_iff key id).mp hid
    rw [h.wf.deref_of_mem hnode] at hderef
    cases hderef
    rwa [update_eq_self_iff.mpr ((h.value _ _).mpr ⟨found, hnode, rfl, hvalue⟩).symm]
  · rename_i hholds
    have hpushed := (h.remove key).pushFront (update_self ..) value
    rw [update_idem] at hpushed
    rw [put_of_not_holds hholds]
    exact hpushed.evict

theorem Tracks.call [DecidableEq V] (h : Tracks n 0 c m) (op : Call K V) :
    Tracks n 0 (c.call op) (c.record m op) := by
  rcases op with (⟨key, value⟩ | key | key) | _
  · exact h.put key value
  · exact h.get key
  · exact h.remove key
  · exact ⟨⟨nodup_nil, by simp [LruCache.call, clear], by simp [LruCache.call, clear]⟩, h.capacity,
      zero_le _, by simp [LruCache.call, clear, record]⟩

/-- **The bounded map.** On every run the list and the index have the same distinct keys, each entry
of the index points to its node, there are at most `capacity` keys, and `Get` gives the value last
put for a key that was not removed, cleared or evicted since. -/
theorem bounded_map [DecidableEq V] (capacity : Nat) (calls : List (Call K V)) :
    (runCalls capacity calls).1.WF ∧
      ((runCalls capacity calls).1.valueList.map Node.key).Nodup ∧
      (runCalls capacity calls).1.valueList.length ≤ capacity ∧
      ∀ key, ((runCalls capacity calls).1.get key).1 = (runCalls capacity calls).2 key := by
  have h : Tracks capacity 0 (runCalls capacity calls).1 (runCalls capacity calls).2 := by
    induction calls using List.reverseRecOn with
    | nil => exact ⟨WF.empty capacity, rfl, zero_le _, by simp [runCalls]⟩
    | append_singleton calls op ih =>
      rw [runCalls, foldl_append]
      exact ih.call op
  exact ⟨h.wf, h.wf.nodup_keys, h.size, h.get_eq⟩

/-- The second key evicts the first one, and a third call gives it another value. -/
theorem bounded_map_one :
    letI cache : LruCache Nat Nat :=
      (runCalls 1 [.op (.put 1 10), .op (.put 2 20), .op (.put 2 30)]).1
    cache.valueList.length ≤ 1 ∧ (cache.get 1).1 = none ∧ (cache.get 2).1 = some 30 :=
  ⟨(bounded_map 1 _).2.2.1, (bounded_map 1 _).2.2.2 1, (bounded_map 1 _).2.2.2 2⟩

end Toft.LruCache

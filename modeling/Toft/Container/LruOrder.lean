import Mathlib.Data.List.Induction
import Toft.Container.LruCache

/-!
# The order of eviction

The list of an `LruCache` is in the order in which its keys were last moved to the front
(`Ordered`), on every run of `Put`, `Get` and `Remove`. A `Put` of the value that its key already
has moves nothing. So the key that is evicted is the one that was touched longest ago exactly if no
such `Put` of it came behind the last touch of another key (`age_lt_iff`).
-/

namespace Toft.LruCache

open List

variable {K V : Type}

def hasKey [Ord K] (c : LruCache K V) (key : K) : Bool := c.index.contains key

/-- The calls that use a key. -/
inductive Op (K V : Type) where
  | put (key : K) (value : V)
  | get (key : K)
  | remove (key : K)

/-- A `Put` of a key or a successful `Get` of it. A `Put` of the value that is there is idle. -/
@[ext] structure Touch (K : Type) where
  key : K
  idle : Bool
deriving DecidableEq

section Runs

variable [Ord K] [DecidableEq V]

def holds (c : LruCache K V) (key : K) (value : V) : Bool :=
  (c.index[key]?.bind c.deref).any (·.value = value)

def step (c : LruCache K V) : Op K V → LruCache K V
  | .put key value => c.put key value
  | .get key => (c.get key).2
  | .remove key => (c.internalRemove key).2

def touch (c : LruCache K V) : Op K V → List (Touch K)
  | .put key value => [⟨key, c.holds key value⟩]
  | .get key => if (c.get key).1.isSome then [⟨key, false⟩] else []
  | .remove _ => []

/-- A call, with the touches up to it, the newest in front. -/
def trace (s : LruCache K V × List (Touch K)) (op : Op K V) : LruCache K V × List (Touch K) :=
  (s.1.step op, s.1.touch op ++ s.2)

def run (capacity : Nat) (ops : List (Op K V)) : LruCache K V × List (Touch K) :=
  ops.foldl trace ({ capacity := capacity }, [])

theorem put_of_holds {c : LruCache K V} {key : K} {value : V} (h : c.holds key value) :
    c.put key value = c := if_pos h

theorem put_of_not_holds {c : LruCache K V} {key : K} {value : V} (h : ¬ c.holds key value) :
    c.put key value = ((c.internalRemove key).2.pushFront key value).evict := if_neg h

end Runs

/-! ## Touches -/

section Touches

variable {t : List (Touch K)}

theorem findIdx_le_of_getElem {p : Touch K → Bool} {i : Nat} {e : Touch K}
    (h : t[i]? = some e) (hp : p e) : t.findIdx p ≤ i := by
  obtain ⟨hi, rfl⟩ := List.getElem?_eq_some_iff.mp h
  by_contra hlt
  have hnot := not_of_lt_findIdx (Nat.lt_of_not_le hlt)
  rw [hp] at hnot
  cases hnot

variable [DecidableEq K]

def age (t : List (Touch K)) (key : K) : Nat := t.findIdx (·.key = key)

/-- The number of touches since the key was last moved to the front. -/
def movedAge (t : List (Touch K)) (key : K) : Nat := t.findIdx (· = ⟨key, false⟩)

theorem age_le_movedAge {key : K} (h : movedAge t key < t.length) : age t key ≤ movedAge t key := by
  have hget : t[movedAge t key] = ⟨key, false⟩ := of_decide_eq_true (@findIdx_getElem _ _ _ h)
  exact findIdx_le_of_getElem (List.getElem?_eq_some_iff.mpr ⟨h, hget⟩) (decide_eq_true rfl)

/-- Of two keys the one that was moved to the front later was touched later, unless an idle `Put` of
the other one came behind. -/
theorem age_lt_iff {j k : K} (h : movedAge t j < movedAge t k)
    (hk : movedAge t k < t.length) : age t j < age t k ↔ ⟨k, true⟩ ∉ t.take (age t j) := by
  have hj : age t j ≤ movedAge t j := age_le_movedAge (h.trans hk)
  have hjk : j ≠ k := by
    rintro rfl
    exact lt_irrefl _ h
  have hlastOf : ∀ key, age t key < t.length → ∃ e, t[age t key]? = some e ∧ e.key = key := by
    intro key hlt
    have hget : (t[age t key]).key = key := of_decide_eq_true (@findIdx_getElem _ _ _ hlt)
    exact ⟨t[age t key], getElem?_eq_getElem hlt, hget⟩
  constructor
  · intro hlt hmem
    obtain ⟨i, hi⟩ := mem_iff_getElem?.mp hmem
    rw [getElem?_take] at hi
    split_ifs at hi with hij
    have hage : age t k ≤ i := findIdx_le_of_getElem hi (decide_eq_true rfl)
    omega
  · intro hidle
    by_contra hge
    obtain ⟨e, hlast, hkey⟩ := hlastOf k (by omega)
    obtain ⟨e', hlast', hkey'⟩ := hlastOf j (by omega)
    cases hflag : e.idle with
    | false =>
      -- then the key was moved to the front at its last touch
      obtain rfl : e = ⟨k, false⟩ := Touch.ext hkey hflag
      have hmoved : movedAge t k ≤ age t k := findIdx_le_of_getElem hlast (decide_eq_true rfl)
      omega
    | true =>
      obtain rfl : e = ⟨k, true⟩ := Touch.ext hkey hflag
      have hne : age t k ≠ age t j := by
        intro heq
        rw [heq, hlast'] at hlast
        cases hlast
        exact hjk hkey'.symm
      refine hidle (mem_iff_getElem?.mpr ⟨age t k, ?_⟩)
      rw [getElem?_take, if_pos (by omega), hlast]

theorem movedAge_cons_self (t : List (Touch K)) (key : K) :
    movedAge (⟨key, false⟩ :: t) key = 0 := by
  rw [movedAge, findIdx_cons, decide_eq_true rfl]
  rfl

theorem movedAge_cons_of_ne {e : Touch K} {key : K} (h : e ≠ ⟨key, false⟩) :
    movedAge (e :: t) key = movedAge t key + 1 := by
  rw [movedAge, findIdx_cons, decide_eq_false h]
  rfl

/-! ## The order of the list -/

/-- The list is in the order in which its keys were moved to the front. -/
structure Ordered (valueList : List (Node K V)) (t : List (Touch K)) : Prop where
  moved : ∀ node ∈ valueList, movedAge t node.key < t.length
  sorted : valueList.Pairwise fun m n => movedAge t m.key < movedAge t n.key

variable {l : List (Node K V)}

theorem Ordered.sublist (h : Ordered l t) {l' : List (Node K V)} (hsub : l'.Sublist l) :
    Ordered l' t :=
  ⟨fun node hnode => h.moved node (hsub.subset hnode), h.sorted.sublist hsub⟩

theorem Ordered.touch (h : Ordered l t) {e : Touch K}
    (he : ∀ node ∈ l, e ≠ ⟨node.key, false⟩) : Ordered l (e :: t) := by
  refine ⟨?_, ?_⟩
  · intro node hnode
    rw [movedAge_cons_of_ne (he node hnode)]
    exact Nat.succ_lt_succ (h.moved node hnode)
  · refine h.sorted.imp_of_mem ?_
    intro m n hm hn hlt
    rw [movedAge_cons_of_ne (he m hm), movedAge_cons_of_ne (he n hn)]
    exact Nat.succ_lt_succ hlt

theorem Ordered.front (h : Ordered l t) {node : Node K V} (hfree : ∀ m ∈ l, m.key ≠ node.key) :
    Ordered (node :: l) (⟨node.key, false⟩ :: t) := by
  have hne : ∀ m ∈ l, (⟨node.key, false⟩ : Touch K) ≠ ⟨m.key, false⟩ := by
    intro m hm heq
    exact hfree m hm (congrArg Touch.key heq).symm
  obtain ⟨hmoved, hsorted⟩ := h.touch hne
  refine ⟨?_, List.Pairwise.cons ?_ hsorted⟩
  · intro m hm
    rcases mem_cons.mp hm with rfl | hm
    · rw [movedAge_cons_self]
      exact Nat.succ_pos _
    · exact hmoved m hm
  · intro m hm
    rw [movedAge_cons_self, movedAge_cons_of_ne (hne m hm)]
    exact Nat.succ_pos _

theorem Ordered.lt_last (h : Ordered l t) {node m : Node K V} (hlast : l.getLast? = some node)
    (hm : m ∈ l) (hne : m.key ≠ node.key) : movedAge t m.key < movedAge t node.key := by
  obtain ⟨front, rfl⟩ := getLast?_eq_some_iff.mp hlast
  rcases mem_append.mp hm with hm | hm
  · exact (pairwise_append.mp h.sorted).2.2 m hm node mem_cons_self
  · rw [mem_singleton.mp hm] at hne
    exact absurd rfl hne

end Touches

section Lawful

variable [Ord K] {c : LruCache K V}

theorem WF.eq_of_key (h : c.WF) {m n : Node K V} (hm : m ∈ c.valueList) (hn : n ∈ c.valueList)
    (hkey : m.key = n.key) : m = n := by
  have hmid := (h.index_iff m.key m.id).mpr ⟨m, hm, rfl, rfl⟩
  have hnid := (h.index_iff m.key n.id).mpr ⟨n, hn, hkey.symm, rfl⟩
  rw [hmid] at hnid
  exact h.eq_of_id hm hn (Option.some.inj hnid)

theorem WF.hasKey_iff [Std.TransOrd K] (h : c.WF) (key : K) :
    c.hasKey key ↔ ∃ node ∈ c.valueList, node.key = key := by
  rw [hasKey, Std.TreeMap.contains_eq_isSome_getElem?, Option.isSome_iff_exists]
  constructor
  · rintro ⟨id, hid⟩
    obtain ⟨node, hnode, hkey, -⟩ := (h.index_iff key id).mp hid
    exact ⟨node, hnode, hkey⟩
  · rintro ⟨node, hnode, hkey⟩
    exact ⟨node.id, (h.index_iff key node.id).mpr ⟨node, hnode, hkey, rfl⟩⟩

def Present (c : LruCache K V) (key other : K) : Prop := c.hasKey other ∨ other = key

theorem Present.pushed [Std.TransOrd K] {key other : K} (h : Present c key other) (hwf : c.WF)
    (value : V) :
    ∃ node ∈ ((c.internalRemove key).2.pushFront key value).valueList, node.key = other := by
  by_cases heq : other = key
  · exact ⟨_, mem_cons_self, heq.symm⟩
  · obtain ⟨node, hnode, hkey⟩ := (hwf.hasKey_iff other).mp (h.resolve_right heq)
    refine ⟨node, mem_cons_of_mem _ ?_, hkey⟩
    refine (mem_internalRemove hwf key node).mpr ⟨hnode, ?_⟩
    rw [hkey]
    exact heq

variable [DecidableEq K] {t : List (Touch K)}

theorem Ordered.get (h : Ordered c.valueList t) (hwf : c.WF) [DecidableEq V] (key : K) :
    Ordered (c.get key).2.valueList (c.touch (.get key) ++ t) := by
  rcases get_cases hwf key with ⟨node, hnode, rfl, hget⟩ | ⟨hget, -⟩
  · rw [LruCache.touch, get_of_mem hwf hnode]
    refine (h.sublist filter_sublist).front ?_
    intro m hm heq
    obtain ⟨hm, hid⟩ := mem_filter.mp hm
    rw [hwf.eq_of_key hm hnode heq] at hid
    exact bne_iff_ne.mp hid rfl
  · rw [LruCache.touch, hget]
    exact h

theorem Ordered.pushed (h : Ordered c.valueList t) (hwf : c.WF) (key : K) (value : V) :
    Ordered ((c.internalRemove key).2.pushFront key value).valueList (⟨key, false⟩ :: t) := by
  refine (h.sublist (internalRemove_sublist c key)).front ?_
  intro m hm
  exact ((mem_internalRemove hwf key m).mp hm).2

theorem Ordered.put [DecidableEq V] (h : Ordered c.valueList t) (hwf : c.WF) (key : K)
    (value : V) : Ordered (c.put key value).valueList (c.touch (.put key value) ++ t) := by
  rw [LruCache.touch]
  cases hholds : c.holds key value with
  | true =>
    rw [put_of_holds hholds]
    refine Ordered.touch h ?_
    rintro node - heq
    cases congrArg Touch.idle heq
  | false =>
    rw [put_of_not_holds (ne_true_of_eq_false hholds)]
    rcases evict_eq ((c.internalRemove key).2.pushFront key value) with hevict | ⟨key', hevict⟩
    · rw [hevict]
      exact h.pushed hwf key value
    · rw [hevict]
      exact (h.pushed hwf key value).sublist (internalRemove_sublist _ key')

variable [Std.TransOrd K] [Std.LawfulEqOrd K]

theorem Ordered.step [DecidableEq V] (h : Ordered c.valueList t) (hwf : c.WF) (op : Op K V) :
    (c.step op).WF ∧ Ordered (c.step op).valueList (c.touch op ++ t) := by
  cases op with
  | put key value => exact ⟨hwf.put key value, h.put hwf key value⟩
  | get key => exact ⟨hwf.get key, h.get hwf key⟩
  | remove key => exact ⟨hwf.internalRemove key, h.sublist (internalRemove_sublist c key)⟩

theorem ordered_run [DecidableEq V] (capacity : Nat) (ops : List (Op K V)) :
    (run capacity ops).1.WF ∧ Ordered (run capacity ops).1.valueList (run capacity ops).2 := by
  induction ops using reverseRecOn with
  | nil =>
    refine ⟨WF.empty capacity, ?_, List.Pairwise.nil⟩
    intro node hnode
    exact absurd hnode not_mem_nil
  | append_singleton ops op ih =>
    rw [run, foldl_append]
    exact ih.2.step ih.1 op

/-! ## Eviction -/

theorem last_of_evicted [DecidableEq V] (hwf : c.WF) {key evicted : K} {value : V}
    (hbefore : c.hasKey evicted) (hafter : ¬ (c.put key value).hasKey evicted) :
    ¬ c.holds key value ∧ ∃ node,
      ((c.internalRemove key).2.pushFront key value).valueList.getLast? = some node ∧
        node.key = evicted := by
  have hholds : ¬ c.holds key value := by
    intro hholds
    rw [put_of_holds hholds] at hafter
    exact hafter hbefore
  rw [put_of_not_holds hholds] at hafter
  have hpushed := hwf.pushed key value
  obtain ⟨m, hm, hkey⟩ := Present.pushed (Or.inl hbefore) hwf value
  have hthere := (hpushed.hasKey_iff evicted).mpr ⟨m, hm, hkey⟩
  refine ⟨hholds, ?_⟩
  unfold evict at hafter
  split at hafter
  · split at hafter
    · exact absurd hthere hafter
    · rename_i node hlast
      refine ⟨node, hlast, ?_⟩
      by_contra hne
      refine hafter (((hpushed.internalRemove node.key).hasKey_iff evicted).mpr ⟨m, ?_, hkey⟩)
      refine (mem_internalRemove hpushed node.key m).mpr ⟨hm, ?_⟩
      rw [hkey]
      exact Ne.symm hne
  · exact absurd hthere hafter

/-- The key was touched before all the others that are there. -/
def Oldest (c : LruCache K V) (key : K) (t : List (Touch K)) (evicted : K) : Prop :=
  ∀ other, Present c key other → other ≠ evicted → age t other < age t evicted

/-- A key that is evicted by a `Put` is the one whose last touch lies furthest in the past exactly
if no `Put` of the value that it had came behind the last touch of another key. -/
theorem evicts_oldest_iff [DecidableEq V] (capacity : Nat) (ops : List (Op K V)) (key : K)
    (value : V) (evicted : K) (hbefore : (run capacity ops).1.hasKey evicted)
    (hafter : ¬ (run capacity (ops ++ [.put key value])).1.hasKey evicted) :
    Oldest (run capacity ops).1 key (run capacity (ops ++ [.put key value])).2 evicted ↔
      ∀ other, Present (run capacity ops).1 key other → other ≠ evicted →
        ⟨evicted, true⟩ ∉ (run capacity (ops ++ [.put key value])).2.take
          (age (run capacity (ops ++ [.put key value])).2 other) := by
  obtain ⟨hwf, hordered⟩ := ordered_run capacity ops
  have hrun : run capacity (ops ++ [.put key value]) =
      trace (run capacity ops) (.put key value) := by
    rw [run, foldl_append]
    rfl
  rw [hrun] at hafter ⊢
  obtain ⟨hholds, node, hlast, rfl⟩ := last_of_evicted hwf hbefore hafter
  have htouches : (trace (run capacity ops) (.put key value)).2 =
      ⟨key, false⟩ :: (run capacity ops).2 := by
    rw [trace, touch, Bool.eq_false_of_not_eq_true hholds]
    rfl
  have hpushed := hordered.pushed hwf key value
  rw [htouches]
  refine forall_congr' fun other => forall_congr' fun hpresent => forall_congr' fun hne => ?_
  refine age_lt_iff ?_ (hpushed.moved node (mem_of_getLast? hlast))
  obtain ⟨m, hm, rfl⟩ := hpresent.pushed hwf value
  exact hpushed.lt_last hlast hm hne

/-- Without the second `Put` of the key 1 it is the oldest one. -/
theorem evicts_oldest_two :
    Oldest (run 2 [.put 1 10, .put 2 20] : LruCache Nat Nat × _).1 3
      (run 2 [.put 1 10, .put 2 20, .put 3 30] : LruCache Nat Nat × _).2 1 := by
  refine (evicts_oldest_iff 2 [.put 1 10, .put 2 20] 3 30 1 (by decide) (by decide)).mpr ?_
  intro other _ _ hmem
  have hall : ∀ e ∈ (run 2 [.put 1 10, .put 2 20, .put 3 30] : LruCache Nat Nat × _).2,
      e ≠ ⟨1, true⟩ := by decide
  exact hall _ (mem_of_mem_take hmem) rfl

/-- The key 1 is evicted though the key 2 was touched before it. -/
theorem not_evicts_oldest :
    (run 2 [.put 1 10, .put 2 20, .put 1 10] : LruCache Nat Nat × _).1.hasKey 1 ∧
      ¬ (run 2 [.put 1 10, .put 2 20, .put 1 10, .put 3 30] : LruCache Nat Nat × _).1.hasKey 1 ∧
      ¬ Oldest (run 2 [.put 1 10, .put 2 20, .put 1 10] : LruCache Nat Nat × _).1 3
        (run 2 [.put 1 10, .put 2 20, .put 1 10, .put 3 30] : LruCache Nat Nat × _).2 1 := by
  refine ⟨by decide, by decide, ?_⟩
  intro holdest
  exact absurd (holdest 2 (Or.inl (by decide)) (by decide)) (by decide)

end Lawful

end Toft.LruCache

import Toft.Lib.Interleaves
import Toft.Storage.Sharding
import Toft.Storage.SSTable.Reader.InMemory

/-!
# Reading several tables as one

`MergedIterator` keeps an iterator for each table that is not at its end, ordered by key and value.
Each step takes the record of the first iterator, moves that iterator and puts it back in its place.
So the records come in order of the keys, those of each table in their order (`lists_tables`).
-/

namespace Toft

open Lib SSTableReader List

/-- The members of `SSTableReaderSet`; a table is given by its place in `tables_` of the reader. -/
structure SSTableReaderSet where
  setId : Bytes
  shardingPolicy : Bytes
  numShard : Int
  tables : Std.TreeMap Int Nat := ∅
  shardingMan : Option ShardingPolicy := none

/-- The members of `MergedSSTableReader`. -/
structure MergedSSTableReader (ρ : Type) where
  tables : List ρ := []
  sets : Std.TreeMap Bytes SSTableReaderSet := ∅

/-- The members of `MergedIterator`; an iterator of the queue comes with the place of its table. -/
structure MergedIterator (ρ : Type) [SSTableReader ρ] where
  valid : Bool := false
  key : Bytes := []
  value : Bytes := []
  iterQueue : List (Nat × Iterator ρ) := []

variable {ρ : Type} [SSTableReader ρ]

def IteratorComp (x y : Nat × Iterator ρ) : Prop :=
  key x.2 < key y.2 ∨ key x.2 = key y.2 ∧ value x.2 < value y.2

instance : DecidableRel (IteratorComp (ρ := ρ)) :=
  fun x y => inferInstanceAs (Decidable (key x.2 < key y.2 ∨ _ ∧ _))

namespace MergedIterator

/-- `iter_queue_.insert`, if the iterator is valid. -/
def requeue (it : MergedIterator ρ) (entry : Nat × Iterator ρ) : MergedIterator ρ :=
  if SSTableReader.valid entry.2 then
    { it with iterQueue := it.iterQueue.orderedInsert IteratorComp entry }
  else it

def seekLoop (k : Bytes) : Nat → List ρ → MergedIterator ρ →
    Except Fault (MergedIterator ρ × List ρ)
  | _, [], it => .ok (it, [])
  | i, t :: ts, it => do
    let (iter, t) ← seek t k
    let it := { it.requeue (i, iter) with valid := it.valid || SSTableReader.valid iter }
    let (it, ts) ← seekLoop k (i + 1) ts it
    return (it, t :: ts)

/-- `SeekKey`. The queue is not cleared. -/
def seekKey (it : MergedIterator ρ) (k : Bytes) (r : MergedSSTableReader ρ) :
    Except Fault (MergedIterator ρ × MergedSSTableReader ρ) := do
  let (it, tables) ← seekLoop k 0 r.tables { it with valid := false }
  return (it, { r with tables := tables })

def loadItem (it : MergedIterator ρ) (r : MergedSSTableReader ρ) :
    Except Fault (MergedIterator ρ × MergedSSTableReader ρ) :=
  match it.iterQueue with
  | [] => .error .overrun
  | (i, iter) :: rest =>
    match r.tables[i]? with
    | none => .error .nullPointer
    | some t => do
      let it := { it with key := SSTableReader.key iter, value := SSTableReader.value iter }
      let (iter, t) ← SSTableReader.next iter t
      return ({ it with iterQueue := rest }.requeue (i, iter),
        { r with tables := r.tables.set i t })

def next (it : MergedIterator ρ) (r : MergedSSTableReader ρ) :
    Except Fault (MergedIterator ρ × MergedSSTableReader ρ) :=
  if it.iterQueue.isEmpty then .ok ({ it with valid := false }, r)
  else loadItem { it with valid := true } r

def create (r : MergedSSTableReader ρ) (k : Bytes) :
    Except Fault (MergedIterator ρ × MergedSSTableReader ρ) := do
  let (it, r) ← seekKey {} k r
  if it.valid then it.loadItem r else return (it, r)

end MergedIterator

instance : SSTableReader (MergedSSTableReader ρ) where
  Iterator := MergedIterator ρ
  seek := MergedIterator.create
  next := MergedIterator.next
  valid := MergedIterator.valid
  key := MergedIterator.key
  value := MergedIterator.value

/-! ## The queue -/

namespace MergedIterator

section Fields

variable (it : MergedIterator ρ) (entry : Nat × Iterator ρ)

@[simp] theorem requeue_valid : (it.requeue entry).valid = it.valid := by
  unfold requeue
  split <;> rfl

@[simp] theorem requeue_key : (it.requeue entry).key = it.key := by
  unfold requeue
  split <;> rfl

@[simp] theorem requeue_value : (it.requeue entry).value = it.value := by
  unfold requeue
  split <;> rfl

end Fields

variable {queue rest : List (Nat × Iterator ρ)} {tables : List ρ} {xss : List (List Record)}

/-- The queue has an iterator for each table that has records to come: `xss` lists them. -/
structure Queued (queue : List (Nat × Iterator ρ)) (tables : List ρ) (xss : List (List Record)) :
    Prop where
  sorted : queue.Pairwise fun x y => SSTableReader.key x.2 ≤ SSTableReader.key y.2
  nodup : (queue.map Prod.fst).Nodup
  entry : ∀ e ∈ queue, ∃ t x xs, tables[e.1]? = some t ∧ xss[e.1]? = some (x :: xs) ∧
    (cursor ρ).Yields (e.2, t) (x :: xs)
  listed : ∀ i x xs, xss[i]? = some (x :: xs) → i ∈ queue.map Prod.fst

theorem Queued.eq_nil (h : Queued [] tables xss) : ∀ xs ∈ xss, xs = [] := by
  intro xs hxs
  obtain ⟨i, hi⟩ := getElem?_of_mem hxs
  cases xs with
  | nil => rfl
  | cons x xs => cases h.listed i x xs hi

theorem Queued.pop {i : Nat} {iter : Iterator ρ} (h : Queued ((i, iter) :: rest) tables xss) :
    Queued rest tables (xss.set i []) := by
  have hnodup := h.nodup
  rw [map_cons, nodup_cons] at hnodup
  refine ⟨h.sorted.of_cons, hnodup.2, fun e he => ?_, fun j x xs hj => ?_⟩
  · have hne : i ≠ e.1 := fun heq => hnodup.1 (mem_map.mpr ⟨e, he, heq.symm⟩)
    rw [getElem?_set_ne hne]
    exact h.entry e (mem_cons_of_mem _ he)
  · by_cases hij : i = j
    · subst hij
      rw [getElem?_set_self'] at hj
      cases hget : xss[i]? <;> simp [hget] at hj
    · rw [getElem?_set_ne hij] at hj
      have hmem := h.listed j x xs hj
      rw [map_cons, mem_cons] at hmem
      exact hmem.resolve_left (Ne.symm hij)

theorem pairwise_insert
    (h : queue.Pairwise fun x y => SSTableReader.key x.2 ≤ SSTableReader.key y.2)
    (e : Nat × Iterator ρ) : (queue.orderedInsert IteratorComp e).Pairwise
      fun x y => SSTableReader.key x.2 ≤ SSTableReader.key y.2 := by
  refine pairwise_orderedInsert (fun hab hbc => Std.le_trans hab hbc) (fun y hy => ?_)
    (fun y hy => ?_) h
  · rcases hy with hlt | ⟨heq, -⟩
    · exact Std.le_of_lt hlt
    · exact heq ▸ Std.le_refl _
  · exact Std.not_lt.mp fun hlt => hy (.inl hlt)

theorem Queued.requeue {it : MergedIterator ρ} (h : Queued it.iterQueue tables xss) {i : Nat}
    {iter : Iterator ρ} {t : ρ} {xs : List Record} (hi : i < tables.length)
    (hnil : xss[i]? = some []) (hyields : (cursor ρ).Yields (iter, t) xs) :
    Queued (it.requeue (i, iter)).iterQueue (tables.set i t) (xss.set i xs) := by
  have habsent : ∀ e ∈ it.iterQueue, i ≠ e.1 := by
    intro e he heq
    obtain ⟨_, x, xs, -, hlist, -⟩ := h.entry e he
    rw [← heq, hnil] at hlist
    cases hlist
  have hlen : i < xss.length := (List.getElem?_eq_some_iff.mp hnil).1
  have hentry : ∀ e ∈ it.iterQueue, ∃ t' x ys, (tables.set i t)[e.1]? = some t' ∧
      (xss.set i xs)[e.1]? = some (x :: ys) ∧ (cursor ρ).Yields (e.2, t') (x :: ys) := by
    intro e he
    rw [getElem?_set_ne (habsent e he), getElem?_set_ne (habsent e he)]
    exact h.entry e he
  have hlisted : ∀ j x ys, (xss.set i xs)[j]? = some (x :: ys) →
      j = i ∧ xs = x :: ys ∨ j ∈ it.iterQueue.map Prod.fst := by
    intro j x ys hj
    by_cases hij : i = j
    · subst hij
      rw [getElem?_set_self hlen] at hj
      exact .inl ⟨rfl, Option.some.inj hj⟩
    · rw [getElem?_set_ne hij] at hj
      exact .inr (h.listed j x ys hj)
  have hvalid : SSTableReader.valid iter = !xs.isEmpty := hyields.valid_eq
  unfold MergedIterator.requeue
  cases xs with
  | nil =>
    simp only [hvalid, isEmpty_nil, Bool.not_true, Bool.false_eq_true, ite_false]
    exact ⟨h.sorted, h.nodup, hentry, fun j x ys hj =>
      (hlisted j x ys hj).resolve_left fun hcons => by cases hcons.2⟩
  | cons x xs =>
    have hperm := perm_orderedInsert IteratorComp (i, iter) it.iterQueue
    simp only [hvalid, isEmpty_cons, Bool.not_false, ite_true]
    refine ⟨pairwise_insert h.sorted _, ?_, fun e he => ?_, fun j y ys hj => ?_⟩
    · rw [(hperm.map Prod.fst).nodup_iff, map_cons, nodup_cons]
      refine ⟨fun hmem => ?_, h.nodup⟩
      obtain ⟨e, he, heq⟩ := mem_map.mp hmem
      exact habsent e he heq.symm
    · rcases mem_cons.mp (hperm.mem_iff.mp he) with rfl | he
      · exact ⟨t, x, xs, getElem?_set_self hi, getElem?_set_self hlen, hyields⟩
      · exact hentry e he
    · rw [(hperm.map Prod.fst).mem_iff, map_cons, mem_cons]
      exact (hlisted j y ys hj).imp And.left id

theorem Queued.key_le {i : Nat} {iter : Iterator ρ} (h : Queued ((i, iter) :: rest) tables xss)
    (hsorted : ∀ xs ∈ xss, SortedBy Prod.fst xs) {y : Record} (hy : y ∈ xss.flatten) :
    SSTableReader.key iter ≤ y.1 := by
  obtain ⟨ys, hys, hy⟩ := mem_flatten.mp hy
  obtain ⟨x, xs, rfl⟩ := exists_cons_of_ne_nil (ne_nil_of_mem hy)
  obtain ⟨j, hj, hget⟩ := getElem_of_mem hys
  have hlist : xss[j]? = some (x :: xs) := by rw [getElem?_eq_getElem hj, hget]
  obtain ⟨e, he, rfl⟩ := mem_map.mp (h.listed j x xs hlist)
  obtain ⟨t, x', xs', -, hlist', hyields⟩ := h.entry e he
  obtain ⟨rfl, rfl⟩ : x = x' ∧ xs = xs' := by simpa [hlist] using hlist'
  have hkey : SSTableReader.key e.2 = x.1 := congrArg Prod.fst hyields.item_eq
  have hfirst : SSTableReader.key iter ≤ SSTableReader.key e.2 := by
    rcases mem_cons.mp he with rfl | he
    · exact Std.le_refl _
    · exact rel_of_pairwise_cons h.sorted he
  rw [hkey] at hfirst
  rcases mem_cons.mp hy with rfl | hy
  · exact hfirst
  · exact Std.le_trans hfirst (rel_of_pairwise_cons (hsorted _ hys) hy)

/-! ## Walking -/

variable {it : MergedIterator ρ} {r : MergedSSTableReader ρ}

section

variable (h : Queued it.iterQueue r.tables xss) (hsorted : ∀ xs ∈ xss, SortedBy Prod.fst xs)
include h hsorted

/-- `LoadItem` takes the first record of a table, one with the smallest key. -/
theorem loadItem_spec (hne : it.iterQueue ≠ []) :
    ∃ it' r' i xs, it.loadItem r = .ok (it', r') ∧ it'.valid = it.valid ∧
      xss[i]? = some ((it'.key, it'.value) :: xs) ∧
      Queued it'.iterQueue r'.tables (xss.set i xs) ∧ ∀ y ∈ xss.flatten, it'.key ≤ y.1 := by
  obtain ⟨⟨i, iter⟩, rest, hqueue⟩ := exists_cons_of_ne_nil hne
  rw [hqueue] at h
  obtain ⟨t, x, xs, ht, hlist, hyields⟩ := h.entry (i, iter) mem_cons_self
  obtain ⟨-, hitem, ⟨iter', t'⟩, hnext, hrest⟩ := (Cursor.Yields.simulates (cursor ρ)).cons _ _ _
    hyields
  have hnext : SSTableReader.next iter t = .ok (iter', t') := hnext
  have hi := (List.getElem?_eq_some_iff.mp ht).1
  have hlen := (List.getElem?_eq_some_iff.mp hlist).1
  refine ⟨requeue { it with key := x.1, value := x.2, iterQueue := rest } (i, iter'),
    { r with tables := r.tables.set i t' }, i, xs, ?_, requeue_valid .., ?_, ?_, fun y hy => ?_⟩
  · have hkey : SSTableReader.key iter = x.1 := congrArg Prod.fst hitem
    have hvalue : SSTableReader.value iter = x.2 := congrArg Prod.snd hitem
    simp only [loadItem, hqueue, ht, hnext, ok_bind, pure_eq_ok, hkey, hvalue]
  · rw [requeue_key, requeue_value]
    exact hlist
  · have hqueued := @Queued.requeue _ _ _ _
      { it with key := x.1, value := x.2, iterQueue := rest } h.pop _ _ _ _ hi
      (getElem?_set_self hlen) hrest
    rwa [set_set] at hqueued
  · rw [requeue_key, ← congrArg Prod.fst hitem]
    exact h.key_le hsorted hy

theorem loadItem_yields (hvalid : it.valid = true) (hne : it.iterQueue ≠ []) :
    ∃ s ys, it.loadItem r = .ok s ∧ (cursor (MergedSSTableReader ρ)).Yields s ys ∧
      Interleaves xss ys ∧ SortedBy Prod.fst ys := by
  -- each step takes a record away, and leaves sorted lists
  induction hn : xss.flatten.length using Nat.strongRecOn generalizing it r xss with
  | ind n ih =>
    obtain ⟨it', r', i, xs, hload, hvalid', hlist, hqueued, hle⟩ := loadItem_spec h hsorted hne
    have hvalid' : it'.valid = true := hvalid'.trans hvalid
    have hperm := perm_flatten_set hlist
    have hlen := hperm.length_eq
    rw [length_cons] at hlen
    have hsorted' : ∀ xs' ∈ xss.set i xs, SortedBy Prod.fst xs' := by
      intro xs' hxs'
      rcases mem_or_eq_of_mem_set hxs' with hmem | rfl
      · exact hsorted xs' hmem
      · exact (hsorted _ (mem_of_getElem? hlist)).of_cons
    by_cases hempty : it'.iterQueue = []
    · have hnext : (cursor (MergedSSTableReader ρ)).next (it', r') =
          .ok ({ it' with valid := false }, r') := by
        simp [cursor, SSTableReader.next, next, hempty]
      exact ⟨(it', r'), _, hload, .step hvalid' hnext (.done rfl),
        .cons hlist (.nil (Queued.eq_nil (hempty ▸ hqueued))), pairwise_singleton _ _⟩
    · obtain ⟨s, ys, hload', hyields, hinter, hys⟩ := @ih _ (by omega)
        _ { it' with valid := true } _ hqueued hsorted' rfl hempty rfl
      have hnext : (cursor (MergedSSTableReader ρ)).next (it', r') = .ok s := by
        simp [cursor, SSTableReader.next, next, hempty, hload']
      refine ⟨(it', r'), _, hload, .step hvalid' hnext hyields, .cons hlist hinter,
        pairwise_cons.mpr ⟨fun y hy => hle y ?_, hys⟩⟩
      exact hperm.mem_iff.mpr (mem_cons_of_mem _ (hinter.perm.mem_iff.mp hy))

end

/-! ## Seeking -/

/-- The loop of `SeekKey`, when the tables `front` are done. -/
theorem seekLoop_spec {k : Bytes} {ts front : List ρ} {yss : List (List Record)}
    (hts : List.Forall₂ (fun t xs => Lists t k xs) ts yss) (hlen : front.length = xss.length)
    (h : Queued it.iterQueue front xss) (hvalid : it.valid = !it.iterQueue.isEmpty) :
    ∃ it' ts', seekLoop k front.length ts it = .ok (it', ts') ∧
      Queued it'.iterQueue (front ++ ts') (xss ++ yss) ∧
      it'.valid = !it'.iterQueue.isEmpty := by
  induction hts generalizing it front xss with
  | nil => exact ⟨it, [], rfl, by simpa using h, hvalid⟩
  | @cons t ys ts yss ht _ ih =>
    obtain ⟨⟨iter, t'⟩, hseek, hyields⟩ := ht
    have happend : Queued it.iterQueue (front ++ [t]) (xss ++ [[]]) := by
      refine ⟨h.sorted, h.nodup, fun e he => ?_, fun i x xs hi => ?_⟩
      · obtain ⟨t, x, xs, ht, hlist, hyields⟩ := h.entry e he
        have hlt := (List.getElem?_eq_some_iff.mp ht).1
        exact ⟨t, x, xs, by rw [getElem?_append_left hlt, ht],
          by rw [getElem?_append_left (by omega), hlist], hyields⟩
      · rcases Nat.lt_or_ge i xss.length with hlt | hge
        · rw [getElem?_append_left hlt] at hi
          exact h.listed i x xs hi
        · rw [getElem?_append_right hge] at hi
          simp [getElem?_singleton] at hi
    have hqueued := @Queued.requeue _ _ _ _ it happend front.length _ _ _ (by simp)
      (by simp [hlen]) hyields
    have htables : (front ++ [t]).set front.length t' = front ++ [t'] := by simp
    have hlists : (xss ++ [[]]).set front.length ys = xss ++ [ys] := by simp [hlen]
    rw [htables, hlists] at hqueued
    obtain ⟨it', ts', hloop, hqueued', hvalid'⟩ := @ih _
      { it.requeue (front.length, iter) with valid := it.valid || SSTableReader.valid iter }
      (front ++ [t']) (by simp [hlen]) hqueued (by
        rw [hvalid]
        unfold requeue
        cases SSTableReader.valid iter with
        | true =>
          have hperm := perm_orderedInsert IteratorComp (front.length, iter) it.iterQueue
          simp [← length_eq_zero_iff, hperm.length_eq]
        | false => simp)
    rw [length_append, length_singleton] at hloop
    rw [append_assoc, append_assoc] at hqueued'
    refine ⟨it', t' :: ts', ?_, hqueued', hvalid'⟩
    rw [seekLoop, hseek]
    simp only [ok_bind, hloop, pure_eq_ok]

end MergedIterator

namespace MergedSSTableReader

/-- **Merging.** If the tables list sorted records from `k` on, the merged reader lists an
interleaving of them that is sorted. -/
theorem lists_tables {r : MergedSSTableReader ρ} {k : Bytes} {xss : List (List Record)}
    (h : List.Forall₂ (fun t xs => Lists t k xs) r.tables xss)
    (hsorted : ∀ xs ∈ xss, SortedBy Prod.fst xs) :
    ∃ ys, Lists r k ys ∧ Interleaves xss ys ∧ SortedBy Prod.fst ys := by
  obtain ⟨it, tables, hloop, hqueued, hvalid⟩ := @MergedIterator.seekLoop_spec _ _
    [] {} _ _ [] _ h rfl
    ⟨List.Pairwise.nil, nodup_nil, by simp, by simp⟩ rfl
  have hseek : MergedIterator.seekKey {} k r = .ok (it, { r with tables := tables }) := by
    rw [MergedIterator.seekKey]
    simp only [length_nil] at hloop
    simp only [hloop, ok_bind, pure_eq_ok]
  by_cases hempty : it.iterQueue = []
  · rw [hempty] at hvalid hqueued
    have hvalid : it.valid = false := hvalid
    refine ⟨[], ⟨(it, { r with tables := tables }), ?_, .done hvalid⟩, .nil hqueued.eq_nil,
      List.Pairwise.nil⟩
    simp [seek, MergedIterator.create, hseek, ok_bind, hvalid]
  · have hvalid : it.valid = true := by rw [hvalid]; simp [hempty]
    obtain ⟨s, ys, hload, hyields, hinter, hys⟩ := MergedIterator.loadItem_yields
      (r := { r with tables := tables }) hqueued hsorted hvalid hempty
    refine ⟨ys, ⟨s, ?_, hyields⟩, hinter, hys⟩
    simp [seek, MergedIterator.create, hseek, ok_bind, hvalid, hload]

/-- **Merged iteration.** Walking over the merged reader gives the records of all tables, in order
of the keys, those of each table in their order. -/
theorem newIterator_merges {r : MergedSSTableReader ρ} {xss : List (List Record)}
    (h : List.Forall₂ (fun t xs => ∃ s, newIterator t = .ok s ∧ (cursor ρ).Yields s xs)
      r.tables xss)
    (hsorted : ∀ xs ∈ xss, SortedBy Prod.fst xs) :
    ∃ s ys, newIterator r = .ok s ∧ (cursor (MergedSSTableReader ρ)).Yields s ys ∧
      ys.Perm xss.flatten ∧ SortedBy Prod.fst ys ∧ Interleaves xss ys := by
  obtain ⟨ys, ⟨s, hseek, hyields⟩, hinter, hys⟩ := lists_tables h hsorted
  exact ⟨s, ys, hseek, hyields, hinter.perm, hys, hinter⟩

/-- Two tables that share a key. -/
theorem newIterator_merges_two :
    letI := SSTableEnv.inverting
    ∃ (t₁ t₂ : InMemorySSTableReader) (ys : List Record),
      Lists (ρ := MergedSSTableReader InMemorySSTableReader) { tables := [t₁, t₂] } [] ys ∧
      ys.Perm [(ascii "a", ascii "2"), (ascii "b", ascii "1"), (ascii "a", ascii "3")] ∧
      SortedBy Prod.fst ys := by
  let _ := SSTableEnv.inverting
  have hreads : ∀ groups : List (Bytes × List Bytes), groups ≠ [] → Grouped groups →
      ∃ t : InMemorySSTableReader, t.Reads (ungroup groups) := fun groups hne hgrouped =>
    ⟨{ impl := ⟨[], { data := [] }, {}, {}, {}⟩, data := groups
       index := InMemorySSTableReader.indexOf groups }, hgrouped, rfl, hne, rfl⟩
  obtain ⟨t₁, h₁⟩ := hreads [(ascii "a", [ascii "2"]), (ascii "b", [ascii "1"])] (by simp)
    ⟨by decide, by decide⟩
  obtain ⟨t₂, h₂⟩ := hreads [(ascii "a", [ascii "3"])] (by simp) ⟨by decide, by decide⟩
  obtain ⟨s, ys, hnew, hyields, hperm, hsorted, -⟩ := newIterator_merges
    (r := { tables := [t₁, t₂] })
    (.cons (h₁.lists_nil (by decide)) (.cons (h₂.lists_nil (by decide)) .nil))
    (by unfold SortedBy; decide)
  exact ⟨t₁, t₂, ys, ⟨s, hnew, hyields⟩, hperm, hsorted⟩

end MergedSSTableReader

end Toft

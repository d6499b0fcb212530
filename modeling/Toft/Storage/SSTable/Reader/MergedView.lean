import Mathlib.Data.List.Perm.Basic
import Toft.Storage.SSTable.Reader.Merged
import Toft.Storage.SSTable.Reader.View

/-!
# Merging tables from any state

The queue of a merged iterator may hold several iterators of one table, because `SeekKey` does not
clear it. So the queue is described by what its iterators show, whatever the readers did before.
Each step takes the least of the first records, by key and value.
-/

namespace Toft

open Lib SSTableReader List

variable {ρ : Type} [SSTableReader ρ]

namespace MergedIterator

/-- By key and value: what `IteratorComp` compares. -/
def Before (x y : Record) : Prop := x.1 < y.1 ∨ x.1 = y.1 ∧ x.2 < y.2

theorem Before.asymm {x y : Record} (h : Before x y) : ¬ Before y x := by
  rintro (h' | ⟨heq, h'⟩)
  · rcases h with h | ⟨heq, -⟩
    · exact Std.lt_irrefl (Std.lt_trans h h')
    · exact Std.lt_irrefl (heq ▸ h')
  · rcases h with h | ⟨-, h⟩
    · exact Std.lt_irrefl (heq ▸ h)
    · exact Std.lt_irrefl (Std.lt_trans h h')

theorem not_before_iff {x y : Record} : ¬ Before y x ↔ x.1 < y.1 ∨ x.1 = y.1 ∧ x.2 ≤ y.2 := by
  unfold Before
  constructor
  · intro h
    rw [not_or, not_and] at h
    by_cases heq : x.1 = y.1
    · exact .inr ⟨heq, Std.not_lt.mp (h.2 heq.symm)⟩
    · exact .inl (Std.lt_of_le_of_ne (Std.not_lt.mp h.1) heq)
  · rintro (hlt | ⟨heq, hle⟩) (hlt' | ⟨heq', hlt'⟩)
    · exact Std.lt_irrefl (Std.lt_trans hlt hlt')
    · exact Std.lt_irrefl (heq' ▸ hlt)
    · exact Std.lt_irrefl (heq ▸ hlt')
    · exact Std.not_lt.mpr hle hlt'

theorem not_before_trans {x y z : Record} (hxy : ¬ Before y x) (hyz : ¬ Before z y) :
    ¬ Before z x := by
  rw [not_before_iff] at *
  rcases hxy with hxy | ⟨hxy, hxy'⟩ <;> rcases hyz with hyz | ⟨hyz, hyz'⟩
  · exact .inl (Std.lt_trans hxy hyz)
  · exact .inl (hyz ▸ hxy)
  · exact .inl (hxy ▸ hyz)
  · exact .inr ⟨hxy.trans hyz, Std.le_trans hxy' hyz'⟩

def itemOf (e : Nat × Iterator ρ) : Record := (SSTableReader.key e.2, SSTableReader.value e.2)

def Ordered (queue : List (Nat × Iterator ρ)) : Prop :=
  queue.Pairwise fun x y => ¬ Before (itemOf y) (itemOf x)

theorem Ordered.requeue {it : MergedIterator ρ} (h : Ordered it.iterQueue) (e : Nat × Iterator ρ) :
    Ordered (it.requeue e).iterQueue := by
  unfold MergedIterator.requeue
  split
  · exact pairwise_orderedInsert (fun hab hbc => not_before_trans hab hbc)
      (fun y hy => Before.asymm hy) (fun y hy => hy) h
  · exact h

variable (views : List (TableView ρ))

/-- The iterators of the queue have the records `xss` to come, each at least one. -/
def Queues (queue : List (Nat × Iterator ρ)) (xss : List (List Record)) : Prop :=
  List.Forall₂ (fun e xs => xs ≠ [] ∧ ∃ v, views[e.1]? = some v ∧ v.shows e.2 xs) queue xss

/-- The tables of the reader are in states in which they serve the views. -/
def Serve (tables : List ρ) : Prop := List.Forall₂ (fun v t => TableView.serves v t) views tables

variable {views} {it : MergedIterator ρ} {xss : List (List Record)}

theorem Queues.requeue (h : Queues views it.iterQueue xss) {i : Nat} {iter : Iterator ρ}
    {v : TableView ρ} (hv : views[i]? = some v) {xs : List Record} (hshows : v.shows iter xs) :
    ∃ xss', Queues views (it.requeue (i, iter)).iterQueue xss' ∧
      xss'.Perm (if xs.isEmpty then xss else xs :: xss) := by
  have hvalid := v.valid_eq hshows
  unfold MergedIterator.requeue
  cases xs with
  | nil =>
    rw [if_neg (by simp [hvalid])]
    exact ⟨xss, h, .refl _⟩
  | cons x xs =>
    rw [if_pos (by simp [hvalid])]
    exact perm_comp_forall₂ (perm_orderedInsert IteratorComp (i, iter) it.iterQueue)
      (.cons ⟨cons_ne_nil _ _, v, hv, hshows⟩ h)

/-- The lists that the views give for a key, without the empty ones. -/
def listsFrom (vs : List (TableView ρ)) (k : Bytes) : List (List Record) :=
  (vs.map (·.recordsFrom k)).filter (!·.isEmpty)

theorem listsFrom_cons (v : TableView ρ) (vs : List (TableView ρ)) (k : Bytes) :
    listsFrom (v :: vs) k =
      if (v.recordsFrom k).isEmpty then listsFrom vs k else v.recordsFrom k :: listsFrom vs k := by
  rw [listsFrom, map_cons, filter_cons]
  cases (v.recordsFrom k).isEmpty <;> rfl

/-- What the loop of `SeekKey` does to the iterator: it adds what the tables list to the queue. -/
structure Seeks (views vs : List (TableView ρ)) (k : Bytes) (it it' : MergedIterator ρ)
    (xss : List (List Record)) : Prop where
  queues : ∃ xss', Queues views it'.iterQueue xss' ∧ xss'.Perm (xss ++ listsFrom vs k)
  ordered : Ordered it.iterQueue → Ordered it'.iterQueue
  valid : it'.valid = (it.valid || !(listsFrom vs k).isEmpty)

theorem seekLoop_seeks {vs : List (TableView ρ)} {ts : List ρ} {k : Bytes} {i : Nat}
    (hserve : Serve vs ts)
    (hviews : ∀ (j : Nat) (v : TableView ρ), vs[j]? = some v → views[i + j]? = some v)
    (h : Queues views it.iterQueue xss) :
    ∃ it' ts', seekLoop k i ts it = .ok (it', ts') ∧ Serve vs ts' ∧
      Seeks views vs k it it' xss := by
  induction hserve generalizing i it xss with
  | nil =>
    exact ⟨it, [], rfl, .nil, ⟨xss, h, by simp [listsFrom]⟩, id, by simp [listsFrom]⟩
  | @cons v t vs ts hv _ ih =>
    obtain ⟨iter, t', hseek, hv', hshows, -⟩ := v.seek_spec k hv
    have hvalid := v.valid_eq hshows
    obtain ⟨xss₁, h₁, hperm₁⟩ := h.requeue (hviews 0 v rfl) hshows
    obtain ⟨it', ts', hloop, hserve', hseeks⟩ := @ih
      { it.requeue (i, iter) with valid := it.valid || SSTableReader.valid iter } xss₁ (i + 1)
      (fun j w hw => by rw [Nat.add_assoc, Nat.add_comm 1]; exact hviews (j + 1) w hw) h₁
    obtain ⟨xss', h', hperm'⟩ := hseeks.queues
    refine ⟨it', t' :: ts', ?_, .cons hv' hserve', ⟨xss', h', ?_⟩, fun hordered => ?_, ?_⟩
    · rw [seekLoop, hseek]
      simp only [ok_bind, hloop, pure_eq_ok]
    · refine hperm'.trans ((hperm₁.append_right _).trans ?_)
      rw [listsFrom_cons]
      split
      · exact .refl _
      · exact perm_middle.symm
    · exact hseeks.ordered (hordered.requeue _)
    · rw [hseeks.valid, hvalid, listsFrom_cons]
      cases hempty : (v.recordsFrom k).isEmpty <;> simp

variable {r : MergedSSTableReader ρ}

theorem seekKey_seeks (k : Bytes) (hserve : Serve views r.tables)
    (h : Queues views it.iterQueue xss) :
    ∃ it' tables, it.seekKey k r = .ok (it', { r with tables := tables }) ∧ Serve views tables ∧
      Seeks views views k { it with valid := false } it' xss := by
  obtain ⟨it', ts', hloop, hserve', hseeks⟩ := @seekLoop_seeks _ _ views { it with valid := false }
    xss _ _ k 0 hserve (fun j v hv => by rwa [Nat.zero_add]) h
  refine ⟨it', ts', ?_, hserve', hseeks⟩
  simp only [seekKey, hloop, ok_bind, pure_eq_ok]

theorem loadItem_takes (hserve : Serve views r.tables) {xs : List Record}
    (h : Queues views it.iterQueue (xs :: xss)) :
    ∃ it' tables ys, it.loadItem r = .ok (it', { r with tables := tables }) ∧
      Serve views tables ∧
      xs = (it'.key, it'.value) :: ys ∧ it'.valid = it.valid ∧
      (∃ xss', Queues views it'.iterQueue xss' ∧
        xss'.Perm (if ys.isEmpty then xss else ys :: xss)) ∧
      (Ordered it.iterQueue → Ordered it'.iterQueue ∧
        ∀ e ∈ it.iterQueue, ¬ Before (itemOf e) (it'.key, it'.value)) := by
  obtain ⟨⟨i, iter⟩, rest, ⟨hne, v, hv, hshows⟩, hrest, hqueue⟩ := forall₂_cons_right_iff.mp h
  obtain ⟨x, ys, rfl⟩ := exists_cons_of_ne_nil hne
  obtain ⟨t, ht, hserves⟩ := forall₂_getElem? hserve hv
  obtain ⟨iter', t', hnext, hserves', hshows'⟩ := v.next_spec hserves hshows
  have hitem : (SSTableReader.key iter, SSTableReader.value iter) = x := v.item_eq hshows
  let it₁ : MergedIterator ρ := { it with key := x.1, value := x.2, iterQueue := rest }
  obtain ⟨xss', hqueues, hperm⟩ := @Queues.requeue _ _ _ it₁ _ hrest _ _ _ hv _ hshows'
  refine ⟨it₁.requeue (i, iter'), r.tables.set i t', ys, ?_,
    forall₂_set hserve hv hserves', ?_, requeue_valid .., ⟨xss', hqueues, hperm⟩,
    fun hordered => ?_⟩
  · have hkey : SSTableReader.key iter = x.1 := congrArg Prod.fst hitem
    have hvalue : SSTableReader.value iter = x.2 := congrArg Prod.snd hitem
    simp only [loadItem, hqueue, ht, hnext, ok_bind, pure_eq_ok, hkey, hvalue]
    rfl
  · rw [requeue_key, requeue_value]
  · rw [hqueue] at hordered ⊢
    obtain ⟨hfirst, hordered⟩ := pairwise_cons.mp hordered
    refine ⟨@Ordered.requeue _ _ it₁ hordered _, fun e he => ?_⟩
    rw [requeue_key, requeue_value]
    change ¬ Before (itemOf e) x
    rw [← hitem]
    rcases mem_cons.mp he with rfl | he
    · exact fun h => h.asymm h
    · exact hfirst e he

end MergedIterator

end Toft

import Toft.Storage.SSTable.Reader.InMemory
import Toft.Storage.SSTable.Reader.OnDiskTable

/-!
# Tables as readers serve them

The two readers of a file keep different states, but what is used of them by a reader of several
tables is the same: a seek and a step never fail, they do not depend on what else was read before,
and they list records of one table.
-/

namespace Toft

open Lib Hfile SSTableReader List

def firstValue (records : List Record) (k : Bytes) : Option Bytes :=
  (records.find? fun x => x.1 = k).map Prod.snd

/-- A table as a reader serves it: `serves` holds of the states of the reader, and `shows it xs` if
the iterator `it` has the records `xs` to come. -/
structure TableView (ρ : Type) [SSTableReader ρ] where
  records : List Record
  sorted : SortedBy Prod.fst records
  /-- What `Seek` lists. -/
  recordsFrom : Bytes → List Record
  suffix : ∀ k, recordsFrom k <:+ records
  recordsFrom_nil : recordsFrom [] = records
  find?_eq : ∀ k, ((recordsFrom k).head?.filter fun x => x.1 = k) = records.find? fun x => x.1 = k
  serves : ρ → Prop
  shows : Iterator ρ → List Record → Prop
  valid_eq : ∀ {it xs}, shows it xs → valid it = !xs.isEmpty
  item_eq : ∀ {it x xs}, shows it (x :: xs) → (key it, value it) = x
  seek_spec : ∀ {r} k, serves r → ∃ it r', seek r k = .ok (it, r') ∧ serves r' ∧
    shows it (recordsFrom k) ∧ (recordsFrom k = [] → key it ≠ k)
  next_spec : ∀ {r it x xs}, serves r → shows it (x :: xs) →
    ∃ it' r', next it r = .ok (it', r') ∧ serves r' ∧ shows it' xs

namespace TableView

variable {ρ : Type} [SSTableReader ρ] (v : TableView ρ) {r : ρ}

theorem simulates : (cursor ρ).Simulates fun s xs => v.serves s.2 ∧ v.shows s.1 xs where
  nil _ h := v.valid_eq h.2
  cons s x xs h := by
    obtain ⟨it', r', hnext, hr', hshows⟩ := v.next_spec h.1 h.2
    exact ⟨v.valid_eq h.2, v.item_eq h.2, (it', r'), hnext, hr', hshows⟩

theorem yields (hr : v.serves r) {it : Iterator ρ} {xs : List Record} (h : v.shows it xs) :
    (cursor ρ).Yields (it, r) xs :=
  .of_simulates v.simulates ⟨hr, h⟩

theorem lists (hr : v.serves r) (k : Bytes) : Lists r k (v.recordsFrom k) := by
  obtain ⟨it, r', hseek, hr', hshows, -⟩ := v.seek_spec k hr
  exact ⟨(it, r'), hseek, v.yields hr' hshows⟩

theorem sorted_recordsFrom (k : Bytes) : SortedBy Prod.fst (v.recordsFrom k) :=
  v.sorted.sublist (v.suffix k).sublist

theorem lookup_spec (hr : v.serves r) (k : Bytes) :
    ∃ r', SSTableReader.lookup r k = .ok (firstValue v.records k, r') ∧ v.serves r' := by
  obtain ⟨it, r', hseek, hr', hshows, hend⟩ := v.seek_spec k hr
  refine ⟨r', ?_, hr'⟩
  rw [lookup_of_yields hseek (v.yields hr' hshows) hend, v.find?_eq, firstValue]

/-- A table has a value for the key exactly if `Seek` starts with a record of that key. -/
theorem firstValue_eq_some_iff {k value : Bytes} :
    firstValue v.records k = some value ↔ (v.recordsFrom k).head? = some (k, value) := by
  rw [firstValue, ← v.find?_eq]
  cases (v.recordsFrom k).head? with
  | none => simp
  | some x =>
    rcases x with ⟨key, w⟩
    by_cases hkey : key = k <;> simp [Option.filter, hkey]

end TableView

section Views

variable [SSTableEnv] (t : Table)

def OnDiskSSTableReader.view (hblocks : t.blocks.length ≤ 2 ^ 30)
    (hrecords : t.records.length < 2 ^ 31) : TableView OnDiskSSTableReader where
  records := t.records
  sorted := t.sorted
  recordsFrom k := t.records.dropWhile (·.1 < k)
  suffix _ := dropWhile_suffix _
  recordsFrom_nil := by
    rw [dropWhile_eq_self_iff]
    simp
  find?_eq k := (SortedBy.find?_eq t.sorted k).symm
  serves r := r.Reads t.blocks
  shows it xs := OnDiskIterator.Shows it t.blocks xs
  valid_eq {_ xs} h := by
    cases xs with
    | nil => exact h
    | cons x xs => exact h.1
  item_eq h := h.2.1
  seek_spec {r} k hr := by
    have hrank := t.rank_le k
    obtain ⟨i, hi, hfind, hkey⟩ := exists_block (k := k) hr (by omega)
    obtain ⟨it, r', hcreate, hr', hshows, hend⟩ := OnDiskIterator.create_spec hr hfind
      (getElem?_eq_getElem hi) (fun b hb => t.items_ne_nil (mem_of_mem_drop hb)) hrecords
    rw [← t.records_dropWhile hi hkey] at hshows
    refine ⟨it, r', hcreate, hr', hshows, fun hnil => ?_⟩
    rw [hnil] at hshows
    exact Std.ne_of_lt (hend hshows)
  next_spec hr hshows := by
    obtain ⟨it', r', hnext, hr', hshows'⟩ := OnDiskIterator.next_spec hr hshows.2.2
    exact ⟨it', r', hnext, hr', hshows'⟩

def InMemorySSTableReader.view {r : InMemorySSTableReader} (h : r.Reads t.records)
    (hrecords : t.records.length < 2 ^ 31) : TableView InMemorySSTableReader where
  records := t.records
  sorted := t.sorted
  recordsFrom k := ungroup (r.data.drop (r.place k))
  suffix k := by
    rw [← h.flat]
    conv_rhs => rw [← take_append_drop (r.place k) r.data, ungroup_append]
    exact suffix_append _ _
  recordsFrom_nil := by rw [place_nil, drop_zero, h.flat]
  find?_eq := h.find?_eq t.sorted
  serves r' := r' = r
  shows it xs := InMemoryIterator.Shows it r xs
  valid_eq {_ xs} h := by
    cases xs with
    | nil => exact h
    | cons x xs => exact h.1
  item_eq h := h.2.1
  seek_spec {r'} k hr := by
    subst hr
    obtain ⟨it, hcreate, hshows, hend⟩ := h.create_spec hrecords k
    refine ⟨it, _, hcreate, rfl, hshows, fun hnil => ?_⟩
    rw [hnil] at hshows
    change it.key ≠ k
    rw [hend hshows]
    exact (h.ne_nil_of_end hnil).symm
  next_spec {r'} {it _ _} hr hshows := by
    subst hr
    obtain ⟨it', hnext, hshows'⟩ := InMemoryIterator.next_spec h hrecords hshows.2.2
    exact ⟨it', _, hnext, rfl, hshows'⟩

end Views

end Toft

import Mathlib.Data.List.TakeWhile
import Toft.Storage.SSTable.Reader.OnDisk

/-!
# Seeking in a table on disk

The block that the index gives for a key begins with a smaller key, or is the first one, so every
record in front of it is smaller and the first record that is not smaller is found from there on
(`seek_table`). If an empty block stands in front of the table, the search can end in that block,
which does not load (`seek_padded_of_le`).
-/

namespace Toft

open Lib Hfile SSTableReader List OnDiskIterator Nat TableBlock

namespace Table

variable (t : Table)

theorem keys_sorted : (t.blocks.map TableBlock.key).Pairwise (· ≤ ·) := by
  have hsorted := (pairwise_flatMap.mp t.sorted).2
  rw [pairwise_map]
  refine hsorted.imp_of_mem fun {a b} ha hb hab => ?_
  obtain ⟨_, _, hitems⟩ := (t.keyed a ha).exists_cons
  obtain ⟨_, _, hitems'⟩ := (t.keyed b hb).exists_cons
  exact hab _ (by rw [hitems]; exact mem_cons_self) _
    (by rw [hitems']; exact mem_cons_self)

/-- The number of blocks that begin with a key smaller than `k`. -/
def rank (k : Bytes) : Nat := ((t.blocks.map TableBlock.key).takeWhile (· < k)).length

theorem rank_le (k : Bytes) : t.rank k ≤ t.blocks.length := by
  rw [← length_map TableBlock.key]
  exact (takeWhile_sublist _).length_le

theorem key_lt_of_lt_rank {k : Bytes} {i : Nat} (h : i < t.rank k) (hi : i < t.blocks.length) :
    t.blocks[i].key < k := by
  have hget := takeWhile_prefix (l := t.blocks.map TableBlock.key) (· < k) |>.getElem h
  have hmem := mem_takeWhile_imp (getElem_mem h)
  rw [hget] at hmem
  simpa using hmem

theorem records_eq_append (i : Nat) :
    t.records = (t.blocks.take i).flatMap items ++
      (t.blocks.drop i).flatMap items := by
  rw [records, ← flatMap_append, take_append_drop]

/-- What stands in front of a block that begins with a smaller key is smaller. -/
theorem records_dropWhile {k : Bytes} {i : Nat} (hi : i < t.blocks.length)
    (hkey : 0 < i → t.blocks[i].key < k) :
    t.records.dropWhile (·.1 < k) =
      ((t.blocks.drop i).flatMap items).dropWhile (·.1 < k) := by
  have hsorted := t.sorted
  rw [← records, t.records_eq_append i] at hsorted
  rw [t.records_eq_append i, dropWhile_append_of_pos]
  intro x hx
  have hpos : 0 < i := by
    rcases Nat.eq_zero_or_pos i with rfl | hpos
    · simp at hx
    · exact hpos
  obtain ⟨value, items, hitems⟩ := (t.keyed _ (getElem_mem hi)).exists_cons
  have hmem : (t.blocks[i].key, value) ∈ (t.blocks.drop i).flatMap TableBlock.items := by
    rw [drop_eq_getElem_cons hi, flatMap_cons, hitems]
    exact mem_append_left _ mem_cons_self
  have hle : x.1 ≤ t.blocks[i].key := (pairwise_append.mp hsorted).2.2 x hx _ hmem
  simpa using Std.lt_of_le_of_lt hle (hkey hpos)

/-- With an empty block in front that has the first key, the index is still in order. -/
theorem padded_sorted :
    ((⟨t.firstKey, []⟩ :: t.blocks : List TableBlock).map TableBlock.key).Pairwise (· ≤ ·) := by
  rw [map_cons, pairwise_cons]
  refine ⟨fun key hkey => ?_, t.keys_sorted⟩
  obtain ⟨b, bs, hcons⟩ := exists_cons_of_ne_nil t.ne_nil
  have hfirst : t.firstKey = b.key := by simp [firstKey, hcons]
  have hsorted := t.keys_sorted
  rw [hcons, map_cons, pairwise_cons] at hsorted
  rw [hcons, map_cons, mem_cons] at hkey
  rcases hkey with rfl | hkey
  · exact hfirst ▸ Std.le_refl _
  · exact hfirst ▸ hsorted.1 key hkey

end Table

namespace OnDiskSSTableReader

variable [SSTableEnv] {r : OnDiskSSTableReader} {blocks : List TableBlock} {k : Bytes}

theorem findMinimalBlock_eq (hr : r.Reads blocks) (hne : blocks ≠ [])
    (hsorted : (blocks.map TableBlock.key).Pairwise (· ≤ ·))
    (hsize : ((blocks.map TableBlock.key).takeWhile (· < k)).length + blocks.length ≤ 2 ^ 31) :
    r.findMinimalBlock k =
      .ok ((((blocks.map TableBlock.key).takeWhile (· < k)).length - 1 : Nat) : Int) := by
  have hkeys := hr.holds.keys
  have hlen : r.impl.dataIndex.blockInfo.length = blocks.length := by
    simpa using congrArg length hkeys
  refine DataIndex.findMinimalBlock_eq (fun hnil => hne ?_) (by rwa [hlen]) ?_
  · rw [hnil] at hlen
    exact length_eq_zero_iff.mp hlen.symm
  · rw [DataIndex.before_eq, hkeys, hlen]
    have hsplits := Splits.of_pairwise (p := fun key : Bytes => decide (key < k))
      (hsorted.imp fun {x y} hle hlt => by
        simpa using Std.lt_of_le_of_lt hle (by simpa using hlt))
    rwa [length_map] at hsplits

/-- `Seek(k)` lists the records from the first one on that is not smaller than `k`; an iterator that
is invalid at once has a smaller key. -/
def Finds (r : OnDiskSSTableReader) (blocks : List TableBlock) (records : List Record)
    (k : Bytes) : Prop :=
  ∃ it r', create r k = .ok (it, r') ∧ r'.Reads blocks ∧
    it.Shows blocks (records.dropWhile (·.1 < k)) ∧ (it.valid = false → it.key < k)

variable {records : List Record}

theorem Finds.lists (h : r.Finds blocks records k) :
    Lists r k (records.dropWhile (·.1 < k)) := by
  obtain ⟨it, r', hcreate, hr', hshows, -⟩ := h
  exact ⟨(it, r'), hcreate, yields hr' hshows⟩

/-- `Lookup` gives the value of the first record with the key. It does not ask whether the iterator
is valid; at the end of the table the iterator has a smaller key. -/
theorem Finds.lookup (h : r.Finds blocks records k) (hsorted : SortedBy Prod.fst records) :
    ∃ r', SSTableReader.lookup r k = .ok ((records.find? fun x => x.1 = k).map Prod.snd, r') := by
  obtain ⟨it, r', hcreate, hr', hshows, hend⟩ := h
  refine ⟨r', ?_⟩
  rw [hsorted.find?_eq]
  refine lookup_of_yields hcreate (yields hr' hshows) fun hnil => Std.ne_of_lt (hend ?_)
  rw [hnil] at hshows
  exact hshows

/-- A valid iterator stands on a record. -/
def Placed (it : OnDiskIterator) (blocks : List TableBlock) : Prop :=
  it.valid = true → ∃ x xs, it.Stands blocks (x :: xs)

omit [SSTableEnv] in
theorem placed_of_shows {it : OnDiskIterator} (h : it.Shows blocks records) :
    Placed it blocks := by
  intro hvalid
  cases records with
  | nil =>
    rw [show it.valid = false from h] at hvalid
    cases hvalid
  | cons x xs => exact ⟨x, xs, h.2.2⟩

theorem Finds.keeps (h : r.Finds blocks records k) {it : OnDiskIterator}
    {r' : OnDiskSSTableReader} (hcreate : create r k = .ok (it, r')) :
    r'.Reads blocks ∧ Placed it blocks := by
  obtain ⟨it₁, r₁, hcreate₁, hr₁, hshows, -⟩ := h
  cases hcreate.symm.trans hcreate₁
  exact ⟨hr₁, placed_of_shows hshows⟩

/-- In use, the reader of a table still reads it, with other blocks in the cache. -/
theorem Reads.used (hseek : ∀ {r k it r'}, Reads r blocks → create r k = .ok (it, r') →
      Reads r' blocks ∧ Placed it blocks)
    {its : List OnDiskIterator} {r' : OnDiskSSTableReader}
    (h : Used SSTableReader.lookup r its r') (hr : r.Reads blocks) : r'.Reads blocks := by
  refine h.keeps (Q := fun it => Placed it blocks) hseek ?_ ?_ hr
  · intro it r it' r' hr hplaced hvalid hnext
    obtain ⟨x, xs, hstands⟩ := hplaced hvalid
    obtain ⟨it₁, r₁, hnext₁, hr₁, hshows⟩ := next_spec hr hstands
    cases (show it.next r = .ok (it', r') from hnext).symm.trans hnext₁
    exact ⟨hr₁, placed_of_shows hshows⟩
  · intro r k value r' hr hlookup
    obtain ⟨⟨it, r₁⟩, hcreate, hvalue⟩ := bind_eq_ok_iff.mp hlookup
    cases hvalue
    exact (hseek hr hcreate).1

/-- The search in a table that has blocks without items in front of it. -/
theorem finds_of_block {t : Table} (pre : List TableBlock) (hr : r.Reads (pre ++ t.blocks))
    (hpre : pre.flatMap items = []) {i : Nat} (hi : i < t.blocks.length)
    (hkey : 0 < i → t.blocks[i].key < k)
    (hfind : r.findMinimalBlock k = .ok ((pre.length + i : Nat) : Int))
    (hcount : t.records.length < roundLimit) : r.Finds (pre ++ t.blocks) t.records k := by
  have hdrop : (pre ++ t.blocks).drop (pre.length + i) = t.blocks.drop i := by
    rw [drop_append, drop_eq_nil_of_le (by omega), Nat.add_sub_cancel_left,
      nil_append]
  have hb : (pre ++ t.blocks)[pre.length + i]? = some t.blocks[i] := by
    rw [getElem?_append_right (by omega), Nat.add_sub_cancel_left,
      getElem?_eq_getElem hi]
  obtain ⟨it, r', hcreate, hr', hshows, hend⟩ := create_spec hr hfind hb
    (fun b hb => t.items_ne_nil (mem_of_mem_drop (hdrop ▸ hb)))
    (by rw [flatMap_append, hpre]; exact hcount)
  rw [hdrop, ← t.records_dropWhile hi hkey] at hshows
  exact ⟨it, r', hcreate, hr', hshows, hend⟩

section

variable {t : Table} (hr : r.Reads t.blocks) (hsize : t.rank k + t.blocks.length ≤ 2 ^ 31)
include hr hsize

theorem exists_block :
    ∃ (i : Nat) (_ : i < t.blocks.length), r.findMinimalBlock k = .ok (i : Int) ∧
      (0 < i → t.blocks[i].key < k) := by
  have hpos := length_pos_iff.mpr t.ne_nil
  have hle := t.rank_le k
  have hi : t.rank k - 1 < t.blocks.length := by omega
  exact ⟨t.rank k - 1, hi, findMinimalBlock_eq hr t.ne_nil t.keys_sorted hsize,
    fun hlt => t.key_lt_of_lt_rank (by omega) hi⟩

/-- **Seek.** -/
theorem finds_table (hcount : t.records.length < roundLimit) : r.Finds t.blocks t.records k := by
  obtain ⟨i, hi, hfind, hkey⟩ := exists_block hr hsize
  refine finds_of_block [] hr rfl hi hkey ?_ hcount
  rwa [length_nil, zero_add]

end

variable {t : Table}

theorem lists_table (hr : r.Reads t.blocks) (hsize : t.blocks.length ≤ 2 ^ 31)
    (hcount : t.records.length < roundLimit) : Lists r [] t.records := by
  have hrank : t.rank [] = 0 := by
    rw [Table.rank, length_eq_zero_iff]
    simp
  have hall : t.records.dropWhile (·.1 < []) = t.records := by
    simp
  have hlists := (finds_table (k := []) hr (by omega) hcount).lists
  rwa [hall] at hlists

section

variable (hr : r.Reads (⟨t.firstKey, []⟩ :: t.blocks))
include hr

/-- With an empty block in front, keys behind the first one are found all the same. -/
theorem finds_padded (hlt : t.firstKey < k) (hsize : t.rank k + 1 + (t.blocks.length + 1) ≤ 2 ^ 31)
    (hcount : t.records.length < roundLimit) :
    r.Finds (⟨t.firstKey, []⟩ :: t.blocks) t.records k := by
  have hrank : (((⟨t.firstKey, []⟩ :: t.blocks : List TableBlock).map
      TableBlock.key).takeWhile (· < k)).length = t.rank k + 1 := by
    rw [map_cons, takeWhile_cons_of_pos (by simpa using hlt)]
    rfl
  have hfind := findMinimalBlock_eq (k := k) hr (cons_ne_nil _ _) t.padded_sorted
    (by rw [hrank]; exact hsize)
  have hpos : 0 < t.rank k := by
    obtain ⟨b, bs, hcons⟩ := exists_cons_of_ne_nil t.ne_nil
    have hfirst : t.firstKey = b.key := by simp [Table.firstKey, hcons]
    rw [Table.rank, hcons, map_cons, takeWhile_cons_of_pos (by simpa [← hfirst] using hlt)]
    exact succ_pos _
  have hle := t.rank_le k
  have hi : t.rank k - 1 < t.blocks.length := by omega
  refine finds_of_block (t := t) [⟨t.firstKey, []⟩] hr rfl hi
    (fun _ => t.key_lt_of_lt_rank (by omega) hi) ?_ hcount
  rw [hfind, length_singleton]
  congr 2
  omega

/-- For any other key the search ends in the empty block. -/
theorem create_padded_of_le (hle : k ≤ t.firstKey) (hsize : t.blocks.length + 1 ≤ 2 ^ 31) :
    ∃ it r', create r k = .ok (it, r') ∧ r'.Reads (⟨t.firstKey, []⟩ :: t.blocks) ∧
      it.valid = false ∧ it.key = [] := by
  have hrank : (((⟨t.firstKey, []⟩ :: t.blocks : List TableBlock).map
      TableBlock.key).takeWhile (· < k)).length = 0 := by
    have hnot : ¬ t.firstKey < k := Std.not_lt.mpr hle
    rw [map_cons, takeWhile_cons_of_neg (by simpa using hnot), length_nil]
  have hfind := findMinimalBlock_eq (k := k) hr (cons_ne_nil _ _) t.padded_sorted
    (by rw [hrank, zero_add]; exact hsize)
  rw [hrank] at hfind
  obtain ⟨r', hload, hr'⟩ := loadDataBlock_spec (i := 0) hr rfl
  refine ⟨{ blockIdx := 0 }, r', ?_, hr', rfl, rfl⟩
  have hblocks := hr.getBlockSize
  rw [length_cons] at hblocks
  unfold create seekKey
  rw [if_neg (by omega), hfind]
  simp only [ok_bind]
  rw [hload]
  rfl

/-- With an empty block in front, a walk from the start gives nothing. -/
theorem lists_padded (hsize : t.blocks.length + 1 ≤ 2 ^ 31) : Lists r [] [] := by
  obtain ⟨it, r', hcreate, -, hinvalid, -⟩ := create_padded_of_le hr (nil_le _) hsize
  exact ⟨(it, r'), hcreate, .done hinvalid⟩

end

section

variable {its : List OnDiskIterator} {r' : OnDiskSSTableReader}
  (h : Used SSTableReader.lookup r its r') (hcount : t.records.length < roundLimit)
include h hcount

theorem used_table (hr : r.Reads t.blocks) (hsize : t.blocks.length ≤ 2 ^ 30) :
    r'.Reads t.blocks := by
  refine Reads.used (fun {r k it r'} hr hcreate => ?_) h hr
  have hrank := t.rank_le k
  exact (finds_table hr (by omega) hcount).keeps hcreate

theorem used_padded (hr : r.Reads (⟨t.firstKey, []⟩ :: t.blocks))
    (hsize : t.blocks.length + 1 ≤ 2 ^ 30) : r'.Reads (⟨t.firstKey, []⟩ :: t.blocks) := by
  refine Reads.used (fun {r k it r'} hr hcreate => ?_) h hr
  have hrank := t.rank_le k
  by_cases hlt : t.firstKey < k
  · exact (finds_padded hr hlt (by omega) hcount).keeps hcreate
  · obtain ⟨it₁, r₁, hcreate₁, hr₁, hinvalid, -⟩ :=
      create_padded_of_le (k := k) hr (Std.not_lt.mp hlt) (by omega)
    cases hcreate.symm.trans hcreate₁
    exact ⟨hr₁, fun hvalid => by rw [hinvalid] at hvalid; cases hvalid⟩

end

theorem lookup_table (hr : r.Reads t.blocks) (hsize : t.blocks.length ≤ 2 ^ 30)
    (hcount : t.records.length < roundLimit) :
    ∃ value r', SSTableReader.lookup r k = .ok (value, r') ∧
      (value.isSome ↔ ∃ x ∈ t.records, x.1 = k) := by
  have hrank := t.rank_le k
  obtain ⟨r', hlookup⟩ := (finds_table (k := k) hr (by omega) hcount).lookup t.sorted
  refine ⟨_, r', hlookup, ?_⟩
  simp

/-- With an empty block in front, the iterator at that block still has an empty key, so only the
empty key is looked up with success. -/
theorem lookup_padded (hr : r.Reads (⟨t.firstKey, []⟩ :: t.blocks))
    (hsize : t.blocks.length + 1 ≤ 2 ^ 30) (hcount : t.records.length < roundLimit) :
    ∃ value r', SSTableReader.lookup r k = .ok (value, r') ∧
      (value.isSome ↔ if t.firstKey < k then ∃ x ∈ t.records, x.1 = k else k = []) := by
  by_cases hlt : t.firstKey < k
  · have hrank := t.rank_le k
    obtain ⟨r', hlookup⟩ := (finds_padded (k := k) hr hlt (by omega) hcount).lookup t.sorted
    refine ⟨_, r', hlookup, ?_⟩
    rw [Option.isSome_map, if_pos hlt]
    simp
  · obtain ⟨it, r', hcreate, -, -, hkey⟩ :=
      create_padded_of_le (k := k) hr (Std.not_lt.mp hlt) (by omega)
    have hseek : SSTableReader.seek r k = .ok (it, r') := hcreate
    have hkey : SSTableReader.key (ρ := OnDiskSSTableReader) it = [] := hkey
    refine ⟨_, r', by rw [SSTableReader.lookup, hseek]; rfl, ?_⟩
    rw [if_neg hlt, hkey]
    by_cases hk : k = []
    · simp [hk]
    · simp [hk, Ne.symm hk]

end OnDiskSSTableReader

end Toft

import Toft.Storage.SSTable.Reader.InMemory
import Toft.Storage.SSTable.RoundTrip

/-!
# The two read modes

`ON_DISK` starts at the first record whose key is not smaller, as `sstable_reader.h` documents.
`IN_MEMORY` starts where its bisection ended, and for a key between two stored ones this may be the
smaller one. Which of the two it is depends only on the number of keys and of smaller keys
(`seeks_agree_iff`). Walks from the start and lookups do not see this: they agree on every table,
but not on one with an empty block in front or with too many blocks for the search in the index
(`modesAgree_iff`).
-/

namespace Toft

open Lib Hfile SSTableReader List DataIndex InMemorySSTableReader Nat OnDiskSSTableReader Schedule
  SSTableEnv SingleSSTableWriter TableBlock

def Table.keySet (t : Table) : Finset Bytes := (t.records.map Prod.fst).toFinset

/-- The file is a table: it loads, its index lists the blocks, and they load. The blocks are so few
that the search in the index does not leave the range of an `int`. -/
structure IsTableFile [SSTableEnv] (fs : FileSystem) (path : Bytes) (t : Table) : Prop where
  loads : ∃ impl, Impl.loadFile fs path allFull = .ok (some impl) ∧
    impl.Holds t.blocks ∧ impl.fileTrailer.dataIndexCount = t.blocks.length
  blocks : t.blocks.length ≤ 2 ^ 30
  records : t.records.length < 2 ^ 31

namespace IsTableFile

variable [SSTableEnv] {fs : FileSystem} {path : Bytes} {t : Table}

theorem openOnDisk (h : IsTableFile fs path t) :
    ∃ reader : OnDiskSSTableReader,
      openFile OnDiskSSTableReader fs path allFull = .ok (some reader) ∧
      ∀ k, reader.Finds t.blocks t.records k := by
  obtain ⟨impl, hload, hholds, -⟩ := h.loads
  refine ⟨{ impl := impl }, ?_, fun k => ?_⟩
  · rw [openFile, hload]
    rfl
  · have hrank := t.rank_le k
    have hblocks := h.blocks
    exact finds_table (.init hholds) (by omega) h.records

theorem openInMemory (h : IsTableFile fs path t) :
    ∃ reader : InMemorySSTableReader,
      openFile InMemorySSTableReader fs path allFull = .ok (some reader) ∧
      reader.Reads t.records := by
  obtain ⟨impl, hload, hholds, hcount⟩ := h.loads
  obtain ⟨reader, -, hinit, -, hreads⟩ := init_spec hholds hcount
  refine ⟨reader, ?_, hreads⟩
  have hinit : OfFile.init impl = .ok reader := hinit
  rw [openFile, hload, ok_bind]
  simp only [hinit]
  rfl

end IsTableFile

variable {r : InMemorySSTableReader}

theorem InMemorySSTableReader.Reads.card_filter_keySet {t : Table}
    (h : r.Reads t.records) (k : Bytes) : (t.keySet.filter (· < k)).card = r.rank k := by
  rw [Table.keySet, ← h.flat, h.grouped.card_keys_lt, rank]

/-- In numbers of keys: the place in the loaded table is the right one. -/
theorem InMemorySSTableReader.Reads.place_eq_rank_iff_keySet {t : Table}
    (h : r.Reads t.records) (k : Bytes) :
    r.place k = r.rank k ↔ k ∈ t.keySet ∨ (∀ x ∈ t.keySet, x < k) ∨
      endsLeft (t.keySet.card + 1) (t.keySet.filter (· < k)).card = true := by
  have hset : t.keySet = ((ungroup r.data).map Prod.fst).toFinset := by rw [h.flat, Table.keySet]
  have hcard : t.keySet.card = r.data.length := hset ▸ h.grouped.card_keys
  have hrank := h.card_filter_keySet k
  have hmem : k ∈ t.keySet ↔ k ∈ r.data.map Prod.fst := by
    rw [hset, h.grouped.toFinset_keys, mem_toFinset]
  have hall : (∀ x ∈ t.keySet, x < k) ↔ r.rank k = r.data.length := by
    rw [← hcard, ← hrank, Finset.card_filter_eq_iff]
  rw [h.place_eq_rank_iff, hmem, hall, hcard, hrank]

section Agree

variable [SSTableEnv] {fs : FileSystem} {path : Bytes} {t : Table}

/-- **The read modes agree.** `Seek(k)` lists the same records in both modes exactly if `k` is a
key of the table, or greater than all keys, or the gap between two keys in which it falls is one
at which a bisection ends with a step to the left. -/
theorem seeks_agree_iff (h : IsTableFile fs path t) (k : Bytes) :
    ∃ (onDisk : OnDiskSSTableReader) (inMemory : InMemorySSTableReader),
      openFile OnDiskSSTableReader fs path allFull = .ok (some onDisk) ∧
      openFile InMemorySSTableReader fs path allFull = .ok (some inMemory) ∧
      Lists onDisk k (t.records.dropWhile (·.1 < k)) ∧
      ((∃ xs, Lists inMemory k xs ∧ Lists onDisk k xs) ↔
        k ∈ t.keySet ∨ (∀ x ∈ t.keySet, x < k) ∨
          endsLeft (t.keySet.card + 1) (t.keySet.filter (· < k)).card = true) := by
  obtain ⟨onDisk, hdisk, hfinds⟩ := h.openOnDisk
  obtain ⟨inMemory, hmemory, hreads⟩ := h.openInMemory
  have hlists := hreads.lists h.records k
  have hsame : (∃ xs, Lists inMemory k xs ∧ Lists onDisk k xs) ↔
      inMemory.place k = inMemory.rank k := by
    have hdrop := hreads.grouped.dropWhile_ungroup k
    rw [← hreads.grouped.ungroup_drop_inj (hreads.place_le k) (inMemory.rank_le k),
      rank, ← hdrop, hreads.flat]
    constructor
    · rintro ⟨xs, hxs, hxs'⟩
      exact (hlists.unique hxs).trans (hxs'.unique (hfinds k).lists)
    · intro heq
      exact ⟨_, hlists, heq ▸ (hfinds k).lists⟩
  refine ⟨onDisk, inMemory, hdisk, hmemory, (hfinds k).lists, ?_⟩
  rw [hsame, hreads.place_eq_rank_iff_keySet]

theorem SingleSSTableWriter.isTableFile_write {option : SSTableWriteOption}
    {pairs metas : List Record} (h : Runs option pairs metas fs) (hsize : option.blockSize ≠ 0)
    (hblocks : (tableBlocks option pairs).length ≤ 2 ^ 30) :
    ∃ (fs' : FileSystem) (t : Table),
      write option pairs metas fs allFull = .ok (true, fs') ∧
      IsTableFile fs' option.path t ∧ t.records = stableSort Prod.fst pairs := by
  obtain ⟨fs', f, hwrite, hfile, hf, hfits⟩ := write_spec h
  obtain ⟨impl, hload, hholds, htrailer, -⟩ := loadFile_bytes h.lossless hfits hfile
  obtain ⟨t, hrecords, htable⟩ := exists_table option pairs h.nonempty
  rw [if_neg hsize] at htable
  have hentries := h.fits.entries
  rw [htable] at hf hblocks hentries
  refine ⟨fs', t, hwrite, ⟨⟨impl, hload, hf ▸ hholds, ?_⟩, hblocks, hentries⟩, hrecords⟩
  rw [htrailer, TableFile.trailer, hf]

end Agree

theorem seeks_agree_iff_three :
    letI := inverting
    ∃ (fs : FileSystem) (onDisk : OnDiskSSTableReader) (inMemory : InMemorySSTableReader),
      openFile OnDiskSSTableReader fs (ascii "t") allFull = .ok (some onDisk) ∧
      openFile InMemorySSTableReader fs (ascii "t") allFull = .ok (some inMemory) ∧
      ∃ xs, Lists inMemory (ascii "aa") xs ∧ Lists onDisk (ascii "aa") xs := by
  let _ := inverting
  obtain ⟨fs, t, -, hfile, hrecords⟩ := isTableFile_write
    (runs_three 1 (.inl rfl)) (by decide) (by decide)
  obtain ⟨onDisk, inMemory, hdisk, hmemory, -, hiff⟩ := seeks_agree_iff hfile (ascii "aa")
  refine ⟨fs, onDisk, inMemory, hdisk, hmemory, hiff.mpr (.inr (.inr ?_))⟩
  have hcard : t.keySet.card = 2 := by rw [Table.keySet, hrecords]; decide
  have hsmaller : (t.keySet.filter (· < ascii "aa")).card = 1 := by
    rw [Table.keySet, hrecords]
    decide
  rw [hcard, hsmaller]
  simp [endsLeft]

/-- In a table with the keys `a`, `c` and `e`, the key `b` is found at `c` on disk and at `a` in
memory. -/
theorem seeks_differ_ace :
    letI := inverting
    ∃ (fs : FileSystem) (t : Table) (onDisk : OnDiskSSTableReader)
      (inMemory : InMemorySSTableReader),
      IsTableFile fs (ascii "t") t ∧
      openFile OnDiskSSTableReader fs (ascii "t") allFull = .ok (some onDisk) ∧
      openFile InMemorySSTableReader fs (ascii "t") allFull = .ok (some inMemory) ∧
      Lists onDisk (ascii "b") [(ascii "c", ascii "2"), (ascii "e", ascii "3")] ∧
      Lists inMemory (ascii "b")
        [(ascii "a", ascii "1"), (ascii "c", ascii "2"), (ascii "e", ascii "3")] := by
  let _ := inverting
  have hruns : SingleSSTableWriter.Runs { path := ascii "t", blockSize := 1 }
      [(ascii "a", ascii "1"), (ascii "c", ascii "2"), (ascii "e", ascii "3")] []
      ⟨fun _ => none, fun _ => true⟩ :=
    ⟨BlockCompression.lossless_inverting, trivial, by decide, by simp, by decide, by decide,
      by decide +kernel, fun _ => rfl⟩
  obtain ⟨fs, t, -, hfile, hrecords⟩ := isTableFile_write hruns (by decide) (by decide)
  obtain ⟨onDisk, hdisk, hfinds⟩ := hfile.openOnDisk
  obtain ⟨inMemory, hmemory, hreads⟩ := hfile.openInMemory
  refine ⟨fs, t, onDisk, inMemory, hfile, hdisk, hmemory, ?_, ?_⟩
  · have hlists := (hfinds (ascii "b")).lists
    rw [hrecords] at hlists
    exact hlists
  · have hrank := hreads.card_filter_keySet (ascii "b")
    rw [Table.keySet, hrecords, show (((stableSort Prod.fst
      [(ascii "a", ascii "1"), (ascii "c", ascii "2"), (ascii "e", ascii "3")]).map
        Prod.fst).toFinset.filter (· < ascii "b")).card = 1 by decide] at hrank
    have hplace : inMemory.place (ascii "b") ≠ inMemory.rank (ascii "b") := by
      rw [ne_eq, hreads.place_eq_rank_iff_keySet, hreads.card_filter_keySet, ← hrank,
        Table.keySet, hrecords, show ((stableSort Prod.fst
          [(ascii "a", ascii "1"), (ascii "c", ascii "2"), (ascii "e", ascii "3")]).map
          Prod.fst).toFinset.card = 3 by decide]
      rintro (h | h | h)
      · exact absurd h (by decide)
      · exact absurd (h (ascii "e") (by decide)) (by decide)
      · simp [endsLeft] at h
    have hcases := hreads.place_cases (ascii "b")
    have hlists := hreads.lists hfile.records (ascii "b")
    rw [show inMemory.place (ascii "b") = 0 by omega, drop_zero, hreads.flat,
      hrecords] at hlists
    exact hlists

/-! ## Walks and lookups -/

/-- The file holds the table as a writer leaves it: its index lists the blocks, and they load. With
a block size of 0 an empty block stands in front. -/
structure HoldsTable [SSTableEnv] (fs : FileSystem) (path : Bytes) (front : List TableBlock)
    (t : Table) : Prop where
  loads : ∃ impl, Impl.loadFile fs path allFull = .ok (some impl) ∧
    impl.Holds (front ++ t.blocks) ∧
    impl.fileTrailer.dataIndexCount = (front ++ t.blocks).length
  padding : front = [] ∨ front = [⟨t.firstKey, []⟩]
  blocks : (front ++ t.blocks).length < 2 ^ 31
  records : t.records.length < 2 ^ 31

/-- A walk from the start gives the same records, and `Lookup` the same result and value for every
key. -/
def ModesAgree [SSTableEnv] (onDisk : OnDiskSSTableReader) (inMemory : InMemorySSTableReader) :
    Prop :=
  (∃ xs, Lists onDisk [] xs ∧ Lists inMemory [] xs) ∧
    ∀ k, ∃ value onDisk' inMemory', SSTableReader.lookup onDisk k = .ok (value, onDisk') ∧
      SSTableReader.lookup inMemory k = .ok (value, inMemory')

section Walks

variable [SSTableEnv] {fs : FileSystem} {path : Bytes} {t : Table}

omit [SSTableEnv] in
/-- A key behind all keys of a table. -/
theorem Table.exists_key_gt (t : Table) : ∃ k, ∀ b ∈ t.blocks, b.key < k := by
  obtain ⟨init, last, hblocks⟩ : ∃ init last, t.blocks = init ++ [last] :=
    ⟨_, _, (dropLast_append_getLast t.ne_nil).symm⟩
  have hsorted := t.keys_sorted
  rw [hblocks, map_append, pairwise_append] at hsorted
  refine ⟨last.key ++ [0], fun b hb => ?_⟩
  have hle : b.key ≤ last.key := by
    rw [hblocks, mem_append, mem_singleton] at hb
    rcases hb with hb | rfl
    · exact hsorted.2.2 _ (mem_map.mpr ⟨b, hb, rfl⟩) _ mem_cons_self
    · exact Std.le_refl _
  exact Std.lt_of_le_of_lt hle (Std.lt_of_le_of_ne le_append_left (by simp))

variable {onDisk : OnDiskSSTableReader} {inMemory : InMemorySSTableReader}

theorem OnDiskSSTableReader.modesAgree (hdisk : onDisk.Reads t.blocks)
    (hmemory : inMemory.Reads t.records) (hblocks : t.blocks.length ≤ 2 ^ 30)
    (hrecords : t.records.length < 2 ^ 31) : ModesAgree onDisk inMemory := by
  refine ⟨⟨t.records, lists_table hdisk (by omega) hrecords, hmemory.lists_nil hrecords⟩,
    fun k => ?_⟩
  have hrank := t.rank_le k
  obtain ⟨onDisk', hlookup⟩ := (finds_table (k := k) hdisk (by omega) hrecords).lookup t.sorted
  exact ⟨_, onDisk', inMemory, hlookup, hmemory.lookup t.sorted hrecords k⟩

/-- With too many blocks, a key behind all keys cannot be looked up on disk. -/
theorem OnDiskSSTableReader.not_modesAgree_of_many
    (hdisk : onDisk.Reads t.blocks) (hmany : 2 ^ 30 < t.blocks.length)
    (hblocks : t.blocks.length < 2 ^ 31) (inMemory : InMemorySSTableReader) :
    ¬ ModesAgree onDisk inMemory := by
  rintro ⟨-, hlookup⟩
  obtain ⟨k, hk⟩ := t.exists_key_gt
  obtain ⟨value, onDisk', inMemory', hdisk', -⟩ := hlookup k
  have hkeys := hdisk.holds.keys
  have hlen : onDisk.impl.dataIndex.blockInfo.length = t.blocks.length := by
    simpa using congrArg length hkeys
  have hfind : onDisk.findMinimalBlock k = .error .overrun := by
    refine findMinimalBlock_overrun (by omega) (by omega) fun info hinfo => ?_
    have hmem : info.key ∈ t.blocks.map key := hkeys ▸ mem_map.mpr ⟨info, hinfo, rfl⟩
    obtain ⟨b, hb, hkey⟩ := mem_map.mp hmem
    exact hkey ▸ hk b hb
  have hsize : ¬ onDisk.getBlockSize = 0 := by
    rw [hdisk.getBlockSize]
    omega
  have hseek : SSTableReader.seek onDisk k = .error .overrun := by
    change OnDiskIterator.create onDisk k = _
    simp only [OnDiskIterator.create, OnDiskIterator.seekKey, hsize, ite_false, hfind, error_bind]
  rw [SSTableReader.lookup, hseek] at hdisk'
  cases hdisk'

/-- With an empty block in front, a walk on disk gives nothing, and a walk in memory does not. -/
theorem OnDiskSSTableReader.not_modesAgree_padded
    (hdisk : onDisk.Reads (⟨t.firstKey, []⟩ :: t.blocks))
    (hblocks : t.blocks.length + 1 ≤ 2 ^ 31)
    (hhead : inMemory.data.head?.map Prod.fst = some [])
    (hindex : inMemory.index = indexOf inMemory.data) :
    ¬ ModesAgree onDisk inMemory := by
  rintro ⟨⟨xs, hxs, hxs'⟩, -⟩
  rw [hxs.unique (lists_padded hdisk hblocks)] at hxs'
  exact not_lists_nil hhead hindex hxs'

theorem HoldsTable.opens {front : List TableBlock} (h : HoldsTable fs path front t) :
    ∃ (onDisk : OnDiskSSTableReader) (inMemory : InMemorySSTableReader),
      openFile OnDiskSSTableReader fs path allFull = .ok (some onDisk) ∧
      openFile InMemorySSTableReader fs path allFull = .ok (some inMemory) ∧
      onDisk.Reads (front ++ t.blocks) ∧
      (front = [] → inMemory.Reads t.records) ∧
      (front ≠ [] → ¬ ModesAgree onDisk inMemory) := by
  obtain ⟨impl, hload, hholds, hcount⟩ := h.loads
  have hblocks := h.blocks
  have hreads : ({ impl := impl } : OnDiskSSTableReader).Reads (front ++ t.blocks) := .init hholds
  have hopen {inMemory : InMemorySSTableReader} (hinit : init impl = .ok inMemory) :
      openFile InMemorySSTableReader fs path allFull = .ok (some inMemory) := by
    have hinit : OfFile.init impl = .ok inMemory := hinit
    rw [openFile, hload, ok_bind]
    simp only [hinit]
    rfl
  rcases h.padding with rfl | rfl
  · obtain ⟨inMemory, -, hinit, -, hmemory⟩ := init_spec hholds hcount
    exact ⟨{ impl := impl }, inMemory, by rw [openFile, hload]; rfl, hopen hinit, hreads,
      fun _ => hmemory, fun hne => absurd rfl hne⟩
  · obtain ⟨inMemory, hinit, hhead, hindex⟩ := init_padded hholds
      (by rw [hcount, singleton_append, length_cons])
    refine ⟨{ impl := impl }, inMemory, by rw [openFile, hload]; rfl, hopen hinit, hreads,
      fun hnil => absurd hnil (cons_ne_nil _ _),
      fun _ => not_modesAgree_padded hreads ?_ hhead hindex⟩
    rw [singleton_append, length_cons] at hblocks
    omega

/-- **Walks and lookups in the two modes** agree exactly if no empty block stands in front of the
table and the table has at most `2 ^ 30` blocks. -/
theorem modesAgree_iff {front : List TableBlock} (h : HoldsTable fs path front t) :
    ∃ (onDisk : OnDiskSSTableReader) (inMemory : InMemorySSTableReader),
      openFile OnDiskSSTableReader fs path allFull = .ok (some onDisk) ∧
      openFile InMemorySSTableReader fs path allFull = .ok (some inMemory) ∧
      (ModesAgree onDisk inMemory ↔ front = [] ∧ t.blocks.length ≤ 2 ^ 30) := by
  obtain ⟨onDisk, inMemory, hdisk, hmemory, hreads, hreads', hpadded⟩ := h.opens
  refine ⟨onDisk, inMemory, hdisk, hmemory, fun hagree => ?_, ?_⟩
  · obtain rfl : front = [] := not_not.mp fun hne => hpadded hne hagree
    refine ⟨rfl, not_lt.mp fun hmany => ?_⟩
    exact not_modesAgree_of_many hreads hmany h.blocks inMemory hagree
  · rintro ⟨rfl, hfew⟩
    exact modesAgree hreads (hreads' rfl) hfew h.records

theorem SingleSSTableWriter.holdsTable_write {option : SSTableWriteOption}
    {pairs metas : List Record} (h : Runs option pairs metas fs) :
    ∃ (fs' : FileSystem) (t : Table),
      write option pairs metas fs allFull = .ok (true, fs') ∧
      HoldsTable fs' option.path (if option.blockSize = 0 then [⟨t.firstKey, []⟩] else []) t ∧
      (if option.blockSize = 0 then [⟨t.firstKey, []⟩] else []) ++ t.blocks =
        tableBlocks option pairs := by
  obtain ⟨fs', f, hwrite, hfile, hf, hfits⟩ := write_spec h
  obtain ⟨impl, hload, hholds, htrailer, -⟩ := loadFile_bytes h.lossless hfits hfile
  obtain ⟨t, hrecords, htable⟩ := exists_table option pairs h.nonempty
  have happend : (if option.blockSize = 0 then [⟨t.firstKey, []⟩] else []) ++ t.blocks =
      tableBlocks option pairs := by
    rw [htable]
    split <;> rfl
  have hcount := h.fits.count
  have hentries := h.fits.entries
  rw [← happend] at hf hcount hentries
  refine ⟨fs', t, hwrite, ⟨⟨impl, hload, hf ▸ hholds, ?_⟩, ?_, hcount, ?_⟩, happend⟩
  · rw [htrailer, TableFile.trailer, hf]
  · split
    · exact .inr rfl
    · exact .inl rfl
  · refine lt_of_le_of_lt ?_ hentries
    rw [flatMap_append, length_append, Table.records]
    omega

end Walks

theorem modesAgree_three :
    letI := inverting
    ∃ (fs : FileSystem) (onDisk : OnDiskSSTableReader) (inMemory : InMemorySSTableReader),
      openFile OnDiskSSTableReader fs (ascii "t") allFull = .ok (some onDisk) ∧
      openFile InMemorySSTableReader fs (ascii "t") allFull = .ok (some inMemory) ∧
      ModesAgree onDisk inMemory := by
  let _ := inverting
  obtain ⟨fs, t, -, hholds, hblocks⟩ := holdsTable_write (runs_three 1 (.inl rfl))
  have hlength : t.blocks.length = 3 := congrArg length hblocks
  obtain ⟨onDisk, inMemory, hdisk, hmemory, hiff⟩ := modesAgree_iff hholds
  exact ⟨fs, onDisk, inMemory, hdisk, hmemory, hiff.mpr ⟨rfl, by omega⟩⟩

/-! ### A table with one record in each block -/

theorem flatMap_replicate_singleton {α β : Type} (f : α → List β) {a : α} {b : β} (h : f a = [b])
    (n : Nat) : (replicate n a).flatMap f = replicate n b := by
  rw [flatMap_replicate, h]
  simp

/-- `n` blocks, each with the record `("a", "")`. -/
def Table.copies (n : Nat) (hn : 0 < n) : Table where
  blocks := replicate n ⟨ascii "a", [(ascii "a", [])]⟩
  ne_nil := by simp [ne_of_gt hn]
  keyed b hb := by
    rw [eq_of_mem_replicate hb]
    rfl
  sorted := by
    rw [flatMap_replicate_singleton items rfl, SortedBy, pairwise_replicate]
    exact .inr (Std.le_refl _)

theorem length_flatMap_infoBytes_copies [Host] {b : TableBlock} (hkey : b.key = ascii "a")
    (n offset : Nat) :
    ((blockInfos none offset (replicate n b)).flatMap infoBytes).length = n * 14 := by
  induction n generalizing offset with
  | zero => rfl
  | succ n ih =>
    have hvarint : (Varint.put32 (UInt32.ofNat (ascii "a").length)).length = 1 := by decide
    rw [replicate_succ, blockInfos, flatMap_cons, length_append, ih]
    simp only [infoBytes, hkey, length_append, length_putFixed64, length_putFixed32, hvarint]
    rw [show (ascii "a").length = 1 from rfl]
    omega

theorem holdsTable_copies {n : Nat} (hn : 0 < n) (hlt : n < 2 ^ 31) :
    letI := inverting
    ∃ fs, HoldsTable fs (ascii "t") [] (Table.copies n hn) := by
  let _ := inverting
  let b : TableBlock := ⟨ascii "a", [(ascii "a", [])]⟩
  let f : TableFile := { type := .unCompress, blocks := replicate n b,
                         info := { lastKey := ascii "a" }, totalBytes := 0 }
  have hitems : ((replicate n b).flatMap items).length = n := by
    rw [flatMap_replicate_singleton items rfl, length_replicate]
  have hbytes : (blockBytes none b).length = 17 := by decide
  have hdata : ((replicate n b).flatMap (blockBytes none)).length = n * 17 := by
    rw [length_flatMap, map_replicate, sum_replicate_nat, hbytes]
  have hindex : (bufferOf (blockInfos none 0 (replicate n b))).length ≤ 8 + n * 14 := by
    have hlength := @length_flatMap_infoBytes_copies _ b rfl n 0
    unfold bufferOf
    split
    · exact zero_le _
    · rw [length_append, hlength]
      exact le_refl _
  have hinfo : ({ lastKey := ascii "a" } : FileInfo).encodeToString.length < 2 ^ 10 := by
    decide +kernel
  have hfits : f.Fits [] := by
    refine ⟨trivial, by simp [f, ne_of_gt hn], ⟨?_, ?_, ?_, ?_, ?_⟩, ?_, ?_, rfl, by simp, ?_,
      ?_⟩
    · rwa [length_replicate]
    · intro b' hb' item hitem
      rw [eq_of_mem_replicate hb', mem_singleton] at hitem
      rw [hitem]
      exact ⟨by decide, by decide, by decide⟩
    · intro b' hb'
      rw [eq_of_mem_replicate hb']
      decide
    · intro b' hb'
      rw [eq_of_mem_replicate hb']
      exact lt_of_le_of_lt (le_of_eq hbytes) (by decide)
    · exact lt_of_le_of_lt (le_of_eq hdata) (by omega)
    · exact lt_of_le_of_lt (le_of_eq hitems) hlt
    · have htrailer : FileTrailer.trailerSize = 60 := by decide
      have hdata' : f.blockData.length = n * 17 := hdata
      have hindex' : (bufferOf (blockInfos f.codec 0 f.blocks)).length ≤ 8 + n * 14 := hindex
      have hinfo' : f.info.encodeToString.length < 2 ^ 10 := hinfo
      rw [TableFile.length_bytes]
      omega
    · exact (by decide : (ascii "a").length < 2 ^ 31)
    · exact (by decide : ({} : FileInfo).comparator.length < 2 ^ 31)
  have hfile : (⟨fun _ => some f.bytes, fun _ => true⟩ : FileSystem).files (ascii "t") =
      some f.bytes := rfl
  obtain ⟨impl, hload, hholds, htrailer, -⟩ :=
    loadFile_bytes BlockCompression.lossless_inverting hfits hfile
  refine ⟨_, ⟨impl, hload, hholds, ?_⟩, .inl rfl, ?_, ?_⟩
  · rw [htrailer]
    rfl
  · exact lt_of_le_of_lt (le_of_eq length_replicate) hlt
  · exact lt_of_le_of_lt (le_of_eq hitems) hlt

/-- With a block size of 0 the walks differ; with `2 ^ 30 + 1` blocks a lookup behind the last key
fails on disk. -/
theorem not_modesAgree :
    letI := inverting
    (∃ (fs : FileSystem) (onDisk : OnDiskSSTableReader) (inMemory : InMemorySSTableReader),
      write { path := ascii "t", blockSize := 0 }
        [(ascii "b", ascii "1"), (ascii "a", ascii "2"), (ascii "b", [])]
        [(ascii "m", ascii "x"), (ascii "m", ascii "y")] ⟨fun _ => none, fun _ => true⟩
        allFull = .ok (true, fs) ∧
      openFile OnDiskSSTableReader fs (ascii "t") allFull = .ok (some onDisk) ∧
      openFile InMemorySSTableReader fs (ascii "t") allFull = .ok (some inMemory) ∧
      ¬ ModesAgree onDisk inMemory) ∧
    ∃ (fs : FileSystem) (onDisk : OnDiskSSTableReader) (inMemory : InMemorySSTableReader),
      HoldsTable fs (ascii "t") [] (Table.copies (2 ^ 30 + 1) (by decide)) ∧
      openFile OnDiskSSTableReader fs (ascii "t") allFull = .ok (some onDisk) ∧
      openFile InMemorySSTableReader fs (ascii "t") allFull = .ok (some inMemory) ∧
      ¬ ModesAgree onDisk inMemory := by
  let _ := inverting
  constructor
  · obtain ⟨fs, t, hwrite, hholds, -⟩ := holdsTable_write (runs_three 0 (.inr rfl))
    obtain ⟨onDisk, inMemory, hdisk, hmemory, -, -, hpadded⟩ := hholds.opens
    exact ⟨fs, onDisk, inMemory, hwrite, hdisk, hmemory, hpadded (cons_ne_nil _ _)⟩
  · obtain ⟨fs, hholds⟩ := holdsTable_copies (n := 2 ^ 30 + 1) (by decide) (by decide)
    obtain ⟨onDisk, inMemory, hdisk, hmemory, hreads, -⟩ := hholds.opens
    refine ⟨fs, onDisk, inMemory, hholds, hdisk, hmemory,
      not_modesAgree_of_many hreads ?_ hholds.blocks inMemory⟩
    exact lt_of_lt_of_eq (by decide) length_replicate.symm

end Toft

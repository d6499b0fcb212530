import Toft.Lib.InsertNew
import Toft.Storage.SSTable.Reader.OnDiskTable
import Toft.Storage.SSTable.Writer.Single

/-!
# Writing a table and reading it from disk

What `SingleSSTableWriter` writes opens with `OnDiskSSTableReader`, and the reader finds the pairs
that were added, sorted. The one exception is a block size of 0, with which the file begins with an
empty block: no key is found from there.
-/

namespace Toft

open Lib Hfile SSTableReader OnDiskSSTableReader SSTableEnv Schedule List

namespace SingleSSTableWriter

section Run

variable [SSTableEnv]

/-- A run of the writer: `Add` of all pairs, `AddMetaData` of all meta data, and `Flush`. -/
def write (option : SSTableWriteOption) (pairs metas : List Record) (fs : FileSystem)
    (io : Schedule) : Except Fault (Bool × FileSystem) := do
  let w ← create option
  let w := pairs.foldl (fun w p => (w.add p.1 p.2).2) w
  let w := metas.foldl (fun w item => w.addMetaData item.1 item.2) w
  let (result, _, fs) ← w.flush fs io
  return (result, fs)

/-- What is assumed of a run: the constructor's checks, the working codec and file system, and
sizes that fit. -/
structure Runs (option : SSTableWriteOption) (pairs metas : List Record) (fs : FileSystem) :
    Prop where
  lossless : snappy.Lossless
  supported : option.compressType.Supported
  path : option.path ≠ []
  nonempty : pairs ≠ []
  notBlank : ∀ p ∈ pairs, p ≠ ([], [])
  notReserved : ∀ item ∈ metas, item.1 ∉ FileInfo.reserved
  fits : TableFits option.compressType (tableBlocks option pairs) (insertNew metas).toList
  writable : fs.AllWritable

variable {option : SSTableWriteOption} {pairs metas : List Record} {fs : FileSystem}

theorem write_spec (h : Runs option pairs metas fs) :
    ∃ (fs' : FileSystem) (f : TableFile),
      write option pairs metas fs allFull = .ok (true, fs') ∧
      fs'.files option.path = some f.bytes ∧ f.blocks = tableBlocks option pairs ∧
      f.Fits (insertNew metas).toList := by
  obtain ⟨fs', f, hflush, -, hfile, -, -, hblocks, hfits⟩ := flush_spec h.lossless
    (w := { option := option, data := pairs, fileInfoMeta := insertNew metas
            block := { compression := DataBlock.codec snappy option.compressType } })
    ⟨rfl, rfl, h.supported⟩ h.nonempty h.notBlank
    (fun item hitem => h.notReserved item (mem_of_mem_insertNew hitem)) h.fits h.writable
  refine ⟨fs', f, ?_, hfile, hblocks, hfits⟩
  have hpath : option.path.isEmpty = false := by simpa using h.path
  have hmeta : metas.foldl (fun m item => m.insertIfNew item.1 item.2) ∅ = insertNew metas := rfl
  simp only [write, create, DataBlock.create_eq _ h.supported, ok_bind, hpath, Bool.false_eq_true,
    ite_false, pure_eq_ok, foldl_add, foldl_addMetaData, nil_append, hmeta, hflush]

theorem write_opens (h : Runs option pairs metas fs) :
    ∃ (fs' : FileSystem) (reader : OnDiskSSTableReader),
      write option pairs metas fs allFull = .ok (true, fs') ∧
      openFile OnDiskSSTableReader fs' option.path allFull = .ok (some reader) ∧
      reader.Reads (tableBlocks option pairs) ∧
      reader.impl.fileInfo.metaItems = (insertNew metas).toList := by
  obtain ⟨fs', f, hwrite, hfile, hblocks, hfits⟩ := write_spec h
  obtain ⟨impl, hload, hholds, -, hmetas⟩ := loadFile_bytes h.lossless hfits hfile
  refine ⟨fs', { impl := impl }, hwrite, ?_, hblocks ▸ OnDiskSSTableReader.Reads.init hholds,
    hmetas⟩
  rw [openFile, hload]
  rfl

/-- The blocks of the file are those of a table with the sorted pairs, behind an empty block if the
block size is 0. -/
theorem exists_table (option : SSTableWriteOption) (pairs : List Record) (hne : pairs ≠ []) :
    ∃ t : Table, t.records = stableSort Prod.fst pairs ∧
      tableBlocks option pairs =
        if option.blockSize = 0 then ⟨t.firstKey, []⟩ :: t.blocks else t.blocks := by
  have hperm := stableSort_perm Prod.fst pairs
  obtain ⟨t, hrecords, hblocks⟩ := exists_table_blocksOf (full option)
    (fun hnil : stableSort Prod.fst pairs = [] => hne (hnil ▸ hperm).nil_eq.symm)
    (sortedBy_stableSort Prod.fst pairs)
  refine ⟨t, hrecords, ?_⟩
  rw [tableBlocks, hblocks]
  simp only [full_zero_iff]

/-- **Write and read.** With a block size of at least 1, the reader of the written file walks over
the added pairs, stably sorted by key, and gives the meta data that was added first for its key. -/
theorem read_back (h : Runs option pairs metas fs) (hsize : 1 ≤ option.blockSize.toInt) :
    ∃ (fs' : FileSystem) (reader : OnDiskSSTableReader) (records : List Record),
      write option pairs metas fs allFull = .ok (true, fs') ∧
      openFile OnDiskSSTableReader fs' option.path allFull = .ok (some reader) ∧
      IsStableSort Prod.fst pairs records ∧
      (∃ s, newIterator reader = .ok s ∧ (cursor OnDiskSSTableReader).Yields s records) ∧
      ∀ k first, (metas.find? fun item => item.1 = k) = some first →
        getMetaData reader k = first.2 := by
  have hne : option.blockSize ≠ 0 := by
    intro hzero
    rw [hzero] at hsize
    exact absurd hsize (by decide)
  obtain ⟨fs', reader, hwrite, hopen, hreads, hmetas⟩ := write_opens h
  obtain ⟨t, hrecords, hblocks⟩ := exists_table option pairs h.nonempty
  rw [if_neg hne] at hblocks
  have hcount := h.fits.count
  have hentries := h.fits.entries
  rw [hblocks] at hreads hcount hentries
  have hlists := lists_table hreads hcount.le hentries
  rw [hrecords] at hlists
  refine ⟨fs', reader, _, hwrite, hopen, isStableSort_stableSort Prod.fst pairs, hlists, ?_⟩
  intro k first hfirst
  have himpl : getMetaData reader k = reader.impl.getMetaData k := rfl
  rw [himpl, Impl.getMetaData_eq, hmetas, find?_toList_insertNew, hfirst]
  rfl

omit [SSTableEnv] in
theorem runs_three (size : Int64) (h : size = 1 ∨ size = 0) :
    @Runs inverting { path := ascii "t", blockSize := size }
      [(ascii "b", ascii "1"), (ascii "a", ascii "2"), (ascii "b", [])]
      [(ascii "m", ascii "x"), (ascii "m", ascii "y")] ⟨fun _ => none, fun _ => true⟩ := by
  let _ := inverting
  have hpath : ascii "t" ≠ [] := by decide
  refine ⟨BlockCompression.lossless_inverting, trivial, hpath, by simp, by decide, by decide, ?_,
    fun _ => rfl⟩
  rcases h with rfl | rfl <;> decide +kernel

omit [SSTableEnv] in
theorem read_back_three :
    letI := inverting
    ∃ (fs' : FileSystem) (reader : OnDiskSSTableReader) (records : List Record),
      write { path := ascii "t", blockSize := 1 }
        [(ascii "b", ascii "1"), (ascii "a", ascii "2"), (ascii "b", [])]
        [(ascii "m", ascii "x"), (ascii "m", ascii "y")] ⟨fun _ => none, fun _ => true⟩
        allFull = .ok (true, fs') ∧
      openFile OnDiskSSTableReader fs' (ascii "t") allFull = .ok (some reader) ∧
      IsStableSort Prod.fst [(ascii "b", ascii "1"), (ascii "a", ascii "2"), (ascii "b", [])]
        records ∧
      Lists reader [] records ∧ getMetaData reader (ascii "m") = ascii "x" := by
  let _ := inverting
  obtain ⟨fs', reader, records, hwrite, hopen, hsort, hlists, hmeta⟩ :=
    read_back (runs_three 1 (.inl rfl)) (by decide)
  exact ⟨fs', reader, records, hwrite, hopen, hsort, hlists,
    hmeta (ascii "m") (ascii "m", ascii "x") rfl⟩

/-- The reader seeks and looks up `k` as it should in a table of the pairs: `Seek` lists the records
from the first one on whose key is not smaller, and is invalid at once if there is none; `Lookup`
gives the value of the first record with the key. -/
structure SeeksRight (reader : OnDiskSSTableReader) (pairs : List Record) (k : Bytes) : Prop where
  seek : ∃ records s, IsStableSort Prod.fst pairs records ∧ seek reader k = .ok s ∧
    (cursor OnDiskSSTableReader).Yields s (records.dropWhile (·.1 < k)) ∧
    ((cursor OnDiskSSTableReader).valid s = true ↔ ∃ p ∈ pairs, k ≤ p.1)
  lookup : ∃ reader', lookup reader k =
    .ok ((pairs.find? fun p => p.1 = k).map Prod.snd, reader')

theorem seeksRight_of_finds {reader : OnDiskSSTableReader} {blocks : List TableBlock} {k : Bytes}
    (h : reader.Finds blocks (stableSort Prod.fst pairs) k) : SeeksRight reader pairs k := by
  have hstable := isStableSort_stableSort Prod.fst pairs
  obtain ⟨s, hseek, hyields⟩ := h.lists
  refine ⟨⟨_, s, hstable, hseek, hyields, ?_⟩, ?_⟩
  · rw [hyields.valid_eq, hstable.sorted.dropWhile_eq_filter, Bool.not_eq_true',
      ← Bool.not_eq_true, List.isEmpty_iff, List.filter_eq_nil_iff]
    simp only [decide_eq_true_eq, (stableSort_perm Prod.fst pairs).mem_iff]
    push Not
    rfl
  · obtain ⟨reader', hlookup⟩ := h.lookup hstable.sorted
    rw [hstable.find?_eq] at hlookup
    exact ⟨reader', hlookup⟩

omit [SSTableEnv] in
/-- The smallest key of the table is smaller than `k` if any added key is. -/
theorem firstKey_lt_iff {t : Table} (hrecords : t.records = stableSort Prod.fst pairs) (k : Bytes) :
    t.firstKey < k ↔ ∃ p ∈ pairs, p.1 < k := by
  obtain ⟨value, rest, hcons⟩ := t.exists_records
  have hmem : ∀ p, p ∈ t.records ↔ p ∈ pairs := fun p => by
    rw [hrecords, (stableSort_perm Prod.fst pairs).mem_iff]
  constructor
  · intro hlt
    exact ⟨_, (hmem _).mp (by rw [hcons]; exact mem_cons_self), hlt⟩
  · rintro ⟨p, hp, hlt⟩
    exact Std.lt_of_le_of_lt (t.firstKey_le ((hmem p).mpr hp)) hlt

/-- **Seek and look up.** The reader of the written file, whatever it was used for before, seeks a
key as it should exactly if the block size is not 0 or an added key is smaller: with a block size of
0 the file begins with an empty block, and a key that is not behind the first one is looked for in
that block. -/
theorem seeksRight_iff (h : Runs option pairs metas fs)
    (hblocks : (tableBlocks option pairs).length ≤ 2 ^ 30) (k : Bytes) :
    ∃ (fs' : FileSystem) (reader : OnDiskSSTableReader),
      write option pairs metas fs allFull = .ok (true, fs') ∧
      openFile OnDiskSSTableReader fs' option.path allFull = .ok (some reader) ∧
      ∀ its reader', Used SSTableReader.lookup reader its reader' →
        (SeeksRight reader' pairs k ↔ option.blockSize ≠ 0 ∨ ∃ p ∈ pairs, p.1 < k) := by
  obtain ⟨fs', reader, hwrite, hopen, hreads, -⟩ := write_opens h
  obtain ⟨t, hrecords, htable⟩ := exists_table option pairs h.nonempty
  have hentries := h.fits.entries
  rw [tableBlocks, items_blocksOf, ← hrecords] at hentries
  have hrank := t.rank_le k
  refine ⟨fs', reader, hwrite, hopen, fun its reader' hused => ?_⟩
  rw [htable] at hreads hblocks
  by_cases hzero : option.blockSize = 0
  · rw [if_pos hzero] at hreads hblocks
    rw [length_cons] at hblocks
    replace hreads := used_padded hused hentries hreads hblocks
    rw [← firstKey_lt_iff hrecords]
    simp only [hzero, ne_eq, not_true_eq_false, false_or]
    constructor
    · rintro ⟨⟨records, s, -, hseek, -, hvalid⟩, -⟩
      refine Std.not_le.mp fun hle => ?_
      obtain ⟨it, _, hcreate, -, hinvalid, -⟩ := create_padded_of_le hreads hle (by omega)
      cases hseek.symm.trans hcreate
      obtain ⟨value, rest, hcons⟩ := t.exists_records
      have hmem : (t.firstKey, value) ∈ pairs := by
        rw [← (stableSort_perm Prod.fst pairs).mem_iff, ← hrecords, hcons]
        exact mem_cons_self
      have htrue : it.valid = true := hvalid.mpr ⟨_, hmem, hle⟩
      rw [hinvalid] at htrue
      cases htrue
    · intro hlt
      exact seeksRight_of_finds (hrecords ▸ finds_padded hreads hlt (by omega) hentries)
  · rw [if_neg hzero] at hreads hblocks
    have hreads := used_table hused hentries hreads hblocks
    exact iff_of_true (seeksRight_of_finds (hrecords ▸ finds_table hreads (by omega) hentries))
      (.inl hzero)

end Run

theorem seeksRight_iff_three :
    letI := inverting
    ∃ (fs' : FileSystem) (reader : OnDiskSSTableReader),
      write { path := ascii "t", blockSize := 1 }
        [(ascii "b", ascii "1"), (ascii "a", ascii "2"), (ascii "b", [])]
        [(ascii "m", ascii "x"), (ascii "m", ascii "y")] ⟨fun _ => none, fun _ => true⟩
        allFull = .ok (true, fs') ∧
      openFile OnDiskSSTableReader fs' (ascii "t") allFull = .ok (some reader) ∧
      ∀ its reader', Used SSTableReader.lookup reader its reader' →
        SeeksRight reader' [(ascii "b", ascii "1"), (ascii "a", ascii "2"), (ascii "b", [])]
          (ascii "b") := by
  let _ := inverting
  obtain ⟨fs', reader, hwrite, hopen, hiff⟩ :=
    seeksRight_iff (runs_three 1 (.inl rfl)) (by decide) (ascii "b")
  exact ⟨fs', reader, hwrite, hopen, fun its reader' hused =>
    (hiff its reader' hused).mpr (.inl (by decide))⟩

/-- With a block size of 0 the first key of the table is not found, although it was added. -/
theorem not_seeksRight_of_blockSize_zero :
    letI := inverting
    ∃ (fs' : FileSystem) (reader : OnDiskSSTableReader),
      write { path := ascii "t", blockSize := 0 }
        [(ascii "b", ascii "1"), (ascii "a", ascii "2"), (ascii "b", [])]
        [(ascii "m", ascii "x"), (ascii "m", ascii "y")] ⟨fun _ => none, fun _ => true⟩
        allFull = .ok (true, fs') ∧
      openFile OnDiskSSTableReader fs' (ascii "t") allFull = .ok (some reader) ∧
      (∃ s, seek reader (ascii "a") = .ok s ∧
        (cursor OnDiskSSTableReader).valid s = false) ∧
      ¬ SeeksRight reader [(ascii "b", ascii "1"), (ascii "a", ascii "2"), (ascii "b", [])]
        (ascii "a") := by
  let _ := inverting
  obtain ⟨fs', reader, hwrite, hopen, hreads, -⟩ := write_opens (runs_three 0 (.inr rfl))
  obtain ⟨t, hrecords, htable⟩ := exists_table { path := ascii "t", blockSize := 0 }
    [(ascii "b", ascii "1"), (ascii "a", ascii "2"), (ascii "b", [])] (by simp)
  rw [if_pos rfl] at htable
  have hle : ascii "a" ≤ t.firstKey := by
    rw [← Std.not_lt, firstKey_lt_iff hrecords]
    decide
  have hlen := congrArg length htable
  rw [length_cons] at hlen
  obtain ⟨it, reader', hcreate, -, hinvalid, -⟩ := create_padded_of_le
    (htable ▸ hreads) hle (by rw [← hlen]; decide)
  refine ⟨fs', reader, hwrite, hopen, ⟨(it, reader'), hcreate, hinvalid⟩, ?_⟩
  rintro ⟨⟨records, s, -, hseek, -, hvalid⟩, -⟩
  cases hseek.symm.trans hcreate
  have htrue : it.valid = true := hvalid.mpr ⟨(ascii "a", ascii "2"), by decide, by decide⟩
  rw [hinvalid] at htrue
  cases htrue

end SingleSSTableWriter

end Toft

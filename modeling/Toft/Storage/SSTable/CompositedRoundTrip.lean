import Mathlib.Data.List.Permutation
import Toft.Storage.SSTable.Writer.CompositedFlush

/-!
# Writing a table in batches and reading it

`CompositedSSTableWriter` loses nothing, if its temporary tables have distinct times, exactly if the
last `Add` did not complete a batch and the block size is positive (`writesAll_iff`). If the last
`Add` completes a batch, the open batch is empty, and `Flush` fails at its builder.
-/

namespace Toft

open Lib Hfile SSTableReader List SSTableEnv Schedule

namespace CompositedSSTableWriter

section Run

variable [SSTableEnv]

/-- A run of the writer: `Add` of all pairs, `AddMetaData` of all meta data, and `Flush`. -/
def write (option : SSTableWriteOption) (limit : Int) (pairs metas : List Record)
    (clock : Nat → Int64) (fs : FileSystem) (io : Schedule) : Except Fault (Bool × FileSystem) := do
  let w ← create option limit clock
  match ← addAll clock io pairs w fs with
  | (false, _, fs) => return (false, fs)
  | (true, w, fs) =>
    let w := metas.foldl (fun w item => w.addMetaData item.1 item.2) w
    let (result, _, fs) ← w.flush fs io
    return (result, fs)

/-- What is assumed of a run: the constructor's checks, the working codec and file system, and sizes
that fit. -/
structure Runs (option : SSTableWriteOption) (limit : Int) (pairs metas : List Record)
    (fs : FileSystem) : Prop where
  lossless : snappy.Lossless
  supported : option.compressType.Supported
  path : option.path ≠ []
  nonempty : pairs ≠ []
  notBlank : ∀ p ∈ pairs, p ≠ ([], [])
  notReserved : ∀ item ∈ metas, item.1 ∉ FileInfo.reserved
  size : byteSize pairs < 2 ^ 63
  batches : ∀ batch ∈ (Batches.addAll limit {} pairs).all,
    TableFits tmpCompressType (tmpBlocks batch) []
  fits : ∀ records, records.Perm pairs → SortedBy Prod.fst records →
    TableFits option.compressType (UnsortedSSTableWriter.tableBlocks option records)
      (assignAll ∅ metas).toList
  writable : fs.AllWritable

/-- The clock shows another time for each temporary table, so that each has a path of its own. -/
def DistinctTimes (limit : Int) (pairs : List Record) (clock : Nat → Int64) : Prop :=
  Set.InjOn clock (Set.Iic (Batches.addAll limit {} pairs).closed.length)

/-- Nothing is lost: `Flush` returns true, and the table that is read back lists the added pairs in
nondecreasing order of the keys. -/
def WritesAll (option : SSTableWriteOption) (limit : Int) (pairs metas : List Record)
    (clock : Nat → Int64) (fs : FileSystem) : Prop :=
  ∃ (fs' : FileSystem) (reader : OnDiskSSTableReader) (records : List Record),
    write option limit pairs metas clock fs allFull = .ok (true, fs') ∧
    openFile OnDiskSSTableReader fs' option.path allFull = .ok (some reader) ∧
    Lists reader [] records ∧ records.Perm pairs ∧ SortedBy Prod.fst records

variable {option : SSTableWriteOption} {limit : Int} {pairs metas : List Record}
  {clock : Nat → Int64} {fs : FileSystem}

theorem Runs.mergeFits (h : Runs option limit pairs metas fs) :
    MergeFits option (Batches.addAll limit {} pairs).all (assignAll ∅ metas).toList where
  supported := h.supported
  path := h.path
  notReserved item hitem := by
    rcases mem_of_mem_assignAll hitem with hempty | hmem
    · exact absurd hempty not_mem_nil
    · exact h.notReserved item hmem
  batchFits batch hbatch hne := by
    refine ⟨hne, fun r hr => h.notBlank r ?_, h.batches batch hbatch⟩
    rw [← Batches.flatten_of_start limit pairs]
    exact mem_flatten.mpr ⟨batch, hbatch, hr⟩
  fits records hperm hsorted := by
    rw [Batches.flatten_of_start] at hperm
    exact h.fits records hperm hsorted

theorem write_spec (h : Runs option limit pairs metas fs)
    (hclock : DistinctTimes limit pairs clock) :
    ∃ fs', write option limit pairs metas clock fs allFull =
        .ok (!(Batches.addAll limit {} pairs).openBatch.isEmpty, fs') ∧
      ((Batches.addAll limit {} pairs).openBatch ≠ [] →
        HoldsTable option pairs (assignAll ∅ metas).toList fs') := by
  have hclosed : ∀ batch ∈ (Batches.addAll limit {} pairs).closed, batch ≠ [] :=
    Batches.ne_nil_of_mem_closed_addAll (by simp)
  obtain ⟨w, fs₁, hadd, hcollects, hmeta⟩ := addAll_spec h.lossless (collects_fresh h.writable)
    ⟨fun batch hbatch => h.mergeFits.batchFits batch (mem_append_left _ hbatch)
      (hclosed batch hbatch), hclock, h.size⟩
  have hmeta : w.fileInfoMeta = ∅ := hmeta
  have hcollects' : Collects option limit clock { w with fileInfoMeta := assignAll ∅ metas } fs₁
      (Batches.addAll limit {} pairs) :=
    ⟨hcollects.1, hcollects.2, hcollects.3, hcollects.4, hcollects.5, hcollects.6, hcollects.7⟩
  obtain ⟨w', fs', hflush, -, htable, -⟩ :=
    flush_spec h.lossless hcollects' hclock hclosed h.mergeFits
  rw [Batches.flatten_of_start] at htable
  refine ⟨fs', ?_, htable⟩
  simp only [write, create_eq, hadd, ok_bind, foldl_addMetaData, hmeta, hflush, pure_eq_ok]

theorem HoldsTable.lists (hsnappy : snappy.Lossless)
    (h : HoldsTable option pairs metas fs) (hne : pairs ≠ []) :
    ∃ (reader : OnDiskSSTableReader) (records : List Record),
      openFile OnDiskSSTableReader fs option.path allFull = .ok (some reader) ∧
      Lists reader [] (if option.blockSize.toInt ≤ 0 then [] else records) ∧
      records.Perm pairs ∧ SortedBy Prod.fst records := by
  obtain ⟨reader, t, hreader, -, -, hperm, hentries, hcount, hreads, htable⟩ := h.opens hsnappy hne
  refine ⟨reader, t.records, hreader, ?_, hperm, t.sorted⟩
  rw [htable] at hcount hreads
  split
  · rename_i hsize
    rw [if_pos hsize] at hcount hreads
    exact OnDiskSSTableReader.lists_padded hreads hcount.le
  · rename_i hsize
    rw [if_neg hsize] at hcount hreads
    exact OnDiskSSTableReader.lists_table hreads hcount.le hentries

/-- **Nothing is lost**, with distinct times of the temporary tables, exactly if the last `Add` left
a batch open and the block size is positive. -/
theorem writesAll_iff (h : Runs option limit pairs metas fs)
    (hclock : DistinctTimes limit pairs clock) :
    WritesAll option limit pairs metas clock fs ↔
      (Batches.addAll limit {} pairs).openBatch ≠ [] ∧ 1 ≤ option.blockSize.toInt := by
  obtain ⟨fs', hwrite, htable⟩ := write_spec h hclock
  by_cases hopen : (Batches.addAll limit {} pairs).openBatch = []
  · refine iff_of_false ?_ fun hcond => hcond.1 hopen
    rintro ⟨fs'', reader, records, hwrite', -⟩
    rw [hwrite, hopen] at hwrite'
    cases hwrite'
  · rw [isEmpty_eq_false_iff.mpr hopen] at hwrite
    obtain ⟨reader, records, hreader, hlists, hperm, hsorted⟩ :=
      (htable hopen).lists h.lossless h.nonempty
    simp only [hopen, ne_eq, not_false_eq_true, true_and]
    by_cases hsize : option.blockSize.toInt ≤ 0
    · rw [if_pos hsize] at hlists
      refine iff_of_false ?_ (by omega)
      rintro ⟨fs'', reader', records', hwrite', hreader', hlists', hperm', -⟩
      cases hwrite.symm.trans hwrite'
      cases hreader.symm.trans hreader'
      obtain rfl := hlists.unique hlists'
      exact h.nonempty hperm'.nil_eq.symm
    · rw [if_neg hsize] at hlists
      exact iff_of_true ⟨fs', reader, records, hwrite, hreader, hlists, hperm, hsorted⟩ (by omega)

end Run

theorem runs_two (limit : Int) (h : limit = 3 ∨ limit = 2) :
    @Runs inverting { path := ascii "t" } limit
      [(ascii "a", ascii "11"), (ascii "a", ascii "2")] [] ⟨fun _ => none, fun _ => true⟩ := by
  have hfits : letI := inverting
      ∀ records ∈ [(ascii "a", ascii "11"), (ascii "a", ascii "2")].permutations',
        TableFits .unCompress (UnsortedSSTableWriter.tableBlocks { path := ascii "t" } records)
          (assignAll ∅ ([] : List Record)).toList := by
    decide +kernel
  refine @Runs.mk inverting _ _ _ _ _ BlockCompression.lossless_inverting trivial (by decide)
    (by simp) (by decide) (by simp) (by decide) ?_
    (fun records hperm _ => hfits records (mem_permutations'.mpr hperm)) fun _ => rfl
  rcases h with rfl | rfl <;> decide +kernel

theorem distinctTimes_two (limit : Int) (h : limit = 3 ∨ limit = 2) :
    DistinctTimes limit [(ascii "a", ascii "11"), (ascii "a", ascii "2")]
      fun n => Int64.ofNat n := by
  have hlen : (Batches.addAll limit {}
      [(ascii "a", ascii "11"), (ascii "a", ascii "2")]).closed.length ≤ 2 := by
    rcases h with rfl | rfl <;> decide
  intro m hm n hn heq
  rw [Set.mem_Iic] at hm hn
  have hint := congrArg Int64.toInt heq
  rw [Int64.toInt_ofNat_of_lt (by omega), Int64.toInt_ofNat_of_lt (by omega)] at hint
  omega

theorem writesAll_two :
    letI := inverting
    WritesAll { path := ascii "t" } 3 [(ascii "a", ascii "11"), (ascii "a", ascii "2")] []
      (fun n => Int64.ofNat n) ⟨fun _ => none, fun _ => true⟩ := by
  let _ := inverting
  exact (writesAll_iff (runs_two 3 (.inl rfl)) (distinctTimes_two 3 (.inl rfl))).mpr
    ⟨by decide, by decide⟩

/-- With a batch size of 2 both pairs complete a batch. `Flush` returns false then. -/
theorem flush_fails_two :
    letI := inverting
    (∃ fs', write { path := ascii "t" } 2 [(ascii "a", ascii "11"), (ascii "a", ascii "2")] []
      (fun n => Int64.ofNat n) ⟨fun _ => none, fun _ => true⟩ allFull =
        .ok (false, fs')) ∧
    ¬ WritesAll { path := ascii "t" } 2 [(ascii "a", ascii "11"), (ascii "a", ascii "2")] []
      (fun n => Int64.ofNat n) ⟨fun _ => none, fun _ => true⟩ := by
  let _ := inverting
  obtain ⟨fs', hwrite, -⟩ := write_spec (runs_two 2 (.inr rfl)) (distinctTimes_two 2 (.inr rfl))
  have hwrite : write { path := ascii "t" } 2 [(ascii "a", ascii "11"), (ascii "a", ascii "2")] []
    (fun n => Int64.ofNat n) ⟨fun _ => none, fun _ => true⟩ allFull =
      .ok (false, fs') := hwrite
  refine ⟨⟨fs', hwrite⟩, ?_⟩
  rintro ⟨fs'', reader, records, hwrite', -⟩
  rw [hwrite] at hwrite'
  cases hwrite'

end CompositedSSTableWriter

end Toft

import Toft.Storage.SSTable.RoundTrip
import Toft.Storage.SSTable.Writer.Composited

/-!
# Merging the batches

`Flush` of a writer whose open batch is not empty leaves the table file of all added pairs, in order
of the keys. If the open batch is empty, its builder has nothing to write, and `Flush` fails
(`flush_spec`).
-/

namespace Toft

open Lib Hfile SSTableReader List SSTableEnv Schedule UnsortedSSTableWriter FileSystem

namespace CompositedSSTableWriter

variable [SSTableEnv]

theorem copyLoop_spec {s : Iterator (MergedSSTableReader OnDiskSSTableReader) ×
      MergedSSTableReader OnDiskSSTableReader} {ys : List Record}
    (h : (cursor (MergedSSTableReader OnDiskSSTableReader)).Yields s ys)
    {builder builder' : UnsortedSSTableWriter} (hadd : builder.addAll ys = some builder')
    {fuel : Nat} (hfuel : ys.length < fuel) :
    copyLoop fuel s builder = .ok (true, builder') := by
  induction h generalizing builder fuel with
  | @done s hvalid =>
    obtain ⟨n, rfl⟩ := Nat.exists_eq_succ_of_ne_zero (Nat.ne_of_gt hfuel)
    have hvalid : valid s.1 = false := hvalid
    cases hadd
    rw [copyLoop, hvalid]
    rfl
  | @step s s' xs hvalid hnext _ ih =>
    rw [length_cons] at hfuel
    obtain ⟨n, rfl⟩ := Nat.exists_eq_succ_of_ne_zero (Nat.ne_of_gt (Nat.zero_lt_of_lt hfuel))
    have hvalid : valid s.1 = true := hvalid
    have hnext : next s.1 s.2 = .ok s' := hnext
    obtain ⟨b, hstep, hrest⟩ := exists_add_of_addAll_cons hadd
    have hstep : builder.add (key s.1) (value s.1) = (true, b) := hstep
    rw [copyLoop, hvalid, hstep]
    simp only [hnext, ok_bind]
    exact ih hrest (by omega)

variable {fs : FileSystem}

theorem HoldsBatch.opens (hsnappy : snappy.Lossless) {path : Bytes}
    {batch : List Record} (h : HoldsBatch fs path batch) (hfits : BatchFits batch) :
    ∃ t : OnDiskSSTableReader,
      openFile OnDiskSSTableReader fs path allFull = .ok (some t) ∧
      entryCount t ≠ 0 ∧ getMetaData t kSSTableSetID = [] ∧
      Lists t [] (stableSort Prod.fst batch) := by
  obtain ⟨f, hfile, hblocks, hf⟩ := h
  obtain ⟨impl, hload, hholds, htrailer, hmetas⟩ := loadFile_bytes hsnappy hf hfile
  obtain ⟨t, hrecords, htable⟩ := SingleSSTableWriter.exists_table {} batch hfits.nonempty
  have hf' : f.blocks = t.blocks := hblocks.trans htable
  have hcount := hf.blocks.count
  have hentries := hf.entries
  rw [hf'] at hholds hcount hentries
  refine ⟨{ impl := impl }, ?_, ?_, ?_, ?_⟩
  · rw [openFile, hload]
    rfl
  · have hentry : entryCount ({ impl := impl } : OnDiskSSTableReader) = t.records.length := by
      change impl.fileTrailer.entryCount = _
      rw [htrailer, TableFile.trailer, hf']
      rfl
    obtain ⟨value, rest, hcons⟩ := t.exists_records
    rw [hentry, hcons, length_cons]
    omega
  · change impl.getMetaData _ = _
    rw [Impl.getMetaData_eq, hmetas]
    rfl
  · rw [← hrecords]
    exact OnDiskSSTableReader.lists_table (.init hholds) hcount.le hentries

variable {batches : List (List Record)}

theorem exists_tables (hsnappy : snappy.Lossless) {paths : List Bytes}
    (h : List.Forall₂ (HoldsBatch fs) paths batches)
    (hfits : ∀ batch ∈ batches, BatchFits batch) :
    ∃ tables : List OnDiskSSTableReader,
      List.Forall₂ (fun path t =>
        openFile OnDiskSSTableReader fs path allFull = .ok (some t) ∧
          entryCount t ≠ 0 ∧ getMetaData t kSSTableSetID = []) paths tables ∧
      List.Forall₂ (fun t xs => Lists t [] xs) tables (batches.map (stableSort Prod.fst)) := by
  induction h with
  | nil => exact ⟨[], .nil, .nil⟩
  | @cons path batch paths batches hb _ ih =>
    obtain ⟨t, hopen, hcount, hset, hlists⟩ := hb.opens hsnappy (hfits batch mem_cons_self)
    obtain ⟨tables, hopens, hall⟩ := ih fun batch hbatch =>
      hfits batch (mem_cons_of_mem _ hbatch)
    exact ⟨t :: tables, .cons ⟨hopen, hcount, hset⟩ hopens, .cons hlists hall⟩

theorem exists_merged (hsnappy : snappy.Lossless) {paths : List Bytes} (hne : batches ≠ [])
    (hholds : List.Forall₂ (HoldsBatch fs) paths batches)
    (hbatches : ∀ batch ∈ batches, BatchFits batch) :
    ∃ (r : MergedSSTableReader OnDiskSSTableReader) (ys : List Record),
      MergedSSTableReader.openAll fs paths true allFull = .ok (true, r) ∧
      Lists r [] ys ∧ ys.Perm batches.flatten ∧ SortedBy Prod.fst ys := by
  obtain ⟨tables, hopens, hlists⟩ := exists_tables hsnappy hholds hbatches
  obtain ⟨r, hopen, htables, -⟩ := @MergedSSTableReader.openAll_plain OnDiskSSTableReader _ _ fs
    allFull paths (tables.map some) true
    (forall₂_map_right_iff.mpr (hopens.imp fun path t ht =>
      ⟨ht.1, fun _ hmem => Option.some.inj hmem ▸ ht.2⟩)) (.inl rfl)
  rw [filterMap_map, Function.id_comp, filterMap_some] at hopen htables
  have hempty : tables.isEmpty = false := by
    have hlength := hlists.length_eq
    have hpos := length_pos_iff.mpr hne
    rw [length_map] at hlength
    rw [isEmpty_eq_false_iff, ← length_pos_iff]
    omega
  rw [hempty] at hopen
  obtain ⟨ys, hys, hinter, hsorted⟩ := MergedSSTableReader.lists_tables
    (r := r) (htables ▸ hlists) (by
      intro xs hxs
      obtain ⟨batch, -, rfl⟩ := mem_map.mp hxs
      exact sortedBy_stableSort Prod.fst batch)
  refine ⟨r, ys, hopen, hys, hinter.perm.trans (List.Perm.flatten_congr ?_), hsorted⟩
  rw [forall₂_map_left_iff]
  exact forall₂_same.mpr fun batch _ => stableSort_perm Prod.fst batch

/-- The file at the path is the table file of the pairs, sorted by key. -/
def HoldsTable (option : SSTableWriteOption) (pairs metas : List Record) (fs : FileSystem) : Prop :=
  ∃ (f : TableFile) (records : List Record), fs.files option.path = some f.bytes ∧
    f.blocks = tableBlocks option records ∧ f.Fits metas ∧
    records.Perm pairs ∧ SortedBy Prod.fst records

variable {option : SSTableWriteOption} {pairs metas : List Record}

theorem HoldsTable.frame {fs fs' : FileSystem} (h : HoldsTable option pairs metas fs)
    (hfile : fs'.files option.path = fs.files option.path) :
    HoldsTable option pairs metas fs' := by
  obtain ⟨f, records, hf, htable⟩ := h
  exact ⟨f, records, hfile.trans hf, htable⟩

/-- The reader of the table. With a block size that is not positive, there is an empty block in
front. -/
theorem HoldsTable.opens (hsnappy : snappy.Lossless) (h : HoldsTable option pairs metas fs)
    (hne : pairs ≠ []) :
    ∃ (reader : OnDiskSSTableReader) (t : Table),
      openFile OnDiskSSTableReader fs option.path allFull = .ok (some reader) ∧
      entryCount reader ≠ 0 ∧ reader.impl.fileInfo.metaItems = metas ∧
      t.records.Perm pairs ∧ t.records.length < 2 ^ 31 ∧
      (tableBlocks option t.records).length < 2 ^ 31 ∧
      reader.Reads (tableBlocks option t.records) ∧
      tableBlocks option t.records =
        if option.blockSize.toInt ≤ 0 then ⟨t.firstKey, []⟩ :: t.blocks else t.blocks := by
  obtain ⟨f, records, hfile, hblocks, hf, hperm, hsorted⟩ := h
  obtain ⟨impl, hload, hholds, htrailer, hmetas⟩ := loadFile_bytes hsnappy hf hfile
  have hnil : records ≠ [] := fun hnil => hne (hnil ▸ hperm).nil_eq.symm
  obtain ⟨t, rfl, htable⟩ := exists_table option hnil hsorted
  have hcount := hf.blocks.count
  have hentries := hf.entries
  rw [hblocks] at hholds hcount hentries
  rw [tableBlocks, items_blocksOf] at hentries
  refine ⟨{ impl := impl }, t, by rw [openFile, hload]; rfl, ?_, hmetas, hperm, hentries, hcount,
    .init hholds, htable⟩
  have hentry : entryCount ({ impl := impl } : OnDiskSSTableReader) = t.records.length := by
    change impl.fileTrailer.entryCount = _
    rw [htrailer, TableFile.trailer, hblocks]
    simp only [tableBlocks, items_blocksOf]
  have hpos := length_pos_iff.mpr hnil
  omega

/-- The batches can be merged to a table with the given meta data. -/
structure MergeFits (option : SSTableWriteOption) (batches : List (List Record))
    (metas : List Record) : Prop where
  supported : option.compressType.Supported
  path : option.path ≠ []
  notReserved : ∀ item ∈ metas, item.1 ∉ FileInfo.reserved
  batchFits : ∀ batch ∈ batches, batch ≠ [] → BatchFits batch
  fits : ∀ records, records.Perm batches.flatten → SortedBy Prod.fst records →
    TableFits option.compressType (tableBlocks option records) metas

/-- **Merging.** The tables of the batches become the table file of all pairs. -/
theorem merge_spec (hsnappy : snappy.Lossless) {w : CompositedSSTableWriter}
    (hfs : fs.AllWritable) (hne : batches ≠ [])
    (hfit : MergeFits w.option batches w.fileInfoMeta.toList)
    (htmp : ∀ p ∈ w.paths, ∃ m, p = tmpPath w.option m)
    (hholds : List.Forall₂ (HoldsBatch fs) w.paths batches)
    (hnil : ∀ batch ∈ batches, batch ≠ []) :
    ∃ fs', w.merge fs allFull = .ok (true, fs') ∧ fs'.AllWritable ∧
      HoldsTable w.option batches.flatten w.fileInfoMeta.toList fs' ∧
      ∀ p, EndsInDigit p → p ≠ w.option.path → (∀ m, p ≠ tmpPath w.option m) →
        fs'.files p = fs.files p := by
  have hbatches : ∀ batch ∈ batches, BatchFits batch := fun batch hbatch =>
    hfit.batchFits batch hbatch (hnil batch hbatch)
  -- the temporary tables are still there once the file of the table is open
  have hholds' : List.Forall₂
      (HoldsBatch (fs.set (getTempSSTablePath w.option.path) (some []))) w.paths batches := by
    refine ((forall₂_and_left _ _).mpr ⟨htmp, hholds⟩).imp ?_
    rintro path batch ⟨⟨m, rfl⟩, f, hfile, hf⟩
    refine ⟨f, ?_, hf⟩
    rw [files_set_of_ne _ ((endsInDigit_tmpPath ..).ne_getTempSSTablePath _), hfile]
  obtain ⟨r, ys, hopen, ⟨s, hseek, hyields⟩, hperm, hys⟩ :=
    exists_merged hsnappy hne hholds' hbatches
  have hmem : ∀ r, r ∈ ys ↔ ∃ batch ∈ batches, r ∈ batch := fun r => by
    rw [hperm.mem_iff, mem_flatten]
  have hnonempty : ys ≠ [] := by
    obtain ⟨batch, hbatch⟩ := exists_mem_of_ne_nil _ hne
    obtain ⟨r, hr⟩ := exists_mem_of_ne_nil _ (hbatches batch hbatch).nonempty
    exact ne_nil_of_mem ((hmem r).mpr ⟨batch, hbatch, hr⟩)
  have hblank : ∀ r ∈ ys, r ≠ ([], []) := by
    intro r hr
    obtain ⟨batch, hbatch, hr⟩ := (hmem r).mp hr
    exact (hbatches batch hbatch).notBlank r hr
  have hfits := hfit.fits ys hperm hys
  have hcount := hfits.entries
  rw [tableBlocks, items_blocksOf] at hcount
  rw [← toList_insertNew_toList] at hfits
  obtain ⟨b, b', fs₁, f, hadd, hflush, hwritable, hfile, hother, hblocks, hf⟩ :=
    write_spec hsnappy hfit.supported hnonempty hblank hfit.notReserved hfits
      (show FileSystem.AllWritable (fs.set (getTempSSTablePath w.option.path) (some [])) from hfs)
  rw [toList_insertNew_toList] at hf
  have hcopy : copyLoop roundLimit s _ = .ok (true, b) := copyLoop_spec hyields hadd hcount
  obtain ⟨hremove, hkeep⟩ := foldl_remove fs₁ w.paths
  refine ⟨w.deleteTmpFiles fs₁, ?_, ?_, ⟨f, ys, ?_, hblocks, hf, hperm, hys⟩,
    fun p hp hp' hm => ?_⟩
  · have hseek : newIterator r = .ok s := hseek
    simp only [merge, UnsortedSSTableWriter.create_eq hfit.supported hfit.path hfs, ok_bind, hopen,
      Bool.not_true, Bool.false_eq_true, ite_false, hseek, hcopy, hflush,
      pure_eq_ok]
  · intro p
    rw [deleteTmpFiles, hremove]
    exact hwritable p
  · rw [deleteTmpFiles, hkeep _ fun hmem => ?_, hfile]
    obtain ⟨m, hm⟩ := htmp _ hmem
    exact tmpPath_ne_path _ _ hm.symm
  · rw [deleteTmpFiles, hkeep p fun hmem => ?_, hother p (hp.ne_getTempSSTablePath _) hp',
      files_set_of_ne _ (hp.ne_getTempSSTablePath _)]
    obtain ⟨m, rfl⟩ := htmp _ hmem
    exact hm m rfl

section Flush

variable {option : SSTableWriteOption} {limit : Int} {clock : Nat → Int64}
  {w : CompositedSSTableWriter} {fs : FileSystem} {b : Batches}

section

variable (h : Collects option limit clock w fs b)
include h

theorem Collects.tmpPath_of_mem : ∀ p ∈ w.paths, ∃ m, p = tmpPath option m := by
  intro p hp
  rw [h.paths] at hp
  obtain ⟨n, -, rfl⟩ := mem_map.mp hp
  exact ⟨clock n, rfl⟩

theorem Collects.currByte_nonneg : 0 ≤ w.currByte := by
  rw [h.currByte]
  exact Int.natCast_nonneg _

/-- There is nothing in the builder of an open batch that is empty. -/
theorem flush_of_openBatch_nil (hopen : b.openBatch = [])
    (io : Schedule) : ∃ w' fs', w.flush fs io = .ok (false, w', fs') ∧ fs'.AllWritable ∧
      ∀ p, EndsInDigit p → (∀ m, p ≠ tmpPath option m) → fs'.files p = fs.files p := by
  have hbuilder := h.builder
  rw [hopen] at hbuilder
  have hbuilder : w.builder = newBuilder (pathAt option clock b.closed.length) := hbuilder
  have hflush := SingleSSTableWriter.flush_nil (w := w.builder)
    (by rw [hbuilder]; exact ⟨rfl, rfl, trivial⟩) (by rw [hbuilder]; rfl) fs io
  obtain ⟨hremove, hkeep⟩ := foldl_remove
    (fs.remove (getTempSSTablePath w.builder.option.path)) w.paths
  refine ⟨{ w with builder := { w.builder with flushed := true } },
    w.deleteTmpFiles (fs.remove (getTempSSTablePath w.builder.option.path)), ?_, ?_,
    fun p hp hm => ?_⟩
  · simp only [flush, if_pos h.currByte_nonneg, hflush, ok_bind, Bool.not_false, ite_true,
      pure_eq_ok]
    rfl
  · intro p
    rw [deleteTmpFiles, hremove]
    exact h.writable p
  · rw [deleteTmpFiles, hkeep p fun hmem => ?_, remove,
      files_set_of_ne _ (hp.ne_getTempSSTablePath _)]
    obtain ⟨m, rfl⟩ := h.tmpPath_of_mem p hmem
    exact hm m rfl

end

/-- **Flush** succeeds exactly if the open batch is not empty, and then leaves the table. -/
theorem flush_spec (hsnappy : snappy.Lossless) (h : Collects option limit clock w fs b)
    (hinj : Set.InjOn clock (Set.Iic b.closed.length)) (hclosed : ∀ batch ∈ b.closed, batch ≠ [])
    (hfit : MergeFits option b.all w.fileInfoMeta.toList) :
    ∃ w' fs', w.flush fs allFull = .ok (!b.openBatch.isEmpty, w', fs') ∧
      fs'.AllWritable ∧
      (b.openBatch ≠ [] → HoldsTable option b.all.flatten w.fileInfoMeta.toList fs') ∧
      ∀ p, EndsInDigit p → p ≠ option.path → (∀ m, p ≠ tmpPath option m) →
        fs'.files p = fs.files p := by
  by_cases hopen : b.openBatch = []
  · obtain ⟨w', fs', hflush, hwritable, hother⟩ := flush_of_openBatch_nil h hopen Schedule.allFull
    refine ⟨w', fs', ?_, hwritable, fun hne => absurd hopen hne, fun p hp _ => hother p hp⟩
    rw [hflush, hopen]
    rfl
  · have hnil : ∀ batch ∈ b.all, batch ≠ [] := by
      intro batch hbatch
      rcases mem_append.mp hbatch with hmem | hlast
      · exact hclosed batch hmem
      · exact mem_singleton.mp hlast ▸ hopen
    have hlast : b.openBatch ∈ b.all := mem_append_right _ (mem_singleton_self _)
    obtain ⟨fs₁, hflush, hwritable, hfiles, hother⟩ :=
      h.flush hsnappy (hfit.batchFits _ hlast hopen) hinj
    have hholds : List.Forall₂ (HoldsBatch fs₁) w.paths b.all := by
      refine forall₂_of_length_eq_of_get (by simp [h.paths, Batches.all]) fun i hi hi' => ?_
      have hget := hfiles i _ (List.getElem?_eq_getElem hi')
      simpa [h.paths] using hget
    obtain rfl := h.option_eq
    obtain ⟨fs', hmerge, hwritable', htable, hother'⟩ := merge_spec
      (w := { w with builder := { w.builder with flushed := true } }) hsnappy hwritable
      (by simp [Batches.all]) hfit h.tmpPath_of_mem hholds hnil
    have hdata : w.builder.data = b.openBatch := by rw [h.builder]
    rw [← hdata] at hflush
    have hflush : w.builder.flush fs allFull =
      .ok (true, { w.builder with flushed := true }, fs₁) := hflush
    refine ⟨{ w with builder := { w.builder with flushed := true } }, fs', ?_, hwritable',
      fun _ => htable, fun p hp hp' hm => ?_⟩
    · simp only [flush, if_pos h.currByte_nonneg, hflush, ok_bind, Bool.not_true,
        Bool.false_eq_true, ite_false, hmerge, pure_eq_ok]
      rw [isEmpty_eq_false_iff.mpr hopen]
      rfl
    · rw [hother' p hp hp' hm, hother p hp hm]

end Flush

end CompositedSSTableWriter

end Toft

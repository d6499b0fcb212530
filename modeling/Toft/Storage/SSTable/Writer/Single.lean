import Toft.Storage.SSTable.Writer.Base

/-!
# The writer that sorts

`SingleSSTableWriter` keeps all pairs in memory and sorts them in `Flush`. What it leaves at its
path is the table file of the sorted pairs (`flush_spec`).
-/

namespace Toft

open Lib Hfile TableWriter

/-- The members of `SingleSSTableWriter` before `Flush`, which works on a `TableWriter`. -/
structure SingleSSTableWriter where
  option : SSTableWriteOption
  block : DataBlock
  data : List Record := []
  fileInfoMeta : Std.TreeMap Bytes Bytes := ∅
  flushed : Bool := false

namespace SingleSSTableWriter

def add (w : SingleSSTableWriter) (key value : Bytes) : Bool × SingleSSTableWriter :=
  (true, { w with data := w.data ++ [(key, value)] })

/-- `AddMetaData`: a key that is there keeps its value. -/
def addMetaData (w : SingleSSTableWriter) (key value : Bytes) : SingleSSTableWriter :=
  { w with fileInfoMeta := w.fileInfoMeta.insertIfNew key value }

theorem foldl_add (w : SingleSSTableWriter) (pairs : List Record) :
    pairs.foldl (fun w p => (w.add p.1 p.2).2) w = { w with data := w.data ++ pairs } := by
  induction pairs generalizing w with
  | nil => simp
  | cons p pairs ih =>
    rw [List.foldl_cons, ih]
    simp [add]

theorem foldl_addMetaData (w : SingleSSTableWriter) (metas : List Record) :
    metas.foldl (fun w item => w.addMetaData item.1 item.2) w =
      { w with
        fileInfoMeta := metas.foldl (fun m item => m.insertIfNew item.1 item.2)
          w.fileInfoMeta } := by
  induction metas generalizing w with
  | nil => rfl
  | cons item metas ih =>
    rw [List.foldl_cons, ih]
    rfl

/-- A block is full when its buffer has the block size, compared as `size_t`. -/
def full (option : SSTableWriteOption) (length : Nat) : Bool :=
  option.blockSize.toUInt64.toNat ≤ length

theorem full_zero_iff (option : SSTableWriteOption) :
    full option 0 = true ↔ option.blockSize = 0 := by
  rw [full, decide_eq_true_eq, Nat.le_zero]
  constructor
  · intro h
    exact Int64.toBitVec_inj.mp (BitVec.eq_of_toNat_eq h)
  · intro h
    rw [h]
    rfl

section Flush

variable [SSTableEnv]

def create (option : SSTableWriteOption) : Except Fault SingleSSTableWriter := do
  let block ← DataBlock.create SSTableEnv.snappy option.compressType
  if option.path.isEmpty then throw .fatal
  return { option := option, block := block }

/-- `Flush`, with the outcomes of the writes to come. -/
def flush (w : SingleSSTableWriter) (fs : FileSystem) (io : Schedule) :
    Except Fault (Bool × SingleSSTableWriter × FileSystem) := do
  if w.flushed then throw .fatal
  let temp := getTempSSTablePath w.option.path
  let w := { w with flushed := true }
  match stableSort Prod.fst w.data with
  | [] => return (false, w, fs.remove temp)
  | first :: rest =>
    match fs.openWrite temp io with
    | none => throw .fatal
    | some (file, fs) =>
      let t : TableWriter :=
        { option := w.option
          fileInfoMeta := w.fileInfoMeta
          fileBase := file
          block := w.block
          firstKey := first.1
          lastKey := ((first :: rest).getLastD ([], [])).1 }
      match t.writeTable (full w.option) (first :: rest) with
      | some file =>
        let (moved, fs) := moveToRealPath (fs.close temp file) w.option.path
        return (moved, w, fs)
      | none => return (false, w, fs.remove temp)

def tableBlocks (option : SSTableWriteOption) (pairs : List Record) : List TableBlock :=
  blocksOf (full option) (stableSort Prod.fst pairs)

/-- A writer before `Flush`. -/
structure Ready (w : SingleSSTableWriter) : Prop where
  notFlushed : w.flushed = false
  block : w.block = { compression := DataBlock.codec SSTableEnv.snappy w.option.compressType }
  supported : w.option.compressType.Supported

variable {w : SingleSSTableWriter}

theorem flush_nil (hready : w.Ready) (hdata : w.data = []) (fs : FileSystem) (io : Schedule) :
    w.flush fs io = .ok (false, { w with flushed := true },
      fs.remove (getTempSSTablePath w.option.path)) := by
  simp only [flush, hready.notFlushed, Bool.false_eq_true, ite_false, hdata]
  rfl

/-- **Flush.** The file at the path is the table file of the sorted pairs. -/
theorem flush_spec (hsnappy : SSTableEnv.snappy.Lossless)
    (hready : w.Ready) (hne : w.data ≠ []) (hblank : ∀ r ∈ w.data, r ≠ ([], []))
    (hreserved : ∀ item ∈ w.fileInfoMeta.toList, item.1 ∉ FileInfo.reserved)
    (hfits : TableFits w.option.compressType (tableBlocks w.option w.data) w.fileInfoMeta.toList)
    {fs : FileSystem} (hfs : fs.AllWritable) :
    ∃ (fs' : FileSystem) (f : TableFile),
      w.flush fs Schedule.allFull = .ok (true, { w with flushed := true }, fs') ∧
      fs'.AllWritable ∧ fs'.files w.option.path = some f.bytes ∧
      (∀ p, p ≠ getTempSSTablePath w.option.path → p ≠ w.option.path →
        fs'.files p = fs.files p) ∧
      f.type = w.option.compressType ∧ f.blocks = tableBlocks w.option w.data ∧
      f.Fits w.fileInfoMeta.toList := by
  have hperm := stableSort_perm Prod.fst w.data
  obtain ⟨first, rest, hsort⟩ := List.exists_cons_of_ne_nil
    (fun hnil : stableSort Prod.fst w.data = [] => hne (hnil ▸ hperm).nil_eq.symm)
  have hmem : ∀ r ∈ first :: rest, r ≠ ([], []) :=
    fun r hr => hblank r (hperm.mem_iff.mp (hsort ▸ hr))
  have hblocks : tableBlocks w.option w.data = blocksOf (full w.option) (first :: rest) := by
    rw [tableBlocks, hsort]
  rw [hblocks] at hfits ⊢
  obtain ⟨t', t'', f, hadd, hframe, hwrite, htail, htype, hfblocks, hffits⟩ :=
    table_spec hsnappy (full w.option)
      (w := { option := w.option, fileInfoMeta := w.fileInfoMeta, fileBase := File.written [],
              block := w.block, firstKey := first.1,
              lastKey := ((first :: rest).getLastD ([], [])).1 })
      hmem hready.supported
      ⟨⟨rfl, rfl, rfl, rfl, rfl, by rw [hready.block]⟩, rfl, by rw [hready.block]; rfl, rfl⟩
      w.fileInfoMeta hreserved hfits
  have hlast : t'.lastKey = ((first :: rest).getLastD ([], [])).1 := hframe.lastKey
  have hmetas : t'.fileInfoMeta = w.fileInfoMeta := hframe.fileInfoMeta
  rw [← hlast, ← hmetas] at hwrite
  obtain ⟨fs', hrename, hwritable, hfile, hother⟩ := FileSystem.rename_close
    (fs.set (getTempSSTablePath w.option.path) (some [])) hfs
    (getTempSSTablePath w.option.path) w.option.path (File.written f.bytes)
  refine ⟨fs', f, ?_, hwritable, hfile, fun p htemp hpath => ?_, htype, hfblocks, hffits⟩
  · have hwritten : writeTable (full w.option)
        { option := w.option, fileInfoMeta := w.fileInfoMeta, fileBase := File.written [],
          block := w.block, firstKey := first.1,
          lastKey := ((first :: rest).getLastD ([], [])).1 } (first :: rest) =
        some (File.written f.bytes) := by
      simp only [writeTable, hadd, hwrite, htail, Option.bind_eq_bind, Option.bind_some]
    simp only [flush, hready.notFlushed, Bool.false_eq_true, ite_false, hsort,
      FileSystem.openWrite_allFull hfs, hwritten, moveToRealPath, hrename]
    rfl
  · rw [hother p htemp hpath, FileSystem.files_set_of_ne _ htemp]

end Flush

end SingleSSTableWriter

end Toft

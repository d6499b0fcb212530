import Toft.Lib.InsertNew
import Toft.Storage.SSTable.Writer.Base

/-!
# The writer that takes records in order

`UnsortedSSTableWriter` writes to its temporary file from the start; the records must come in order.
What it leaves at its path is the table file of the records (`write_spec`).
-/

namespace Toft

open Lib Hfile List TableWriter

/-- The members of `UnsortedSSTableWriter`; `flushed` holds once `file_base_` is reset. -/
structure UnsortedSSTableWriter where
  table : TableWriter
  failed : Bool := false
  isFirstKey : Bool := true
  flushed : Bool := false

namespace UnsortedSSTableWriter

/-- A block is full when its buffer has the block size, compared as `int64_t`. -/
def full (option : SSTableWriteOption) (length : Nat) : Bool := option.blockSize.toInt ≤ length

section Model

variable [SSTableEnv]

def create (option : SSTableWriteOption) (fs : FileSystem) (io : Schedule) :
    Except Fault (UnsortedSSTableWriter × FileSystem) := do
  let block ← DataBlock.create SSTableEnv.snappy option.compressType
  if option.path.isEmpty then throw .fatal
  match fs.openWrite (getTempSSTablePath option.path) io with
  | none => throw .fatal
  | some (file, fs) =>
    return ({ table := { option := option, fileBase := file, block := block } }, fs)

def add (w : UnsortedSSTableWriter) (key value : Bytes) : Bool × UnsortedSSTableWriter :=
  if w.failed then (false, w)
  else
    let w :=
      if w.isFirstKey then
        { w with isFirstKey := false, table := { w.table with firstKey := key } }
      else w
    match w.table.addRecord (full w.table.option) (key, value) with
    -- nothing else is looked at once `failed_` is set
    | none => (false, { w with failed := true })
    | some table => (true, { w with table := { table with lastKey := key } })

/-- `AddMetaData`: a key that is there keeps its value. -/
def addMetaData (w : UnsortedSSTableWriter) (key value : Bytes) : UnsortedSSTableWriter :=
  { w with table :=
    { w.table with fileInfoMeta := w.table.fileInfoMeta.insertIfNew key value } }

def flush (w : UnsortedSSTableWriter) (fs : FileSystem) :
    Except Fault (Bool × UnsortedSSTableWriter × FileSystem) :=
  if w.failed then .ok (false, w, fs)
  else if w.flushed then .error .fatal
  else match w.table.writeBlock with
  | none => .ok (false, w, fs)
  | some table =>
    match table.writeTail with
    | none => .ok (false, { w with table := table }, fs)
    | some file =>
      let (moved, fs) := moveToRealPath
        (fs.close (getTempSSTablePath w.table.option.path) file) w.table.option.path
      .ok (moved, { w with table := table, flushed := true }, fs)

/-- `Add` of all records; `none` as soon as one fails. -/
def addAll (w : UnsortedSSTableWriter) (rs : List Record) : Option UnsortedSSTableWriter :=
  rs.foldlM (fun w r => match w.add r.1 r.2 with
    | (true, w) => some w
    | (false, _) => none) w

def tableBlocks (option : SSTableWriteOption) (rs : List Record) : List TableBlock :=
  blocksOf (full option) rs

end Model

end UnsortedSSTableWriter

/-- The last key and the meta data, which are not looked at before the end of the table. -/
def TableWriter.setMeta (t : TableWriter) (key : Bytes)
    (f : Std.TreeMap Bytes Bytes → Std.TreeMap Bytes Bytes) : TableWriter :=
  { t with lastKey := key, fileInfoMeta := f t.fileInfoMeta }

theorem TableWriter.addRecord_option [Host] {full : Nat → Bool} {t t' : TableWriter} {r : Record}
    (h : addRecord full t r = some t') : t'.option = t.option := by
  unfold addRecord writeBlock at h
  split at h
  · simp only at h
    split at h
    · cases h
      rfl
    · cases h
  · cases h
    rfl

section

variable (full : Nat → Bool) (t : TableWriter) (key : Bytes)
  (f : Std.TreeMap Bytes Bytes → Std.TreeMap Bytes Bytes)
include full t key f

theorem TableWriter.addRecord_setMeta [Host] (r : Record) :
    addRecord full (t.setMeta key f) r = (addRecord full t r).map (setMeta · key f) := by
  unfold setMeta addRecord writeBlock
  split
  · simp only
    split <;> rfl
  · rfl

theorem TableWriter.addAll_setMeta [Host] (rs : List Record) :
    addAll full (t.setMeta key f) rs = (addAll full t rs).map (setMeta · key f) := by
  induction rs generalizing t with
  | nil => rfl
  | cons r rs ih =>
    simp only [addAll, foldlM_cons] at ih ⊢
    rw [addRecord_setMeta]
    cases addRecord full t r with
    | none => rfl
    | some t' => exact ih t'

end

namespace UnsortedSSTableWriter

section Proofs

variable [SSTableEnv] {w : UnsortedSSTableWriter} {option : SSTableWriteOption}
  {rs : List Record}

omit [SSTableEnv] in
theorem foldl_addMetaData (w : UnsortedSSTableWriter) (metas : List Record) :
    metas.foldl (fun w item => w.addMetaData item.1 item.2) w =
      { w with table := { w.table with
          fileInfoMeta := metas.foldl (fun m item => m.insertIfNew item.1 item.2)
            w.table.fileInfoMeta } } := by
  induction metas generalizing w with
  | nil => rfl
  | cons item metas ih =>
    rw [foldl_cons, ih]
    rfl

theorem exists_add_of_addAll_cons {w' : UnsortedSSTableWriter} {r : Record}
    (h : w.addAll (r :: rs) = some w') :
    ∃ w₁, w.add r.1 r.2 = (true, w₁) ∧ w₁.addAll rs = some w' := by
  rw [addAll, foldlM_cons] at h
  rcases hadd : w.add r.1 r.2 with ⟨_ | _, w₁⟩
  · rw [hadd] at h
    cases h
  · rw [hadd] at h
    exact ⟨w₁, rfl, h⟩

/-- Behind the first record, `Add` is adding to the table and setting the last key. -/
theorem addAll_of_started (hfailed : w.failed = false) (hfirst : w.isFirstKey = false)
    {t : TableWriter} (h : w.table.addAll (full w.table.option) rs = some t) :
    w.addAll rs = some { w with table :=
      { t with lastKey := (rs.getLast?.map Prod.fst).getD w.table.lastKey } } := by
  induction rs generalizing w t with
  | nil =>
    cases h
    rfl
  | cons r rs ih =>
    rw [TableWriter.addAll, foldlM_cons, Option.bind_eq_bind, Option.bind_eq_some_iff] at h
    obtain ⟨t₁, hadd, hrest⟩ := h
    have hstep : w.add r.1 r.2 = (true, { w with table := { t₁ with lastKey := r.1 } }) := by
      simp [add, hfailed, hfirst, hadd]
    have hrest' := addAll_setMeta (full w.table.option) t₁ r.1 id rs
    rw [show TableWriter.addAll (full w.table.option) t₁ rs = some t from hrest,
      ← addRecord_option hadd] at hrest'
    have hall := ih (w := { w with table := { t₁ with lastKey := r.1 } }) hfailed hfirst hrest'
    rw [addAll, foldlM_cons, hstep]
    refine hall.trans ?_
    rw [List.getLast?_cons]
    cases rs.getLast? <;> rfl

theorem addAll_first (hfailed : w.failed = false) (hfirst : w.isFirstKey = true) (r : Record)
    (rs : List Record) :
    w.addAll (r :: rs) = addAll { w with
      isFirstKey := false, table := { w.table with firstKey := r.1 } } (r :: rs) := by
  have hstep : w.add r.1 r.2 = add { w with
      isFirstKey := false, table := { w.table with firstKey := r.1 } } r.1 r.2 := by
    simp [add, hfailed, hfirst]
  rw [addAll, foldlM_cons, hstep]
  rfl

theorem exists_table (option : SSTableWriteOption) (hne : rs ≠ [])
    (hsorted : SortedBy Prod.fst rs) :
    ∃ t : Table, t.records = rs ∧ tableBlocks option rs =
      if option.blockSize.toInt ≤ 0 then ⟨t.firstKey, []⟩ :: t.blocks else t.blocks := by
  obtain ⟨t, hrecords, hblocks⟩ := exists_table_blocksOf (full option) hne hsorted
  refine ⟨t, hrecords, ?_⟩
  rw [tableBlocks, hblocks]
  simp only [full, decide_eq_true_eq, Nat.cast_zero]

def fresh (option : SSTableWriteOption) : UnsortedSSTableWriter where
  table :=
    { option := option
      fileBase := File.written []
      block := { compression := DataBlock.codec SSTableEnv.snappy option.compressType } }

theorem create_eq (htype : option.compressType.Supported) (hpath : option.path ≠ [])
    {fs : FileSystem} (hfs : fs.AllWritable) :
    create option fs Schedule.allFull =
      .ok (fresh option, fs.set (getTempSSTablePath option.path) (some [])) := by
  have hpath' : option.path.isEmpty = false := by simpa using hpath
  simp only [create, DataBlock.create_eq _ htype, ok_bind, hpath', Bool.false_eq_true, ite_false,
    FileSystem.openWrite_allFull hfs, pure_eq_ok]
  rfl

/-- **Writing.** Adding the records and the meta data and flushing leaves the table file of the
records at the path. -/
theorem write_spec (hsnappy : SSTableEnv.snappy.Lossless) (htype : option.compressType.Supported)
    (hne : rs ≠ []) (hblank : ∀ r ∈ rs, r ≠ ([], [])) {metas : List Record}
    (hreserved : ∀ item ∈ metas, item.1 ∉ FileInfo.reserved)
    (hfits : TableFits option.compressType (tableBlocks option rs) (insertNew metas).toList)
    {fs : FileSystem} (hfs : fs.AllWritable) :
    ∃ (w' w'' : UnsortedSSTableWriter) (fs' : FileSystem) (f : TableFile),
      (fresh option).addAll rs = some w' ∧
      (metas.foldl (fun w item => w.addMetaData item.1 item.2) w').flush fs =
        .ok (true, w'', fs') ∧
      fs'.AllWritable ∧ fs'.files option.path = some f.bytes ∧
      (∀ p, p ≠ getTempSSTablePath option.path → p ≠ option.path → fs'.files p = fs.files p) ∧
      f.blocks = tableBlocks option rs ∧ f.Fits (insertNew metas).toList := by
  obtain ⟨first, rest, rfl⟩ := exists_cons_of_ne_nil hne
  obtain ⟨t', t'', f, hadd, hframe, hwrite, htail, -, hblocks, hffits⟩ :=
    table_spec hsnappy (full option) (w := { (fresh option).table with firstKey := first.1 })
      hblank htype ⟨⟨rfl, rfl, rfl, rfl, rfl, rfl⟩, rfl, rfl, rfl⟩ (insertNew metas)
      (fun item hitem => hreserved item (mem_of_mem_insertNew hitem)) hfits
  obtain ⟨fs', hrename, hwritable, hfile, hother⟩ := FileSystem.rename_close fs hfs
    (getTempSSTablePath option.path) option.path (File.written f.bytes)
  have hoption : t'.option = option := hframe.option
  have hmetas : t'.fileInfoMeta = ∅ := hframe.fileInfoMeta
  have hall : (fresh option).addAll (first :: rest) = some
      { table := { t' with lastKey := ((first :: rest).getLastD ([], [])).1 }
        isFirstKey := false } := by
    have hstarted := addAll_of_started (w := { fresh option with isFirstKey := false, table :=
      { (fresh option).table with firstKey := first.1 } }) rfl rfl hadd
    rw [addAll_first rfl rfl, hstarted, List.getLast?_cons, getLastD_cons, getLastD_eq_getLast?]
    rfl
  refine ⟨_, { table := t'', isFirstKey := false, flushed := true }, fs', f, hall, ?_, hwritable,
    hfile, hother, hblocks, hffits⟩
  have hmeta : metas.foldl (fun m item => m.insertIfNew item.1 item.2) ∅ = insertNew metas := rfl
  rw [foldl_addMetaData]
  simp only [hmetas, hmeta, flush, Bool.false_eq_true, ite_false, hwrite, htail, moveToRealPath]
  rw [hoption, hrename]

end Proofs

end UnsortedSSTableWriter

end Toft

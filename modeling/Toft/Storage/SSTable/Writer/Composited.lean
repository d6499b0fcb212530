import Toft.Storage.SSTable.Reader.MergedOpen
import Toft.Storage.SSTable.Reader.OnDiskTable
import Toft.Storage.SSTable.Writer.Single
import Toft.Storage.SSTable.Writer.Unsorted

/-!
# The writer that sorts in batches

`CompositedSSTableWriter` hands the pairs to a `SingleSSTableWriter` until a batch is complete,
writes the batch to a temporary table and goes on with a new writer. `Flush` writes the open batch,
reads all temporary tables as one and copies them to the table.
-/

namespace Toft

open Lib Hfile SSTableReader List SSTableEnv Schedule SingleSSTableWriter

def tmpDirAndPrefix : Bytes := ascii "/tmp/tmp_sstable"

def flagCompressType : Bytes := ascii "snappy"

/-- The compress type of the temporary tables. -/
def tmpCompressType : CompressType :=
  if flagCompressType = ascii "snappy" then .snappy
  else if flagCompressType = ascii "lzo" then .lzo
  else .unCompress

/-- The members of `CompositedSSTableWriter`. -/
structure CompositedSSTableWriter where
  option : SSTableWriteOption
  totalByte : Int := 0
  currByte : Int := 0
  batchWriteSize : Int
  paths : List Bytes
  builder : SingleSSTableWriter
  fileInfoMeta : Std.TreeMap Bytes Bytes := ∅

namespace CompositedSSTableWriter

variable [SSTableEnv]

/-- `GetNewWriter`: the path of the next temporary table, and the writer for it. The clock stands at
`micros`. -/
def getNewWriter (option : SSTableWriteOption) (micros : Int64) :
    Except Fault (Bytes × SingleSSTableWriter) := do
  let pathSuffix ← replaceAll option.path (ascii "/") (ascii "_")
  let base := tmpDirAndPrefix ++ pathSuffix
  let path := base ++ (← numberToString64 micros.toInt)
  let builder ← create { compressType := tmpCompressType, path := path }
  return (path, builder)

/-- The constructor. The clock shows `clock n` when the `n`th temporary table is begun. -/
def create (option : SSTableWriteOption) (totalInMemory : Int) (clock : Nat → Int64) :
    Except Fault CompositedSSTableWriter := do
  let (path, builder) ← getNewWriter option (clock 0)
  return { option := option, batchWriteSize := totalInMemory, paths := [path], builder := builder }

def defaultBatchWriteSize : Int := 512 * 1024 * 1024

def deleteTmpFiles (w : CompositedSSTableWriter) (fs : FileSystem) : FileSystem :=
  w.paths.foldl FileSystem.remove fs

def add (w : CompositedSSTableWriter) (key value : Bytes) (clock : Nat → Int64) (fs : FileSystem)
    (io : Schedule) : Except Fault (Bool × CompositedSSTableWriter × FileSystem) := do
  let (added, builder) := w.builder.add key value
  let w := { w with
    totalByte := int64 (w.totalByte + (key.length + value.length))
    currByte := int64 (w.currByte + (key.length + value.length))
    builder := builder }
  if !added then return (false, w, w.deleteTmpFiles fs)
  else if w.batchWriteSize ≤ w.currByte then
    let (flushed, builder, fs) ← w.builder.flush fs io
    if !flushed then return (false, { w with builder := builder }, w.deleteTmpFiles fs)
    else
      let (path, builder) ← getNewWriter w.option (clock w.paths.length)
      return (true, { w with paths := w.paths ++ [path], builder := builder, currByte := 0 }, fs)
  else return (true, w, fs)

/-- `Add` of all pairs, as long as it returns true. -/
def addAll (clock : Nat → Int64) (io : Schedule) : List Record → CompositedSSTableWriter →
    FileSystem → Except Fault (Bool × CompositedSSTableWriter × FileSystem)
  | [], w, fs => .ok (true, w, fs)
  | r :: rs, w, fs => do
    match ← w.add r.1 r.2 clock fs io with
    | (true, w, fs) => addAll clock io rs w fs
    | (false, w, fs) => return (false, w, fs)

/-- `AddMetaData`: the last value of a key counts. -/
def addMetaData (w : CompositedSSTableWriter) (key value : Bytes) : CompositedSSTableWriter :=
  { w with fileInfoMeta := w.fileInfoMeta.insert key value }

/-- The loop of `Flush` that copies the records: whether all could be added. -/
def copyLoop : Nat → Iterator (MergedSSTableReader OnDiskSSTableReader) ×
    MergedSSTableReader OnDiskSSTableReader → UnsortedSSTableWriter →
    Except Fault (Bool × UnsortedSSTableWriter)
  | 0, _, _ => .error .unended
  | fuel + 1, (iter, sstable), builder =>
    if valid iter then
      match builder.add (key iter) (value iter) with
      | (false, builder) => .ok (false, builder)
      | (true, builder) => do copyLoop fuel (← next iter sstable) builder
    else .ok (true, builder)

/-- `Flush`, once the open batch is written. What the last `Flush` returns is not looked at. -/
def merge (w : CompositedSSTableWriter) (fs : FileSystem) (io : Schedule) :
    Except Fault (Bool × FileSystem) := do
  let (builder, fs) ← UnsortedSSTableWriter.create w.option fs io
  -- the file of a builder that is given up is closed by its destructor
  let giveUp (builder : UnsortedSSTableWriter) : Bool × FileSystem :=
    (false, (w.deleteTmpFiles fs).close (getTempSSTablePath w.option.path) builder.table.fileBase)
  let (opened, sstable) ← MergedSSTableReader.openAll fs w.paths true io
  if !opened then return giveUp builder
  else
    let (copied, builder) ← copyLoop roundLimit (← newIterator sstable) builder
    if !copied then return giveUp builder
    else
      let builder := w.fileInfoMeta.toList.foldl (fun b item => b.addMetaData item.1 item.2) builder
      let (_, _, fs) ← builder.flush fs
      return (true, w.deleteTmpFiles fs)

def flush (w : CompositedSSTableWriter) (fs : FileSystem) (io : Schedule) :
    Except Fault (Bool × CompositedSSTableWriter × FileSystem) := do
  if 0 ≤ w.currByte then
    let (flushed, builder, fs) ← w.builder.flush fs io
    let w := { w with builder := builder }
    if !flushed then return (false, w, w.deleteTmpFiles fs)
    else
      let (result, fs) ← w.merge fs io
      return (result, w, fs)
  else
    let (result, fs) ← w.merge fs io
    return (result, w, fs)

/-! ## The temporary tables -/

omit [SSTableEnv] in
def tmpPath (option : SSTableWriteOption) (micros : Int64) : Bytes :=
  tmpDirAndPrefix ++ replaceByte 0x2f 0x5f option.path ++ decimalInt micros.toInt

def newBuilder (path : Bytes) : SingleSSTableWriter where
  option := { compressType := tmpCompressType, path := path }
  block := { compression := DataBlock.codec snappy tmpCompressType }

section Paths

variable (option : SSTableWriteOption) (micros : Int64)

theorem getNewWriter_eq : getNewWriter option micros =
    .ok (tmpPath option micros, newBuilder (tmpPath option micros)) := by
  have hreplace : replaceAll option.path (ascii "/") (ascii "_") =
      .ok (replaceByte 0x2f 0x5f option.path) := replaceAll_byte ..
  have hpath : tmpDirAndPrefix ++ replaceByte 0x2f 0x5f option.path ++ decimalInt micros.toInt =
      tmpPath option micros := rfl
  have hne : (tmpPath option micros).isEmpty = false := rfl
  rw [getNewWriter, hreplace]
  simp only [ok_bind, numberToString64_eq micros.le_toInt micros.toInt_lt, hpath,
    SingleSSTableWriter.create]
  rw [DataBlock.create_eq snappy (show tmpCompressType.Supported from trivial)]
  simp only [ok_bind, hne, Bool.false_eq_true, ite_false, pure_eq_ok, newBuilder]

omit [SSTableEnv] in
/-- A temporary path is longer than the path of the table. -/
theorem tmpPath_ne_path : tmpPath option micros ≠ option.path := by
  intro heq
  have hlength := congrArg length heq
  have hpre : tmpDirAndPrefix.length = 16 := by decide
  simp only [tmpPath, replaceByte, length_append, length_map, hpre] at hlength
  omega

omit [SSTableEnv] in
theorem endsInDigit_tmpPath : EndsInDigit (tmpPath option micros) :=
  EndsInDigit.append_decimalInt ..

omit [SSTableEnv] in
theorem tmpPath_inj {option : SSTableWriteOption} {m n : Int64} :
    tmpPath option m = tmpPath option n ↔ m = n := by
  rw [tmpPath, tmpPath, append_cancel_left_eq, decimalInt_inj, Int64.toInt_inj]

end Paths

end CompositedSSTableWriter

/-- A path that ends in a digit is not a path of a file that is being written. -/
theorem EndsInDigit.ne_getTempSSTablePath [SSTableEnv] {p : Bytes} (h : EndsInDigit p)
    (path : Bytes) : p ≠ getTempSSTablePath path := by
  rintro rfl
  obtain ⟨d, hd, hlast⟩ := h
  rw [getLast?_getTempSSTablePath, Option.some.injEq] at hlast
  have hnat := congrArg UInt8.toNat hlast
  rw [toNat_digit hd, show (0x70 : UInt8).toNat = 112 from rfl] at hnat
  omega

namespace CompositedSSTableWriter

/-! ## Meta data -/

theorem foldl_addMetaData (w : CompositedSSTableWriter) (metas : List Record) :
    metas.foldl (fun w item => w.addMetaData item.1 item.2) w =
      { w with fileInfoMeta := assignAll w.fileInfoMeta metas } := by
  induction metas generalizing w with
  | nil => rfl
  | cons item metas ih =>
    rw [foldl_cons, ih]
    rfl

/-! ## Batches -/

/-- The bytes that a batch counts. -/
def byteSize (rs : List Record) : Nat := (rs.map fun r => r.1.length + r.2.length).sum

theorem byteSize_concat (rs : List Record) (r : Record) :
    byteSize (rs ++ [r]) = byteSize rs + (r.1.length + r.2.length) := by
  simp [byteSize]

/-- The added pairs: the batches that are complete, and the open one. -/
structure Batches where
  closed : List (List Record) := []
  openBatch : List Record := []

namespace Batches

/-- A batch is complete once it has `limit` bytes. -/
def add (limit : Int) (b : Batches) (r : Record) : Batches :=
  if limit ≤ byteSize (b.openBatch ++ [r]) then
    { closed := b.closed ++ [b.openBatch ++ [r]], openBatch := [] }
  else { b with openBatch := b.openBatch ++ [r] }

def addAll (limit : Int) (b : Batches) (rs : List Record) : Batches := rs.foldl (add limit) b

def all (b : Batches) : List (List Record) := b.closed ++ [b.openBatch]

section

variable (limit : Int) (b : Batches)
include limit b

theorem flatten_add (r : Record) : (b.add limit r).all.flatten = b.all.flatten ++ [r] := by
  unfold add all
  split <;> simp

theorem flatten_addAll (rs : List Record) :
    (b.addAll limit rs).all.flatten = b.all.flatten ++ rs := by
  induction rs generalizing b with
  | nil => exact (append_nil _).symm
  | cons r rs ih =>
    refine (ih _).trans ?_
    rw [flatten_add, append_assoc, singleton_append]

theorem closed_prefix_add (r : Record) : b.closed <+: (b.add limit r).closed := by
  unfold add
  split
  · exact prefix_append ..
  · exact prefix_rfl

theorem closed_prefix_addAll (rs : List Record) : b.closed <+: (b.addAll limit rs).closed := by
  induction rs generalizing b with
  | nil => exact prefix_rfl
  | cons r rs ih => exact (closed_prefix_add limit b r).trans (ih _)

end

theorem flatten_of_start (limit : Int) (rs : List Record) : (addAll limit {} rs).all.flatten = rs :=
  flatten_addAll limit {} rs

theorem ne_nil_of_mem_closed_addAll {limit : Int} {b : Batches} {rs : List Record}
    (h : ∀ batch ∈ b.closed, batch ≠ []) : ∀ batch ∈ (b.addAll limit rs).closed, batch ≠ [] := by
  induction rs generalizing b with
  | nil => exact h
  | cons r rs ih =>
    refine ih fun batch hbatch => ?_
    unfold add at hbatch
    split at hbatch
    · rcases mem_append.mp hbatch with hmem | hmem
      · exact h batch hmem
      · simp [mem_singleton.mp hmem]
    · exact h batch hbatch

end Batches

/-! ## Adding -/

section Adding

variable [SSTableEnv]

def tmpBlocks (batch : List Record) : List TableBlock := tableBlocks {} batch

/-- A batch that can be written to a temporary table. -/
structure BatchFits (batch : List Record) : Prop where
  nonempty : batch ≠ []
  notBlank : ∀ r ∈ batch, r ≠ ([], [])
  fits : TableFits tmpCompressType (tmpBlocks batch) []

/-- The file at `path` is the temporary table of a batch. -/
def HoldsBatch (fs : FileSystem) (path : Bytes) (batch : List Record) : Prop :=
  ∃ f : TableFile, fs.files path = some f.bytes ∧ f.blocks = tmpBlocks batch ∧ f.Fits []

/-- The paths of other files that a writer can meet end in a digit; those stay as they are. -/
theorem flush_newBuilder (hsnappy : snappy.Lossless) {batch : List Record}
    (hfits : BatchFits batch) (path : Bytes) {fs : FileSystem} (hfs : fs.AllWritable) :
    ∃ fs', SingleSSTableWriter.flush { newBuilder path with data := batch } fs allFull =
        .ok (true, { newBuilder path with data := batch, flushed := true }, fs') ∧
      fs'.AllWritable ∧ HoldsBatch fs' path batch ∧
      ∀ p, EndsInDigit p → p ≠ path → fs'.files p = fs.files p := by
  obtain ⟨fs', f, hflush, hwritable, hfile, hother, -, hblocks, hf⟩ :=
    flush_spec hsnappy (w := { newBuilder path with data := batch })
      ⟨rfl, rfl, trivial⟩ hfits.nonempty hfits.notBlank (by simp [newBuilder]) hfits.fits hfs
  exact ⟨fs', hflush, hwritable, ⟨f, hfile, hblocks, hf⟩,
    fun p hp hne => hother p (hp.ne_getTempSSTablePath _) hne⟩

variable (option : SSTableWriteOption) (limit : Int) (clock : Nat → Int64)

/-- The path of the `n`th temporary table. -/
def pathAt (n : Nat) : Bytes := tmpPath option (clock n)

/-- The writer has taken the pairs of `b`: the closed batches are on disk, the open one is in its
builder. -/
structure Collects (w : CompositedSSTableWriter) (fs : FileSystem) (b : Batches) : Prop where
  option_eq : w.option = option
  limit_eq : w.batchWriteSize = limit
  currByte : w.currByte = byteSize b.openBatch
  paths : w.paths = (range (b.closed.length + 1)).map (pathAt option clock)
  builder : w.builder =
    { newBuilder (pathAt option clock b.closed.length) with data := b.openBatch }
  writable : fs.AllWritable
  files : ∀ n batch, b.closed[n]? = some batch → HoldsBatch fs (pathAt option clock n) batch

variable {option limit clock} {w : CompositedSSTableWriter} {fs : FileSystem} {b : Batches}

variable (option limit clock) in
def fresh : CompositedSSTableWriter where
  option := option
  batchWriteSize := limit
  paths := [pathAt option clock 0]
  builder := newBuilder (pathAt option clock 0)

theorem create_eq : create option limit clock = .ok (fresh option limit clock) := by
  rw [create, getNewWriter_eq]
  rfl

theorem collects_fresh (hfs : fs.AllWritable) :
    Collects option limit clock (fresh option limit clock) fs {} :=
  ⟨rfl, rfl, rfl, rfl, rfl, hfs, by simp⟩

omit [SSTableEnv] in
theorem pathAt_ne {n : Nat} (hinj : Set.InjOn clock (Set.Iic n)) {i : Nat} (hi : i < n) :
    pathAt option clock i ≠ pathAt option clock n := by
  intro heq
  have := hinj (Set.mem_Iic.mpr hi.le) (Set.mem_Iic.mpr le_rfl) (tmpPath_inj.mp heq)
  omega

/-- The open batch, with the last pair that it takes, is flushed. -/
theorem Collects.flush (hsnappy : snappy.Lossless)
    (h : Collects option limit clock w fs b) {batch : List Record} (hfits : BatchFits batch)
    (hinj : Set.InjOn clock (Set.Iic b.closed.length)) :
    ∃ fs', SingleSSTableWriter.flush { w.builder with data := batch } fs allFull =
        .ok (true, { w.builder with data := batch, flushed := true }, fs') ∧
      fs'.AllWritable ∧
      (∀ n batch', (b.closed ++ [batch])[n]? = some batch' →
        HoldsBatch fs' (pathAt option clock n) batch') ∧
      ∀ p, EndsInDigit p → (∀ m, p ≠ tmpPath option m) → fs'.files p = fs.files p := by
  obtain ⟨fs', hflush, hwritable, hholds, hother⟩ := flush_newBuilder hsnappy hfits
    (pathAt option clock b.closed.length) h.writable
  refine ⟨fs', by rw [h.builder]; exact hflush, hwritable, fun n batch' hn => ?_,
    fun p hp hne => hother p hp (hne _)⟩
  rcases Nat.lt_trichotomy n b.closed.length with hlt | rfl | hgt
  · rw [getElem?_append_left hlt] at hn
    obtain ⟨f, hfile, hf⟩ := h.files n batch' hn
    exact ⟨f, (hother _ (endsInDigit_tmpPath ..) (pathAt_ne hinj hlt)).trans hfile, hf⟩
  · simp only [getElem?_concat_length, Option.some.injEq] at hn
    exact hn ▸ hholds
  · rw [getElem?_eq_none (by simp only [length_append, length_singleton]; omega)]
      at hn
    cases hn

/-- The other shards of a table leave the temporary tables alone. -/
theorem Collects.frame (h : Collects option limit clock w fs b) {fs' : FileSystem}
    (hwritable : fs'.AllWritable)
    (hfiles : ∀ m, fs'.files (tmpPath option m) = fs.files (tmpPath option m)) :
    Collects option limit clock w fs' b :=
  ⟨h.option_eq, h.limit_eq, h.currByte, h.paths, h.builder, hwritable, fun n batch hn => by
    obtain ⟨f, hfile, hf⟩ := h.files n batch hn
    exact ⟨f, (hfiles _).trans hfile, hf⟩⟩

/-- The pairs can be added to those of `b`: each batch that they complete can be written, the clock
shows another time for each, and the sizes do not overflow. -/
structure AddsFit (limit : Int) (clock : Nat → Int64) (b : Batches) (rs : List Record) :
    Prop where
  fits : ∀ batch ∈ (b.addAll limit rs).closed, BatchFits batch
  clock : Set.InjOn clock (Set.Iic (b.addAll limit rs).closed.length)
  size : byteSize (b.openBatch ++ rs) < 2 ^ 63

variable {rs : List Record} {r : Record}

theorem AddsFit.head (h : AddsFit limit clock b (r :: rs)) : AddsFit limit clock b [r] := by
  have hpre := Batches.closed_prefix_addAll limit (b.add limit r) rs
  refine ⟨fun batch hbatch => h.fits batch (hpre.mem hbatch),
    h.clock.mono (Set.Iic_subset_Iic.mpr hpre.length_le), ?_⟩
  have hsize := h.size
  simp only [byteSize, map_append, map_cons, sum_append, sum_cons, map_nil, sum_nil] at hsize ⊢
  omega

theorem AddsFit.tail (h : AddsFit limit clock b (r :: rs)) :
    AddsFit limit clock (b.add limit r) rs := by
  refine ⟨h.fits, h.clock, ?_⟩
  have hopen : byteSize (b.add limit r).openBatch ≤ byteSize (b.openBatch ++ [r]) := by
    unfold Batches.add
    split
    · exact Nat.zero_le _
    · exact le_rfl
  have hsize := h.size
  simp only [byteSize, map_append, map_cons, sum_append, sum_cons, map_nil,
    sum_nil] at hsize hopen ⊢
  omega

/-- **Adding a pair.** -/
theorem add_spec (hsnappy : snappy.Lossless) (h : Collects option limit clock w fs b)
    (hfit : AddsFit limit clock b [r]) :
    ∃ w' fs', w.add r.1 r.2 clock fs allFull = .ok (true, w', fs') ∧
      Collects option limit clock w' fs' (b.add limit r) ∧
      w'.fileInfoMeta = w.fileInfoMeta ∧
      ∀ p, EndsInDigit p → (∀ m, p ≠ tmpPath option m) → fs'.files p = fs.files p := by
  obtain ⟨hfits, hinj, hsize⟩ := hfit
  simp only [Batches.addAll, foldl_cons, foldl_nil] at hfits hinj
  have hcurr : int64 (w.currByte + (r.1.length + r.2.length)) = byteSize (b.openBatch ++ [r]) := by
    have hcast : w.currByte + (r.1.length + r.2.length) =
        (byteSize (b.openBatch ++ [r]) : Nat) := by
      rw [h.currByte, byteSize_concat]
      rfl
    rw [hcast, int64_of_lt hsize]
  have hbuilder : w.builder.add r.1 r.2 =
      (true, { w.builder with data := b.openBatch ++ [r] }) := by
    rw [SingleSSTableWriter.add, h.builder]
  unfold Batches.add at hfits hinj ⊢
  by_cases hfull : limit ≤ byteSize (b.openBatch ++ [r])
  · simp only [if_pos hfull] at hfits hinj ⊢
    rw [length_append] at hinj
    obtain ⟨fs', hflush, hwritable, hfiles, hother⟩ := h.flush hsnappy
      (hfits _ (mem_append_right _ (mem_singleton_self _)))
      (hinj.mono (Set.Iic_subset_Iic.mpr (by omega)))
    have hlen : w.paths.length = b.closed.length + 1 := by simp [h.paths]
    refine ⟨{ w with
        totalByte := int64 (w.totalByte + (r.1.length + r.2.length))
        currByte := 0
        paths := w.paths ++ [pathAt option clock (b.closed.length + 1)]
        builder := newBuilder (pathAt option clock (b.closed.length + 1)) },
      fs', ?_, ⟨h.option_eq, h.limit_eq, rfl, ?_, ?_, hwritable, hfiles⟩, rfl, hother⟩
    · simp only [add, hbuilder, hcurr, h.limit_eq, if_pos hfull, Bool.not_true, Bool.false_eq_true,
        ite_false, hflush, ok_bind, h.option_eq, hlen, getNewWriter_eq, pure_eq_ok, pathAt]
    · simp only [h.paths, length_append, length_singleton, range_succ,
        map_append, map_cons, map_nil]
    · simp only [length_append, length_singleton]
      rfl
  · simp only [if_neg hfull]
    refine ⟨{ w with
        totalByte := int64 (w.totalByte + (r.1.length + r.2.length))
        currByte := byteSize (b.openBatch ++ [r])
        builder := { w.builder with data := b.openBatch ++ [r] } },
      fs, ?_, ⟨h.option_eq, h.limit_eq, rfl, h.paths, ?_, h.writable, h.files⟩, rfl,
      fun _ _ _ => rfl⟩
    · simp only [add, hbuilder, hcurr, h.limit_eq, if_neg hfull, Bool.not_true, Bool.false_eq_true,
        ite_false, pure_eq_ok]
    · simp only [h.builder]

/-- **Adding.** -/
theorem addAll_spec (hsnappy : snappy.Lossless)
    (h : Collects option limit clock w fs b) (hfit : AddsFit limit clock b rs) :
    ∃ w' fs', addAll clock allFull rs w fs = .ok (true, w', fs') ∧
      Collects option limit clock w' fs' (b.addAll limit rs) ∧
      w'.fileInfoMeta = w.fileInfoMeta := by
  induction rs generalizing w fs b with
  | nil => exact ⟨w, fs, rfl, h, rfl⟩
  | cons r rs ih =>
    obtain ⟨w₁, fs₁, hadd, h₁, hmeta₁, -⟩ := add_spec hsnappy h hfit.head
    obtain ⟨w', fs', hall, h', hmeta'⟩ := ih h₁ hfit.tail
    exact ⟨w', fs', by rw [addAll, hadd]; exact hall, h', hmeta'.trans hmeta₁⟩

end Adding

end CompositedSSTableWriter

end Toft

import Toft.Storage.SSTable.RoundTrip
import Toft.Storage.SSTable.Writer.Unsorted

/-!
# The two writers of one table

`UnsortedSSTableWriter` cuts blocks while records are added, `SingleSSTableWriter` when it is
flushed. Both do the same to the members of a `TableWriter`, and they differ in nothing but the test
whether a block is full: it compares the block size as a signed number in one and as an unsigned
number in the other. So records in order give the same run, whatever the file system and the writes
do, unless the block size is negative: then one writer begins a block with every record, and the
other none with the first.
-/

namespace Toft

open Lib Hfile List Schedule SingleSSTableWriter TableWriter FileTrailer Nat SSTableEnv Option Bool

namespace UnsortedSSTableWriter

variable [SSTableEnv]

/-- A run of the writer: `Add` of all pairs, `AddMetaData` of all meta data, and `Flush`. -/
def write (option : SSTableWriteOption) (pairs metas : List Record) (fs : FileSystem)
    (io : Schedule) : Except Fault (Bool × FileSystem) := do
  let (w, fs) ← create option fs io
  let w := pairs.foldl (fun w p => (w.add p.1 p.2).2) w
  let w := metas.foldl (fun w item => w.addMetaData item.1 item.2) w
  let (result, _, fs) ← w.flush fs
  return (result, fs)

theorem foldl_add_of_addAll {w w' : UnsortedSSTableWriter} {rs : List Record}
    (h : w.addAll rs = some w') : rs.foldl (fun w p => (w.add p.1 p.2).2) w = w' := by
  induction rs generalizing w with
  | nil =>
    cases h
    rfl
  | cons r rs ih =>
    obtain ⟨w₁, hadd, hrest⟩ := exists_add_of_addAll_cons h
    rw [foldl_cons, hadd]
    exact ih hrest

theorem flush_eq {w : UnsortedSSTableWriter} (hfailed : w.failed = false)
    (hflushed : w.flushed = false) {file : File}
    (h : w.table.writeBlock >>= writeTail = some file) (fs : FileSystem) :
    ∃ w', w.flush fs = .ok ((moveToRealPath (fs.close (getTempSSTablePath w.table.option.path) file)
        w.table.option.path).1, w',
       (moveToRealPath (fs.close (getTempSSTablePath w.table.option.path) file)
        w.table.option.path).2) := by
  obtain ⟨table, hwrite, htail⟩ := bind_eq_some_iff.mp h
  simp only [flush, hfailed, hflushed, false_eq_true, ite_false, hwrite, htail]
  exact ⟨_, rfl⟩

end UnsortedSSTableWriter

/-! ## A table is always written -/

namespace TableWriter

variable [Host]

/-- Everything that was written is in the file. -/
def OnFile (t : TableWriter) : Prop := ∃ data, t.fileBase = File.written data

theorem exists_writeBlock (t : TableWriter) :
    ∃ t', t.writeBlock = some t' ∧ t'.indexCount = int32 (t.indexCount + 1) ∧
      (t.OnFile → t'.OnFile) := by
  unfold writeBlock
  simp only [writeToFile_fst, ite_true]
  refine ⟨_, rfl, rfl, ?_⟩
  rintro ⟨data, hdata⟩
  exact ⟨_, by rw [hdata, writeToFile_written]⟩

/-- A record begins a block if the open one is full. -/
theorem exists_addRecord (full : Nat → Bool) (t : TableWriter) (r : Record) :
    ∃ t', addRecord full t r = some t' ∧ (t.OnFile → t'.OnFile) ∧ t'.indexCount =
      if full t.block.buffer.length then int32 (t.indexCount + 1) else t.indexCount := by
  unfold addRecord
  split
  · obtain ⟨t', hwrite, hcount, hfile⟩ := exists_writeBlock t
    rw [hwrite]
    exact ⟨_, rfl, hfile, hcount⟩
  · exact ⟨_, rfl, id, rfl⟩

/-- The records that begin a block, out of `n` records: every one if every block is full, and not
the first one if the open block is not full. -/
structure Cuts (full : Nat → Bool) (t : TableWriter) (n c : Nat) : Prop where
  le : c ≤ n
  all : (∀ length, full length = true) → c = n
  lt : full t.block.buffer.length = false → 0 < n → c < n

theorem addAll_option {full : Nat → Bool} {t t' : TableWriter} {rs : List Record}
    (h : addAll full t rs = some t') : t'.option = t.option := by
  induction rs generalizing t with
  | nil =>
    cases h
    rfl
  | cons r rs ih =>
    obtain ⟨t₁, hadd, -⟩ := exists_addRecord full t r
    rw [addAll, foldlM_cons, hadd] at h
    rw [ih h, addRecord_option hadd]

theorem exists_writeTail (t : TableWriter) :
    ∃ file, t.writeTail = some file ∧ (t.OnFile → ∃ (data : Bytes) (trailer : FileTrailer),
      file = File.written (data ++ trailer.encodeToString) ∧
        trailer.dataIndexCount = t.indexCount) := by
  unfold writeTail
  simp only [writeToFile_fst, Bool.not_true, Bool.false_eq_true, ite_false]
  refine ⟨_, rfl, ?_⟩
  rintro ⟨data, hdata⟩
  simp only [hdata, writeToFile_written]
  exact ⟨_, _, rfl, rfl⟩

section

variable {k : Nat} (full : Nat → Bool) (t : TableWriter) (rs : List Record)
  (hk : t.indexCount = int32 k)
include full t rs hk

theorem exists_addAll :
    ∃ t' c, addAll full t rs = some t' ∧ Cuts full t rs.length c ∧
      t'.indexCount = int32 (k + c : Nat) ∧ (t.OnFile → t'.OnFile) := by
  induction rs generalizing t k with
  | nil => exact ⟨t, 0, rfl, ⟨le_refl _, fun _ => rfl, fun _ h => h⟩, hk, id⟩
  | cons r rs ih =>
    obtain ⟨t₁, hadd, hfile₁, hcount⟩ := exists_addRecord full t r
    rw [addAll, foldlM_cons, hadd]
    by_cases hfull : full t.block.buffer.length = true
    · have hk₁ : t₁.indexCount = int32 (k + 1 : Nat) := by
        rw [hcount, if_pos hfull, hk, int32, int32, Int.bmod_add_bmod]
        rfl
      obtain ⟨t', c, hall, hcuts, hc, hfile⟩ := ih t₁ hk₁
      refine ⟨t', c + 1, hall, ⟨succ_le_succ hcuts.le, fun h => congrArg (· + 1) (hcuts.all h),
        fun h => ?_⟩, by rw [hc, add_right_comm, add_assoc], hfile ∘ hfile₁⟩
      cases hfull.symm.trans h
    · obtain ⟨t', c, hall, hcuts, hc, hfile⟩ := ih t₁ (by rw [hcount, if_neg hfull, hk])
      exact ⟨t', c, hall, ⟨le_succ_of_le hcuts.le, fun h => absurd (h _) hfull,
        fun _ _ => lt_succ_of_le hcuts.le⟩, hc, hfile ∘ hfile₁⟩

theorem exists_writeTable :
    ∃ file c, t.writeTable full rs = some file ∧ Cuts full t rs.length c ∧
      (t.OnFile → ∃ (data : Bytes) (trailer : FileTrailer),
        file = File.written (data ++ trailer.encodeToString) ∧
          trailer.dataIndexCount = int32 (k + c + 1 : Nat)) := by
  obtain ⟨t₁, c, hall, hcuts, hcount₁, hfile₁⟩ := exists_addAll full t rs hk
  obtain ⟨t₂, hwrite, hcount₂, hfile₂⟩ := exists_writeBlock t₁
  obtain ⟨file, htail, hfile⟩ := exists_writeTail t₂
  refine ⟨file, c, ?_, hcuts, fun h => ?_⟩
  · simp only [writeTable, hall, hwrite, htail, bind_eq_bind, bind_some]
  · obtain ⟨data, trailer, hdata, htrailer⟩ := hfile (hfile₂ (hfile₁ h))
    refine ⟨data, trailer, hdata, ?_⟩
    rw [htrailer, hcount₂, hcount₁, int32, int32, Int.bmod_add_bmod]
    rfl

end

end TableWriter

/-! ## One run for both writers -/

section Run

variable [SSTableEnv]

/-- The members of a writer when it has opened its file. -/
def openedTable (option : SSTableWriteOption) (block : DataBlock) (file : File)
    (first : Record) (rest metas : List Record) : TableWriter where
  option := option
  fileInfoMeta := insertNew metas
  fileBase := file
  block := block
  firstKey := first.1
  lastKey := ((first :: rest).getLastD ([], [])).1

/-- Writing records in order, with a test whether a block is full. -/
def writeInOrder (full : Nat → Bool) (option : SSTableWriteOption) (first : Record)
    (rest metas : List Record) (fs : FileSystem) (io : Schedule) :
    Except Fault (Bool × FileSystem) := do
  let block ← DataBlock.create snappy option.compressType
  if option.path.isEmpty then throw .fatal
  let temp := getTempSSTablePath option.path
  match fs.openWrite temp io with
  | none => throw .fatal
  | some (file, fs) =>
    match (openedTable option block file first rest metas).writeTable full (first :: rest) with
    | some file => return moveToRealPath (fs.close temp file) option.path
    | none => return (false, fs.remove temp)

variable (option : SSTableWriteOption) {first : Record} {rest : List Record}

theorem SingleSSTableWriter.write_eq (hsorted : SortedBy Prod.fst (first :: rest))
    (metas : List Record) (fs : FileSystem) (io : Schedule) :
    write option (first :: rest) metas fs io =
      writeInOrder (full option) option first rest metas fs io := by
  unfold write writeInOrder create
  cases DataBlock.create snappy option.compressType with
  | error e => rfl
  | ok block =>
    split
    · rfl
    simp only [pure_eq_ok, ok_bind, foldl_add, foldl_addMetaData, nil_append]
    simp only [flush, false_eq_true, ite_false, hsorted.stableSort_eq]
    cases fs.openWrite (getTempSSTablePath option.path) io with
    | none => rfl
    | some opened =>
      obtain ⟨file, fs⟩ := opened
      have hmeta : metas.foldl (fun m item => m.insertIfNew item.1 item.2) ∅ = insertNew metas :=
        rfl
      obtain ⟨file', c, hwrite, -⟩ := exists_writeTable (full option)
        (openedTable option block file first rest metas) (first :: rest) (k := 0) rfl
      simp only [hmeta, hwrite]
      simp only [openedTable] at hwrite
      simp only [hwrite]
      rfl

theorem UnsortedSSTableWriter.foldl_add_opened {file : File} {block : DataBlock} {t : TableWriter}
    (h : TableWriter.addAll (full option)
      { option := option, fileBase := file, block := block, firstKey := first.1 }
      (first :: rest) = some t) :
    (first :: rest).foldl (fun (w : UnsortedSSTableWriter) p => (w.add p.1 p.2).2)
        { table := { option := option, fileBase := file, block := block } } =
      { table := { t with lastKey := ((first :: rest).getLastD ([], [])).1 }
        isFirstKey := false } := by
  refine foldl_add_of_addAll ?_
  have hstarted := addAll_of_started (w := { isFirstKey := false, table :=
    { option := option, fileBase := file, block := block, firstKey := first.1 } }) rfl rfl h
  rw [addAll_first rfl rfl, hstarted, List.getLast?_cons, getLastD_cons, getLastD_eq_getLast?]
  rfl

theorem UnsortedSSTableWriter.write_eq (first : Record) (rest metas : List Record)
    (fs : FileSystem) (io : Schedule) :
    UnsortedSSTableWriter.write option (first :: rest) metas fs io =
      writeInOrder (UnsortedSSTableWriter.full option) option first rest metas fs io := by
  unfold write writeInOrder create
  cases DataBlock.create snappy option.compressType with
  | error e => rfl
  | ok block =>
    simp only [ok_bind]
    split
    · rfl
    cases fs.openWrite (getTempSSTablePath option.path) io with
    | none => rfl
    | some opened =>
      obtain ⟨file, fs⟩ := opened
      let f (m : Std.TreeMap Bytes Bytes) :=
        metas.foldl (fun m item => m.insertIfNew item.1 item.2) m
      let last := ((first :: rest).getLastD ([], [])).1
      -- the members after the records, without the last key and the meta data
      obtain ⟨t, -, hall, -⟩ := exists_addAll (full option)
        { option := option, fileBase := file, block := block, firstKey := first.1 }
        (first :: rest) (k := 0) rfl
      obtain ⟨file', -, hrun, -⟩ := exists_writeTable (full option)
        (openedTable option block file first rest metas) (first :: rest) (k := 0) rfl
      have hopened : TableWriter.addAll (full option)
          (openedTable option block file first rest metas) (first :: rest) =
          some (t.setMeta last f) :=
        (addAll_setMeta (full option) _ last f (first :: rest)).trans (congrArg (Option.map _) hall)
      have hend : (t.setMeta last f).writeBlock >>= writeTail = some file' := by
        rw [writeTable, hopened] at hrun
        exact hrun
      obtain ⟨w', hflush⟩ := flush_eq (w := { isFirstKey := false, table := t.setMeta last f })
        rfl rfl hend fs
      simp only [pure_eq_ok, ok_bind, hrun, foldl_add_opened option hall, foldl_addMetaData]
      refine (congrArg (· >>= _) hflush).trans ?_
      rw [show (t.setMeta last f).option = option from addAll_option hall]
      rfl

/-! ## The test for a full block -/

omit [SSTableEnv] in
theorem full_eq_full {option : SSTableWriteOption} (h : 0 ≤ option.blockSize) :
    UnsortedSSTableWriter.full option = full option := by
  funext length
  have hnonneg : (0 : Int) ≤ option.blockSize.toInt := Int64.le_iff_toInt_le.mp h
  have hint : option.blockSize.toInt = option.blockSize.toUInt64.toNat := by
    have hcond : option.blockSize.toInt = _ := BitVec.toInt_eq_toNat_cond _
    have hnat : option.blockSize.toUInt64.toNat = option.blockSize.toBitVec.toNat := rfl
    omega
  rw [UnsortedSSTableWriter.full, full, hint]
  simp only [cast_le]

omit [SSTableEnv] in
/-- With a negative block size every block is full for one writer, and an empty block is not for the
other. -/
theorem full_of_neg {option : SSTableWriteOption} (h : option.blockSize < 0) :
    (∀ length, UnsortedSSTableWriter.full option length = true) ∧ full option 0 = false := by
  have hneg := Int64.lt_iff_toInt_lt.mp h
  constructor
  · intro length
    rw [UnsortedSSTableWriter.full, decide_eq_true_eq]
    exact Int.le_trans (Int.le_of_lt hneg) (Int.natCast_nonneg length)
  · rw [eq_false_iff, ne_eq, full_zero_iff]
    rintro hzero
    rw [hzero] at h
    exact absurd h (by decide)

variable {option} {fs : FileSystem}

theorem exists_writeInOrder (full : Nat → Bool) (htype : option.compressType.Supported)
    (hpath : option.path ≠ []) (hfs : fs.AllWritable) (first : Record) (rest metas : List Record) :
    ∃ (fs' : FileSystem) (c : Nat) (data : Bytes) (trailer : FileTrailer),
      writeInOrder full option first rest metas fs allFull = .ok (true, fs') ∧
      fs'.files option.path = some (data ++ trailer.encodeToString) ∧
      trailer.dataIndexCount = int32 (c + 1 : Nat) ∧ c ≤ rest.length + 1 ∧
      ((∀ length, full length = true) → c = rest.length + 1) ∧
      (full 0 = false → c ≤ rest.length) := by
  have hpath' : option.path.isEmpty = false := by simpa using hpath
  obtain ⟨file, c, hrun, hcuts, hfile⟩ := exists_writeTable full
    (openedTable option { compression := DataBlock.codec snappy option.compressType }
      (File.written []) first rest metas) (first :: rest) (k := 0) rfl
  obtain ⟨data, trailer, rfl, htrailer⟩ := hfile ⟨[], rfl⟩
  obtain ⟨fs', hrename, -, hfiles, -⟩ := FileSystem.rename_close
    (fs.set (getTempSSTablePath option.path) (some [])) hfs (getTempSSTablePath option.path)
    option.path (File.written (data ++ trailer.encodeToString))
  refine ⟨fs', c, data, trailer, ?_, hfiles, by rw [htrailer, zero_add], hcuts.le, hcuts.all,
    fun h => le_of_lt_succ (hcuts.lt h (succ_pos _))⟩
  simp only [writeInOrder, DataBlock.create_eq _ htype, ok_bind, hpath', false_eq_true,
    ite_false, FileSystem.openWrite_allFull hfs, hrun, moveToRealPath, hrename, pure_eq_ok]

/-- With a negative block size the trailers have different numbers of blocks. -/
theorem files_ne_of_neg (hneg : option.blockSize < 0) (htype : option.compressType.Supported)
    (hpath : option.path ≠ []) (hfs : fs.AllWritable)
    (hsorted : SortedBy Prod.fst (first :: rest)) (hlength : (first :: rest).length < 2 ^ 32)
    (metas : List Record) :
    ∃ fs₁ fs₂,
      UnsortedSSTableWriter.write option (first :: rest) metas fs allFull =
        .ok (true, fs₁) ∧
      write option (first :: rest) metas fs allFull =
        .ok (true, fs₂) ∧
      fs₁.files option.path ≠ fs₂.files option.path := by
  obtain ⟨hfull₁, hfull₂⟩ := full_of_neg hneg
  obtain ⟨fs₁, c₁, data₁, trailer₁, hrun₁, hfile₁, hcount₁, -, hall, -⟩ :=
    exists_writeInOrder (UnsortedSSTableWriter.full option) htype hpath hfs first rest metas
  obtain ⟨fs₂, c₂, data₂, trailer₂, hrun₂, hfile₂, hcount₂, -, -, hlt⟩ :=
    exists_writeInOrder (full option) htype hpath hfs first rest metas
  refine ⟨fs₁, fs₂, by rw [UnsortedSSTableWriter.write_eq, hrun₁],
    by rw [write_eq option hsorted, hrun₂], fun heq => ?_⟩
  rw [hfile₁, hfile₂, some.injEq] at heq
  have htrailers := (append_inj' heq (by
    rw [length_encodeToString, length_encodeToString])).2
  have hcounts := int32_dataIndexCount_eq htrailers
  rw [hcount₁, hcount₂, int32_int32, int32_int32, hall hfull₁] at hcounts
  have hmod := sub_emod_of_int32_eq hcounts
  have hle := hlt hfull₂
  rw [length_cons] at hlength
  omega

/-- **The two writers.** Records in order give the same result and the same files, from every file
system and whatever the writes do, if the block size is not negative. Otherwise, the files differ
whenever both are written. -/
theorem writers_agree {rs : List Record} (hne : rs ≠ []) (hsorted : SortedBy Prod.fst rs)
    (option : SSTableWriteOption) (metas : List Record) :
    (0 ≤ option.blockSize → ∀ (fs : FileSystem) (io : Schedule),
      UnsortedSSTableWriter.write option rs metas fs io =
        write option rs metas fs io) ∧
    (option.blockSize < 0 → option.compressType.Supported → option.path ≠ [] →
      rs.length < 2 ^ 32 → ∀ fs : FileSystem, fs.AllWritable → ∃ fs₁ fs₂,
        UnsortedSSTableWriter.write option rs metas fs allFull = .ok (true, fs₁) ∧
        write option rs metas fs allFull = .ok (true, fs₂) ∧
        fs₁.files option.path ≠ fs₂.files option.path) := by
  obtain ⟨first, rest, rfl⟩ := exists_cons_of_ne_nil hne
  constructor
  · intro hsize fs io
    rw [UnsortedSSTableWriter.write_eq, write_eq option hsorted, full_eq_full hsize]
  · intro hneg htype hpath hlength fs hfs
    exact files_ne_of_neg hneg htype hpath hfs hsorted hlength metas

end Run

/-- Three records, each beyond the block size of one byte, and a meta entry. -/
theorem writers_agree_ab :
    letI rs := [(ascii "a", ascii "b"), (ascii "c", ascii "d"), (ascii "c", [])]
    letI option : SSTableWriteOption := { path := ascii "t", blockSize := 1 }
    @UnsortedSSTableWriter.write .inverting option rs [(ascii "m", ascii "v")]
        ⟨fun _ => none, fun _ => true⟩ allFull =
      @SingleSSTableWriter.write .inverting option rs [(ascii "m", ascii "v")]
        ⟨fun _ => none, fun _ => true⟩ allFull :=
  (@writers_agree .inverting _ (cons_ne_nil _ _) (by simp [SortedBy]; decide) _ _).1 (by decide) _ _

/-- One record with a block size of -1: an empty block comes before its block, or not. -/
theorem writers_not_agree :
    ∃ fs₁ fs₂,
      @UnsortedSSTableWriter.write .inverting { path := ascii "t", blockSize := -1 }
        [(ascii "a", ascii "b")] [] ⟨fun _ => none, fun _ => true⟩ allFull = .ok (true, fs₁) ∧
      @SingleSSTableWriter.write .inverting { path := ascii "t", blockSize := -1 }
        [(ascii "a", ascii "b")] [] ⟨fun _ => none, fun _ => true⟩ allFull = .ok (true, fs₂) ∧
      fs₁.files (ascii "t") ≠ fs₂.files (ascii "t") :=
  @files_ne_of_neg .inverting { path := ascii "t", blockSize := -1 } (ascii "a", ascii "b") []
    ⟨fun _ => none, fun _ => true⟩ (by decide) trivial (by decide) (fun _ => rfl)
    (pairwise_singleton _ _)
    (by decide) []

end Toft

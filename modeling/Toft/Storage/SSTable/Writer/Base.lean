import Mathlib.Tactic.MkIffOfInductiveProp
import Toft.Storage.FileSystem
import Toft.Storage.Path
import Toft.Storage.SSTable.Layout

/-!
# Writing a table file

What `SingleSSTableWriter` and `UnsortedSSTableWriter` share: the members that change while a table
is written, closing a block, adding a record, and the parts behind the last block. The records end
up cut into blocks (`addAll_spec`), and the file is the one of the layout (`writeTail_spec`).
-/

namespace Toft

open Lib Hfile List DataBlock SSTableEnv TableBlock DataIndex FileInfo Nat

def tempSSTableDir : Bytes := ascii "/tmp"

section Paths

variable [SSTableEnv]

def fingerprint64ToString (fp : UInt64) : Bytes := b16Encode (Host.bytes 8 fp.toNat)

def getTempSSTablePath (path : Bytes) : Bytes :=
  Path.join tempSSTableDir (fingerprint64ToString (fingerprint64 path)) ++
    ascii ".sstmp"

theorem getLast?_getTempSSTablePath (path : Bytes) :
    (getTempSSTablePath path).getLast? = some 0x70 := by
  rw [getTempSSTablePath, List.getLast?_append]
  rfl

def moveToRealPath (fs : FileSystem) (path : Bytes) : Bool × FileSystem :=
  fs.rename (getTempSSTablePath path) path

end Paths

/-- The members of a writer while it writes to the temporary file. -/
structure TableWriter where
  option : SSTableWriteOption
  fileInfoMeta : Std.TreeMap Bytes Bytes := ∅
  fileBase : File
  block : DataBlock
  index : DataIndex := {}
  firstKey : Bytes := []
  lastKey : Bytes := []
  entryCount : Int := 0
  totalBytes : Int := 0
  indexOffset : Int := 0
  indexCount : Int := 0
  keyLength : Int := 0
  valueLength : Int := 0

namespace TableWriter

def fileInfo (w : TableWriter) : FileInfo :=
  let info : FileInfo :=
    w.fileInfoMeta.toList.foldl (fun info item => info.addItem item.1 item.2) {}
  let info := { info with lastKey := w.lastKey }
  if w.entryCount ≠ 0 then
    { info with
      avgKeyLen := int32 (w.keyLength.tdiv w.entryCount)
      avgValueLen := int32 (w.valueLength.tdiv w.entryCount) }
  else info

theorem fileInfo_buffer (w : TableWriter) :
    w.fileInfo.buffer = w.fileInfoMeta.toList.flatMap fun item => itemBytes item.1 item.2 := by
  unfold fileInfo
  rw [foldl_addItem]
  split <;> rfl

theorem fileInfo_lastKey (w : TableWriter) : w.fileInfo.lastKey = w.lastKey := by
  unfold fileInfo
  split <;> rfl

theorem fileInfo_comparator (w : TableWriter) :
    w.fileInfo.comparator = ({} : FileInfo).comparator := by
  unfold fileInfo
  rw [foldl_addItem]
  split <;> rfl

variable [Host]

/-- Writes the open block and enters it in the index; `none` when the write fails. -/
def writeBlock (w : TableWriter) : Option TableWriter :=
  let (str, block) := w.block.encodeToString
  let (result, fileBase) := writeToFile str w.fileBase
  if result then
    some { w with
      fileBase := fileBase
      block := block
      index := w.index.addDataBlockInfo block.getCompressedBufferSize
        block.getUncompressedBufferSize w.firstKey
      totalBytes := int64 (w.totalBytes + block.getUncompressedBufferSize)
      indexOffset := int64 (w.indexOffset + block.getCompressedBufferSize)
      indexCount := int32 (w.indexCount + 1) }
  else none

def addItem (w : TableWriter) (r : Record) : TableWriter :=
  { w with
    keyLength := int64 (w.keyLength + r.1.length)
    valueLength := int64 (w.valueLength + r.2.length)
    block := w.block.addItem r.1 r.2
    entryCount := int32 (w.entryCount + 1) }

/-- Adds a record; if the open block is full, a new one is begun. -/
def addRecord (full : Nat → Bool) (w : TableWriter) (r : Record) : Option TableWriter :=
  if full w.block.buffer.length then do
    let w ← w.writeBlock
    return { w with firstKey := r.1, block := w.block.clearItems }.addItem r
  else some (w.addItem r)

def addAll (full : Nat → Bool) (w : TableWriter) (rs : List Record) : Option TableWriter :=
  rs.foldlM (addRecord full) w

/-- Writes what follows the last block; `none` when a write fails. -/
def writeTail (w : TableWriter) : Option File :=
  let info := w.fileInfo.encodeToString
  let indexOffset := int64 (w.indexOffset + info.length)
  let trailer : FileTrailer :=
    { fileInfoOffset := w.indexOffset
      dataIndexOffset := indexOffset
      dataIndexCount := w.indexCount
      totalUncompressedBytes := int32 w.totalBytes
      entryCount := w.entryCount
      compressType := w.option.compressType }
  let (result, fileBase) := writeToFile info w.fileBase
  if !result then none
  else
    let (result, fileBase) := writeToFile w.index.buffer fileBase
    if !result then none
    else
      let (result, fileBase) := writeToFile trailer.encodeToString fileBase
      if !result then none else some fileBase

/-- Writes a whole table: the records, the last block and what follows it. -/
def writeTable (full : Nat → Bool) (w : TableWriter) (rs : List Record) : Option File := do
  let w ← w.addAll full rs
  let w ← w.writeBlock
  w.writeTail

/-! ## The blocks -/

/-- The blocks `bs` are in the file and in the index. -/
structure Written (codec : Option BlockCompression) (w : TableWriter) (bs : List TableBlock) :
    Prop where
  fileBase : w.fileBase = File.written (bs.flatMap (blockBytes codec))
  index : w.index.buffer = bufferOf (blockInfos codec 0 bs)
  lastOffset : w.index.lastOffset = (bs.flatMap (blockBytes codec)).length
  indexOffset : w.indexOffset = (bs.flatMap (blockBytes codec)).length
  indexCount : w.indexCount = bs.length
  compression : w.block.compression = codec

/-- The blocks `bs` are written, and `b` is open. -/
structure Building (codec : Option BlockCompression) (w : TableWriter) (bs : List TableBlock)
    (b : TableBlock) : Prop where
  written : Written codec w bs
  firstKey : w.firstKey = b.key
  buffer : w.block.buffer = bufferOf b.items
  entryCount : w.entryCount = ((bs ++ [b]).flatMap items).length

/-- What adding records leaves alone. -/
structure Frame (w w' : TableWriter) : Prop where
  option : w'.option = w.option
  fileInfoMeta : w'.fileInfoMeta = w.fileInfoMeta
  lastKey : w'.lastKey = w.lastKey

variable {codec : Option BlockCompression} {w : TableWriter} {bs : List TableBlock}
  {b : TableBlock}

theorem writeBlock_spec (hcodec : ∀ c ∈ codec, c.Lossless) (h : Building codec w bs b)
    (hfits : BlocksFit codec (bs ++ [b])) :
    ∃ w', w.writeBlock = some w' ∧ Written codec w' (bs ++ [b]) ∧
      w'.entryCount = w.entryCount ∧ Frame w w' := by
  have hbytes := hfits.bytes b (by simp)
  have hcount := hfits.count
  have hoffsets := hfits.offsets
  simp only [length_append, flatMap_append, flatMap_cons, flatMap_nil,
    append_nil, length_singleton] at hcount hoffsets
  have hencode := encodeToString_eq (b := w.block) (by rwa [h.written.compression])
  rw [h.written.compression, h.buffer] at hencode
  have hstr : encoded codec (bufferOf b.items) = blockBytes codec b := rfl
  rw [hstr] at hencode
  unfold writeBlock
  simp only [hencode, h.written.fileBase, writeToFile_written, ite_true, Option.some.injEq,
    exists_eq_left', getUncompressedBufferSize, getCompressedBufferSize]
  have hint32 : int32 (blockBytes codec b).length = (blockBytes codec b).length :=
    int32_of_lt hbytes
  have hint64 : int64 ((bs.flatMap (blockBytes codec)).length + (blockBytes codec b).length) =
      ((bs ++ [b]).flatMap (blockBytes codec)).length := by
    rw [← cast_add, int64_of_lt hoffsets]
    simp
  refine ⟨⟨?_, ?_, ?_, ?_, ?_, rfl⟩, trivial, ⟨rfl, rfl, rfl⟩⟩
  · simp
  · rw [buffer_addDataBlockInfo h.written.index, blockInfos_append, h.firstKey,
      h.written.lastOffset, zero_add]
    rfl
  · simp only [addDataBlockInfo, h.written.lastOffset, hint32, hint64]
  · simp only [h.written.indexOffset, hint64]
  · rw [h.written.indexCount, ← cast_succ, int32_of_lt hcount, length_append, length_singleton]

theorem addItem_spec {r : Record} (hr : r ≠ ([], []))
    (hentries : ((bs ++ [b]).flatMap items).length + 1 < 2 ^ 31)
    (h : Building codec w bs b) :
    Building codec (w.addItem r) bs ⟨b.key, b.items ++ [r]⟩ where
  written := by
    have hw := h.written
    refine ⟨hw.fileBase, hw.index, hw.lastOffset, hw.indexOffset, hw.indexCount, ?_⟩
    rw [addItem, addItem_compression, hw.compression]
  firstKey := h.firstKey
  buffer := buffer_addItem hr h.buffer
  entryCount := by
    rw [addItem, h.entryCount, ← cast_succ, int32_of_lt hentries]
    simp only [flatMap_append, flatMap_cons, flatMap_nil, append_nil,
      length_append, length_singleton, add_assoc]

theorem addRecord_spec (full : Nat → Bool) (hcodec : ∀ c ∈ codec, c.Lossless) {r : Record}
    (hr : r ≠ ([], [])) (h : Building codec w bs b)
    (hfits : full (bufferOf b.items).length = true → BlocksFit codec (bs ++ [b]))
    (hentries : ((bs ++ [b]).flatMap items).length + 1 < 2 ^ 31) :
    ∃ w', addRecord full w r = some w' ∧ Frame w w' ∧
      if full (bufferOf b.items).length then Building codec w' (bs ++ [b]) ⟨r.1, [r]⟩
      else Building codec w' bs ⟨b.key, b.items ++ [r]⟩ := by
  unfold addRecord
  rw [h.buffer]
  split
  · rename_i hfull
    obtain ⟨w', hwrite, hwritten, hcount, hframe⟩ := writeBlock_spec hcodec h (hfits hfull)
    rw [hwrite]
    refine ⟨_, rfl, ⟨hframe.option, hframe.fileInfoMeta, hframe.lastKey⟩, ?_⟩
    have hopen : Building codec { w' with firstKey := r.1, block := w'.block.clearItems }
        (bs ++ [b]) ⟨r.1, []⟩ := by
      refine ⟨?_, rfl, rfl, ?_⟩
      · exact ⟨hwritten.fileBase, hwritten.index, hwritten.lastOffset, hwritten.indexOffset,
          hwritten.indexCount, hwritten.compression⟩
      · rw [hcount, h.entryCount]
        simp
    exact addItem_spec hr (by simpa using hentries) hopen
  · exact ⟨_, rfl, ⟨rfl, rfl, rfl⟩, addItem_spec hr hentries h⟩

/-- **Cutting.** Adding records cuts them into blocks; the last block stays open. -/
theorem addAll_spec (full : Nat → Bool) (hcodec : ∀ c ∈ codec, c.Lossless) {rs : List Record}
    (hrs : ∀ r ∈ rs, r ≠ ([], [])) (h : Building codec w bs b)
    (hfits : BlocksFit codec (bs ++ cutBlocks full b.key b.items rs))
    (hentries : ((bs ++ [b]).flatMap items).length + rs.length < 2 ^ 31) :
    ∃ w' bs' b', w.addAll full rs = some w' ∧ Building codec w' bs' b' ∧ Frame w w' ∧
      bs' ++ [b'] = bs ++ cutBlocks full b.key b.items rs := by
  induction rs generalizing w bs b with
  | nil => exact ⟨w, bs, b, rfl, h, ⟨rfl, rfl, rfl⟩, rfl⟩
  | cons r rs ih =>
    rw [length_cons] at hentries
    have hr := hrs r mem_cons_self
    have hrs' : ∀ r ∈ rs, r ≠ ([], []) := fun r hr => hrs r (mem_cons_of_mem _ hr)
    rw [cutBlocks] at hfits ⊢
    obtain ⟨w₁, hadd, hframe, hbuilding⟩ := addRecord_spec full hcodec hr h
      (fun hfull => by
        rw [if_pos hfull, append_cons] at hfits
        exact hfits.left)
      (by omega)
    have hall : w.addAll full (r :: rs) = w₁.addAll full rs := by
      rw [addAll, foldlM_cons, hadd]
      rfl
    have hframes : ∀ w', Frame w₁ w' → Frame w w' := fun w' h' =>
      ⟨h'.option.trans hframe.option, h'.fileInfoMeta.trans hframe.fileInfoMeta,
        h'.lastKey.trans hframe.lastKey⟩
    have hcount : ((bs ++ [b]).flatMap items).length + 1 + rs.length < 2 ^ 31 := by
      omega
    rw [hall]
    split at hbuilding
    · rename_i hfull
      rw [if_pos hfull, append_cons] at hfits ⊢
      obtain ⟨w', bs', b', hw', hb', hf', hcut⟩ := ih hrs' hbuilding hfits
        (by simpa [add_assoc] using hcount)
      exact ⟨w', bs', b', hw', hb', hframes w' hf', hcut⟩
    · rename_i hfull
      rw [if_neg hfull] at hfits ⊢
      obtain ⟨w', bs', b', hw', hb', hf', hcut⟩ := ih hrs' hbuilding hfits
        (by simpa [add_assoc] using hcount)
      exact ⟨w', bs', b', hw', hb', hframes w' hf', hcut⟩

end TableWriter

section Tail

variable [SSTableEnv]

/-- The length of the file with these blocks and this meta data. -/
def tableLength (type : CompressType) (blocks : List TableBlock) (metas : List Record) : Nat :=
  let codec := codec snappy type
  (blocks.flatMap (blockBytes codec)).length +
    size (metas.flatMap fun item => itemBytes item.1 item.2)
      ((blocks.flatMap items).getLastD ([], [])).1 +
    (bufferOf (blockInfos codec 0 blocks)).length + FileTrailer.trailerSize

/-- The sizes of a table with these blocks and this meta data fit their fields. -/
@[mk_iff]
structure TableFits (type : CompressType) (blocks : List TableBlock) (metas : List Record) :
    Prop where
  count : blocks.length < 2 ^ 31
  entries : (blocks.flatMap items).length < 2 ^ 31
  keys : ∀ r ∈ blocks.flatMap items, r.1.length < 2 ^ 31
  values : ∀ r ∈ blocks.flatMap items, r.2.length < 2 ^ 31
  bytes : ∀ b ∈ blocks, (blockBytes (codec snappy type) b).length < 2 ^ 31
  metaKeys : ∀ item ∈ metas, item.1.length < 2 ^ 31 - 1
  metaValues : ∀ item ∈ metas, item.2.length < 2 ^ 31
  size : tableLength type blocks metas < 2 ^ 63

instance (type : CompressType) (blocks : List TableBlock) (metas : List Record) :
    Decidable (TableFits type blocks metas) :=
  decidable_of_iff' _ (tableFits_iff type blocks metas)

theorem TableFits.blocksFit {type : CompressType} {blocks : List TableBlock} {metas : List Record}
    (h : TableFits type blocks metas)
    (hblank : ∀ r ∈ blocks.flatMap items, r ≠ ([], []))
    (hkeys : ∀ b ∈ blocks, ∃ r ∈ blocks.flatMap items, b.key = r.1) :
    BlocksFit (codec snappy type) blocks where
  count := h.count
  items b hb item hitem := by
    have hmem : item ∈ blocks.flatMap items := mem_flatMap.mpr ⟨b, hb, hitem⟩
    exact ⟨hblank item hmem, h.keys item hmem, h.values item hmem⟩
  keys b hb := by
    obtain ⟨r, hr, hkey⟩ := hkeys b hb
    exact hkey ▸ h.keys r hr
  bytes := h.bytes
  offsets := by
    have := h.size
    simp only [tableLength] at this
    omega

/-- The file that a writer makes of the blocks it has written. -/
def TableWriter.tableFile (w : TableWriter) (bs : List TableBlock) : TableFile where
  type := w.option.compressType
  blocks := bs
  info := w.fileInfo
  totalBytes := w.totalBytes

variable {w : TableWriter} {bs : List TableBlock}

theorem TableWriter.writeTail_spec (h : Written (codec snappy w.option.compressType) w bs)
    (hentries : w.entryCount = (bs.flatMap items).length)
    (hoffset : (w.tableFile bs).blockData.length + w.fileInfo.encodeToString.length < 2 ^ 63) :
    w.writeTail = some (File.written (w.tableFile bs).bytes) := by
  have hint64 : int64 ((w.tableFile bs).blockData.length + w.fileInfo.encodeToString.length) =
      ((w.tableFile bs).blockData.length + w.fileInfo.encodeToString.length : Nat) := by
    rw [← cast_add, int64_of_lt hoffset]
  have hdata : bs.flatMap (blockBytes (codec snappy w.option.compressType)) =
      (w.tableFile bs).blockData := rfl
  unfold writeTail
  simp only [h.fileBase, hdata, writeToFile_written, h.index, h.indexOffset, h.indexCount, hint64,
    hentries, Bool.not_true, Bool.false_eq_true, ite_false]
  rfl

theorem TableWriter.finish_spec {b : TableBlock}
    (hsnappy : snappy.Lossless) (htype : w.option.compressType.Supported)
    (h : Building (codec snappy w.option.compressType) w bs b)
    (hlast : w.lastKey = (((bs ++ [b]).flatMap items).getLastD ([], [])).1)
    (hlen : w.lastKey.length < 2 ^ 31)
    (hblocks : BlocksFit (codec snappy w.option.compressType) (bs ++ [b]))
    (hreserved : ∀ item ∈ w.fileInfoMeta.toList, item.1 ∉ reserved)
    (hfits : TableFits w.option.compressType (bs ++ [b]) w.fileInfoMeta.toList) :
    ∃ (w' : TableWriter) (f : TableFile), w.writeBlock = some w' ∧
      w'.writeTail = some (File.written f.bytes) ∧ f.type = w.option.compressType ∧
      f.blocks = bs ++ [b] ∧ f.Fits w.fileInfoMeta.toList := by
  obtain ⟨w', hwrite, hwritten, hcount, hframe⟩ :=
    writeBlock_spec (codec_lossless hsnappy _) h hblocks
  have hinfo : w'.fileInfo.encodeToString.length = size
      (w.fileInfoMeta.toList.flatMap fun item => itemBytes item.1 item.2)
      (((bs ++ [b]).flatMap items).getLastD ([], [])).1 := by
    rw [length_encodeToString (fileInfo_comparator w'), fileInfo_buffer,
      fileInfo_lastKey, hframe.fileInfoMeta, hframe.lastKey, hlast]
  have hsize : (w'.tableFile (bs ++ [b])).bytes.length < 2 ^ 63 := by
    have hlength : (w'.tableFile (bs ++ [b])).bytes.length =
        tableLength w.option.compressType (bs ++ [b]) w.fileInfoMeta.toList := by
      rw [TableFile.length_bytes, tableFile, hframe.option,
        hinfo]
      rfl
    rw [hlength]
    exact hfits.size
  have htail := writeTail_spec (by rw [hframe.option]; exact hwritten)
    (by rw [hcount, h.entryCount]) (by
      rw [TableFile.length_bytes] at hsize
      simp only [tableFile] at hsize ⊢
      omega)
  refine ⟨w', _, hwrite, htail, congrArg SSTableWriteOption.compressType hframe.option, rfl, ?_⟩
  refine ⟨?_, by simp [tableFile], ?_, hfits.entries, hsize, ?_, ?_, ?_, ?_⟩
  · rw [tableFile, hframe.option]
    exact htype
  · rw [tableFile, hframe.option]
    exact hblocks
  · rw [tableFile, fileInfo_buffer, hframe.fileInfoMeta]
  · exact fun item hitem =>
      ⟨hreserved item hitem, hfits.metaKeys item hitem, hfits.metaValues item hitem⟩
  · rw [tableFile, fileInfo_lastKey, hframe.lastKey]
    exact hlen
  · rw [tableFile, fileInfo_comparator]
    decide

/-- The last key and the meta data do not matter while blocks are written. -/
theorem TableWriter.Building.setMeta {codec : Option BlockCompression} {b : TableBlock}
    (h : Building codec w bs b) (lastKey : Bytes)
    (metas : Std.TreeMap Bytes Bytes) :
    Building codec { w with lastKey := lastKey, fileInfoMeta := metas } bs b := by
  obtain ⟨⟨hfile, hindex, hlast, hoffset, hcount, hcodec⟩, hfirst, hbuffer, hentries⟩ := h
  exact ⟨⟨hfile, hindex, hlast, hoffset, hcount, hcodec⟩, hfirst, hbuffer, hentries⟩

/-- **A table.** Adding all records, and then closing the file with the last key and the meta data,
gives the table file of the records. -/
theorem TableWriter.table_spec (hsnappy : snappy.Lossless)
    (full : Nat → Bool) {first : Record} {rest : List Record}
    (hblank : ∀ r ∈ first :: rest, r ≠ ([], []))
    (htype : w.option.compressType.Supported)
    (hstart : Building (codec snappy w.option.compressType) w []
      ⟨first.1, []⟩)
    (metas : Std.TreeMap Bytes Bytes)
    (hreserved : ∀ item ∈ metas.toList, item.1 ∉ reserved)
    (hfits : TableFits w.option.compressType (blocksOf full (first :: rest)) metas.toList) :
    ∃ (w' w'' : TableWriter) (f : TableFile),
      w.addAll full (first :: rest) = some w' ∧ Frame w w' ∧
      writeBlock { w' with
        lastKey := ((first :: rest).getLastD ([], [])).1, fileInfoMeta := metas } = some w'' ∧
      w''.writeTail = some (File.written f.bytes) ∧ f.type = w.option.compressType ∧
      f.blocks = blocksOf full (first :: rest) ∧ f.Fits metas.toList := by
  have hitems := items_blocksOf full (first :: rest)
  have hfit := hfits.blocksFit (fun r hr => hblank r (hitems ▸ hr))
    (fun b hb => by rw [hitems]; exact key_blocksOf full hb)
  have hentries := hfits.entries
  rw [hitems] at hentries
  obtain ⟨w', bs, b, hadd, hbuilding, hframe, hcut⟩ := addAll_spec full
    (codec_lossless hsnappy _) hblank hstart hfit (by simpa using hentries)
  rw [nil_append, show cutBlocks full first.1 [] (first :: rest) =
    blocksOf full (first :: rest) from rfl] at hcut
  rw [← hframe.option] at hbuilding
  have hlen : ((first :: rest).getLastD ([], [])).1.length < 2 ^ 31 := by
    rw [getLastD_cons]
    refine hfits.keys _ ?_
    rw [hitems]
    exact getLastD_mem_cons
  obtain ⟨w'', f, hwrite, htail, hftype, hfblocks, hffits⟩ := finish_spec (w := { w' with
      lastKey := ((first :: rest).getLastD ([], [])).1, fileInfoMeta := metas })
    hsnappy (by rwa [hframe.option]) (hbuilding.setMeta _ _) (by rw [hcut, hitems]) hlen
    (by rwa [hframe.option, hcut]) hreserved (by rwa [hframe.option, hcut])
  exact ⟨w', w'', f, hadd, hframe, hwrite, htail, by rw [hftype, hframe.option],
    by rw [hfblocks, hcut], hffits⟩

end Tail

end Toft

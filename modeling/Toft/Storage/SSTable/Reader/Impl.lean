import Toft.Storage.FileSystem
import Toft.Storage.SSTable.Layout

/-!
# Loading a table file

`SSTableReader::Impl`: the trailer, the file info and the index are loaded when the file is opened,
a data block when it is asked for. A file with the layout of a table opens, and each of its blocks
loads (`loadFile_bytes`).
-/

namespace Toft

open Lib Hfile List DataIndex TableFile SSTableEnv Schedule

namespace SSTableReader

/-- The members of `SSTableReader::Impl` once a file is loaded. -/
structure Impl where
  path : Bytes
  fileBase : File
  fileTrailer : FileTrailer
  fileInfo : FileInfo
  dataIndex : DataIndex

/-- Seeks and reads exactly `length` bytes; `none` when one of the two fails. -/
def readAt (file : File) (offset length : Int) : Except Fault (Option Bytes × File) :=
  match file.seek offset .set with
  | none => .ok (none, file)
  | some file =>
    -- `buffer.resize(length)`
    if length < 0 then .error .badLength
    else
      let (size, buffer, file) := file.read length.toNat
      .ok (if size = length then some buffer else none, file)

namespace Impl

section Load

variable [Host]

/-- `LoadFileInfo`, the part that loads the trailer. -/
def loadTrailer (file : File) : Except Fault (Option FileTrailer × File) :=
  match file.seek (-(FileTrailer.trailerSize : Int)) .end_ with
  | none => .ok (none, file)
  | some file => do
    let (size, buffer, file) := file.read FileTrailer.trailerSize
    if size ≠ FileTrailer.trailerSize then return (none, file)
    let (ok, trailer) ← FileTrailer.decodeFromString {} buffer
    return (if ok then some trailer else none, file)

/-- `LoadFileInfo`, the part that loads the file info. -/
def loadInfo (file : File) (trailer : FileTrailer) : Except Fault (Option FileInfo × File) := do
  let length := int64 (trailer.dataIndexOffset - trailer.fileInfoOffset)
  if length < 0 then return (none, file)
  match ← readAt file trailer.fileInfoOffset length with
  | (none, file) => return (none, file)
  | (some buffer, file) =>
    let (ok, info) ← FileInfo.decodeFromString {} buffer
    return (if ok then some info else none, file)

/-- `LoadFileInfo`, the part that loads the data index. Without a meta index the data index ends
where the trailer begins. -/
def loadIndex (file : File) (trailer : FileTrailer) : Except Fault (Option DataIndex × File) := do
  let end_ :=
    if trailer.metaIndexOffset > 0 then trailer.metaIndexOffset
    else (file.data.length : Int) - FileTrailer.trailerSize
  let length := int64 (end_ - trailer.dataIndexOffset)
  if length < 0 then return (none, file)
  match ← readAt file trailer.dataIndexOffset length with
  | (none, file) => return (none, file)
  | (some buffer, file) =>
    let (ok, index) ← decodeFromString {} buffer
    return (if ok then some index else none, file)

/-- `LoadFile`: `none` when it returns false. -/
def loadFile (fs : FileSystem) (path : Bytes) (io : Schedule) : Except Fault (Option Impl) :=
  match fs.openRead path io with
  | none => .ok none
  | some file => do
    let (some trailer, file) ← loadTrailer file | return none
    let (some info, file) ← loadInfo file trailer | return none
    let (some index, file) ← loadIndex file trailer | return none
    return some { path := path, fileBase := file, fileTrailer := trailer, fileInfo := info,
                  dataIndex := index }

/-- The end of a block: where the next block begins, or the file info. -/
def nextOffset (impl : Impl) (blockId : Int) : Except Fault Int :=
  if blockId + 1 < impl.dataIndex.getBlockSize then impl.dataIndex.getOffset (blockId + 1)
  else .ok impl.fileTrailer.fileInfoOffset

def loadDataBlock (impl : Impl) (blockId : Int) (block : DataBlock) :
    Except Fault (Bool × DataBlock × Impl) :=
  if blockId < 0 ∨ impl.dataIndex.getBlockSize ≤ blockId then .error .fatal
  else do
    let nextOffset ← impl.nextOffset blockId
    let curOffset ← impl.dataIndex.getOffset blockId
    match ← readAt impl.fileBase curOffset (int32 (nextOffset - curOffset)) with
    | (none, file) => return (false, block, { impl with fileBase := file })
    | (some buffer, file) =>
      let (ok, block) ← block.decodeFromString buffer
      return (ok, block, { impl with fileBase := file })

end Load

/-- `GetMetaData`: the empty string when there is no such key. -/
def getMetaData (impl : Impl) (key : Bytes) : Bytes :=
  match impl.fileInfo.metaItems.find? (·.1 = key) with
  | some item => item.2
  | none => []

theorem getMetaData_eq (impl : Impl) (key : Bytes) : impl.getMetaData key =
    ((impl.fileInfo.metaItems.find? fun item => item.1 = key).map Prod.snd).getD [] := by
  unfold getMetaData
  cases impl.fileInfo.metaItems.find? (·.1 = key) <;> rfl

def entryCount (impl : Impl) : Int := impl.fileTrailer.entryCount

/-- The reader with the file at another position. -/
def atPos (impl : Impl) (pos : Nat) : Impl :=
  { impl with fileBase := { impl.fileBase with pos := pos } }

/-- The index of the reader lists the blocks, and each of them loads, wherever the file stands.
A block without items is refused. -/
structure Holds [SSTableEnv] (impl : Impl) (blocks : List TableBlock) : Prop where
  supported : impl.fileTrailer.compressType.Supported
  keys : impl.dataIndex.blockInfo.map DataBlockInfo.key = blocks.map TableBlock.key
  load : ∀ (i : Nat) (b : TableBlock), blocks[i]? = some b → ∀ pos block,
    block.compression = DataBlock.codec snappy impl.fileTrailer.compressType →
    ∃ pos', (impl.atPos pos).loadDataBlock i block =
      .ok (!b.items.isEmpty, if b.items.isEmpty then block else { block with dataItems := b.items },
        impl.atPos pos')

variable {blocks : List TableBlock}

theorem Holds.atPos [SSTableEnv] {impl : Impl} (h : impl.Holds blocks)
    (pos : Nat) : (impl.atPos pos).Holds blocks :=
  ⟨h.supported, h.keys, h.load⟩

theorem Holds.getBlockSize [SSTableEnv] {impl : Impl}
    (h : impl.Holds blocks) : impl.dataIndex.getBlockSize = blocks.length := by
  have hlen := congrArg List.length h.keys
  simp only [length_map] at hlen
  rw [DataIndex.getBlockSize, hlen]

end Impl

/-! ## Files with the layout of a table -/

theorem readAt_append {file : File} (hio : file.io = allFull) (pre part post : Bytes)
    (hdata : file.data = pre ++ (part ++ post)) :
    readAt file pre.length part.length =
      .ok (some part, { file with pos := pre.length + part.length }) := by
  have hread := File.read_count { file with pos := pre.length } part.length
    (c := part.length) (by rw [hio]; rfl) (by simp [hdata])
  have htail : file.io.tail = file.io := by rw [hio]; rfl
  have hpart : (file.data.drop pre.length).take part.length = part := by
    rw [hdata, drop_left, take_left]
  unfold readAt
  rw [File.seek_set]
  simp only [show ¬ (part.length : Int) < 0 by omega, ite_false, Int.toNat_natCast, hread, hpart,
    htail, ite_true]

section Bytes

variable [SSTableEnv] {f : TableFile} {metas : List Record}

section

variable (hfits : f.Fits metas) (file : File) (hio : file.io = allFull)
  (hdata : file.data = f.bytes)
include hfits file hio hdata

theorem loadTrailer_bytes :
    ∃ pos, Impl.loadTrailer file = .ok (some f.trailer, { file with pos := pos }) := by
  have hlen : f.trailer.encodeToString.length = FileTrailer.trailerSize :=
    FileTrailer.length_encodeToString _
  obtain ⟨pre, hpre⟩ : ∃ pre, f.bytes = pre ++ f.trailer.encodeToString := ⟨_, rfl⟩
  have hsize : file.data.length = pre.length + FileTrailer.trailerSize := by
    rw [hdata, hpre, length_append, hlen]
  have hseek : file.seek (-(FileTrailer.trailerSize : Int)) .end_ =
      some { file with pos := pre.length } := by
    have hnat : ((file.data.length : Int) + -(FileTrailer.trailerSize : Int)).toNat =
        pre.length := by omega
    simp only [File.seek, show ¬ (file.data.length : Int) + -(FileTrailer.trailerSize : Int) < 0 by
      omega, ite_false, hnat]
  have hread := File.read_count { file with pos := pre.length } FileTrailer.trailerSize
    (c := FileTrailer.trailerSize) (by rw [hio]; rfl) (by simp only [hsize]; omega)
  have hpart : (file.data.drop pre.length).take FileTrailer.trailerSize =
      f.trailer.encodeToString := by
    rw [hdata, hpre, drop_left, ← hlen, take_length]
  have htail : file.io.tail = file.io := by rw [hio]; rfl
  refine ⟨pre.length + FileTrailer.trailerSize, ?_⟩
  unfold Impl.loadTrailer
  rw [hseek]
  simp only [hread, hpart, htail, FileTrailer.decodeFromString_encodeToString _ hfits.trailer,
    ne_eq, not_true_eq_false, ite_false, ok_bind, ite_true, pure_eq_ok]

theorem loadInfo_bytes :
    ∃ info pos, Impl.loadInfo file f.trailer = .ok (some info, { file with pos := pos }) ∧
      info.metaItems = metas := by
  obtain ⟨info, hdecode, hmetas⟩ := FileInfo.decodeFromString_encodeToString hfits.buffer
    hfits.metas hfits.lastKey hfits.comparator (s := {}) rfl
  have hlength : int64 (f.trailer.dataIndexOffset - f.trailer.fileInfoOffset) =
      f.info.encodeToString.length := by
    have hsize := hfits.size
    rw [length_bytes] at hsize
    rw [show f.trailer.dataIndexOffset - f.trailer.fileInfoOffset =
      (f.info.encodeToString.length : Nat) by simp [trailer], int64_of_lt (by omega)]
  have hread := readAt_append hio f.blockData f.info.encodeToString _
    (by rw [hdata, bytes, append_assoc, append_assoc])
  refine ⟨info, f.blockData.length + f.info.encodeToString.length, ?_, hmetas⟩
  unfold Impl.loadInfo
  simp only [hlength]
  have hoffset : f.trailer.fileInfoOffset = f.blockData.length := rfl
  rw [if_neg (by omega), hoffset, hread]
  simp only [ok_bind, hdecode, ite_true, pure_eq_ok]

theorem loadIndex_bytes :
    ∃ pos, Impl.loadIndex file f.trailer =
      .ok (some { blockInfo := blockInfos f.codec 0 f.blocks }, { file with pos := pos }) := by
  have hne : blockInfos f.codec 0 f.blocks ≠ [] := by
    rw [← length_pos_iff, length_blockInfos]
    exact length_pos_iff.mpr hfits.ne_nil
  have hdecode := decodeFromString_bufferOf {} hne
    (infoFits_blockInfos hfits.blocks.keys (by have := hfits.blocks.offsets; omega))
  have hsize := hfits.size
  have hlen := f.length_bytes
  have hoffset : f.trailer.dataIndexOffset = (f.blockData ++ f.info.encodeToString).length := by
    simp [trailer]
  have hread := readAt_append hio (f.blockData ++ f.info.encodeToString)
    (bufferOf (blockInfos f.codec 0 f.blocks)) _
    (by rw [hdata, bytes, append_assoc])
  have hlength : int64 ((file.data.length : Int) - FileTrailer.trailerSize -
      f.trailer.dataIndexOffset) = (bufferOf (blockInfos f.codec 0 f.blocks)).length := by
    have hend : (file.data.length : Int) - FileTrailer.trailerSize - f.trailer.dataIndexOffset =
        (bufferOf (blockInfos f.codec 0 f.blocks)).length := by
      rw [hdata, hoffset, length_append]
      omega
    rw [hend, int64_of_lt (by omega)]
  refine ⟨(f.blockData ++ f.info.encodeToString).length +
    (bufferOf (blockInfos f.codec 0 f.blocks)).length, ?_⟩
  have hmeta : ¬ f.trailer.metaIndexOffset > 0 := by simp [trailer]
  unfold Impl.loadIndex
  simp only [hmeta, ite_false, hlength]
  rw [if_neg (by omega), hoffset, hread]
  simp only [ok_bind, hdecode, ite_true, pure_eq_ok]

end

theorem loadDataBlock_bytes (hsnappy : snappy.Lossless) (hfits : f.Fits metas)
    {impl : Impl} (hio : impl.fileBase.io = allFull)
    (hdata : impl.fileBase.data = f.bytes) (htrailer : impl.fileTrailer = f.trailer)
    (hindex : impl.dataIndex.blockInfo = blockInfos f.codec 0 f.blocks)
    {i : Nat} {b : TableBlock} (hb : f.blocks[i]? = some b) {block : DataBlock}
    (hblock : block.compression = f.codec) :
    ∃ pos, impl.loadDataBlock i block =
      .ok (!b.items.isEmpty, if b.items.isEmpty then block else { block with dataItems := b.items },
        impl.atPos pos) := by
  have hlt : i < f.blocks.length := (List.getElem?_eq_some_iff.mp hb).1
  have hsize : impl.dataIndex.getBlockSize = f.blocks.length := by
    rw [DataIndex.getBlockSize, hindex, length_blockInfos]
  have hcur : impl.dataIndex.getOffset i = .ok (blockOffset f.codec f.blocks i : Int) := by
    have hinfo := getElem?_blockInfos f.codec 0 f.blocks i
    rw [hb, ← hindex] at hinfo
    rw [getOffset, at_eq hinfo, Nat.zero_add]
    rfl
  have hnext : impl.nextOffset i = .ok (blockOffset f.codec f.blocks (i + 1) : Int) := by
    rw [Impl.nextOffset]
    split
    · have hsucc : i + 1 < f.blocks.length := by omega
      have hinfo := getElem?_blockInfos f.codec 0 f.blocks (i + 1)
      rw [List.getElem?_eq_getElem hsucc, ← hindex] at hinfo
      rw [getOffset, ← Nat.cast_succ, at_eq hinfo, Nat.zero_add]
      rfl
    · rw [blockOffset_of_le _ (by omega), htrailer]
      rfl
  have hlen : int32 ((blockOffset f.codec f.blocks (i + 1) : Int) -
      blockOffset f.codec f.blocks i) = (blockBytes f.codec b).length := by
    have hbytes := hfits.blocks.bytes b (mem_of_getElem? hb)
    rw [blockOffset_succ hb, Nat.cast_add, add_sub_cancel_left, int32_of_lt hbytes]
  have hread := readAt_append hio ((f.blocks.take i).flatMap (blockBytes f.codec))
    (blockBytes f.codec b) _ (by
      rw [hdata, bytes, blockData, flatMap_blockBytes_split hb,
        append_assoc, append_assoc, append_assoc, append_assoc])
  refine ⟨blockOffset f.codec f.blocks i + (blockBytes f.codec b).length, ?_⟩
  have hdecode := decodeFromString_blockBytes (DataBlock.codec_lossless hsnappy f.type)
    (hfits.blocks.items b (mem_of_getElem? hb)) hblock
  have hpos : ((f.blocks.take i).flatMap (blockBytes f.codec)).length =
      blockOffset f.codec f.blocks i := rfl
  have hbytes : blockBytes (DataBlock.codec snappy f.type) b = blockBytes f.codec b := rfl
  unfold Impl.loadDataBlock
  rw [if_neg (by omega), hnext, hcur]
  simp only [ok_bind, hlen]
  rw [← hpos, hread]
  simp only [← hbytes, hdecode, ok_bind]
  rfl

/-- **Opening.** A file with the layout of a table opens, with its meta data, and its blocks
load. -/
theorem loadFile_bytes (hsnappy : snappy.Lossless) (hfits : f.Fits metas)
    {fs : FileSystem} {path : Bytes} (hfile : fs.files path = some f.bytes) :
    ∃ impl, Impl.loadFile fs path allFull = .ok (some impl) ∧ impl.Holds f.blocks ∧
      impl.fileTrailer = f.trailer ∧ impl.fileInfo.metaItems = metas := by
  obtain ⟨p₁, htrailer⟩ := loadTrailer_bytes hfits { data := f.bytes } rfl rfl
  obtain ⟨info, p₂, hinfo, hmetas⟩ := loadInfo_bytes hfits { data := f.bytes, pos := p₁ } rfl rfl
  obtain ⟨p₃, hindex⟩ := loadIndex_bytes hfits { data := f.bytes, pos := p₂ } rfl rfl
  have hopen : fs.openRead path allFull = some { data := f.bytes } := by
    rw [FileSystem.openRead, hfile]
    rfl
  refine ⟨{ path := path, fileBase := { data := f.bytes, pos := p₃ }, fileTrailer := f.trailer,
            fileInfo := info, dataIndex := { blockInfo := blockInfos f.codec 0 f.blocks } },
    ?_, ⟨hfits.supported, map_key_blockInfos .., ?_⟩, rfl, hmetas⟩
  · simp only [Impl.loadFile, hopen, htrailer, hinfo, hindex, ok_bind, pure_eq_ok]
  · intro i b hb pos block hblock
    exact loadDataBlock_bytes hsnappy hfits rfl rfl rfl rfl hb hblock

end Bytes

end SSTableReader

end Toft

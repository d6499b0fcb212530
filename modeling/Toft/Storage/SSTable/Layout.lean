import Toft.Lib.SortedBy
import Toft.Storage.SSTable.Hfile.DataBlock
import Toft.Storage.SSTable.Hfile.DataIndex
import Toft.Storage.SSTable.Hfile.FileInfo
import Toft.Storage.SSTable.Hfile.FileTrailer

/-!
# The layout of a table

A table is its records in order, cut into blocks. `cutBlocks` says where a writer cuts, `blockInfos`
what the index then lists, and `TableFile.bytes` what the file holds.
-/

namespace Toft

open Lib Hfile List DataBlock

/-- A data block of a table: the key it is indexed by, and its items. -/
structure TableBlock where
  key : Bytes
  items : List Record
  deriving DecidableEq, Repr

/-- The block has items and is indexed by its first key. -/
def TableBlock.Keyed (b : TableBlock) : Prop := b.items.head?.map Prod.fst = some b.key

theorem TableBlock.Keyed.exists_cons {b : TableBlock} (h : b.Keyed) :
    ∃ value items, b.items = (b.key, value) :: items := by
  unfold Keyed at h
  cases hitems : b.items with
  | nil => simp [hitems] at h
  | cons item items =>
    simp only [hitems, head?_cons, Option.map_some, Option.some.injEq] at h
    exact ⟨item.2, items, by rw [← h]⟩

theorem TableBlock.keyed_singleton (r : Record) : (⟨r.1, [r]⟩ : TableBlock).Keyed := by
  simp [Keyed]

/-- A table that can be searched: no block is empty, and the records are in order. -/
structure Table where
  blocks : List TableBlock
  ne_nil : blocks ≠ []
  keyed : ∀ b ∈ blocks, b.Keyed
  sorted : SortedBy Prod.fst (blocks.flatMap TableBlock.items)

def Table.records (t : Table) : List Record := t.blocks.flatMap TableBlock.items

def Table.firstKey (t : Table) : Bytes := (t.blocks.head t.ne_nil).key

theorem Table.items_ne_nil (t : Table) {b : TableBlock} (hb : b ∈ t.blocks) : b.items ≠ [] := by
  obtain ⟨_, _, hitems⟩ := (t.keyed b hb).exists_cons
  rw [hitems]
  exact cons_ne_nil _ _

theorem Table.exists_records (t : Table) :
    ∃ value rest, t.records = (t.firstKey, value) :: rest := by
  obtain ⟨b, bs, hcons⟩ := exists_cons_of_ne_nil t.ne_nil
  obtain ⟨value, items, hitems⟩ := (t.keyed b (by rw [hcons]; exact mem_cons_self)).exists_cons
  refine ⟨value, items ++ bs.flatMap TableBlock.items, ?_⟩
  simp only [records, firstKey, hcons, flatMap_cons, hitems, head_cons, cons_append]

theorem Table.firstKey_le (t : Table) {x : Record} (hx : x ∈ t.records) : t.firstKey ≤ x.1 := by
  obtain ⟨value, rest, hcons⟩ := t.exists_records
  have hsorted := t.sorted
  rw [← Table.records, hcons] at hsorted
  rw [hcons] at hx
  rcases mem_cons.mp hx with rfl | hx
  · exact Std.le_refl _
  · exact rel_of_pairwise_cons hsorted hx

section Cut

variable [Host]

/-- Records cut into blocks. The open block, indexed by `key`, is closed once `full` holds of the
length of its buffer and another record is there. -/
def cutBlocks (full : Nat → Bool) (key : Bytes) (items : List Record) :
    List Record → List TableBlock
  | [] => [⟨key, items⟩]
  | r :: rs =>
    if full (bufferOf items).length then ⟨key, items⟩ :: cutBlocks full r.1 [r] rs
    else cutBlocks full key (items ++ [r]) rs

variable (full : Nat → Bool)

theorem items_cutBlocks (key : Bytes) (items rs : List Record) :
    (cutBlocks full key items rs).flatMap TableBlock.items = items ++ rs := by
  induction rs generalizing key items with
  | nil => simp [cutBlocks]
  | cons r rs ih =>
    rw [cutBlocks]
    split
    · rw [flatMap_cons, ih]
      rfl
    · rw [ih, append_assoc]
      rfl

theorem key_cutBlocks {key : Bytes} {items rs : List Record} :
    ∀ b ∈ cutBlocks full key items rs, b.key = key ∨ ∃ r ∈ rs, b.key = r.1 := by
  induction rs generalizing key items with
  | nil =>
    intro b hb
    rw [cutBlocks, mem_singleton] at hb
    exact .inl (hb ▸ rfl)
  | cons r rs ih =>
    intro b hb
    rw [cutBlocks] at hb
    split at hb
    · rcases mem_cons.mp hb with rfl | hb
      · exact .inl rfl
      · rcases ih b hb with hkey | ⟨r', hr', hkey⟩
        · exact .inr ⟨r, mem_cons_self, hkey⟩
        · exact .inr ⟨r', mem_cons_of_mem _ hr', hkey⟩
    · rcases ih b hb with hkey | ⟨r', hr', hkey⟩
      · exact .inl hkey
      · exact .inr ⟨r', mem_cons_of_mem _ hr', hkey⟩

theorem cutBlocks_ne_nil (key : Bytes) (items rs : List Record) :
    cutBlocks full key items rs ≠ [] := by
  induction rs generalizing key items with
  | nil => exact cons_ne_nil _ _
  | cons r rs ih =>
    rw [cutBlocks]
    split
    · exact cons_ne_nil _ _
    · exact ih _ _

/-- Once the open block has an item, no block is empty. -/
theorem keyed_cutBlocks {key : Bytes} {items : List Record}
    (h : (⟨key, items⟩ : TableBlock).Keyed) (rs : List Record) :
    ∀ b ∈ cutBlocks full key items rs, b.Keyed := by
  induction rs generalizing key items with
  | nil =>
    intro b hb
    rw [cutBlocks, mem_singleton] at hb
    exact hb ▸ h
  | cons r rs ih =>
    intro b hb
    rw [cutBlocks] at hb
    split at hb
    · rcases mem_cons.mp hb with rfl | hb
      · exact h
      · exact ih (TableBlock.keyed_singleton r) b hb
    · refine ih ?_ b hb
      obtain ⟨value, rest, hitems⟩ := h.exists_cons
      have hitems : items = (key, value) :: rest := hitems
      simp [TableBlock.Keyed, hitems]

/-- The table that results from cutting sorted records. -/
def Table.cut (first : Record) (rest : List Record) (h : SortedBy Prod.fst (first :: rest)) :
    Table where
  blocks := cutBlocks full first.1 [first] rest
  ne_nil := cutBlocks_ne_nil full _ _ _
  keyed := keyed_cutBlocks full (TableBlock.keyed_singleton first) rest
  sorted := by rwa [items_cutBlocks]

section

variable (first : Record) (rest : List Record) (h : SortedBy Prod.fst (first :: rest))
include first rest h

theorem Table.records_cut : (Table.cut full first rest h).records = first :: rest :=
  items_cutBlocks full _ _ _

theorem Table.firstKey_cut : (Table.cut full first rest h).firstKey = first.1 := by
  obtain ⟨value, items, hrecords⟩ := (Table.cut full first rest h).exists_records
  rw [records_cut, cons.injEq] at hrecords
  exact (congrArg Prod.fst hrecords.1).symm

theorem cutBlocks_nil :
    cutBlocks full first.1 [] (first :: rest) =
      if full 0 then ⟨first.1, []⟩ :: (Table.cut full first rest h).blocks
      else (Table.cut full first rest h).blocks := by
  rfl

end

/-- The blocks in which a writer leaves the records. -/
def blocksOf : List Record → List TableBlock
  | [] => []
  | first :: rest => cutBlocks full first.1 [] (first :: rest)

theorem items_blocksOf (rs : List Record) : (blocksOf full rs).flatMap TableBlock.items = rs := by
  cases rs with
  | nil => rfl
  | cons first rest => exact items_cutBlocks ..

/-- The index key of every block is the key of a record. -/
theorem key_blocksOf {rs : List Record} {b : TableBlock} (hb : b ∈ blocksOf full rs) :
    ∃ r ∈ rs, b.key = r.1 := by
  cases rs with
  | nil => cases hb
  | cons first rest =>
    rcases key_cutBlocks _ b hb with hkey | ⟨r, hr, hkey⟩
    · exact ⟨first, mem_cons_self, hkey⟩
    · exact ⟨r, hr, hkey⟩

/-- The blocks are those of a table with the records, behind an empty block if that is full. -/
theorem exists_table_blocksOf {rs : List Record} (hne : rs ≠ []) (hsorted : SortedBy Prod.fst rs) :
    ∃ t : Table, t.records = rs ∧ blocksOf full rs =
      if full 0 then ⟨t.firstKey, []⟩ :: t.blocks else t.blocks := by
  obtain ⟨first, rest, rfl⟩ := exists_cons_of_ne_nil hne
  refine ⟨Table.cut full first rest hsorted, Table.records_cut .., ?_⟩
  rw [blocksOf, cutBlocks_nil _ _ _ hsorted, Table.firstKey_cut]

end Cut

section Infos

variable [Host]

def blockBytes (codec : Option BlockCompression) (b : TableBlock) : Bytes :=
  encoded codec (bufferOf b.items)

variable {b : TableBlock}

/-- A block that was written without items is refused, any other loads. -/
theorem decodeFromString_blockBytes {codec : Option BlockCompression}
    (hcodec : ∀ c ∈ codec, c.Lossless)
    (hfits : ∀ item ∈ b.items, DataBlock.ItemFits item) {block : DataBlock}
    (hblock : block.compression = codec) :
    block.decodeFromString (blockBytes codec b) =
      .ok (!b.items.isEmpty,
        if b.items.isEmpty then block else { block with dataItems := b.items }) := by
  subst hblock
  rw [blockBytes, decodeFromString_encoded hcodec]
  cases hitems : b.items with
  | nil => exact decodeInternal_nil block
  | cons item items =>
    rw [hitems] at hfits
    exact decodeInternal_bufferOf block (cons_ne_nil _ _) hfits

/-- The index entries of blocks that are written from `offset` on. -/
def blockInfos (codec : Option BlockCompression) : Nat → List TableBlock → List DataBlockInfo
  | _, [] => []
  | offset, b :: bs =>
    { offset := offset
      dataSize := int32 (bufferOf b.items).length
      key := b.key } :: blockInfos codec (offset + (blockBytes codec b).length) bs

variable (codec : Option BlockCompression)

theorem blockInfos_append (offset : Nat) (bs bs' : List TableBlock) :
    blockInfos codec offset (bs ++ bs') = blockInfos codec offset bs ++
      blockInfos codec (offset + (bs.flatMap (blockBytes codec)).length) bs' := by
  induction bs generalizing offset with
  | nil => rfl
  | cons b bs ih =>
    simp only [cons_append, blockInfos, ih, flatMap_cons, length_append, Nat.add_assoc]

/-- Where block `i` begins. -/
def blockOffset (bs : List TableBlock) (i : Nat) : Nat :=
  ((bs.take i).flatMap (blockBytes codec)).length

theorem getElem?_blockInfos (offset : Nat) (bs : List TableBlock) (i : Nat) :
    (blockInfos codec offset bs)[i]? = bs[i]?.map fun b =>
      { offset := (offset + blockOffset codec bs i : Nat)
        dataSize := int32 (bufferOf b.items).length
        key := b.key } := by
  induction bs generalizing offset i with
  | nil => rfl
  | cons b bs ih =>
    cases i with
    | zero => rfl
    | succ i =>
      simp only [blockInfos, getElem?_cons_succ, ih, blockOffset, take_succ_cons,
        flatMap_cons, length_append, Nat.add_assoc]

variable {bs : List TableBlock}

variable {codec} in
theorem flatMap_blockBytes_split {i : Nat} (h : bs[i]? = some b) :
    bs.flatMap (blockBytes codec) = (bs.take i).flatMap (blockBytes codec) ++
      (blockBytes codec b ++ (bs.drop (i + 1)).flatMap (blockBytes codec)) := by
  obtain ⟨hlt, rfl⟩ := List.getElem?_eq_some_iff.mp h
  conv_lhs => rw [← take_append_drop i bs, drop_eq_getElem_cons hlt]
  rw [flatMap_append, flatMap_cons]

variable {codec} in
theorem blockOffset_succ {i : Nat} (h : bs[i]? = some b) :
    blockOffset codec bs (i + 1) = blockOffset codec bs i + (blockBytes codec b).length := by
  rw [blockOffset, take_add_one, h]
  simp [blockOffset]

theorem blockOffset_of_le {i : Nat} (h : bs.length ≤ i) :
    blockOffset codec bs i = (bs.flatMap (blockBytes codec)).length := by
  rw [blockOffset, take_of_length_le h]

theorem length_blockInfos (offset : Nat) (bs : List TableBlock) :
    (blockInfos codec offset bs).length = bs.length := by
  induction bs generalizing offset with
  | nil => rfl
  | cons b bs ih => rw [blockInfos, length_cons, ih, length_cons]

theorem map_key_blockInfos (offset : Nat) (bs : List TableBlock) :
    (blockInfos codec offset bs).map DataBlockInfo.key = bs.map TableBlock.key := by
  induction bs generalizing offset with
  | nil => rfl
  | cons b bs ih => rw [blockInfos, map_cons, ih, map_cons]

/-- Blocks of which every part fits its field. -/
structure BlocksFit (bs : List TableBlock) : Prop where
  count : bs.length < 2 ^ 31
  items : ∀ b ∈ bs, ∀ item ∈ b.items, DataBlock.ItemFits item
  keys : ∀ b ∈ bs, b.key.length < 2 ^ 31
  bytes : ∀ b ∈ bs, (blockBytes codec b).length < 2 ^ 31
  offsets : (bs.flatMap (blockBytes codec)).length < 2 ^ 63

variable {codec}

theorem BlocksFit.left {bs bs' : List TableBlock} (h : BlocksFit codec (bs ++ bs')) :
    BlocksFit codec bs := by
  have hcount := h.count
  have hoffsets := h.offsets
  rw [length_append] at hcount
  rw [flatMap_append, length_append] at hoffsets
  exact ⟨by omega, fun b hb => h.items b (mem_append_left _ hb),
    fun b hb => h.keys b (mem_append_left _ hb),
    fun b hb => h.bytes b (mem_append_left _ hb), by omega⟩

theorem infoFits_blockInfos {offset : Nat} (hkeys : ∀ b ∈ bs, b.key.length < 2 ^ 31)
    (hoffset : offset + (bs.flatMap (blockBytes codec)).length < 2 ^ 63) :
    ∀ info ∈ blockInfos codec offset bs, DataIndex.InfoFits info := by
  induction bs generalizing offset with
  | nil => simp [blockInfos]
  | cons b bs ih =>
    rw [flatMap_cons, length_append] at hoffset
    intro info hinfo
    rcases mem_cons.mp hinfo with rfl | hinfo
    · refine ⟨int64_of_lt ?_, ?_, hkeys b mem_cons_self⟩
      · omega
      · simp only [int32_int32]
    · exact ih (fun b hb => hkeys b (mem_cons_of_mem _ hb)) (by omega) info hinfo

end Infos

/-- What a table file is made of. -/
structure TableFile where
  type : CompressType
  blocks : List TableBlock
  info : FileInfo
  totalBytes : Int

namespace TableFile

variable [SSTableEnv]

def codec (f : TableFile) : Option BlockCompression :=
  DataBlock.codec SSTableEnv.snappy f.type

def blockData (f : TableFile) : Bytes := f.blocks.flatMap (blockBytes f.codec)

def trailer (f : TableFile) : FileTrailer where
  fileInfoOffset := f.blockData.length
  dataIndexOffset := (f.blockData.length + f.info.encodeToString.length : Nat)
  dataIndexCount := f.blocks.length
  totalUncompressedBytes := int32 f.totalBytes
  entryCount := (f.blocks.flatMap TableBlock.items).length
  compressType := f.type

def bytes (f : TableFile) : Bytes :=
  f.blockData ++ f.info.encodeToString ++ DataIndex.bufferOf (blockInfos f.codec 0 f.blocks) ++
    f.trailer.encodeToString

/-- The file is not empty, its lengths and offsets fit their fields, and it has the given meta
data. -/
structure Fits (f : TableFile) (metas : List Record) : Prop where
  supported : f.type.Supported
  ne_nil : f.blocks ≠ []
  blocks : BlocksFit f.codec f.blocks
  entries : (f.blocks.flatMap TableBlock.items).length < 2 ^ 31
  size : f.bytes.length < 2 ^ 63
  buffer : f.info.buffer = metas.flatMap fun item => FileInfo.itemBytes item.1 item.2
  metas : ∀ item ∈ metas, FileInfo.ItemFits item
  lastKey : f.info.lastKey.length < 2 ^ 31
  comparator : f.info.comparator.length < 2 ^ 31

theorem length_bytes (f : TableFile) :
    f.bytes.length = f.blockData.length + f.info.encodeToString.length +
      (DataIndex.bufferOf (blockInfos f.codec 0 f.blocks)).length + FileTrailer.trailerSize := by
  simp only [bytes, length_append, FileTrailer.length_encodeToString]

theorem Fits.trailer {f : TableFile} {metas : List Record} (h : f.Fits metas) : f.trailer.Fits := by
  have hsize := h.size
  rw [length_bytes] at hsize
  refine ⟨int64_of_lt ?_, int64_of_lt ?_, int32_of_lt h.blocks.count, rfl, rfl, ?_,
    int32_of_lt h.entries, rfl⟩
  · omega
  · omega
  · simp only [TableFile.trailer]
    exact int64_int32 _

end TableFile

end Toft

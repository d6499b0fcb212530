import Toft.Storage.File
import Toft.Storage.SSTable.Hfile.Coding
import Toft.Storage.SSTable.Types

/-!
# Data blocks

A data block is a magic string and then the items, each as two lengths and two strings. The block
may be compressed as a whole. A block that is written and read back has the same items
(`encodeToString_eq`, `decodeFromString_encoded`, `decodeInternal_bufferOf`).
-/

namespace Toft.Hfile

open Lib List UInt32

/-- `Block::WriteToFile` of the string that `EncodeToString` gave. A short write is only logged. -/
def writeToFile (str : Bytes) (fb : File) : Bool × File :=
  if str.isEmpty then (true, fb) else (true, (fb.write str).2)

theorem writeToFile_fst (str : Bytes) (fb : File) : (writeToFile str fb).1 = true := by
  unfold writeToFile
  split <;> rfl

theorem writeToFile_written (str data : Bytes) :
    writeToFile str (File.written data) = (true, File.written (data ++ str)) := by
  unfold writeToFile
  split
  · rename_i hempty
    rw [List.isEmpty_iff.mp hempty, append_nil]
  · rw [File.write_written]

def kDataBlockMagic : Bytes := ascii "DATABLK" ++ [0x22]

/-- The members of `DataBlock`. -/
structure DataBlock where
  compression : Option BlockCompression
  dataItems : List Record := []
  buffer : Bytes := []
  compressedSize : Int := 0

namespace DataBlock

/-- The constructor. `snappy` is the codec registered under that name. -/
def create (snappy : BlockCompression) : CompressType → Except Fault DataBlock
  | .snappy => .ok { compression := some snappy }
  | .lzo => .ok { compression := some snappy }
  | .unCompress => .ok { compression := none }
  | .zlib | .unKnown => .error .fatal

/-- The codec of the blocks of a table. -/
def codec (snappy : BlockCompression) : CompressType → Option BlockCompression
  | .snappy | .lzo => some snappy
  | .unCompress | .zlib | .unKnown => none

theorem create_eq (snappy : BlockCompression) {type : CompressType} (h : type.Supported) :
    create snappy type = .ok { compression := codec snappy type } := by
  cases type with
  | lzo | snappy | unCompress => rfl
  | zlib | unKnown => exact h.elim

theorem codec_lossless {snappy : BlockCompression} (hsnappy : snappy.Lossless)
    (type : CompressType) : ∀ c ∈ codec snappy type, c.Lossless := by
  intro c hc
  cases type with
  | lzo | snappy =>
    rw [← Option.some.inj hc]
    exact hsnappy
  | unCompress | zlib | unKnown => cases hc

/-- A buffer as it is written, if the codec does not fail. -/
def encoded (compression : Option BlockCompression) (buffer : Bytes) : Bytes :=
  match compression with
  | none => buffer
  | some c => (c.compress buffer).getD []

def encodeToString (b : DataBlock) : Bytes × DataBlock :=
  match b.compression with
  | some compression =>
    match compression.compress b.buffer with
    | none => ([], b)
    | some compressed => (compressed, { b with compressedSize := compressed.length })
  | none => (b.buffer, { b with compressedSize := b.buffer.length })

def clearItems (b : DataBlock) : DataBlock := { b with buffer := [], compressedSize := 0 }

def getUncompressedBufferSize (b : DataBlock) : Int := b.buffer.length

def getCompressedBufferSize (b : DataBlock) : Int := b.compressedSize

def getDataItemSize (b : DataBlock) : Int := b.dataItems.length

variable [Host]

def addItem (b : DataBlock) (key value : Bytes) : DataBlock :=
  if key.isEmpty && value.isEmpty then b
  else
    let buffer := if b.buffer.isEmpty then kDataBlockMagic else b.buffer
    { b with
      buffer := buffer ++ putFixed32 (ofNat key.length) ++
        putFixed32 (ofNat value.length) ++ key ++ value }

def decodeItems : Nat → Bytes → Except Fault (List Record)
  | _, [] => .ok []
  | 0, _ :: _ => .error .unended
  | fuel + 1, begin_ => do
    let (keyLength, begin_) ← readInt32 begin_
    let (valueLength, begin_) ← readInt32 begin_
    let (key, begin_) ← readString keyLength begin_
    let (value, begin_) ← readString valueLength begin_
    let items ← decodeItems fuel begin_
    return (key, value) :: items

/-- `DataBlock::DecodeInternal`. The check for a pointer behind the end can only fail after a read
behind the end. -/
def decodeInternal (b : DataBlock) (str : Bytes) : Except Fault (Bool × DataBlock) :=
  if kDataBlockMagic.isPrefixOf str then do
    let items ← decodeItems str.length (str.drop kDataBlockMagic.length)
    return (true, { b with dataItems := items })
  else .ok (false, b)

def decodeFromString (b : DataBlock) (str : Bytes) : Except Fault (Bool × DataBlock) :=
  match b.compression with
  | some compression =>
    match compression.uncompress str with
    | none => .ok (false, b)
    | some uncompressed => b.decodeInternal uncompressed
  | none => b.decodeInternal str

/-! ## The buffer of a list of items -/

def itemBytes (item : Record) : Bytes :=
  putFixed32 (ofNat item.1.length) ++ putFixed32 (ofNat item.2.length) ++
    item.1 ++ item.2

/-- What the buffer holds when the items are added to an empty block. -/
def bufferOf (items : List Record) : Bytes :=
  if items.isEmpty then [] else kDataBlockMagic ++ items.flatMap itemBytes

/-- Items that `AddItem` does not ignore and whose lengths fit. -/
structure ItemFits (item : Record) : Prop where
  notBlank : item ≠ ([], [])
  key : item.1.length < 2 ^ 31
  value : item.2.length < 2 ^ 31

instance (item : Record) : Decidable (ItemFits item) :=
  decidable_of_iff (item ≠ ([], []) ∧ item.1.length < 2 ^ 31 ∧ item.2.length < 2 ^ 31)
    ⟨fun h => ⟨h.1, h.2.1, h.2.2⟩, fun h => ⟨h.1, h.2, h.3⟩⟩

variable {items : List Record} {b : DataBlock}

theorem buffer_addItem {item : Record} (hitem : item ≠ ([], [])) (h : b.buffer = bufferOf items) :
    (b.addItem item.1 item.2).buffer = bufferOf (items ++ [item]) := by
  obtain ⟨key, value⟩ := item
  have hblank : (key.isEmpty && value.isEmpty) = false := by
    cases key <;> cases value <;> first | rfl | exact absurd rfl hitem
  unfold addItem
  rw [if_neg (by simp [hblank])]
  cases items with
  | nil =>
    simp [h, bufferOf, itemBytes]
  | cons first items =>
    simp [h, bufferOf, itemBytes, kDataBlockMagic]

theorem addItem_compression (b : DataBlock) (key value : Bytes) :
    (b.addItem key value).compression = b.compression := by
  unfold addItem
  split <;> rfl

/-! ## Decoding -/

omit [Host] in
theorem int32_ofNat {n : Nat} (h : n < 2 ^ 31) : int32 (ofNat n).toNat = n := by
  rw [toNat_ofNat', Nat.mod_eq_of_lt (by omega), int32_of_lt h]

theorem decodeItems_flatMap (hfits : ∀ item ∈ items, ItemFits item)
    (fuel : Nat) (hfuel : items.length ≤ fuel) :
    decodeItems fuel (items.flatMap itemBytes) = .ok items := by
  induction items generalizing fuel with
  | nil =>
    cases fuel <;> rfl
  | cons item items ih =>
    obtain ⟨fuel, rfl⟩ : ∃ k, fuel = k + 1 := ⟨fuel - 1, by simp at hfuel; omega⟩
    have hitem := hfits item mem_cons_self
    have hrest := ih (fun i hi => hfits i (mem_cons_of_mem _ hi)) fuel (by simpa using hfuel)
    have hne : ∃ c t, (item :: items).flatMap itemBytes = c :: t :=
      exists_cons_of_length_pos (by simp [itemBytes])
    obtain ⟨c, t, hct⟩ := hne
    rw [hct, decodeItems, ← hct]
    · simp only [flatMap_cons, itemBytes, append_assoc, readInt32_putFixed32, ok_bind,
        int32_ofNat hitem.key, int32_ofNat hitem.value, readString_append, hrest, pure_eq_ok]
    · simp

theorem decodeInternal_bufferOf (b : DataBlock) (hne : items ≠ [])
    (hfits : ∀ item ∈ items, ItemFits item) :
    b.decodeInternal (bufferOf items) = .ok (true, { b with dataItems := items }) := by
  have hbuffer : bufferOf items = kDataBlockMagic ++ items.flatMap itemBytes := by
    rw [bufferOf, if_neg (by simpa using hne)]
  have hlen : items.length ≤ (items.flatMap itemBytes).length := by
    clear hne hfits hbuffer
    induction items with
    | nil => simp
    | cons item items ih =>
      simp only [flatMap_cons, length_cons, length_append, itemBytes, length_putFixed32]
      omega
  have hitems := decodeItems_flatMap hfits (bufferOf items).length
    (by rw [hbuffer, length_append]; omega)
  unfold decodeInternal
  rw [if_pos (by rw [hbuffer]; simp)]
  have hdrop : (bufferOf items).drop kDataBlockMagic.length = items.flatMap itemBytes := by
    rw [hbuffer, drop_left]
  rw [hdrop, hitems]
  rfl

theorem decodeInternal_nil (b : DataBlock) : b.decodeInternal [] = .ok (false, b) := rfl

omit [Host] in
theorem encodeToString_eq (hcodec : ∀ c ∈ b.compression, c.Lossless) :
    b.encodeToString = (encoded b.compression b.buffer,
      { b with compressedSize := (encoded b.compression b.buffer).length }) := by
  unfold encodeToString encoded
  cases hc : b.compression with
  | none => rfl
  | some c =>
    obtain ⟨str, hcompress, -⟩ := hcodec c hc b.buffer
    simp only [hcompress, Option.getD_some]

theorem decodeFromString_encoded (hcodec : ∀ c ∈ b.compression, c.Lossless) (buffer : Bytes) :
    b.decodeFromString (encoded b.compression buffer) = b.decodeInternal buffer := by
  unfold decodeFromString encoded
  cases hc : b.compression with
  | none => rfl
  | some c =>
    obtain ⟨str, hcompress, huncompress⟩ := hcodec c hc buffer
    simp only [hcompress, Option.getD_some, huncompress]

end DataBlock

end Toft.Hfile

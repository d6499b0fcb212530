import Toft.Lib.Bisect
import Toft.Storage.SSTable.Hfile.Coding
import Toft.Storage.SSTable.Types

/-!
# The data index

The index of a table lists its data blocks: offset, uncompressed size and first key. The block to
start a search for a key in is the last one whose first key is smaller, or the first block
(`findMinimalBlock_eq`).
-/

namespace Toft.Hfile

open Lib List Int UInt32

def kIndexBlockMagic : Bytes := ascii "IDXBLK" ++ [0x21, 0x23]

/-- Where a block is, and its first key. -/
structure DataBlockInfo where
  offset : Int
  dataSize : Int
  key : Bytes
  deriving DecidableEq, Repr

/-- The members of `DataIndex`. -/
structure DataIndex where
  blockInfo : List DataBlockInfo := []
  buffer : Bytes := []
  lastOffset : Int := 0

namespace DataIndex

def getBlockSize (ix : DataIndex) : Int := ix.blockInfo.length

/-- The element of `block_info_` at an index. -/
def at_ (ix : DataIndex) (index : Int) (fault : Fault) : Except Fault DataBlockInfo :=
  if index < 0 then .error fault
  else match ix.blockInfo[index.toNat]? with
    | some info => .ok info
    | none => .error fault

/-- `GetOffset`, with its `CHECK`. -/
def getOffset (ix : DataIndex) (index : Int) : Except Fault Int := do
  let info ← ix.at_ index .fatal
  return info.offset

/-- The loop of `FindMinimalBlock`: the last value of `mid`. -/
def findLoop (ix : DataIndex) (key : Bytes) : Nat → Int → Int → Int → Except Fault Int
  | 0, _, _, _ => .error .unended
  | fuel + 1, begin_, end_, mid =>
    if begin_ ≤ end_ then do
      let mid := (int32 (begin_ + end_)).tdiv 2
      let info ← ix.at_ mid .overrun
      if info.key < key then ix.findLoop key fuel (mid + 1) end_ mid
      else ix.findLoop key fuel begin_ (mid - 1) mid
    else .ok mid

def findMinimalBlock (ix : DataIndex) (key : Bytes) : Except Fault Int := do
  let mid ← ix.findLoop key (ix.blockInfo.length + 1) 0 (ix.getBlockSize - 1) 0
  let info ← ix.at_ mid .overrun
  if info.key < key then return mid
  else if mid > 0 then return mid - 1
  else return mid

/-! ## The search -/

/-- The first key of block `i` is smaller than the key. -/
def before (ix : DataIndex) (key : Bytes) (i : Nat) : Bool :=
  match ix.blockInfo[i]? with
  | some info => decide (info.key < key)
  | none => false

theorem before_eq (ix : DataIndex) (key : Bytes) :
    ix.before key = fun i => (ix.blockInfo.map DataBlockInfo.key)[i]?.any (· < key) := by
  funext i
  rw [before, getElem?_map]
  cases ix.blockInfo[i]? <;> rfl

variable {ix : DataIndex}

theorem at_eq {i : Nat} {info : DataBlockInfo} (h : ix.blockInfo[i]? = some info)
    (fault : Fault) : ix.at_ i fault = .ok info := by
  rw [at_, if_neg (by omega), toNat_natCast, h]

variable {key : Bytes}

/-- The loop is a bisection. Its left end never passes `r`, so `begin + end` fits an `int`. -/
theorem findLoop_eq {r : Nat}
    (hsize : r + ix.blockInfo.length ≤ 2 ^ 31) (fuel lo len last : Nat) (hfuel : len < fuel)
    (hlen : lo + len ≤ ix.blockInfo.length) (hr : Splits (ix.before key) lo len r) :
    ix.findLoop key fuel lo (lo + len - 1) last = .ok (lastProbe (ix.before key) lo len last) := by
  induction fuel generalizing lo len last with
  | zero => omega
  | succ fuel ih =>
    unfold findLoop lastProbe
    by_cases hzero : len = 0
    · rw [if_neg (by omega), if_pos hzero]
    · have hle := hr.le
      have hmid : (int32 ((lo : Int) + (lo + len - 1))).tdiv 2 = (lo + (len - 1) / 2 : Nat) := by
        rw [show (lo : Int) + (lo + len - 1) = (lo + (lo + len - 1) : Nat) by omega,
          int32_of_lt (by omega), tdiv_eq_ediv_of_nonneg (by omega)]
        omega
      have hlt : lo + (len - 1) / 2 < ix.blockInfo.length := by omega
      have hinfo := getElem?_eq_getElem hlt
      have hbefore : ix.before key (lo + (len - 1) / 2) =
          decide (ix.blockInfo[lo + (len - 1) / 2].key < key) := by
        rw [before, hinfo]
      rw [if_pos (by omega)]
      simp only [hmid, at_eq hinfo, ok_bind, hbefore, decide_eq_true_eq]
      split
      · rename_i hkey
        rw [← ih _ _ _ (by omega) (by omega) (hr.right hzero (by simpa [hbefore] using hkey))]
        congr 1
        omega
      · rename_i hkey
        rw [← ih _ _ _ (by omega) (by omega) (hr.left hzero (by simpa [hbefore] using hkey))]
        congr 1

/-- The search finds the last block whose first key is smaller, or the first block. -/
theorem findMinimalBlock_eq {r : Nat} (hne : ix.blockInfo ≠ [])
    (hsize : r + ix.blockInfo.length ≤ 2 ^ 31)
    (hr : Splits (ix.before key) 0 ix.blockInfo.length r) :
    ix.findMinimalBlock key = .ok ((r - 1 : Nat) : Int) := by
  have hpos : 0 < ix.blockInfo.length := length_pos_iff.mpr hne
  have hloop := findLoop_eq hsize (ix.blockInfo.length + 1) 0 ix.blockInfo.length 0
    (by omega) (by omega) hr
  have hend := hr.le_end
  unfold findMinimalBlock getBlockSize
  rw [show ((0 : Nat) : Int) + (ix.blockInfo.length : Nat) - 1 = (ix.blockInfo.length : Int) - 1 by
    omega] at hloop
  rw [show (0 : Int) = ((0 : Nat) : Int) from rfl, hloop, ok_bind]
  have hcases := lastProbe_cases 0 hr
  have hlt : lastProbe (ix.before key) 0 ix.blockInfo.length 0 < ix.blockInfo.length := by omega
  have hinfo := getElem?_eq_getElem hlt
  have hbefore := hr.before_iff (lastProbe (ix.before key) 0 ix.blockInfo.length 0) (by omega)
    (by omega)
  simp only [before, hinfo, decide_eq_true_eq] at hbefore
  rw [at_eq hinfo, ok_bind]
  split
  · rename_i hlast
    rw [hbefore] at hlast
    congr 2
    omega
  · rename_i hlast
    rw [hbefore] at hlast
    split
    · rw [pure_eq_ok]
      congr 1
      omega
    · rw [pure_eq_ok]
      congr 2
      omega

section

variable (hmany : 2 ^ 30 < ix.blockInfo.length) (hsize : ix.blockInfo.length < 2 ^ 31)
  (hall : ∀ info ∈ ix.blockInfo, info.key < key)
include hmany hsize hall

/-- With more blocks, the search for a key behind all of them leaves the range of an `int`: `begin`
comes so near to the last block that `begin + end` becomes negative. -/
theorem findLoop_overrun (fuel lo : Nat) (last : Int) (hlo : lo < ix.blockInfo.length)
    (hfuel : ix.blockInfo.length ≤ lo + fuel) :
    ix.findLoop key fuel lo (ix.blockInfo.length - 1) last = .error .overrun := by
  induction fuel generalizing lo last with
  | zero => omega
  | succ fuel ih =>
    have hsum : (lo : Int) + (ix.blockInfo.length - 1) = (lo + ix.blockInfo.length - 1 : Nat) := by
      omega
    unfold findLoop
    rw [if_pos (by omega), hsum]
    by_cases hbig : 2 ^ 31 ≤ lo + ix.blockInfo.length - 1
    · have hneg : (int32 (lo + ix.blockInfo.length - 1 : Nat)).tdiv 2 < 0 := by
        rw [int32_of_ge hbig (by omega), ← Int.neg_sub, Int.neg_tdiv,
          tdiv_eq_ediv_of_nonneg (by omega)]
        omega
      simp only [at_, hneg, ite_true, error_bind]
    · have hmid : (int32 (lo + ix.blockInfo.length - 1 : Nat)).tdiv 2 =
          ((lo + ix.blockInfo.length - 1) / 2 : Nat) := by
        rw [int32_of_lt (by omega), tdiv_eq_ediv_of_nonneg (by omega)]
        omega
      have hlt : (lo + ix.blockInfo.length - 1) / 2 < ix.blockInfo.length := by omega
      simp only [hmid, at_eq (getElem?_eq_getElem hlt), ok_bind,
        hall _ (getElem_mem hlt), ite_true]
      exact ih ((lo + ix.blockInfo.length - 1) / 2 + 1) _ (by omega) (by omega)

theorem findMinimalBlock_overrun : ix.findMinimalBlock key = .error .overrun := by
  have hloop := findLoop_overrun hmany hsize hall (ix.blockInfo.length + 1) 0 0 (by omega)
    (by omega)
  rw [Nat.cast_zero] at hloop
  rw [findMinimalBlock, getBlockSize, hloop, error_bind]

end

section Codec

variable [Host]

/-- `DataIndex::AddDataBlockInfo`; the sizes are parameters of type `int`. -/
def addDataBlockInfo (ix : DataIndex) (compressDataSize uncompressDataSize : Int)
    (firstKey : Bytes) : DataIndex :=
  let buffer := if ix.buffer.isEmpty then kIndexBlockMagic else ix.buffer
  { ix with
    buffer := buffer ++ putFixed64 (UInt64.ofInt ix.lastOffset) ++
      putFixed32 (ofInt (int32 uncompressDataSize)) ++
      Varint.put32 (ofNat firstKey.length) ++ firstKey
    lastOffset := int64 (ix.lastOffset + int32 compressDataSize) }

def decodeInfos : Nat → Bytes → Except Fault (List DataBlockInfo)
  | _, [] => .ok []
  | 0, _ :: _ => .error .unended
  | fuel + 1, begin_ => do
    let (offset, begin_) ← readInt64 begin_
    let (dataSize, begin_) ← readInt32 begin_
    let (keyLen, begin_) ← readVint begin_
    let (key, begin_) ← readString keyLen begin_
    let infos ← decodeInfos fuel begin_
    return { offset := offset, dataSize := dataSize, key := key } :: infos

def decodeFromString (ix : DataIndex) (str : Bytes) : Except Fault (Bool × DataIndex) :=
  if kIndexBlockMagic.isPrefixOf str then do
    let infos ← decodeInfos str.length (str.drop kIndexBlockMagic.length)
    return (true, { ix with blockInfo := infos })
  else .ok (false, ix)

/-! ## Round trip -/

def infoBytes (info : DataBlockInfo) : Bytes :=
  putFixed64 (UInt64.ofInt info.offset) ++ putFixed32 (ofInt info.dataSize) ++
    Varint.put32 (ofNat info.key.length) ++ info.key

def bufferOf (infos : List DataBlockInfo) : Bytes :=
  if infos.isEmpty then [] else kIndexBlockMagic ++ infos.flatMap infoBytes

/-- Entries whose fields fit their types. -/
structure InfoFits (info : DataBlockInfo) : Prop where
  offset : int64 info.offset = info.offset
  dataSize : int32 info.dataSize = info.dataSize
  key : info.key.length < 2 ^ 31

variable {infos : List DataBlockInfo}

theorem buffer_addDataBlockInfo {ix : DataIndex}
    (h : ix.buffer = bufferOf infos) (compressDataSize uncompressDataSize : Int)
    (firstKey : Bytes) :
    (ix.addDataBlockInfo compressDataSize uncompressDataSize firstKey).buffer =
      bufferOf (infos ++
        [{ offset := ix.lastOffset, dataSize := int32 uncompressDataSize, key := firstKey }]) := by
  cases infos with
  | nil => simp [addDataBlockInfo, h, bufferOf, infoBytes]
  | cons info infos => simp [addDataBlockInfo, h, bufferOf, infoBytes, kIndexBlockMagic]

theorem decodeInfos_flatMap (hfits : ∀ info ∈ infos, InfoFits info)
    (fuel : Nat) (hfuel : infos.length ≤ fuel) :
    decodeInfos fuel (infos.flatMap infoBytes) = .ok infos := by
  induction infos generalizing fuel with
  | nil =>
    cases fuel <;> rfl
  | cons info infos ih =>
    obtain ⟨fuel, rfl⟩ : ∃ k, fuel = k + 1 := ⟨fuel - 1, by simp at hfuel; omega⟩
    have hinfo := hfits info mem_cons_self
    have hrest := ih (fun i hi => hfits i (mem_cons_of_mem _ hi)) fuel (by simpa using hfuel)
    have hkey : int32 (UInt32.ofNat info.key.length).toNat = info.key.length := by
      have := hinfo.key
      rw [toNat_ofNat', Nat.mod_eq_of_lt (by omega), int32_of_lt this]
    obtain ⟨c, t, hct⟩ : ∃ c t, (info :: infos).flatMap infoBytes = c :: t :=
      exists_cons_of_length_pos (by simp [infoBytes])
    rw [hct, decodeInfos, ← hct]
    · simp only [flatMap_cons, infoBytes, append_assoc, readInt64_putFixed64,
        int64_toNat_ofInt, hinfo.offset, readInt32_putFixed32, int32_toNat_ofInt, hinfo.dataSize,
        readVint_put32, hkey, readString_append, ok_bind, hrest, pure_eq_ok]
    · simp

theorem length_flatMap_infoBytes (infos : List DataBlockInfo) :
    infos.length ≤ (infos.flatMap infoBytes).length := by
  induction infos with
  | nil => simp
  | cons info infos ih =>
    simp only [flatMap_cons, length_cons, length_append, infoBytes,
      length_putFixed32, length_putFixed64]
    omega

theorem decodeFromString_bufferOf (ix : DataIndex)
    (hne : infos ≠ []) (hfits : ∀ info ∈ infos, InfoFits info) :
    ix.decodeFromString (bufferOf infos) = .ok (true, { ix with blockInfo := infos }) := by
  have hbuffer : bufferOf infos = kIndexBlockMagic ++ infos.flatMap infoBytes := by
    rw [bufferOf, if_neg (by simpa using hne)]
  have hlen := length_flatMap_infoBytes infos
  have hinfos := decodeInfos_flatMap hfits (bufferOf infos).length
    (by rw [hbuffer, length_append]; omega)
  have hdrop : (bufferOf infos).drop kIndexBlockMagic.length = infos.flatMap infoBytes := by
    rw [hbuffer, drop_left]
  unfold decodeFromString
  rw [if_pos (by rw [hbuffer]; simp), hdrop, hinfos]
  rfl

end Codec

end DataIndex

end Toft.Hfile

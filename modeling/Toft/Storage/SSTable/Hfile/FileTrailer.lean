import Toft.Storage.SSTable.Hfile.Coding
import Toft.Storage.SSTable.Types

/-!
# The file trailer

A fixed-length block at the end of a table file with the offsets of the other parts.
-/

namespace Toft.Hfile

open Lib List UInt32

def kTrailerBlockMagic : Bytes := ascii "TRABLK" ++ [0x1c, 0x1e]

/-- The members of `FileTrailer`. -/
structure FileTrailer where
  fileInfoOffset : Int := -1
  dataIndexOffset : Int := -1
  dataIndexCount : Int := 0
  metaIndexOffset : Int := 0
  metaIndexCount : Int := 0
  totalUncompressedBytes : Int := 0
  entryCount : Int := 0
  compressType : CompressType := .unCompress
  version : Int := 1
  deriving DecidableEq, Repr

namespace FileTrailer

def trailerSize : Nat := 4 * 5 + 8 * 4 + kTrailerBlockMagic.length

variable [Host]

def encodeToString (t : FileTrailer) : Bytes :=
  kTrailerBlockMagic ++ putFixed64 (UInt64.ofInt t.fileInfoOffset) ++
    putFixed64 (UInt64.ofInt t.dataIndexOffset) ++ putFixed32 (ofInt t.dataIndexCount) ++
    putFixed64 (UInt64.ofInt t.metaIndexOffset) ++ putFixed32 (ofInt t.metaIndexCount) ++
    putFixed64 (UInt64.ofInt t.totalUncompressedBytes) ++
    putFixed32 (ofInt t.entryCount) ++ putFixed32 (ofInt t.compressType.toInt) ++
    putFixed32 (ofInt t.version)

def decodeFromString (t : FileTrailer) (str : Bytes) : Except Fault (Bool × FileTrailer) :=
  if str.length ≠ trailerSize then .ok (false, t)
  else if kTrailerBlockMagic.isPrefixOf str then do
    let begin_ := str.drop kTrailerBlockMagic.length
    let (fileInfoOffset, begin_) ← readInt64 begin_
    let (dataIndexOffset, begin_) ← readInt64 begin_
    let (dataIndexCount, begin_) ← readInt32 begin_
    let (metaIndexOffset, begin_) ← readInt64 begin_
    let (metaIndexCount, begin_) ← readInt32 begin_
    let (totalUncompressedBytes, begin_) ← readInt64 begin_
    let (entryCount, begin_) ← readInt32 begin_
    let (compressType, begin_) ← readInt32 begin_
    let (version, _) ← readInt32 begin_
    return (true, { fileInfoOffset, dataIndexOffset, dataIndexCount, metaIndexOffset,
                    metaIndexCount, totalUncompressedBytes, entryCount,
                    compressType := CompressType.ofInt compressType, version })
  else .ok (false, t)

/-! ## Round trip -/

theorem length_encodeToString (t : FileTrailer) : t.encodeToString.length = trailerSize := by
  simp only [encodeToString, trailerSize, length_append, length_putFixed32, length_putFixed64]
  omega

/-- Every number fits into its field. -/
structure Fits (t : FileTrailer) : Prop where
  fileInfoOffset : int64 t.fileInfoOffset = t.fileInfoOffset
  dataIndexOffset : int64 t.dataIndexOffset = t.dataIndexOffset
  dataIndexCount : int32 t.dataIndexCount = t.dataIndexCount
  metaIndexOffset : int64 t.metaIndexOffset = t.metaIndexOffset
  metaIndexCount : int32 t.metaIndexCount = t.metaIndexCount
  totalUncompressedBytes : int64 t.totalUncompressedBytes = t.totalUncompressedBytes
  entryCount : int32 t.entryCount = t.entryCount
  version : int32 t.version = t.version

omit [Host] in
theorem int32_toInt (c : CompressType) : int32 c.toInt = c.toInt := by
  cases c <;> decide

theorem decodeFromString_encodeToString (s : FileTrailer) {t : FileTrailer} (h : t.Fits) :
    s.decodeFromString t.encodeToString = .ok (true, t) := by
  have hlast := readInt32_putFixed32 (ofInt t.version) []
  rw [append_nil] at hlast
  unfold decodeFromString
  rw [if_neg (by simp [length_encodeToString])]
  simp only [encodeToString, append_assoc]
  rw [if_pos (by simp), drop_left]
  simp only [readInt64_putFixed64, readInt32_putFixed32, hlast, int64_toNat_ofInt,
    int32_toNat_ofInt, ok_bind, pure_eq_ok, h.fileInfoOffset, h.dataIndexOffset, h.dataIndexCount,
    h.metaIndexOffset, h.metaIndexCount, h.totalUncompressedBytes, h.entryCount, h.version,
    int32_toInt, CompressType.ofInt_toInt]

theorem int32_dataIndexCount_eq {t t' : FileTrailer} (h : t.encodeToString = t'.encodeToString) :
    int32 t.dataIndexCount = int32 t'.dataIndexCount := by
  simp only [encodeToString, append_assoc] at h
  have h₁ := (append_inj (append_cancel_left h) (by simp)).2
  have h₂ := congrArg readInt32 (append_inj h₁ (by simp)).2
  rw [readInt32_putFixed32, readInt32_putFixed32, int32_toNat_ofInt, int32_toNat_ofInt] at h₂
  exact (Prod.mk.inj (Except.ok.inj h₂)).1

end FileTrailer

end Toft.Hfile

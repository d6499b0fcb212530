import Toft.Base.ByteOrder
import Toft.Base.Int

/-!
# Records, options and codecs of the table classes
-/

namespace Toft

open Lib

abbrev Record := Bytes × Bytes

/-- The values of `CompressType`. -/
inductive CompressType where
  | lzo
  | zlib
  | unCompress
  | snappy
  | unKnown
  deriving DecidableEq, Repr

namespace CompressType

def toInt : CompressType → Int
  | lzo => 0
  | zlib => 1
  | unCompress => 2
  | snappy => 3
  | unKnown => 4

/-- `static_cast<CompressType>`; every number that is not a type is treated as `kUnKnown` is. -/
def ofInt (n : Int) : CompressType :=
  if n = 0 then lzo
  else if n = 1 then zlib
  else if n = 2 then unCompress
  else if n = 3 then snappy
  else unKnown

/-- The types a `DataBlock` can be made for. -/
def Supported : CompressType → Prop
  | lzo | unCompress | snappy => True
  | zlib | unKnown => False

theorem ofInt_toInt (t : CompressType) : ofInt t.toInt = t := by
  cases t <;> rfl

end CompressType

/-- A `BlockCompression` object: `none` when the call returns false. -/
structure BlockCompression where
  compress : Bytes → Option Bytes
  uncompress : Bytes → Option Bytes

/-- The codec never fails and loses nothing. -/
def BlockCompression.Lossless (c : BlockCompression) : Prop :=
  ∀ s, ∃ t, c.compress s = some t ∧ c.uncompress t = some s

/-- A codec that puts a zero byte in front and inverts the bytes. -/
def BlockCompression.inverting : BlockCompression where
  compress s := some (0 :: s.map (~~~ ·))
  uncompress
    | 0 :: t => some (t.map (~~~ ·))
    | _ => none

theorem BlockCompression.uncompress_inverting (s : Bytes) :
    inverting.uncompress (0 :: s.map (~~~ ·)) = some s := by
  simp [inverting, Function.comp_def]

theorem BlockCompression.lossless_inverting : inverting.Lossless := fun s =>
  ⟨_, rfl, uncompress_inverting s⟩

/-- What the table classes use from outside: the codec registered as `snappy`, `Fingerprint64`,
which may be any function, and the encoder of `Fingerprint64ToString`. -/
class SSTableEnv extends Host where
  snappy : BlockCompression
  fingerprint64 : Bytes → UInt64
  b16Encode : Bytes → Bytes

@[reducible] def SSTableEnv.inverting : SSTableEnv :=
  { Host.little with
    snappy := .inverting
    fingerprint64 := fun _ => 0
    b16Encode := id }

/-- The members of `SSTableWriteOption` that are read. -/
structure SSTableWriteOption where
  compressType : CompressType := .unCompress
  blockSize : Int64 := 64 * 1024
  path : Bytes := []
  shardingPolicy : Bytes := []

end Toft

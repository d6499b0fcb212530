import Mathlib.Logic.Function.Iterate
import Toft.Lib.Word

/-!
# CRC-32

`CRC32` takes a byte at a time, with a table of 256 words. Shifting the message into the register
bit by bit gives the same checksum, however the message is cut into pieces: `n` bits of a word are
taken in by adding the word, making `n` rounds and taking the rest of the word out again.
-/

namespace Toft

open Lib List

/-- The members of `CRC32`. -/
structure CRC32 where
  result : BitVec 32 := 0

namespace CRC32

def kCrc32Polynomial : BitVec 32 := 0xEDB88320

/-- A round of the inner loop of `InitCrc32Table`. -/
def round (c : BitVec 32) : BitVec 32 :=
  if c.getLsbD 0 then kCrc32Polynomial ^^^ (c >>> 1) else c >>> 1

def crc32Table : List (BitVec 32) := (range 256).map fun i => round^[8] (.ofNat 32 i)

def takeByte (c : BitVec 32) (u : UInt8) : BitVec 32 :=
  crc32Table.getD ((c ^^^ u.toBitVec.setWidth 32) &&& 0xFF).toNat 0 ^^^ (c >>> 8)

def update (crc : CRC32) (sp : Bytes) : CRC32 where
  result := sp.foldl takeByte (crc.result ^^^ 0xFFFFFFFF) ^^^ 0xFFFFFFFF

def final (crc : CRC32) : BitVec 32 := crc.result

/-! ## Bit by bit -/

/-- The register of RFC 1952 and a bit of the message, with the polynomial as the RFC has it. -/
def shiftIn (c : BitVec 32) (bit : Bool) : BitVec 32 :=
  if c.getLsbD 0 ^^ bit then 0xEDB88320#32 ^^^ (c >>> 1) else c >>> 1

def lowBits {w : Nat} (x : BitVec w) : List Bool := (range 8).map x.getLsbD

/-- The bits of a message, each byte from its lowest. -/
def bits (message : Bytes) : List Bool := message.flatMap fun u => lowBits u.toBitVec

def serial (message : Bytes) : BitVec 32 :=
  (bits message).foldl shiftIn (.allOnes 32) ^^^ .allOnes 32

theorem xor_cancel (x y : BitVec 32) : x ^^^ y ^^^ y = x := by
  rw [BitVec.xor_assoc, BitVec.xor_self, BitVec.xor_zero]

theorem shiftIn_eq (c y : BitVec 32) :
    shiftIn c (y.getLsbD 0) = round (c ^^^ y) ^^^ (y >>> 1) := by
  rw [shiftIn, round, BitVec.getLsbD_xor, BitVec.ushiftRight_xor_distrib]
  split
  · rw [← BitVec.xor_assoc, xor_cancel]
    rfl
  · rw [xor_cancel]

theorem foldl_shiftIn (c y : BitVec 32) (n : Nat) :
    ((range n).map y.getLsbD).foldl shiftIn c = round^[n] (c ^^^ y) ^^^ (y >>> n) := by
  induction n with
  | zero => exact (xor_cancel c y).symm
  | succ n ih =>
    have hbit : y.getLsbD n = (y >>> n).getLsbD 0 := by rw [BitVec.getLsbD_ushiftRight]; rfl
    rw [range_succ, map_append, foldl_append, ih, map_singleton, foldl_cons, foldl_nil, hbit,
      shiftIn_eq, xor_cancel, Function.iterate_succ_apply', BitVec.shiftRight_add]

/-- Only the low octet decides what eight rounds add to the rest of the word. -/
theorem iterate_round (x : BitVec 32) :
    round^[8] x = round^[8] (x &&& 0xFF) ^^^ (x >>> 8) := by
  have hbits : lowBits (x &&& 0xFF) = lowBits x := by simp [lowBits, range_succ]
  have hhigh : (x &&& 0xFF) >>> 8 = 0#32 := by
    rw [BitVec.ushiftRight_and_distrib]
    exact BitVec.and_zero
  have hlow := foldl_shiftIn 0#32 (x &&& 0xFF) 8
  rw [← lowBits, hbits, lowBits, foldl_shiftIn, BitVec.zero_xor, BitVec.zero_xor, hhigh,
    BitVec.xor_zero] at hlow
  rw [← hlow, xor_cancel]

theorem crc32Table_getD (x : BitVec 32) :
    crc32Table.getD (x &&& 0xFF).toNat 0 = round^[8] (x &&& 0xFF) := by
  have hlt : (x &&& 0xFF).toNat < 256 := by
    rw [BitVec.toNat_and]
    exact Nat.and_lt_two_pow _ (by decide : _ < 2 ^ 8)
  rw [crc32Table, getD_eq_getElem?_getD, getElem?_map, getElem?_range hlt]
  simp

theorem foldl_lowBits (c : BitVec 32) (u : UInt8) :
    (lowBits u.toBitVec).foldl shiftIn c = takeByte c u := by
  have hbits : lowBits u.toBitVec = lowBits (u.toBitVec.setWidth 32) := by
    simp [lowBits, range_succ]
  have hhigh : u.toBitVec.setWidth 32 >>> 8 = 0#32 := by
    ext i
    simp
  rw [hbits, lowBits, foldl_shiftIn, iterate_round, hhigh, takeByte, crc32Table_getD,
    BitVec.ushiftRight_xor_distrib, hhigh, BitVec.xor_zero, BitVec.xor_zero]

/-- The register is kept complemented between two calls. -/
theorem update_result (crc : CRC32) (sp : Bytes) :
    (crc.update sp).result ^^^ .allOnes 32 =
      (bits sp).foldl shiftIn (crc.result ^^^ .allOnes 32) := by
  simp only [bits, foldl_flatMap, foldl_lowBits]
  exact xor_cancel _ _

theorem foldl_update (crc : CRC32) (pieces : List Bytes) :
    (pieces.foldl update crc).result ^^^ .allOnes 32 =
      (bits pieces.flatten).foldl shiftIn (crc.result ^^^ .allOnes 32) := by
  induction pieces generalizing crc with
  | nil => rfl
  | cons sp pieces ih =>
    rw [foldl_cons, ih, update_result, flatten_cons, bits, bits, bits, flatMap_append, foldl_append]

theorem final_eq_serial (pieces : List Bytes) :
    (pieces.foldl update {}).final = serial pieces.flatten := by
  rw [final, ← xor_cancel (pieces.foldl update {}).result (.allOnes 32), foldl_update]
  rfl

end CRC32

end Toft

import Mathlib.Tactic.IntervalCases
import Toft.Lib.Word

/-!
# 32-bit words in strings of bytes

A word is read from four bytes, least significant first (`leWord`) or most significant first
(`beWord`). Rotations are written with two shifts (`shift_or_shift`), and the change between the two
orders with two rotations (`swapWord_leWord`).
-/

namespace Toft.Lib

open List Nat UInt32

/-- The `i`-th word of a string, least significant byte first. -/
def leWord (bytes : Bytes) (i : Nat) : UInt32 := .ofNat (leNat ((bytes.drop (4 * i)).take 4))

/-- The `i`-th word of a string, most significant byte first. -/
def beWord (bytes : Bytes) (i : Nat) : UInt32 :=
  .ofNat (leNat ((bytes.drop (4 * i)).take 4).reverse)

/-- The bytes of a word, least significant first. -/
def wordBytes (x : UInt32) : Bytes := leBytes 4 x.toNat

/-- The bytes of a word, most significant first. -/
def beWordBytes (x : UInt32) : Bytes := (wordBytes x).reverse

variable (x : UInt32)

@[simp] theorem length_wordBytes : (wordBytes x).length = 4 := length_leBytes 4 _

theorem leBytes_leNat (bytes : Bytes) : leBytes bytes.length (leNat bytes) = bytes := by
  induction bytes with
  | nil => rfl
  | cons b bytes ih =>
    have hb := b.toNat_lt
    rw [length_cons, leBytes, leNat]
    congr 1
    · rw [← UInt8.toNat_inj, UInt8.toNat_ofNat']
      omega
    · rw [show (b.toNat + 256 * leNat bytes) / 256 = leNat bytes by omega, ih]

variable {bytes : Bytes}

theorem wordBytes_ofNat_leNat (h : bytes.length = 4) :
    wordBytes (.ofNat (leNat bytes)) = bytes := by
  have hlt : leNat bytes < 2 ^ 32 := by
    have := leNat_lt bytes
    rwa [h] at this
  rw [wordBytes, toNat_ofNat', mod_eq_of_lt hlt, ← h, leBytes_leNat]

theorem leBytes_mod (w n : Nat) : leBytes w (n % 256 ^ w) = leBytes w n := by
  rw [← leNat_leBytes w n]
  exact (congrArg (leBytes · _) (length_leBytes w n).symm).trans (leBytes_leNat _)

theorem leBytes_add (v w n : Nat) : leBytes (v + w) n = leBytes v n ++ leBytes w (n / 256 ^ v) := by
  induction v generalizing n with
  | zero => simp [leBytes]
  | succ v ih =>
    rw [Nat.succ_add, leBytes, ih, Nat.div_div_eq_div_mul, Nat.pow_succ']
    rfl

theorem ofNat_leNat_wordBytes : .ofNat (leNat (wordBytes x)) = x := by
  rw [wordBytes, leNat_leBytes_of_lt x.toNat_lt, UInt32.ofNat_toNat]

theorem leWord_append {a b : Bytes} {i : Nat} (h : a.length = 4 * i) (x : UInt32) :
    leWord (a ++ wordBytes x ++ b) i = x := by
  rw [leWord, append_assoc, drop_left' h, take_left' (length_wordBytes x), ofNat_leNat_wordBytes]

variable {s : Nat}

theorem toUInt8_shiftRight_and (h : s < 32) :
    (x >>> .ofNat s &&& 255).toUInt8 = .ofNat (x.toNat / 2 ^ s) := by
  have hshift : (ofNat s).toNat % 32 = s := by
    rw [toNat_ofNat']
    omega
  have hmask : x.toNat / 2 ^ s &&& 255 = x.toNat / 2 ^ s % 256 := and_two_pow_sub_one_eq_mod _ 8
  rw [← UInt8.toNat_inj, UInt32.toNat_toUInt8, UInt32.toNat_and, UInt32.toNat_shiftRight, hshift,
    shiftRight_eq_div_pow]
  exact (congrArg (· % 2 ^ 8) hmask).trans (mod_mod _ _)

theorem beWordBytes_eq :
    beWordBytes x = (List.range 4).map fun i => (x >>> .ofNat ((3 - i) * 8) &&& 255).toUInt8 := by
  have hbytes : beWordBytes x = [.ofNat (x.toNat / 256 / 256 / 256), .ofNat (x.toNat / 256 / 256),
      .ofNat (x.toNat / 256), .ofNat x.toNat] := rfl
  have hrange : (List.range 4).map (fun i => (x >>> .ofNat ((3 - i) * 8) &&& 255).toUInt8) =
      [(x >>> .ofNat 24 &&& 255).toUInt8, (x >>> .ofNat 16 &&& 255).toUInt8,
        (x >>> .ofNat 8 &&& 255).toUInt8, (x >>> .ofNat 0 &&& 255).toUInt8] := rfl
  rw [hbytes, hrange, toUInt8_shiftRight_and x (by decide), toUInt8_shiftRight_and x (by decide),
    toUInt8_shiftRight_and x (by decide), toUInt8_shiftRight_and x (by decide),
    show x.toNat / 256 / 256 / 256 = x.toNat / 2 ^ 24 by omega,
    show x.toNat / 256 / 256 = x.toNat / 2 ^ 16 by omega, Nat.pow_zero, Nat.div_one]
  rfl

/-! ## Rotations -/

/-- Rotation to the left. -/
def rotl (x : UInt32) (s : Nat) : UInt32 := ⟨x.toBitVec.rotateLeft s⟩

theorem toNat_ofNat_umod (h : s < 32) : ((ofNat s).toBitVec % 32).toNat = s := by
  rw [BitVec.toNat_umod, toNat_toBitVec, toNat_ofNat']
  exact (mod_eq_of_lt (by rw [mod_eq_of_lt (by omega)]; exact h)).trans (mod_eq_of_lt (by omega))

theorem toBitVec_shiftLeft_ofNat (h : s < 32) :
    (x <<< UInt32.ofNat s).toBitVec = x.toBitVec <<< s := by
  rw [UInt32.toBitVec_shiftLeft, BitVec.shiftLeft_eq', toNat_ofNat_umod h]

theorem toBitVec_shiftRight_ofNat (h : s < 32) :
    (x >>> UInt32.ofNat s).toBitVec = x.toBitVec >>> s := by
  rw [UInt32.toBitVec_shiftRight, BitVec.ushiftRight_eq', toNat_ofNat_umod h]

theorem shift_or_shift (h : 0 < s) (h' : s < 32) :
    x <<< ofNat s ||| x >>> (32 - ofNat s) = rotl x s := by
  have hsub : 32 - ofNat s = ofNat (32 - s) := (ofNat_sub h'.le).symm
  apply UInt32.toBitVec_inj.mp
  rw [hsub, UInt32.toBitVec_or, toBitVec_shiftLeft_ofNat x h',
    toBitVec_shiftRight_ofNat x (by omega), rotl, BitVec.rotateLeft_def, mod_eq_of_lt h']

/-! ## The order of the bytes -/

/-- The word with its bytes in the other order. -/
def swapWord (x : UInt32) : UInt32 :=
  (rotl x 24 &&& 0xFF00FF00) ||| (rotl x 8 &&& 0x00FF00FF)

theorem testBit_leNat (bytes : Bytes) (j : Nat) :
    (leNat bytes).testBit j = (bytes.getD (j / 8) 0).toNat.testBit (j % 8) := by
  induction bytes generalizing j with
  | nil => simp [leNat]
  | cons b bytes ih =>
    have hb : b.toNat < 2 ^ 8 := b.toNat_lt
    rw [leNat, add_comm, testBit_two_pow_mul_add _ hb]
    by_cases hj : j < 8
    · rw [if_pos hj, div_eq_of_lt hj, mod_eq_of_lt hj]
      rfl
    · rw [if_neg hj, ih, show j / 8 = (j - 8) / 8 + 1 by omega, show (j - 8) % 8 = j % 8 by omega]
      rfl

theorem getLsbD_swapWord {j : Nat} (h : j < 32) :
    (swapWord x).toBitVec.getLsbD j = x.toBitVec.getLsbD (8 * (3 - j / 8) + j % 8) := by
  simp only [swapWord, rotl, UInt32.toBitVec_or, UInt32.toBitVec_and, BitVec.getLsbD_or,
    BitVec.getLsbD_and, BitVec.getLsbD_rotateLeft]
  interval_cases j <;> simp

theorem getLsbD_ofNat_leNat {j : Nat} (h : j < 32) :
    (ofNat (leNat bytes)).toBitVec.getLsbD j =
      (bytes.getD (j / 8) 0).toNat.testBit (j % 8) := by
  rw [← testBit_leNat, toBitVec_ofNat', BitVec.getLsbD_ofNat]
  simp [h]

theorem swapWord_leWord {i : Nat} (h : 4 * i + 4 ≤ bytes.length) :
    swapWord (leWord bytes i) = beWord bytes i := by
  have hlength : ((bytes.drop (4 * i)).take 4).length = 4 := by
    rw [length_take, length_drop]
    omega
  unfold leWord beWord
  generalize (bytes.drop (4 * i)).take 4 = word at hlength
  apply UInt32.toBitVec_inj.mp
  apply BitVec.eq_of_getLsbD_eq
  intro j hj
  rw [getLsbD_swapWord _ hj, getLsbD_ofNat_leNat (by omega), getLsbD_ofNat_leNat hj,
    show (8 * (3 - j / 8) + j % 8) / 8 = 3 - j / 8 by omega,
    show (8 * (3 - j / 8) + j % 8) % 8 = j % 8 by omega,
    getD_eq_getElem?_getD, getD_eq_getElem?_getD, List.getElem?_reverse (by omega), hlength]

end Toft.Lib

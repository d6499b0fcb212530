import Mathlib.Data.Nat.Bitwise
import Mathlib.Tactic.Ring

/-!
# Byte strings and fixed-width words

A byte string is a list of bytes, ordered lexicographically on unsigned bytes. A number is written
as exactly `w` bytes, least significant first (`leBytes`), and read back by `leNat`: the round trip
keeps the number modulo `256 ^ w` (`leNat_leBytes`). `beBytes` and `beNat` are the same with the
most significant byte first. The bitwise ways of taking a word apart and
putting it together again are the same maps (`or_shift_bytes`).
-/

namespace Toft.Lib

open List Nat UInt32

/-- A byte string. -/
abbrev Bytes := List UInt8

/-- The bytes of a literal. -/
def ascii (s : String) : Bytes := s.toUTF8.data.toList

/-! ## Little-endian words -/

/-- The `w` low bytes of `n`, least significant first. -/
def leBytes : Nat → Nat → Bytes
  | 0, _ => []
  | w + 1, n => UInt8.ofNat n :: leBytes w (n / 256)

/-- The number that a string of bytes writes, least significant byte first. -/
def leNat : Bytes → Nat
  | [] => 0
  | b :: bs => b.toNat + 256 * leNat bs

@[simp] theorem length_leBytes (w n : Nat) : (leBytes w n).length = w := by
  induction w generalizing n with
  | zero => rfl
  | succ w ih => rw [leBytes, length_cons, ih]

theorem leNat_leBytes (w n : Nat) : leNat (leBytes w n) = n % 256 ^ w := by
  induction w generalizing n with
  | zero => simp [leBytes, leNat, mod_one]
  | succ w ih =>
    have hb : (UInt8.ofNat n).toNat = n % 256 := UInt8.toNat_ofNat'
    rw [leBytes, leNat, ih, hb, pow_succ', mod_mul]

theorem leNat_leBytes_of_lt {w n : Nat} (h : n < 256 ^ w) : leNat (leBytes w n) = n := by
  rw [leNat_leBytes, mod_eq_of_lt h]

theorem leNat_lt (bs : Bytes) : leNat bs < 256 ^ bs.length := by
  induction bs with
  | nil => exact one_pos
  | cons b bs ih =>
    have hb := b.toNat_lt
    rw [leNat, length_cons]
    omega

theorem leNat_append (as bs : Bytes) :
    leNat (as ++ bs) = leNat as + 256 ^ as.length * leNat bs := by
  induction as with
  | nil => simp [leNat]
  | cons a as ih =>
    rw [cons_append, leNat, ih, leNat, length_cons, pow_succ', mul_add, mul_assoc, add_assoc]

/-! ## Big-endian words -/

/-- The `w` low bytes of `n`, most significant first. -/
def beBytes (w n : Nat) : Bytes := (leBytes w n).reverse

/-- The number that a string of bytes writes, most significant byte first. -/
def beNat (bs : Bytes) : Nat := leNat bs.reverse

@[simp] theorem length_beBytes (w n : Nat) : (beBytes w n).length = w := by
  rw [beBytes, length_reverse, length_leBytes]

theorem beNat_beBytes_of_lt {w n : Nat} (h : n < 256 ^ w) : beNat (beBytes w n) = n := by
  rw [beNat, beBytes, reverse_reverse, leNat_leBytes_of_lt h]

/-! ## Words put together bit by bit -/

theorem or_shift {lo hi i : Nat} (h : lo < 2 ^ i) : lo ||| hi <<< i = lo + 2 ^ i * hi := by
  rw [Nat.or_comm, Nat.shiftLeft_eq, Nat.mul_comm, ← Nat.two_pow_add_eq_or_of_lt h, Nat.add_comm]

/-- In a word of `w` bits the bits above are lost. -/
theorem or_shift_mod {lo hi i w : Nat} (h : lo < 2 ^ i) (hw : i ≤ w) :
    lo ||| hi <<< i % 2 ^ w = (lo + 2 ^ i * hi) % 2 ^ w := by
  have hlo : lo % 2 ^ w = lo := Nat.mod_eq_of_lt (h.trans_le (Nat.pow_le_pow_right (by decide) hw))
  rw [← or_shift h, or_mod_two_pow, hlo]

variable {i : Nat}

theorem toNat_shiftLeft32 (x : UInt32) (hi : i < 32) :
    (x <<< UInt32.ofNat i).toNat = x.toNat <<< i % 2 ^ 32 := by
  have hshift : (ofNat i).toNat % 32 = i := by
    rw [toNat_ofNat']
    omega
  rw [UInt32.toNat_shiftLeft, hshift]

theorem or_shiftLeft32 {x y : UInt32} (hi : i < 32) (hx : x.toNat < 2 ^ i) :
    x ||| y <<< UInt32.ofNat i = UInt32.ofNat (x.toNat + 2 ^ i * y.toNat) := by
  rw [← UInt32.toNat_inj, UInt32.toNat_or, toNat_shiftLeft32 y hi, UInt32.toNat_ofNat',
    or_shift_mod hx hi.le]

theorem or_shiftLeft64 {x y : UInt64} (hi : i < 64) (hx : x.toNat < 2 ^ i) :
    x ||| y <<< UInt64.ofNat i = UInt64.ofNat (x.toNat + 2 ^ i * y.toNat) := by
  have hshift : (UInt64.ofNat i).toNat % 64 = i := by
    rw [UInt64.toNat_ofNat']
    omega
  rw [← UInt64.toNat_inj, UInt64.toNat_or, UInt64.toNat_shiftLeft, hshift, UInt64.toNat_ofNat',
    or_shift_mod hx hi.le]

theorem toNat_or_shiftLeft {x y : UInt32} (hi : i < 32) (hx : x.toNat < 2 ^ i)
    (hfit : 2 ^ i * y.toNat < 2 ^ 32) :
    (x ||| y <<< UInt32.ofNat i).toNat = x.toNat + 2 ^ i * y.toNat := by
  rw [UInt32.toNat_or, toNat_shiftLeft32 y hi, ← or_shift hx, mod_eq_of_lt]
  rwa [shiftLeft_eq, mul_comm]

theorem or_shift_bytes (a b c d : UInt8) :
    (a.toUInt32 ||| (b.toUInt32 <<< 8) ||| (c.toUInt32 <<< 16) ||| (d.toUInt32 <<< 24)).toNat =
      leNat [a, b, c, d] := by
  have ha : a.toUInt32.toNat < 256 := a.toNat_lt
  have hb : b.toUInt32.toNat < 256 := b.toNat_lt
  have hc : c.toUInt32.toNat < 256 := c.toNat_lt
  have hd : d.toUInt32.toNat < 256 := d.toNat_lt
  have h₁ := toNat_or_shiftLeft (x := a.toUInt32) (y := b.toUInt32) (i := 8)
    (by omega) (by omega) (by omega)
  have h₂ := toNat_or_shiftLeft (x := a.toUInt32 ||| b.toUInt32 <<< ofNat 8)
    (y := c.toUInt32) (i := 16) (by omega) (by omega) (by omega)
  have h₃ := toNat_or_shiftLeft (y := d.toUInt32) (i := 24)
    (x := a.toUInt32 ||| b.toUInt32 <<< ofNat 8 ||| c.toUInt32 <<< ofNat 16)
    (by omega) (by omega) (by omega)
  rw [h₂, h₁] at h₃
  refine h₃.trans ?_
  simp only [leNat, UInt8.toNat_toUInt32]
  omega

/-! ## Memory -/

/-- A piece of memory, by address from its start. -/
abbrev Memory := Nat → UInt8

namespace Memory

/-- The memory with the bytes written. -/
def store (mem : Memory) (offset : Nat) (bytes : Bytes) : Memory := fun i =>
  if i < offset then mem i else bytes.getD (i - offset) (mem i)

/-- The first bytes of the memory. -/
def load (mem : Memory) (n : Nat) : Bytes := (List.range n).map mem

theorem load_store (mem : Memory) (bytes : Bytes) :
    (mem.store 0 bytes).load bytes.length = bytes := by
  apply ext_getElem
  · simp [load]
  · intro i h₁ h₂
    simp [load, store, getElem?_eq_getElem h₂]

theorem store_store (mem : Memory) (offset : Nat) (a b : Bytes) :
    (mem.store offset a).store (offset + a.length) b = mem.store offset (a ++ b) := by
  funext i
  by_cases h₁ : i < offset
  · simp [store, h₁, show i < offset + a.length by omega]
  · by_cases h₂ : i < offset + a.length
    · have h : i - offset < a.length := by omega
      simp [store, h₁, h₂, getElem?_append_left h]
    · have h : a.length ≤ i - offset := by omega
      simp [store, h₁, h₂, getElem?_append_right h, getElem?_eq_none h,
        show i - (offset + a.length) = i - offset - a.length by omega]

@[simp] theorem store_nil (mem : Memory) (offset : Nat) : mem.store offset [] = mem := by
  funext i
  simp [store]

end Memory

end Toft.Lib

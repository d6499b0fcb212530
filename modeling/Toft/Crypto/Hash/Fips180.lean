import Toft.Lib.BlockHash

/-!
# FIPS 180

SHA-1 of FIPS 180 for a string of bytes, as the standard defines it: padding, the message schedule
of 80 words, and 80 steps on five working variables for each block. Words are read and written with
the most significant byte first. The standard is for messages of less than `2 ^ 64` bits; for longer
ones the length is taken modulo `2 ^ 64` here.
-/

namespace Toft.Fips180

open Lib List

/-- The five words of a hash value. -/
abbrev HashValue := UInt32 × UInt32 × UInt32 × UInt32 × UInt32

def Ch (x y z : UInt32) : UInt32 := (x &&& y) ^^^ (~~~x &&& z)

def Parity (x y z : UInt32) : UInt32 := x ^^^ y ^^^ z

def Maj (x y z : UInt32) : UInt32 := (x &&& y) ^^^ (x &&& z) ^^^ (y &&& z)

/-- The function of step `t`. -/
def f (t : Nat) : UInt32 → UInt32 → UInt32 → UInt32 :=
  if t < 20 then Ch else if t < 40 then Parity else if t < 60 then Maj else Parity

/-- The constant of step `t`. -/
def K (t : Nat) : UInt32 :=
  if t < 20 then 0x5a827999 else if t < 40 then 0x6ed9eba1 else if t < 60 then 0x8f1bbcdc
  else 0xca62c1d6

/-- The word behind the words `W` of the message schedule. -/
def nextWord (block : Bytes) (W : List UInt32) : UInt32 :=
  let t := W.length
  if t < 16 then beWord block t
  else rotl (W.getD (t - 3) 0 ^^^ W.getD (t - 8) 0 ^^^ W.getD (t - 14) 0 ^^^ W.getD (t - 16) 0) 1

/-- The first words of the message schedule. -/
def schedule (block : Bytes) : Nat → List UInt32
  | 0 => []
  | t + 1 =>
    let W := schedule block t
    W ++ [nextWord block W]

/-- One step on the working variables. -/
def step (t : Nat) (w : UInt32) : HashValue → HashValue
  | (a, b, c, d, e) => (rotl a 5 + f t b c d + e + K t + w, a, rotl b 30, c, d)

/-- The first `n` steps for a block. -/
def steps (block : Bytes) (n : Nat) (H : HashValue) : HashValue :=
  (schedule block n).zipIdx.foldl (fun H (w, t) => step t w H) H

/-- The hash value behind one more block. -/
def processBlock : HashValue → Bytes → HashValue
  | (h₀, h₁, h₂, h₃, h₄), block =>
    let (a, b, c, d, e) := steps block 80 (h₀, h₁, h₂, h₃, h₄)
    (a + h₀, b + h₁, c + h₂, d + h₃, e + h₄)

/-- The initial hash value. -/
def init : HashValue := (0x67452301, 0xefcdab89, 0x98badcfe, 0x10325476, 0xc3d2e1f0)

/-- The 64-bit number, most significant byte first. -/
def lengthBytes (n : Nat) : Bytes := (leBytes 8 n).reverse

/-- The message with its padding. -/
def padded (message : Bytes) : Bytes := message ++ padding lengthBytes message.length

/-- The bytes of a hash value. -/
def output : HashValue → Bytes
  | (a, b, c, d, e) =>
    beWordBytes a ++ beWordBytes b ++ beWordBytes c ++ beWordBytes d ++ beWordBytes e

/-- The digest of a message. -/
def digest (message : Bytes) : Bytes :=
  output ((blocks 64 (padded message)).foldl processBlock init)

/-! ## The message schedule -/

/-- The word `t` of the message schedule. -/
def W (block : Bytes) (t : Nat) : UInt32 := nextWord block (schedule block t)

@[simp] theorem length_schedule (block : Bytes) (n : Nat) : (schedule block n).length = n := by
  induction n with
  | zero => rfl
  | succ n ih => rw [schedule, length_append, ih, length_singleton]

theorem getD_schedule (block : Bytes) {t n : Nat} (h : t < n) :
    (schedule block n).getD t 0 = W block t := by
  induction n with
  | zero => omega
  | succ n ih =>
    rw [schedule]
    obtain hlt | rfl := Nat.lt_succ_iff_lt_or_eq.mp h
    · rw [getD_append _ _ _ _ (by rwa [length_schedule]), ih hlt]
    · rw [getD_append_right _ _ _ _ (by rw [length_schedule]), length_schedule, Nat.sub_self]
      rfl

theorem W_of_lt (block : Bytes) {t : Nat} (h : t < 16) : W block t = beWord block t := by
  rw [W, nextWord, length_schedule, if_pos h]

theorem W_of_ge (block : Bytes) {t : Nat} (h : 16 ≤ t) :
    W block t =
      rotl (W block (t - 3) ^^^ W block (t - 8) ^^^ W block (t - 14) ^^^ W block (t - 16)) 1 := by
  rw [W, nextWord, length_schedule, if_neg (by omega), getD_schedule block (by omega),
    getD_schedule block (by omega), getD_schedule block (by omega), getD_schedule block (by omega)]

theorem steps_succ (block : Bytes) (n : Nat) (H : HashValue) :
    steps block (n + 1) H = step n (W block n) (steps block n H) := by
  rw [steps, schedule, zipIdx_append, foldl_append, length_schedule, Nat.zero_add]
  rfl

end Toft.Fips180

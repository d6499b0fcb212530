import Toft.Base.ByteOrder
import Toft.Base.Int
import Toft.Lib.Word32

/-!
# Numbers of sequence files

The numbers are written most significant byte first, as Hadoop writes them: an `int`, a `short`, and
a `vint` of one to nine bytes. The reader converts a number of the memory with `ntohl`. For an `int`
this is right on every host (`intOf_beBytes`); for a `short`, which it converts as an `int`, only on
a big-endian one (`shortOf_beBytes`, `shortOf_little`).
-/

namespace Toft.SeqFile

open Lib List Nat

def int16 (n : Int) : Int := n.bmod (2 ^ 16)

/-- The value of a `char`, which is signed. -/
def charValue (c : UInt8) : Int := (c.toNat : Int).bmod 256

def toChar (n : Int) : UInt8 := .ofInt n

theorem charValue_toChar {n : Int} (hlow : -128 ≤ n) (hhigh : n ≤ 127) :
    charValue (toChar n) = n := by
  have hnat : ((toChar n).toNat : Int) = n % 256 := by
    rw [toChar, UInt8.ofInt, UInt8.toNat_ofNat']
    omega
  unfold charValue
  rw [Int.bmod_def]
  split_ifs <;> omega

theorem le_charValue (c : UInt8) : -128 ≤ charValue c := by
  unfold charValue
  rw [Int.bmod_def]
  split_ifs <;> omega

/-! ## Numbers of fixed length -/

section

variable [Host]

/-- `ntohl`, which is also `htonl`: the memory of the number is read most significant byte first. -/
def ntohl (n : Nat) : Nat := beNat (Host.bytes 4 n)

/-- `WriteInt`: the memory of `htonl(i)`. -/
def intBytes (i : Int) : Bytes := Host.bytes 4 (ntohl (uint32 i))

/-- What `ReadInt` makes of four bytes. -/
def intOf (bytes : Bytes) : Int := int32 (ntohl (Host.nat bytes))

/-- What `ReadShort` makes of two bytes: `ntohl` is given the `short` as an `int`. -/
def shortOf (bytes : Bytes) : Int := int16 (ntohl (uint32 (int16 (Host.nat bytes))))

theorem bytes_nat {bytes : Bytes} {w : Nat} (h : bytes.length = w) :
    Host.bytes w (Host.nat bytes) = bytes := by
  subst h
  unfold Host.bytes Host.nat
  split
  · rw [← length_reverse, leBytes_leNat, reverse_reverse]
  · exact leBytes_leNat bytes

theorem intOf_eq {bytes : Bytes} (h : bytes.length = 4) : intOf bytes = int32 (beNat bytes) := by
  rw [intOf, ntohl, bytes_nat h]

@[simp] theorem length_intBytes (i : Int) : (intBytes i).length = 4 := Host.length_bytes 4 _

theorem intBytes_eq (i : Int) : intBytes i = beBytes 4 (uint32 i) := by
  unfold intBytes ntohl beBytes beNat Host.bytes
  split
  · rw [reverse_reverse, leNat_leBytes, leBytes_mod]
  · have hround := leBytes_leNat (leBytes 4 (uint32 i)).reverse
    rwa [length_reverse] at hround

theorem intOf_beBytes {n : Nat} (h : n < 2 ^ 32) : intOf (beBytes 4 n) = int32 n := by
  have hlt : n < 256 ^ 4 := by omega
  rw [intOf_eq (length_beBytes 4 n), beNat_beBytes_of_lt hlt]

theorem intBytes_natCast {n : Nat} (h : n < 2 ^ 31) : intBytes n = beBytes 4 n := by
  rw [intBytes_eq, uint32_of_lt (by omega)]

theorem intBytes_neg_one : intBytes (-1) = beBytes 4 (2 ^ 32 - 1) := by
  rw [intBytes_eq]
  rfl

theorem shortOf_beBytes (hbig : Host.isBigEndian = true) {n : Nat} (h : n < 2 ^ 15) :
    shortOf (beBytes 2 n) = n := by
  have hnat : Host.nat (beBytes 2 n) = n := by
    have hlt : n < 256 ^ 2 := by omega
    rw [Host.nat, if_pos hbig]
    exact beNat_beBytes_of_lt hlt
  have hshort : int16 (n : Int) = n := by
    apply Int.bmod_eq_of_le <;> omega
  have hlt : n < 256 ^ 4 := by omega
  have hntohl : ntohl n = n := by
    rw [ntohl, Host.bytes, if_pos hbig]
    exact beNat_beBytes_of_lt hlt
  rw [shortOf, hnat, hshort, uint32_of_lt (by omega), hntohl, hshort]

theorem shortOf_zero : shortOf (beBytes 2 0) = 0 := by
  cases hbig : Host.isBigEndian with
  | true => exact shortOf_beBytes hbig (by decide)
  | false =>
    simp [shortOf, ntohl, Host.nat, Host.bytes, hbig, beBytes, beNat, leBytes, leNat, int16, uint32]

omit [Host] in
/-- The half of a swapped word that a `short` keeps. -/
theorem beNat_leBytes_mod (n : Nat) :
    beNat (leBytes 4 n) % 2 ^ 16 = n / 2 ^ 16 % 256 * 256 + n / 2 ^ 24 % 256 := by
  simp only [beNat, leBytes, reverse_cons, reverse_nil, nil_append,
    cons_append, leNat, UInt8.toNat_ofNat', Nat.div_div_eq_div_mul, Nat.reduceMul,
    reducePow]
  omega

/-- On a little-endian host `ReadShort` gives the sign of the number, whose bytes it swaps into the
half that it drops. -/
theorem shortOf_little (hlittle : Host.isBigEndian = false) (bytes : Bytes) :
    shortOf bytes = 0 ∨ shortOf bytes = -1 := by
  have hlow := @Int.le_bmod (Host.nat bytes) (2 ^ 16) (by decide)
  have hhigh := @Int.bmod_lt (Host.nat bytes) (2 ^ 16) (by decide)
  unfold shortOf ntohl
  rw [Host.bytes, hlittle, if_neg Bool.false_ne_true]
  have hmod := beNat_leBytes_mod (uint32 (int16 (Host.nat bytes)))
  revert hmod
  generalize beNat (leBytes 4 (uint32 (int16 (Host.nat bytes)))) = swapped
  unfold int16 uint32
  generalize (Host.nat bytes : Int).bmod (2 ^ 16) = short at hlow hhigh
  intro hmod
  norm_num at hlow hhigh hmod ⊢
  -- the upper half of the number is the sign of the `short`
  have hupper : (short % 4294967296).toNat / 65536 = if short < 0 then 65535 else 0 := by
    split_ifs <;> omega
  rw [Int.bmod_def]
  split_ifs at hupper ⊢ <;> omega

end

/-! ## Numbers of variable length -/

/-- The number of bytes that the loop of `WriteVLong` counts. -/
def byteCount : Nat → Nat → Nat
  | 0, _ => 0
  | fuel + 1, n => if n = 0 then 0 else byteCount fuel (n / 256) + 1

def writeVLong (i : Int) : Bytes :=
  if -112 ≤ i ∧ i ≤ 127 then [toChar i]
  else
    -- the one's complement of a negative number
    let magnitude := (if i < 0 then -i - 1 else i).toNat
    let count := byteCount 8 magnitude
    toChar ((if i < 0 then -120 else -112) - count) :: beBytes count magnitude

def decodeVIntSize (value : Int) : Int :=
  if -112 ≤ value then 1 else if value < -120 then -119 - value else -111 - value

def isNegativeVInt (value : Int) : Bool := value < -120 ∨ (-112 ≤ value ∧ value < 0)

/-- What `ReadVInt` makes of the first byte and the bytes behind it. -/
def vintOf (firstByte : Int) (bytes : Bytes) : Int :=
  let i := int64 (beNat bytes)
  int32 (if isNegativeVInt firstByte then -i - 1 else i)

theorem byteCount_spec {fuel n : Nat} (h : n < 256 ^ fuel) :
    n < 256 ^ byteCount fuel n ∧ byteCount fuel n ≤ fuel ∧ (n ≠ 0 → 0 < byteCount fuel n) := by
  induction fuel generalizing n with
  | zero => exact ⟨h, le_rfl, fun hn => absurd (lt_one_iff.mp h) hn⟩
  | succ fuel ih =>
    rw [byteCount]
    split_ifs with hzero
    · exact ⟨by omega, by omega, fun hn => absurd hzero hn⟩
    · rw [pow_succ] at h
      obtain ⟨hlt, hle, -⟩ := ih (n := n / 256) (by omega)
      refine ⟨?_, by omega, fun _ => by omega⟩
      exact (div_lt_iff_lt_mul (by decide)).mp hlt

theorem writeVLong_long {i : Int} (hlong : ¬ (-112 ≤ i ∧ i ≤ 127)) (hlow : -2 ^ 31 ≤ i)
    (hhigh : i < 2 ^ 31) :
    ∃ first bytes, writeVLong i = first :: bytes ∧
      decodeVIntSize (charValue first) = bytes.length + 1 ∧ bytes ≠ [] ∧
      vintOf (charValue first) bytes = i := by
  generalize hmagnitude : (if i < 0 then -i - 1 else i).toNat = magnitude
  have hvalue : (magnitude : Int) = if i < 0 then -i - 1 else i := by
    split_ifs <;> omega
  have hbound : magnitude < 256 ^ 4 ∧ magnitude ≠ 0 := by
    split_ifs at hvalue <;> omega
  have hlt : magnitude < 256 ^ 8 := hbound.1.trans (by decide)
  obtain ⟨hcount, hle, hpos⟩ := byteCount_spec hlt
  have hpos := hpos hbound.2
  refine ⟨_, _, by rw [writeVLong, if_neg hlong, hmagnitude], ?_⟩
  generalize byteCount 8 magnitude = count at hcount hle hpos
  have hint : int64 (beNat (beBytes count magnitude)) = magnitude := by
    rw [beNat_beBytes_of_lt hcount]
    exact int64_of_lt (hbound.1.trans (by decide))
  have hne : beBytes count magnitude ≠ [] := by
    intro hnil
    have := congrArg List.length hnil
    rw [length_beBytes] at this
    simp only [length_nil] at this
    omega
  rw [length_beBytes]
  by_cases hneg : i < 0
  · have hfirst : charValue (toChar ((if i < 0 then -120 else -112) - (count : Int))) =
        -120 - count := by
      rw [if_pos hneg]
      apply charValue_toChar <;> omega
    rw [hfirst]
    refine ⟨?_, hne, ?_⟩
    · unfold decodeVIntSize
      split_ifs <;> omega
    · have hsign : isNegativeVInt (-120 - count) = true := by
        exact decide_eq_true (.inl (by omega))
      rw [vintOf, hint, hsign, hvalue]
      rw [if_pos rfl]
      apply (Int.bmod_eq_of_le (by omega) (by omega)).trans
      omega
  · have hfirst : charValue (toChar ((if i < 0 then -120 else -112) - (count : Int))) =
        -112 - count := by
      rw [if_neg hneg]
      apply charValue_toChar <;> omega
    rw [hfirst]
    refine ⟨?_, hne, ?_⟩
    · unfold decodeVIntSize
      split_ifs <;> omega
    · have hsign : isNegativeVInt (-112 - count) = false := by
        exact decide_eq_false (by omega)
      rw [vintOf, hint, hsign, hvalue, if_neg hneg]
      apply Int.bmod_eq_of_le <;> omega

end Toft.SeqFile

import Toft.Lib.Base128

/-!
# Varints

`Varint` writes a number in groups of seven bits, least significant first; each byte but the last
has its high bit set. Both encoders write `base128` of the value (`put32_eq`, `put64_eq`), although
the one for 32 bits is unrolled by magnitude and the one for 64 bits loops. Both decoders take the
groups up to the first byte without the high bit and give the number of the groups modulo the word
size, if there are no more groups than rounds of the loop (`decode32_eq`, `decode64_eq`). So streams
of values come back (`codec`), and the bits of a last group that do not fit are lost
(`decodesExactly_iff`).
-/

namespace Toft

open Lib List Nat Option

namespace Varint

/-- `Varint::Put32`: the bytes that `UnsafeEncode32` writes. -/
def put32 (v : UInt32) : Bytes :=
  if v < (1 : UInt32) <<< 7 then [v.toUInt8]
  else if v < (1 : UInt32) <<< 14 then [(v ||| 128).toUInt8, (v >>> 7).toUInt8]
  else if v < (1 : UInt32) <<< 21 then
    [(v ||| 128).toUInt8, (v >>> 7 ||| 128).toUInt8, (v >>> 14).toUInt8]
  else if v < (1 : UInt32) <<< 28 then
    [(v ||| 128).toUInt8, (v >>> 7 ||| 128).toUInt8, (v >>> 14 ||| 128).toUInt8,
      (v >>> 21).toUInt8]
  else
    [(v ||| 128).toUInt8, (v >>> 7 ||| 128).toUInt8, (v >>> 14 ||| 128).toUInt8,
      (v >>> 21 ||| 128).toUInt8, (v >>> 28).toUInt8]

/-- The loop of `Varint::Decode32Fallback`; `rounds` counts the shifts up to 28 that are left. -/
def decode32Loop : Nat → UInt32 → UInt32 → Bytes → Option (UInt32 × Bytes)
  | 0, _, _, _ => none
  | _ + 1, _, _, [] => none
  | rounds + 1, shift, result, byte :: p =>
    if byte.toUInt32 &&& 128 ≠ 0 then
      decode32Loop rounds (shift + 7) (result ||| (byte.toUInt32 &&& 127) <<< shift) p
    else some (result ||| byte.toUInt32 <<< shift, p)

def decode32Fallback (p : Bytes) : Option (UInt32 × Bytes) := decode32Loop 5 0 0 p

/-- `Varint::Decode32` of the bytes up to the limit: the value and the bytes behind it. -/
def decode32 (p : Bytes) : Option (UInt32 × Bytes) :=
  match p with
  | byte :: p' =>
    if byte.toUInt32 &&& 128 = 0 then some (byte.toUInt32, p') else decode32Fallback p
  | [] => decode32Fallback p

/-- The loop of `Varint::UnsafeEncode64`; after `rounds` shifts nothing is left to shift. -/
def unsafeEncode64Loop : Nat → UInt64 → Bytes
  | 0, v => [v.toUInt8]
  | rounds + 1, v =>
    if 128 ≤ v then (v &&& 127 ||| 128).toUInt8 :: unsafeEncode64Loop rounds (v >>> 7)
    else [v.toUInt8]

/-- `Varint::Put64`: the bytes that `UnsafeEncode64` writes. -/
def put64 (v : UInt64) : Bytes := unsafeEncode64Loop 9 v

/-- The loop of `Varint::EncodedLength`. -/
def encodedLengthLoop : Nat → UInt64 → Int → Int
  | 0, _, len => len
  | rounds + 1, v, len =>
    if 128 ≤ v then encodedLengthLoop rounds (v >>> 7) (len + 1) else len

def encodedLength (v : UInt64) : Int := encodedLengthLoop 9 v 1

/-- `Varint::Encode32` with `room` bytes from `p` to `limit`: the bytes written, `none` for
`NULL`. -/
def encode32 (room : Int) (v : UInt32) : Option Bytes :=
  if encodedLength v.toUInt64 > room then none else some (put32 v)

def encode64 (room : Int) (v : UInt64) : Option Bytes :=
  if encodedLength v > room then none else some (put64 v)

/-- The loop of `Varint::Decode64`; `rounds` counts the shifts up to 63 that are left. -/
def decode64Loop : Nat → UInt64 → UInt64 → Bytes → Option (UInt64 × Bytes)
  | 0, _, _, _ => none
  | _ + 1, _, _, [] => none
  | rounds + 1, shift, result, byte :: p =>
    if byte.toUInt64 &&& 128 ≠ 0 then
      decode64Loop rounds (shift + 7) (result ||| (byte.toUInt64 &&& 127) <<< shift) p
    else some (result ||| byte.toUInt64 <<< shift, p)

def decode64 (p : Bytes) : Option (UInt64 × Bytes) := decode64Loop 10 0 0 p

/-! ## One byte -/

theorem or_mask : ∀ n < 256, n ||| 128 = n % 128 + 128 := by decide +kernel

theorem and_mask : ∀ n < 256, n &&& 128 = n / 128 * 128 := by decide +kernel

theorem more32 (v : UInt32) : (v ||| 128).toUInt8 = UInt8.ofNat (v.toNat % 128 + 128) := by
  have hmask := or_mask (v.toNat % 256) (by omega)
  rw [← UInt8.toNat_inj, UInt32.toNat_toUInt8, UInt32.toNat_or, or_mod_two_pow, UInt8.toNat_ofNat']
  exact hmask.trans (by omega)

variable (v : UInt64)

theorem more64 : (v &&& 127 ||| 128).toUInt8 = UInt8.ofNat (v.toNat % 128 + 128) := by
  have hlow : v.toNat &&& 127 = v.toNat % 128 := and_two_pow_sub_one_eq_mod v.toNat 7
  have hmask := or_mask (v.toNat % 128) (by omega)
  rw [← UInt8.toNat_inj, UInt64.toNat_toUInt8, UInt64.toNat_or,
    UInt8.toNat_ofNat']
  refine (congrArg (· % 256) ((congrArg (· ||| 128) hlow).trans hmask)).trans ?_
  omega

theorem last32 (v : UInt32) : v.toUInt8 = UInt8.ofNat v.toNat := by
  rw [← UInt8.toNat_inj, UInt32.toNat_toUInt8, UInt8.toNat_ofNat']

theorem last64 : v.toUInt8 = UInt8.ofNat v.toNat := by
  rw [← UInt8.toNat_inj, UInt64.toNat_toUInt8, UInt8.toNat_ofNat']

theorem toNat_shiftRight (v : UInt32) {i : Nat} (h : i < 32) :
    (v >>> UInt32.ofNat i).toNat = v.toNat / 2 ^ i := by
  rw [UInt32.toNat_shiftRight, UInt32.toNat_ofNat', shiftRight_eq_div_pow]
  rw [show i % 2 ^ 32 % 32 = i by omega]

theorem toNat_shiftRight_seven : (v >>> 7).toNat = v.toNat / 128 := by
  exact shiftRight_eq_div_pow _ 7

theorem and_mask_eq_zero (b : UInt8) : b.toUInt32 &&& 128 = 0 ↔ b.toNat < 128 := by
  have hmask : b.toNat &&& 128 = b.toNat / 128 * 128 := and_mask b.toNat b.toNat_lt
  have htoNat : (b.toUInt32 &&& 128).toNat = b.toNat / 128 * 128 :=
    (UInt32.toNat_and _ _).trans hmask
  have hzero : (0 : UInt32).toNat = 0 := rfl
  rw [← UInt32.toNat_inj]
  omega

theorem and_mask64_eq_zero (b : UInt8) : b.toUInt64 &&& 128 = 0 ↔ b.toNat < 128 := by
  have hmask : b.toNat &&& 128 = b.toNat / 128 * 128 := and_mask b.toNat b.toNat_lt
  have htoNat : (b.toUInt64 &&& 128).toNat = b.toNat / 128 * 128 :=
    (UInt64.toNat_and _ _).trans hmask
  have hzero : (0 : UInt64).toNat = 0 := rfl
  rw [← UInt64.toNat_inj]
  omega

/-! ## The encoders -/

theorem put32_eq (v : UInt32) : put32 v = base128 v.toNat := by
  have h₁ : (v >>> 7).toNat = v.toNat / 128 := toNat_shiftRight v (i := 7) (by decide)
  have h₂ : (v >>> 14).toNat = v.toNat / 128 / 128 := by
    rw [Nat.div_div_eq_div_mul]
    exact toNat_shiftRight v (i := 14) (by decide)
  have h₃ : (v >>> 21).toNat = v.toNat / 128 / 128 / 128 := by
    rw [Nat.div_div_eq_div_mul, Nat.div_div_eq_div_mul]
    exact toNat_shiftRight v (i := 21) (by decide)
  have h₄ : (v >>> 28).toNat = v.toNat / 128 / 128 / 128 / 128 := by
    rw [Nat.div_div_eq_div_mul, Nat.div_div_eq_div_mul, Nat.div_div_eq_div_mul]
    exact toNat_shiftRight v (i := 28) (by decide)
  have hv := v.toNat_lt
  -- the bounds of the unrolled cases, as numbers
  have hlt (i : UInt32) : v < i ↔ v.toNat < i.toNat := UInt32.lt_iff_toNat_lt
  have e₁ : ((1 : UInt32) <<< 7).toNat = 128 := rfl
  have e₂ : ((1 : UInt32) <<< 14).toNat = 16384 := rfl
  have e₃ : ((1 : UInt32) <<< 21).toNat = 2097152 := rfl
  have e₄ : ((1 : UInt32) <<< 28).toNat = 268435456 := rfl
  simp only [put32, more32, hlt, e₁, e₂, e₃, e₄]
  simp only [last32, h₁, h₂, h₃, h₄]
  split
  · rw [base128_of_lt (by omega)]
  rw [base128_of_le (by omega)]
  split
  · rw [base128_of_lt (by omega)]
  rw [base128_of_le (by omega)]
  split
  · rw [base128_of_lt (by omega)]
  rw [base128_of_le (by omega)]
  split
  · rw [base128_of_lt (by omega)]
  rw [base128_of_le (by omega), base128_of_lt (by omega)]

variable {rounds : Nat}

theorem unsafeEncode64Loop_eq {v : UInt64} (h : v.toNat < 128 ^ (rounds + 1)) :
    unsafeEncode64Loop rounds v = base128 v.toNat := by
  induction rounds generalizing v with
  | zero => rw [unsafeEncode64Loop, last64, base128_of_lt (by omega)]
  | succ rounds ih =>
    rw [unsafeEncode64Loop]
    split
    · rename_i hle
      have hle : 128 ≤ v.toNat := UInt64.le_iff_toNat_le.mp hle
      have hdiv := toNat_shiftRight_seven v
      have hshift : (v >>> 7).toNat < 128 ^ (rounds + 1) := by
        omega
      rw [more64, ih hshift, hdiv, base128_of_le hle]
    · rename_i hlt
      have hlt : ¬ 128 ≤ v.toNat := fun hle => hlt (UInt64.le_iff_toNat_le.mpr hle)
      rw [last64, base128_of_lt (by omega)]

theorem toNat_lt_pow : v.toNat < 128 ^ (9 + 1) := by
  have := v.toNat_lt
  omega

theorem put64_eq : put64 v = base128 v.toNat := unsafeEncode64Loop_eq (toNat_lt_pow v)

theorem encodedLengthLoop_eq {v : UInt64} (len : Int) (h : v.toNat < 128 ^ (rounds + 1)) :
    encodedLengthLoop rounds v len + 1 = len + (base128 v.toNat).length := by
  induction rounds generalizing v len with
  | zero => rw [base128_of_lt (by omega)]; rfl
  | succ rounds ih =>
    rw [encodedLengthLoop]
    split
    · rename_i hle
      have hle : 128 ≤ v.toNat := UInt64.le_iff_toNat_le.mp hle
      have hdiv := toNat_shiftRight_seven v
      have hshift : (v >>> 7).toNat < 128 ^ (rounds + 1) := by
        omega
      rw [ih _ hshift, hdiv, base128_of_le hle, length_cons]
      omega
    · rename_i hlt
      have hlt : ¬ 128 ≤ v.toNat := fun hle => hlt (UInt64.le_iff_toNat_le.mpr hle)
      rw [base128_of_lt (by omega)]
      rfl

theorem encodedLength_eq : encodedLength v = (base128 v.toNat).length := by
  have h := encodedLengthLoop_eq 1 (toNat_lt_pow v)
  unfold encodedLength
  omega

/-! ## The decoders -/

theorem toNat_and_low (b : UInt8) : (b.toUInt32 &&& 127).toNat = b.toNat % 128 := by
  exact and_two_pow_sub_one_eq_mod b.toNat 7

theorem toNat_and_low64 (b : UInt8) : (b.toUInt64 &&& 127).toNat = b.toNat % 128 := by
  exact and_two_pow_sub_one_eq_mod b.toNat 7

/-- The result of a loop that read `groups` in at most `rounds` rounds. -/
def inRounds {α : Type} (rounds : Nat) (value : Bytes → α) (p : Bytes) : Option (α × Bytes) :=
  (splitGroups p).bind fun (groups, q) =>
    if groups.length ≤ rounds then some (value groups, q) else none

section inRounds

variable {α : Type} {value : Bytes → α}

theorem inRounds_zero (p : Bytes) : inRounds 0 value p = none := by
  refine bind_eq_none_iff.mpr fun (groups, q) h => if_neg ?_
  obtain ⟨init, last, rfl, -⟩ := splitGroups_eq_some.mp h
  simp

theorem inRounds_last {b : UInt8} (rounds : Nat) (p : Bytes) (h : b.toNat < 128) :
    inRounds (rounds + 1) value (b :: p) = some (value [b], p) := by
  rw [inRounds, splitGroups_last p h, bind_some]
  exact if_pos (le_add_left 1 rounds)

theorem inRounds_more {b : UInt8} (rounds : Nat) (p : Bytes) (h : 128 ≤ b.toNat) :
    inRounds (rounds + 1) value (b :: p) =
      inRounds rounds (fun groups => value (b :: groups)) p := by
  simp only [inRounds, splitGroups_more p h, bind_map]
  congr 1
  funext (groups, q)
  simp only [Function.comp_apply, length_cons, add_le_add_iff_right]

end inRounds

theorem add_group_lt {lo i : Nat} (b : UInt8) (h : lo < 2 ^ i) :
    lo + 2 ^ i * (b.toNat % 128) < 2 ^ (i + 7) := by
  have hgroup : 2 ^ i * (b.toNat % 128) ≤ 2 ^ i * 127 := mul_le_mul_left _ (by omega)
  rw [pow_add]
  omega

variable {α : Type}

/-- The sum so far may be cut to the size of the word before the next groups are added. -/
theorem inRounds_more_mod {ofNat : Nat → α} {m : Nat}
    (hmod : ∀ x y, ofNat (x % m + y) = ofNat (x + y)) {b : UInt8} (rounds lo i : Nat) (p : Bytes)
    (h : 128 ≤ b.toNat) :
    inRounds (rounds + 1) (fun groups => ofNat (lo + 2 ^ i * groupsNat groups)) (b :: p) =
      inRounds rounds (fun groups =>
        ofNat ((lo + 2 ^ i * (b.toNat % 128)) % m + 2 ^ (i + 7) * groupsNat groups)) p := by
  rw [inRounds_more rounds p h]
  congr 1
  funext groups
  rw [hmod, groupsNat]
  congr 1
  ring

theorem decode32Loop_eq {rounds i : Nat} {result : UInt32} (p : Bytes)
    (hi : i + 7 * rounds < 39) (hlow : result.toNat < 2 ^ i) :
    decode32Loop rounds (UInt32.ofNat i) result p =
      inRounds rounds (fun groups => UInt32.ofNat (result.toNat + 2 ^ i * groupsNat groups)) p := by
  have hword (x y : Nat) : UInt32.ofNat (x % 2 ^ 32 + y) = UInt32.ofNat (x + y) := by
    rw [← UInt32.toNat_inj, UInt32.toNat_ofNat', UInt32.toNat_ofNat', mod_add_mod]
  induction rounds generalizing i result p with
  | zero => exact (inRounds_zero p).symm
  | succ rounds ih =>
    cases p with
    | nil => rfl
    | cons b p =>
      by_cases hb : b.toNat < 128
      · have hmask : b.toUInt32 &&& 128 = 0 := (and_mask_eq_zero b).mpr hb
        rw [decode32Loop, if_neg (not_not_intro hmask), inRounds_last rounds p hb,
          or_shiftLeft32 (by omega) hlow, UInt8.toNat_toUInt32, groupsNat_single hb]
      · have hmask : ¬ (b.toUInt32 &&& 128 = 0) := mt (and_mask_eq_zero b).mp hb
        have hnext := (mod_le _ (2 ^ 32)).trans_lt (add_group_lt b hlow)
        have hshift : UInt32.ofNat i + 7 = UInt32.ofNat (i + 7) := (UInt32.ofNat_add i 7).symm
        rw [decode32Loop, if_pos hmask, hshift, or_shiftLeft32 (by omega) hlow, toNat_and_low,
          inRounds_more_mod hword _ _ _ p (by omega)]
        exact ih (i := i + 7) p (by omega) hnext

theorem decode64Loop_eq {rounds i : Nat} {result : UInt64} (p : Bytes)
    (hi : i + 7 * rounds < 71) (hlow : result.toNat < 2 ^ i) :
    decode64Loop rounds (UInt64.ofNat i) result p =
      inRounds rounds (fun groups => UInt64.ofNat (result.toNat + 2 ^ i * groupsNat groups)) p := by
  have hword (x y : Nat) : UInt64.ofNat (x % 2 ^ 64 + y) = UInt64.ofNat (x + y) := by
    rw [← UInt64.toNat_inj, UInt64.toNat_ofNat', UInt64.toNat_ofNat', mod_add_mod]
  induction rounds generalizing i result p with
  | zero => exact (inRounds_zero p).symm
  | succ rounds ih =>
    cases p with
    | nil => rfl
    | cons b p =>
      by_cases hb : b.toNat < 128
      · have hmask : b.toUInt64 &&& 128 = 0 := (and_mask64_eq_zero b).mpr hb
        rw [decode64Loop, if_neg (not_not_intro hmask), inRounds_last rounds p hb,
          or_shiftLeft64 (by omega) hlow, UInt8.toNat_toUInt64, groupsNat_single hb]
      · have hmask : ¬ (b.toUInt64 &&& 128 = 0) := mt (and_mask64_eq_zero b).mp hb
        have hnext := (mod_le _ (2 ^ 64)).trans_lt (add_group_lt b hlow)
        have hshift : UInt64.ofNat i + 7 = UInt64.ofNat (i + 7) := (UInt64.ofNat_add i 7).symm
        rw [decode64Loop, if_pos hmask, hshift, or_shiftLeft64 (by omega) hlow, toNat_and_low64,
          inRounds_more_mod hword _ _ _ p (by omega)]
        exact ih (i := i + 7) p (by omega) hnext

theorem decode32_eq_decode32Fallback (p : Bytes) : decode32 p = decode32Fallback p := by
  cases p with
  | nil => rfl
  | cons byte p =>
    simp only [decode32]
    split
    · rename_i hmask
      rw [decode32Fallback, decode32Loop, if_neg (not_not_intro hmask)]
      simp
    · rfl

theorem decode32_eq (p : Bytes) :
    decode32 p = inRounds 5 (fun groups => UInt32.ofNat (groupsNat groups)) p := by
  have h := @decode32Loop_eq 5 0 0 p (by decide) (by decide)
  rw [decode32_eq_decode32Fallback]
  refine h.trans ?_
  simp only [UInt32.toNat_zero, pow_zero, one_mul, zero_add]

theorem decode64_eq (p : Bytes) :
    decode64 p = inRounds 10 (fun groups => UInt64.ofNat (groupsNat groups)) p := by
  have h := @decode64Loop_eq 10 0 0 p (by decide) (by decide)
  refine h.trans ?_
  simp only [UInt64.toNat_zero, pow_zero, one_mul, zero_add]

/-- The groups that an encoder wrote are read in enough rounds. -/
theorem inRounds_base128 {rounds n : Nat} (value : Bytes → α) (p : Bytes)
    (h : n < 128 ^ (rounds + 1)) :
    inRounds (rounds + 1) value (base128 n ++ p) = some (value (base128 n), p) := by
  rw [inRounds, splitGroups_base128]
  exact if_pos (length_base128_le h)

/-- **Varint round trip.** -/
theorem decode32_put32 (v : UInt32) (p : Bytes) : decode32 (put32 v ++ p) = some (v, p) := by
  have hv : v.toNat < 128 ^ (4 + 1) := by
    have := v.toNat_lt
    omega
  rw [decode32_eq, put32_eq, inRounds_base128 _ p hv, groupsNat_base128, UInt32.ofNat_toNat]

theorem decode64_put64 (p : Bytes) : decode64 (put64 v ++ p) = some (v, p) := by
  rw [decode64_eq, put64_eq, inRounds_base128 _ p (toNat_lt_pow v), groupsNat_base128,
    UInt64.ofNat_toNat]

/-! ## Streams -/

/-- A value of a stream. -/
inductive Value where
  | u32 (v : UInt32)
  | u64 (v : UInt64)
  deriving DecidableEq, Repr

/-- Which of the two decoders is called. -/
inductive Width where
  | w32
  | w64
  deriving DecidableEq, Repr

def Value.width : Value → Width
  | .u32 _ => .w32
  | .u64 _ => .w64

/-- The value as `EncodedLength` takes it. -/
def Value.toUInt64 : Value → UInt64
  | .u32 v => v.toUInt64
  | .u64 v => v

def put : Value → Bytes
  | .u32 v => put32 v
  | .u64 v => put64 v

/-- One value of the given width from the front of the input, as `Get32` and `Get64` take it. -/
def get : Width → Bytes → Option (Value × Bytes)
  | .w32, p => (decode32 p).map fun (v, q) => (.u32 v, q)
  | .w64, p => (decode64 p).map fun (v, q) => (.u64 v, q)

def putAll (values : List Value) : Bytes := values.flatMap put

def getAll : List Width → Bytes → Option (List Value × Bytes)
  | [], p => some ([], p)
  | width :: widths, p => do
    let (value, q) ← get width p
    let (values, rest) ← getAll widths q
    return (value :: values, rest)

theorem put_eq (value : Value) : put value = base128 value.toUInt64.toNat := by
  cases value with
  | u32 v => exact (put32_eq v).trans (by rw [Value.toUInt64, UInt32.toNat_toUInt64])
  | u64 v => exact put64_eq v

theorem length_put (value : Value) : ((put value).length : Int) = encodedLength value.toUInt64 := by
  rw [put_eq, encodedLength_eq]

theorem get_put (value : Value) (p : Bytes) :
    get value.width (put value ++ p) = some (value, p) := by
  cases value with
  | u32 v => simp only [Value.width, get, put, decode32_put32, map_some]
  | u64 v => simp only [Value.width, get, put, decode64_put64, map_some]

theorem getAll_putAll (values : List Value) (p : Bytes) :
    getAll (values.map Value.width) (putAll values ++ p) = some (values, p) := by
  induction values with
  | nil => rfl
  | cons value values ih =>
    have hsplit : putAll (value :: values) ++ p = put value ++ (putAll values ++ p) := by
      simp [putAll]
    simp only [map_cons, getAll, hsplit, get_put, bind_eq_bind, bind_some, ih]
    rfl

/-- **The codec.** A stream of values written one after another is read back in the same widths up
to its last byte; a value takes `EncodedLength` bytes; both encoders agree where both apply; the
fast path of `Decode32` changes nothing; and the encoders with a limit write exactly if there is
room. -/
theorem codec :
    (∀ values rest, getAll (values.map Value.width) (putAll values ++ rest) = some (values, rest)) ∧
    (∀ value, ((put value).length : Int) = encodedLength value.toUInt64) ∧
    (∀ v : UInt32, put64 v.toUInt64 = put32 v) ∧
    (∀ p, decode32 p = decode32Fallback p) ∧
    (∀ room v, encode32 room v =
      if ((put32 v).length : Int) ≤ room then some (put32 v) else none) ∧
    (∀ room v, encode64 room v =
      if ((put64 v).length : Int) ≤ room then some (put64 v) else none) := by
  refine ⟨getAll_putAll, length_put, fun v => ?_, decode32_eq_decode32Fallback, fun room v => ?_,
    fun room v => ?_⟩
  · rw [put64_eq, put32_eq, UInt32.toNat_toUInt64]
  · have hlength : ((put32 v).length : Int) = encodedLength v.toUInt64 := length_put (.u32 v)
    rw [encode32]
    split <;> split <;> first | rfl | omega
  · have hlength : ((put64 v).length : Int) = encodedLength v := length_put (.u64 v)
    rw [encode64]
    split <;> split <;> first | rfl | omega

/-! ## Bits that do not fit -/

/-- What `Decode32` accepts `Decode64` reads as the same value up to the same byte, and the value
that `Decode64` gives is the number that the bytes up to there write. -/
def DecodesExactly (p : Bytes) : Prop :=
  (∀ v q, decode32 p = some (v, q) → decode64 p = some (v.toUInt64, q)) ∧
    ∀ v q, decode64 p = some (v, q) → ∃ groups, p = groups ++ q ∧ v.toNat = groupsNat groups

/-- The last group of a number in five groups has at most four bits, and of one in ten groups
one. -/
def LastGroupFits (p : Bytes) : Prop :=
  ∀ groups last q, p = groups ++ last :: q → (∀ b ∈ groups, 128 ≤ b.toNat) → last.toNat < 128 →
    (groups.length = 4 → last.toNat < 16) ∧ (groups.length = 9 → last.toNat < 2)

theorem inRounds_eq_some {value : Bytes → α} {p q : Bytes} {v : α} :
    inRounds rounds value p = some (v, q) ↔
      ∃ groups, splitGroups p = some (groups, q) ∧ groups.length ≤ rounds ∧ value groups = v := by
  simp only [inRounds, bind_eq_some_iff, Prod.exists, ite_none_right_eq_some,
    Option.some.injEq, Prod.mk.injEq]
  constructor
  · rintro ⟨groups, _, h, hlen, hv, rfl⟩
    exact ⟨groups, h, hlen, hv⟩
  · rintro ⟨groups, h, hlen, hv⟩
    exact ⟨groups, q, h, hlen, hv, rfl⟩

/-- A 32-bit and a 64-bit sum of at most five groups are the same exactly if nothing is lost. -/
theorem ofNat_eq_toUInt64 {n : Nat} (h : n < 2 ^ 64) :
    UInt64.ofNat n = (UInt32.ofNat n).toUInt64 ↔ n < 2 ^ 32 := by
  rw [← UInt64.toNat_inj, UInt32.toNat_toUInt64, UInt64.toNat_ofNat', UInt32.toNat_ofNat']
  omega

theorem decodesExactly_iff_groups {p : Bytes} :
    DecodesExactly p ↔ ∀ groups q, splitGroups p = some (groups, q) →
      (groups.length ≤ 5 → groupsNat groups < 2 ^ 32) ∧
        (groups.length ≤ 10 → groupsNat groups < 2 ^ 64) := by
  simp only [DecodesExactly, decode32_eq, decode64_eq, inRounds_eq_some]
  constructor
  · rintro ⟨hsame, hvalue⟩ groups q hsplit
    have hten (hlen : groups.length ≤ 10) : groupsNat groups < 2 ^ 64 := by
      obtain ⟨groups', happend, heq⟩ := hvalue _ q ⟨_, hsplit, hlen, rfl⟩
      obtain rfl : groups = groups' :=
        append_cancel_right ((splitGroups_append hsplit).symm.trans happend)
      rw [UInt64.toNat_ofNat'] at heq
      omega
    refine ⟨fun hlen => ?_, hten⟩
    obtain ⟨groups', hsplit', -, heq⟩ := hsame _ q ⟨_, hsplit, hlen, rfl⟩
    cases hsplit.symm.trans hsplit'
    exact (ofNat_eq_toUInt64 (hten (by omega))).mp heq
  · intro hfits
    constructor
    · rintro _ q ⟨groups, hsplit, hlen, rfl⟩
      obtain ⟨hfive, hten⟩ := hfits groups q hsplit
      exact ⟨groups, hsplit, by omega, (ofNat_eq_toUInt64 (hten (by omega))).mpr (hfive hlen)⟩
    · rintro _ q ⟨groups, hsplit, hlen, rfl⟩
      refine ⟨groups, splitGroups_append hsplit, ?_⟩
      rw [UInt64.toNat_ofNat', mod_eq_of_lt ((hfits groups q hsplit).2 hlen)]

/-- **What does not fit.** The decoders do not reject a last group with too many bits: they drop
the bits above the word. Only then do they give a wrong value. -/
theorem decodesExactly_iff (p : Bytes) : DecodesExactly p ↔ LastGroupFits p := by
  rw [decodesExactly_iff_groups]
  constructor
  · intro h groups last q hp hgroups hlast
    obtain ⟨hfive, hten⟩ := h _ q (splitGroups_eq_some.mpr ⟨groups, last, rfl, hp, hgroups, hlast⟩)
    rw [length_append, length_singleton] at hfive hten
    constructor
    · intro hlen
      exact (groupsNat_lt_iff (k := 4) (c := 16) hlast (by omega) (by decide)).mp
        (hfive (by omega)) hlen
    · intro hlen
      exact (groupsNat_lt_iff (k := 9) (c := 2) hlast (by omega) (by decide)).mp
        (hten (by omega)) hlen
  · intro h groups q hsplit
    obtain ⟨init, last, rfl, hp, hinit, hlast⟩ := splitGroups_eq_some.mp hsplit
    obtain ⟨hfour, hnine⟩ := h init last q hp hinit hlast
    rw [length_append, length_singleton]
    constructor
    · intro hlen
      exact (groupsNat_lt_iff (k := 4) (c := 16) hlast (by omega) (by decide)).mpr hfour
    · intro hlen
      exact (groupsNat_lt_iff (k := 9) (c := 2) hlast (by omega) (by decide)).mpr hnine

/-- `80 80 80 80 10` is 2³² to `Decode64` and 0 to `Decode32`; nine times `80` and `02` is 2⁶⁴, and
0 to `Decode64`. -/
theorem decoders_drop_bits :
    ¬ DecodesExactly [0x80, 0x80, 0x80, 0x80, 0x10] ∧
      ¬ DecodesExactly (List.replicate 9 0x80 ++ [0x02]) := by
  constructor
  · rintro ⟨hsame, -⟩
    have h32 : decode32 [0x80, 0x80, 0x80, 0x80, 0x10] = some (0, []) := by decide
    have h64 : decode64 [0x80, 0x80, 0x80, 0x80, 0x10] = some (0x100000000, []) := by decide
    exact absurd (h64.symm.trans (hsame 0 [] h32)) (by decide)
  · rintro ⟨-, hvalue⟩
    have h64 : decode64 (List.replicate 9 0x80 ++ [0x02]) = some (0, []) := by decide
    obtain ⟨groups, hgroups, heq⟩ := hvalue 0 [] h64
    rw [append_nil] at hgroups
    rw [← hgroups] at heq
    exact absurd heq (by decide)

end Varint

end Toft

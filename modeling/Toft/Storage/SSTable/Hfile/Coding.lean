import Toft.Base.ByteOrder
import Toft.Base.Fault
import Toft.Base.Int
import Toft.Encoding.Varint

/-!
# Fixed-length numbers and strings of the table format

The encoders append to a string. The decoders move a pointer through a buffer; the pointer is the
part of the buffer from it to the end, and a read at or behind the end is a fault.
-/

namespace Toft.Hfile

open Lib Host Varint UInt32 Nat

section Numbers

variable [Host]

/-! ## Encoding -/

/-- `PutFixed32`: the bytes that `EncodeFixed32` writes. -/
def putFixed32 (value : UInt32) : Bytes :=
  if isBigEndian then bytes 4 value.toNat
  else [(value &&& 0xff).toUInt8, (value >>> 8 &&& 0xff).toUInt8, (value >>> 16 &&& 0xff).toUInt8,
    (value >>> 24 &&& 0xff).toUInt8]

/-- `PutFixed64`: the bytes that `EncodeFixed64` writes. -/
def putFixed64 (value : UInt64) : Bytes :=
  if isBigEndian then bytes 8 value.toNat
  else [(value &&& 0xff).toUInt8, (value >>> 8 &&& 0xff).toUInt8, (value >>> 16 &&& 0xff).toUInt8,
    (value >>> 24 &&& 0xff).toUInt8, (value >>> 32 &&& 0xff).toUInt8,
    (value >>> 40 &&& 0xff).toUInt8, (value >>> 48 &&& 0xff).toUInt8,
    (value >>> 56 &&& 0xff).toUInt8]

/-! ## Decoding -/

def decodeFixed32 (a b c d : UInt8) : UInt32 :=
  if isBigEndian then ofNat (nat [a, b, c, d])
  else a.toUInt32 ||| b.toUInt32 <<< 8 ||| c.toUInt32 <<< 16 ||| d.toUInt32 <<< 24

def decodeFixed64 (a b c d e f g h : UInt8) : UInt64 :=
  if isBigEndian then UInt64.ofNat (nat [a, b, c, d, e, f, g, h])
  else
    let lo := (decodeFixed32 a b c d).toUInt64
    let hi := (decodeFixed32 e f g h).toUInt64
    hi <<< 32 ||| lo

def readInt32 : Bytes → Except Fault (Int × Bytes)
  | a :: b :: c :: d :: buffer => .ok (int32 (decodeFixed32 a b c d).toNat, buffer)
  | _ => .error .overrun

def readInt64 : Bytes → Except Fault (Int × Bytes)
  | a :: b :: c :: d :: e :: f :: g :: h :: buffer =>
    .ok (int64 (decodeFixed64 a b c d e f g h).toNat, buffer)
  | _ => .error .overrun

/-! ## Round trips -/

omit [Host] in
theorem toUInt8_byte32 (v : UInt32) {i : Nat} (h : i < 32) :
    (v >>> UInt32.ofNat i &&& 0xff).toUInt8 = UInt8.ofNat (v.toNat / 2 ^ i) := by
  have hmask : v.toNat / 2 ^ i &&& 0xff = v.toNat / 2 ^ i % 256 :=
    and_two_pow_sub_one_eq_mod _ 8
  rw [← UInt8.toNat_inj, UInt32.toNat_toUInt8, UInt32.toNat_and, toNat_shiftRight v h,
    UInt8.toNat_ofNat']
  show (v.toNat / 2 ^ i &&& 0xff) % 256 = _
  omega

theorem putFixed32_eq (v : UInt32) : putFixed32 v = bytes 4 v.toNat := by
  have h₀ := toUInt8_byte32 v (i := 0) (by decide)
  have h₁ := toUInt8_byte32 v (i := 8) (by decide)
  have h₂ := toUInt8_byte32 v (i := 16) (by decide)
  have h₃ := toUInt8_byte32 v (i := 24) (by decide)
  unfold putFixed32
  split
  · rfl
  · rename_i hlittle
    rw [bytes, if_neg hlittle]
    simp only [leBytes, Nat.div_div_eq_div_mul]
    exact congrArg₂ _ (by simpa using h₀) (congrArg₂ _ h₁ (congrArg₂ _ h₂ (congrArg₂ _ h₃ rfl)))

omit [Host] in
theorem toUInt8_byte64 (v : UInt64) {i : Nat} (h : i < 64) :
    (v >>> UInt64.ofNat i &&& 0xff).toUInt8 = UInt8.ofNat (v.toNat / 2 ^ i) := by
  have hmask : v.toNat / 2 ^ i &&& 0xff = v.toNat / 2 ^ i % 256 :=
    and_two_pow_sub_one_eq_mod _ 8
  have hshift : (UInt64.ofNat i).toNat % 64 = i := by
    rw [UInt64.toNat_ofNat']
    omega
  rw [← UInt8.toNat_inj, UInt64.toNat_toUInt8, UInt64.toNat_and, UInt64.toNat_shiftRight, hshift,
    shiftRight_eq_div_pow, UInt8.toNat_ofNat']
  show (v.toNat / 2 ^ i &&& 0xff) % 256 = _
  omega

theorem putFixed64_eq (v : UInt64) : putFixed64 v = bytes 8 v.toNat := by
  have h₀ := toUInt8_byte64 v (i := 0) (by decide)
  have h₁ := toUInt8_byte64 v (i := 8) (by decide)
  have h₂ := toUInt8_byte64 v (i := 16) (by decide)
  have h₃ := toUInt8_byte64 v (i := 24) (by decide)
  have h₄ := toUInt8_byte64 v (i := 32) (by decide)
  have h₅ := toUInt8_byte64 v (i := 40) (by decide)
  have h₆ := toUInt8_byte64 v (i := 48) (by decide)
  have h₇ := toUInt8_byte64 v (i := 56) (by decide)
  unfold putFixed64
  split
  · rfl
  · rename_i hlittle
    rw [bytes, if_neg hlittle]
    simp only [leBytes, Nat.div_div_eq_div_mul]
    exact congrArg₂ _ (by simpa using h₀) (congrArg₂ _ h₁ (congrArg₂ _ h₂ (congrArg₂ _ h₃
      (congrArg₂ _ h₄ (congrArg₂ _ h₅ (congrArg₂ _ h₆ (congrArg₂ _ h₇ rfl)))))))

theorem toNat_decodeFixed32 (a b c d : UInt8) :
    (decodeFixed32 a b c d).toNat = nat [a, b, c, d] := by
  unfold decodeFixed32
  split
  · have hlt : nat [a, b, c, d] < 2 ^ 32 := by simpa using nat_lt [a, b, c, d]
    rw [toNat_ofNat', mod_eq_of_lt hlt]
  · rename_i hlittle
    rw [or_shift_bytes, nat, if_neg hlittle]

theorem toNat_decodeFixed64 (a b c d e f g h : UInt8) :
    (decodeFixed64 a b c d e f g h).toNat = nat [a, b, c, d, e, f, g, h] := by
  unfold decodeFixed64
  by_cases hbig : isBigEndian
  · have hlt : nat [a, b, c, d, e, f, g, h] < 2 ^ 64 := by
      simpa using nat_lt [a, b, c, d, e, f, g, h]
    rw [if_pos hbig, UInt64.toNat_ofNat', mod_eq_of_lt hlt]
  · have hlow : (decodeFixed32 a b c d).toNat < 2 ^ 32 := toNat_lt _
    have hhigh : (decodeFixed32 e f g h).toNat < 2 ^ 32 := toNat_lt _
    have hshift : (decodeFixed32 e f g h).toNat <<< 32 % 2 ^ 64 =
        (decodeFixed32 e f g h).toNat <<< 32 := by
      omega
    have happend : leNat [a, b, c, d, e, f, g, h] =
        leNat [a, b, c, d] + 2 ^ 32 * leNat [e, f, g, h] := by
      simpa using leNat_append [a, b, c, d] [e, f, g, h]
    rw [if_neg hbig, UInt64.toNat_or, UInt64.toNat_shiftLeft, toNat_toUInt64,
      toNat_toUInt64, show (32 : UInt64).toNat % 64 = 32 from rfl, hshift, Nat.or_comm,
      or_shift hlow, toNat_decodeFixed32, toNat_decodeFixed32]
    simp only [nat, if_neg hbig, happend]

theorem readInt32_append {bytes : Bytes} (h : bytes.length = 4) (rest : Bytes) :
    readInt32 (bytes ++ rest) = .ok (int32 (nat bytes), rest) := by
  match bytes, h with
  | [a, b, c, d], _ =>
    rw [← toNat_decodeFixed32]
    rfl

theorem readInt64_append {bytes : Bytes} (h : bytes.length = 8) (rest : Bytes) :
    readInt64 (bytes ++ rest) = .ok (int64 (nat bytes), rest) := by
  match bytes, h with
  | [a, b, c, d, e, f, g, h], _ =>
    rw [← toNat_decodeFixed64]
    rfl

@[simp] theorem length_putFixed32 (v : UInt32) : (putFixed32 v).length = 4 := by
  rw [putFixed32_eq, length_bytes]

@[simp] theorem length_putFixed64 (v : UInt64) : (putFixed64 v).length = 8 := by
  rw [putFixed64_eq, length_bytes]

theorem readInt32_putFixed32 (v : UInt32) (rest : Bytes) :
    readInt32 (putFixed32 v ++ rest) = .ok (int32 v.toNat, rest) := by
  rw [readInt32_append (length_putFixed32 v), putFixed32_eq, nat_bytes_of_lt v.toNat_lt]

theorem readInt64_putFixed64 (v : UInt64) (rest : Bytes) :
    readInt64 (putFixed64 v ++ rest) = .ok (int64 v.toNat, rest) := by
  rw [readInt64_append (length_putFixed64 v), putFixed64_eq, nat_bytes_of_lt v.toNat_lt]

/-! ## What a successful read takes -/

theorem readInt32_eq_ok_iff {s rest : Bytes} {n : Int} :
    readInt32 s = .ok (n, rest) ↔
      ∃ bytes, bytes.length = 4 ∧ s = bytes ++ rest ∧ n = int32 (nat bytes) := by
  constructor
  · intro h
    unfold readInt32 at h
    split at h
    · rename_i a b c d buffer
      obtain ⟨hn, hrest⟩ := Prod.mk.inj (Except.ok.inj h)
      rw [toNat_decodeFixed32] at hn
      exact ⟨[a, b, c, d], rfl, congrArg ([a, b, c, d] ++ ·) hrest, hn.symm⟩
    · cases h
  · rintro ⟨bytes, hlen, hs, hn⟩
    rw [hs, hn]
    exact readInt32_append hlen rest

theorem readInt32_eq_error_iff {s : Bytes} {e : Fault} :
    readInt32 s = .error e ↔ s.length < 4 ∧ .overrun = e := by
  unfold readInt32
  split
  · simp
  · rename_i hshort
    match s with
    | [] | [_] | [_, _] | [_, _, _] => simp
    | a :: b :: c :: d :: buffer => exact absurd rfl (hshort a b c d buffer)

theorem readInt64_eq_ok_iff {s rest : Bytes} {n : Int} :
    readInt64 s = .ok (n, rest) ↔
      ∃ bytes, bytes.length = 8 ∧ s = bytes ++ rest ∧ n = int64 (nat bytes) := by
  constructor
  · intro h
    unfold readInt64 at h
    split at h
    · rename_i a b c d e f g h' buffer
      obtain ⟨hn, hrest⟩ := Prod.mk.inj (Except.ok.inj h)
      rw [toNat_decodeFixed64] at hn
      exact ⟨[a, b, c, d, e, f, g, h'], rfl, congrArg ([a, b, c, d, e, f, g, h'] ++ ·) hrest,
        hn.symm⟩
    · cases h
  · rintro ⟨bytes, hlen, hs, hn⟩
    rw [hs, hn]
    exact readInt64_append hlen rest

theorem readInt64_eq_error {s : Bytes} {e : Fault} (h : readInt64 s = .error e) : .overrun = e := by
  unfold readInt64 at h
  split at h
  · cases h
  · cases h
    rfl

end Numbers

/-! ## Varints and strings -/

def readVint (buffer : Bytes) : Except Fault (Int × Bytes) :=
  match decode32 buffer with
  | none => .error .fatal
  | some (value, q) => .ok (int32 value.toNat, q)

theorem readVint_put32 (v : UInt32) (rest : Bytes) :
    readVint (put32 v ++ rest) = .ok (int32 v.toNat, rest) := by
  rw [readVint, decode32_put32]

/-- The bytes of a varint for `n`. -/
def Vint (n : Int) (bytes : Bytes) : Prop :=
  ∃ value : UInt32, decode32 bytes = some (value, []) ∧ n = int32 value.toNat

theorem readVint_eq_ok_iff {s rest : Bytes} {n : Int} :
    readVint s = .ok (n, rest) ↔ ∃ bytes, s = bytes ++ rest ∧ Vint n bytes := by
  have hdecode : ∀ value, decode32 s = some (value, rest) ↔
      ∃ bytes, s = bytes ++ rest ∧ decode32 bytes = some (value, []) := by
    intro value
    constructor
    · intro h
      rw [decode32_eq, inRounds_eq_some] at h
      obtain ⟨groups, hgroups, hlen, hvalue⟩ := h
      obtain ⟨init, last, rfl, rfl, hinit, hlast⟩ := splitGroups_eq_some.mp hgroups
      refine ⟨init ++ [last], by simp, ?_⟩
      rw [decode32_eq, inRounds_eq_some]
      exact ⟨_, splitGroups_eq_some.mpr ⟨init, last, rfl, by simp, hinit, hlast⟩, hlen, hvalue⟩
    · rintro ⟨bytes, rfl, h⟩
      rw [decode32_eq, inRounds_eq_some] at h ⊢
      obtain ⟨groups, hgroups, hlen, hvalue⟩ := h
      obtain ⟨init, last, rfl, rfl, hinit, hlast⟩ := splitGroups_eq_some.mp hgroups
      exact ⟨_, splitGroups_eq_some.mpr ⟨init, last, rfl, by simp, hinit, hlast⟩, hlen, hvalue⟩
  unfold readVint Vint
  cases hs : decode32 s with
  | none =>
    simp only [reduceCtorEq, false_iff]
    rintro ⟨bytes, hbytes, value, hvalue, -⟩
    cases hs.symm.trans ((hdecode value).mpr ⟨bytes, hbytes, hvalue⟩)
  | some result =>
    obtain ⟨value, q⟩ := result
    constructor
    · intro h
      obtain ⟨hn, hrest⟩ := Prod.mk.inj (Except.ok.inj h)
      obtain ⟨bytes, hbytes, hvalue⟩ := (hdecode value).mp (hrest ▸ hs)
      exact ⟨bytes, hbytes, value, hvalue, hn.symm⟩
    · rintro ⟨bytes, hbytes, value', hvalue, hn⟩
      obtain ⟨hv, hq⟩ := Prod.mk.inj (Option.some.inj
        (hs.symm.trans ((hdecode value').mpr ⟨bytes, hbytes, hvalue⟩)))
      rw [hn, ← hv, hq]

theorem readVint_eq_error_iff {s : Bytes} {e : Fault} :
    readVint s = .error e ↔ decode32 s = none ∧ .fatal = e := by
  unfold readVint
  cases decode32 s <;> simp

theorem Vint.ne_nil {n : Int} {bytes : Bytes} (h : Vint n bytes) : bytes ≠ [] := by
  rintro rfl
  obtain ⟨value, hvalue, -⟩ := h
  cases hvalue

/-- `std::string(begin, length)` and `begin += length`. -/
def readString (length : Int) (begin_ : Bytes) : Except Fault (Bytes × Bytes) :=
  if length < 0 then .error .badLength
  else if length.toNat ≤ begin_.length then
    .ok (begin_.take length.toNat, begin_.drop length.toNat)
  else .error .overrun

theorem readString_append (s rest : Bytes) : readString s.length (s ++ rest) = .ok (s, rest) := by
  rw [readString, if_neg (by omega)]
  simp

theorem readString_eq_ok_iff {length : Int} {s text rest : Bytes} :
    readString length s = .ok (text, rest) ↔ s = text ++ rest ∧ length = text.length := by
  constructor
  · intro h
    unfold readString at h
    split_ifs at h with hneg hfits
    cases h
    exact ⟨(List.take_append_drop _ s).symm, by rw [List.length_take]; omega⟩
  · rintro ⟨rfl, rfl⟩
    exact readString_append text rest

theorem readString_eq_error_iff {length : Int} {s : Bytes} {e : Fault} :
    readString length s = .error e ↔
      length < 0 ∧ .badLength = e ∨ s.length < length ∧ .overrun = e := by
  unfold readString
  split_ifs with hneg hfits
  · have : ¬ (s.length : Int) < length := by omega
    simp [hneg, this]
  · have : ¬ (s.length : Int) < length := by omega
    simp [hneg, this]
  · have : (s.length : Int) < length := by omega
    simp [hneg, this]

end Toft.Hfile

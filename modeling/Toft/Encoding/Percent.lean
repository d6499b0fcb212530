import Toft.Base.ByteSet
import Toft.Base.StringAlgorithm
import Toft.Encoding.Ascii

/-!
# Percent encoding

The encoders keep the bytes of a set and write each other byte as `%` and two digits. The decoder
also reads `+` as a space, so what an encoder keeps and the decoder translates is lost: decoding
what was encoded gives the text with spaces for the pluses that the encoder kept
(`decode_doEncode`).
-/

namespace Toft.PercentEncoding

open Lib ByteSet List Ascii

def charToHex (x : UInt8) : UInt8 := (ascii "0123456789ABCDEF").getD x.toNat 0

def hexValue (x : UInt8) : UInt8 :=
  let x := toUpper x
  if isDigit x then x - '0'.toUInt8 else x - 'A'.toUInt8 + 10

/-- What `DoEncodeAppend` appends. -/
def doEncode (unchanged : ByteSet) : Bytes → Bytes
  | [] => []
  | c :: input =>
    if unchanged c then c :: doEncode unchanged input
    else '%'.toUInt8 :: charToHex (c >>> 4) :: charToHex (c % 16) :: doEncode unchanged input

def encodeUnchanged : ByteSet :=
  ofString "ABCDEFGHIJKLMNOPQRSTUVWXYZabcdefghijklmnopqrstuvwxyz0123456789*+-./@_"

def encodeUriUnchanged : ByteSet := ofString
  "ABCDEFGHIJKLMNOPQRSTUVWXYZabcdefghijklmnopqrstuvwxyz0123456789!#$&'()*+,-./:;=?@_~"

def encodeUriComponentUnchanged : ByteSet :=
  ofString "ABCDEFGHIJKLMNOPQRSTUVWXYZabcdefghijklmnopqrstuvwxyz0123456789!'()*-._~"

def encode : Bytes → Bytes := doEncode encodeUnchanged

def encodeUri : Bytes → Bytes := doEncode encodeUriUnchanged

def encodeUriComponent : Bytes → Bytes := doEncode encodeUriComponentUnchanged

/-- The loop of `PercentEncoding::Decode` on the text from `i` on, with the bytes that it has
written. The byte behind the end of a `std::string` is NUL and no digit. -/
def decodeLoop : Bytes → Bytes → Bool × Bytes
  | [], written => (true, written)
  | 37 :: a :: b :: s, written =>
    if isHexDigit a && isHexDigit b then
      decodeLoop s (written ++ [hexValue a <<< 4 ||| hexValue b])
    else (false, written)
  | c :: s, written =>
    if c = '%'.toUInt8 then (false, written)
    else if c = '+'.toUInt8 then decodeLoop s (written ++ [' '.toUInt8])
    else decodeLoop s (written ++ [c])

/-- `PercentEncoding::Decode` in place. It writes from the front of the text that it reads, so a
failure leaves the rest as it was. -/
def decode (s : Bytes) : Bool × Bytes :=
  match decodeLoop s [] with
  | (true, written) => (true, written)
  | (false, written) => (false, written ++ s.drop written.length)

/-- What `DecodeAppend` returns and appends, with the bytes that were appended before. The byte
behind the end of a `StringPiece` is not its own. -/
def decodeAppend : Bytes → Bytes → Except Fault (Bool × Bytes)
  | [], output => .ok (true, output)
  | 37 :: a :: b :: input, output =>
    if isHexDigit a && isHexDigit b then
      decodeAppend input (output ++ [hexValue a <<< 4 ||| hexValue b])
    else .ok (false, output)
  | [37, a], output => if isHexDigit a then .error .overrun else .ok (false, output)
  | c :: input, output =>
    if c = '%'.toUInt8 then .ok (false, output)
    else if c = '+'.toUInt8 then decodeAppend input (output ++ [' '.toUInt8])
    else decodeAppend input (output ++ [c])

def decodeTo (input : Bytes) : Except Fault (Bool × Bytes) := decodeAppend input []

/-! ## What the decoder undoes -/

theorem hexDigits (c : UInt8) :
    isHexDigit (charToHex (c >>> 4)) = true ∧ isHexDigit (charToHex (c % 16)) = true ∧
      hexValue (charToHex (c >>> 4)) <<< 4 ||| hexValue (charToHex (c % 16)) = c := by
  have hall : ∀ n < 256, let c := UInt8.ofNat n
      isHexDigit (charToHex (c >>> 4)) = true ∧ isHexDigit (charToHex (c % 16)) = true ∧
        hexValue (charToHex (c >>> 4)) <<< 4 ||| hexValue (charToHex (c % 16)) = c := by
    decide +kernel
  have hc := hall c.toNat c.toNat_lt
  rwa [UInt8.ofNat_toNat] at hc

theorem decodeLoop_digits {a b : UInt8} (ha : isHexDigit a = true)
    (hb : isHexDigit b = true) (s written : Bytes) :
    decodeLoop ('%'.toUInt8 :: a :: b :: s) written =
      decodeLoop s (written ++ [hexValue a <<< 4 ||| hexValue b]) := by
  change decodeLoop (37 :: a :: b :: s) written = _
  rw [decodeLoop, ha, hb]
  rfl

theorem decodeLoop_byte {c : UInt8} (hc : c ≠ '%'.toUInt8) (s written : Bytes) :
    decodeLoop (c :: s) written =
      decodeLoop s (written ++ [if c = '+'.toUInt8 then ' '.toUInt8 else c]) := by
  have hplain : decodeLoop (c :: s) written =
      if c = '%'.toUInt8 then (false, written)
      else if c = '+'.toUInt8 then decodeLoop s (written ++ [' '.toUInt8])
      else decodeLoop s (written ++ [c]) := by
    rw [decodeLoop]
    rintro a b s' rfl -
    exact hc rfl
  rw [hplain, if_neg hc]
  split <;> rfl

def plusToSpace (unchanged : ByteSet) (s : Bytes) : Bytes :=
  s.map fun c => if unchanged c && c == '+'.toUInt8 then ' '.toUInt8 else c

variable {unchanged : ByteSet}

theorem decodeLoop_doEncode (h : unchanged '%'.toUInt8 = false) (s written : Bytes) :
    decodeLoop (doEncode unchanged s) written = (true, written ++ plusToSpace unchanged s) := by
  induction s generalizing written with
  | nil => rw [doEncode, decodeLoop, plusToSpace, map_nil, append_nil]
  | cons c s ih =>
    rw [doEncode]
    split
    · rename_i hc
      have hne : c ≠ '%'.toUInt8 := by
        rintro rfl
        rw [h] at hc
        cases hc
      rw [decodeLoop_byte hne, ih]
      simp [plusToSpace, hc]
    · rename_i hc
      obtain ⟨ha, hb, hvalue⟩ := hexDigits c
      rw [decodeLoop_digits ha hb, ih, hvalue]
      simp [plusToSpace, hc]

theorem decode_doEncode (h : unchanged '%'.toUInt8 = false) (s : Bytes) :
    decode (doEncode unchanged s) = (true, plusToSpace unchanged s) := by
  rw [decode, decodeLoop_doEncode h, nil_append]

/-- `Encode` keeps the plus, which the decoder reads as a space. -/
theorem decode_encode (s : Bytes) :
    decode (encode s) = (true, replaceByte '+'.toUInt8 ' '.toUInt8 s) := by
  refine (decode_doEncode (by decide) s).trans (congrArg (Prod.mk true) ?_)
  refine map_congr_left fun c _ => ?_
  by_cases hc : c = '+'.toUInt8
  · subst hc
    rfl
  · simp [hc]

/-- Only the pluses that the encoder keeps are changed. -/
theorem plusToSpace_eq_self_iff {s : Bytes} :
    plusToSpace unchanged s = s ↔ unchanged '+'.toUInt8 = false ∨ '+'.toUInt8 ∉ s := by
  rw [plusToSpace, map_eq_self_iff]
  constructor
  · intro h
    by_contra hnot
    rw [not_or, not_not, Bool.not_eq_false] at hnot
    have hplus := h _ hnot.2
    rw [hnot.1] at hplus
    exact absurd hplus (by decide)
  · intro h c hc
    split_ifs with hplus
    · rw [Bool.and_eq_true, beq_iff_eq] at hplus
      obtain ⟨hkept, rfl⟩ := hplus
      rcases h with hnot | hnot
      · rw [hkept] at hnot
        cases hnot
      · exact absurd hc hnot
    · rfl

theorem decodeAppend_eq {s : Bytes} (written : Bytes) (h : (decodeLoop s written).1 = true) :
    decodeAppend s written = .ok (decodeLoop s written) := by
  fun_induction decodeLoop s written with
  | case1 => rfl
  | case2 written a b s hdigits ih =>
    rw [decodeAppend, if_pos hdigits]
    exact ih h
  | case3 => cases h
  | case4 => cases h
  | case5 written s hpercent hnot ih =>
    rw [decodeAppend]
    · exact ih h
    · rintro a b input ⟨⟩
    · rintro a ⟨⟩
  | case6 written c s hne hpercent hplus ih =>
    rw [decodeAppend, if_neg hpercent, if_neg hplus]
    · exact ih h
    · rintro a b input rfl -
      exact hpercent rfl
    · rintro a rfl -
      exact hpercent rfl

theorem decodeTo_doEncode (h : unchanged '%'.toUInt8 = false) (s : Bytes) :
    decodeTo (doEncode unchanged s) = .ok (true, plusToSpace unchanged s) := by
  have hloop := decodeLoop_doEncode h s []
  rw [decodeTo, decodeAppend_eq [] (by rw [hloop]), hloop, nil_append]

/-- Components keep neither the percent sign nor the plus. -/
theorem encodeUriComponent_reversible (s : Bytes) :
    decodeTo (encodeUriComponent s) = .ok (true, s) ∧
      decode (encodeUriComponent s) = (true, s) := by
  have hpercent : encodeUriComponentUnchanged '%'.toUInt8 = false := by decide
  have hplus : encodeUriComponentUnchanged '+'.toUInt8 = false := by decide
  have hsame := plusToSpace_eq_self_iff.mpr (.inl hplus : _ ∨ '+'.toUInt8 ∉ s)
  constructor
  · rw [encodeUriComponent, decodeTo_doEncode hpercent, hsame]
  · rw [encodeUriComponent, decode_doEncode hpercent, hsame]

/-- What is decoded is the text exactly if an encoder that keeps the plus has met none. -/
theorem decodeTo_doEncode_iff (hpercent : unchanged '%'.toUInt8 = false)
    (hplus : unchanged '+'.toUInt8 = true) (s : Bytes) :
    decodeTo (doEncode unchanged s) = .ok (true, s) ↔ '+'.toUInt8 ∉ s := by
  rw [decodeTo_doEncode hpercent, Except.ok.injEq, Prod.mk.injEq, plusToSpace_eq_self_iff, hplus]
  simp

/-- `Encode` and `EncodeUri` keep the plus, which the decoder reads as a space. -/
theorem encode_reversible_iff (s : Bytes) :
    (decodeTo (encode s) = .ok (true, s) ↔ '+'.toUInt8 ∉ s) ∧
      (decodeTo (encodeUri s) = .ok (true, s) ↔ '+'.toUInt8 ∉ s) :=
  ⟨decodeTo_doEncode_iff (by decide) (by decide) s, decodeTo_doEncode_iff (by decide) (by decide) s⟩

theorem encode_plus :
    decodeTo (encode (ascii "+")) = .ok (true, ascii " ") ∧
      decodeTo (encodeUri (ascii "+")) = .ok (true, ascii " ") := by
  decide

/-- A byte outside the set that is neither a percent sign nor a digit does not occur. -/
theorem notMem_doEncode {b : UInt8} (h : unchanged b = false)
    (hpercent : b ≠ '%'.toUInt8) (hdigit : isHexDigit b = false) (s : Bytes) :
    b ∉ doEncode unchanged s := by
  have hne {c : UInt8} (hc : isHexDigit c = true) : b ≠ c := by
    rintro rfl
    rw [hdigit] at hc
    cases hc
  induction s with
  | nil => exact not_mem_nil
  | cons c s ih =>
    rw [doEncode]
    split
    · rename_i hc
      refine not_mem_cons_of_ne_of_not_mem ?_ ih
      rintro rfl
      rw [h] at hc
      cases hc
    · obtain ⟨hhigh, hlow, -⟩ := hexDigits c
      simp only [mem_cons, not_or]
      exact ⟨hpercent, hne hhigh, hne hlow, ih⟩

end Toft.PercentEncoding

import Toft.Base.Format.Specification
import Toft.Lib.Radix

/-!
# Writing integers

`WriteSigned` and `WriteUnsigned` put a number together from a sign, a prefix, zeros and digits, and
`WriteNumberString` fills it up to the width. A writer gives the text that it writes and the `int`
that it returns. Strings, pointers and floating point numbers are not modelled.
-/

namespace Toft.Format

open Lib List Conversion Option PrintSpecification

/-- An argument of an integer type. -/
structure IntArg where
  type : IntegerType
  value : Int
  low : type.min ≤ value
  high : value ≤ type.max

/-- `WriteChars`, whose count is converted to a length. -/
def writeChars (c : UInt8) (count : Int) : Except Fault Bytes :=
  if count < 0 then .error .badLength else .ok (replicate count.toNat c)

/-- `WriteNumberString`, without the parts that only floating point numbers have. -/
def writeNumberString (spec : PrintSpecification) (sign : Bytes) (numberPrefix : Bytes)
    (leadingZeros : Int) (digits : Bytes) : Except Fault (Int × Bytes) := do
  let numSize := int32 (sign.length + numberPrefix.length + leadingZeros + digits.length)
  if ¬ spec.hasWidth ∨ spec.width ≤ numSize then
    let zeros ← writeChars 0x30 leadingZeros
    return (numSize, sign ++ numberPrefix ++ zeros ++ digits)
  else
    let fillCount := int32 (spec.width - numSize)
    if spec.flags.left then
      let zeros ← writeChars 0x30 leadingZeros
      let fill ← writeChars 0x20 fillCount
      return (spec.width, sign ++ numberPrefix ++ zeros ++ digits ++ fill)
    else if spec.flags.zero then
      let zeros ← writeChars 0x30 (int32 (fillCount + leadingZeros))
      return (spec.width, sign ++ numberPrefix ++ zeros ++ digits)
    else
      let fill ← writeChars 0x20 fillCount
      let zeros ← writeChars 0x30 leadingZeros
      return (spec.width, fill ++ sign ++ numberPrefix ++ zeros ++ digits)

/-- The loop of `UnsignedToString`, which fills a buffer of 64 bytes from the last digit on. -/
def unsignedToStringLoop (base : Nat) (table : Bytes) : Nat → Nat → Except Fault Bytes
  | 0, _ => .error .overrun
  | free + 1, value => do
    let digits ← if value / base ≠ 0 then unsignedToStringLoop base table free (value / base)
      else .ok []
    return table.getD (value % base) 0 :: digits

def unsignedToString (base : Nat) (value : Nat) (table : Bytes) : Except Fault Bytes :=
  reverse <$> unsignedToStringLoop base table 64 value

def lowerDigits : Bytes := ascii "0123456789abcdef"

def upperDigits : Bytes := ascii "0123456789ABCDEF"

def octalDigits : Bytes := ascii "01234567"

/-- `WriteIntegerToBuffer`; the types that are shorter than `int` go through an `int`. -/
def writeIntegerToBuffer (arg : IntArg) : Except Fault Bytes :=
  if arg.type.isSigned ∨ arg.type.bits < 32 then
    if arg.type.bits ≤ 32 then outputInt32AsString arg.value else outputInt64AsString arg.value
  else if arg.type.bits ≤ 32 then outputUInt32AsString arg.value.toNat
  else outputUInt64AsString arg.value.toNat

def promotedBits (t : IntegerType) : Nat := if t.bits < 32 then 32 else t.bits

def toUnsigned (arg : IntArg) : Nat := (arg.value % 2 ^ promotedBits arg.type).toNat

def prefixOf (spec : PrintSpecification) (isZero : Bool) : Bytes :=
  if ¬ isZero ∧ spec.flags.sharp then
    if spec.specifier = 0x6f then ascii "0"
    else if spec.specifier = 0x78 then ascii "0x"
    else if spec.specifier = 0x58 then ascii "0X"
    else []
  else []

/-- `SignOf`, as a text. -/
def signOf (spec : PrintSpecification) (neg : Bool) : Bytes :=
  if neg then ascii "-"
  else if spec.flags.sign then ascii "+"
  else if spec.flags.space then ascii " "
  else []

/-- The digits of both writers, without a minus sign. -/
def digitsOf (spec : PrintSpecification) (arg : IntArg) : Except Fault Bytes :=
  if spec.specifier = 0x78 then unsignedToString 16 (toUnsigned arg) lowerDigits
  else if spec.specifier = 0x58 then unsignedToString 16 (toUnsigned arg) upperDigits
  else if spec.specifier = 0x6f then unsignedToString 8 (toUnsigned arg) octalDigits
  else do
    let digits ← writeIntegerToBuffer arg
    return if digits.head? = some 0x2d then digits.drop 1 else digits

/-- What both writers do with the digits. -/
def writeDigits (spec : PrintSpecification) (arg : IntArg) (sign : Bytes) :
    Except Fault (Int × Bytes) := do
  let digits ← digitsOf spec arg
  let digits := if spec.hasPrecision ∧ arg.value = 0 ∧ spec.precision = 0 then [] else digits
  let leadingZeros :=
    if spec.hasPrecision ∧ digits.length < spec.precision then spec.precision - digits.length else 0
  writeNumberString spec sign (prefixOf spec (arg.value = 0)) leadingZeros digits

def writeSigned (spec : PrintSpecification) (arg : IntArg) : Except Fault (Int × Bytes) :=
  if spec.specifierMatch (ascii "idxXo") then writeDigits spec arg (signOf spec (arg.value < 0))
  else .ok (-1, [])

def writeUnsigned (spec : PrintSpecification) (arg : IntArg) : Except Fault (Int × Bytes) :=
  if spec.specifierMatch (ascii "uidxXo") then writeDigits spec arg [] else .ok (-1, [])

def IntArg.write (arg : IntArg) (spec : PrintSpecification) : Except Fault (Int × Bytes) :=
  if arg.type.isSigned then writeSigned spec arg else writeUnsigned spec arg

/-- `FormatPrintArg::AsInt`, which writes to a buffer of 32 bytes and parses it. -/
def IntArg.asInt (arg : IntArg) : Except Fault Int := do
  let (written, text) ← arg.write { specifier := 0x64 }
  if written ≤ 0 then return -1
  else
    match stringToNumber (text.take 31) 0 with
    | (true, n) => return n
    | (false, _) => return -1

/-! ## What is written -/

theorem unsignedToStringLoop_eq {base : Nat} (hbase : 2 ≤ base) (table : Bytes) {free value : Nat}
    (h : value < base ^ (free + 1)) :
    unsignedToStringLoop base table (free + 1) value =
      .ok (digitText base table value).reverse := by
  induction free generalizing value with
  | zero =>
    rw [pow_one] at h
    rw [unsignedToStringLoop, if_neg (not_not.mpr (Nat.div_eq_of_lt h)), digitText_of_lt h,
      Nat.mod_eq_of_lt h]
    rfl
  | succ free ih =>
    rw [unsignedToStringLoop]
    by_cases hlt : value < base
    · rw [if_neg (not_not.mpr (Nat.div_eq_of_lt hlt)), digitText_of_lt hlt, Nat.mod_eq_of_lt hlt]
      rfl
    · have hle := Nat.le_of_not_lt hlt
      have hdiv : value / base < base ^ (free + 1) := by
        rw [Nat.div_lt_iff_lt_mul (by omega)]
        exact h
      rw [if_pos (Nat.div_pos hle (by omega)).ne', ih hdiv, digitText_of_le hbase hle,
        reverse_append]
      rfl

theorem unsignedToString_eq {base value : Nat} (hbase : 2 ≤ base) (h : value < 2 ^ 64)
    (table : Bytes) : unsignedToString base value table = .ok (digitText base table value) := by
  have hlt : value < base ^ 64 := lt_of_lt_of_le h (Nat.pow_le_pow_left hbase 64)
  rw [unsignedToString, unsignedToStringLoop_eq hbase table hlt]
  exact congrArg Except.ok (reverse_reverse _)

theorem writeIntegerToBuffer_eq (arg : IntArg) :
    writeIntegerToBuffer arg = .ok (decimalInt arg.value) := by
  obtain ⟨t, value, hlow, hhigh⟩ := arg
  have hnat : 0 ≤ value → decimal value.toNat = decimalInt value := by
    intro h
    rw [decimalInt, if_neg (Int.not_lt.mpr h)]
  cases t <;>
    simp only [IntegerType.min, IntegerType.max, IntegerType.bits, IntegerType.isSigned, if_true,
      Bool.false_eq_true, if_false] at hlow hhigh
  case unsignedInt =>
    rw [← hnat hlow]
    exact outputUInt32AsString_eq (u := value.toNat) (by omega)
  case unsignedLong | unsignedLongLong =>
    rw [← hnat hlow]
    exact outputUInt64AsString_eq (u := value.toNat) (by omega)
  case long | longLong => exact numberToString64_eq (n := value) (by omega) (by omega)
  all_goals exact numberToString_eq (n := value) (by omega) (by omega)

def Conversion.magnitude (conversion : Conversion) (arg : IntArg) : Nat :=
  match conversion with
  | .d | .i | .u => arg.value.natAbs
  | .x | .upperX | .o => toUnsigned arg

def Conversion.digits : Conversion → Nat → Bytes
  | .d | .i | .u => decimal
  | .x => digitText 16 lowerDigits
  | .upperX => digitText 16 upperDigits
  | .o => digitText 8 octalDigits

theorem toUnsigned_lt (arg : IntArg) : toUnsigned arg < 2 ^ 64 := by
  obtain ⟨t, value, hlow, hhigh⟩ := arg
  have hbits : promotedBits t ≤ 64 := by cases t <;> decide
  have hpow : (2 : Int) ^ promotedBits t ≤ 2 ^ 64 := by
    exact_mod_cast Nat.pow_le_pow_right two_pos hbits
  unfold toUnsigned
  dsimp only
  omega

theorem drop_minus_decimalInt (n : Int) :
    (if (decimalInt n).head? = some 0x2d then (decimalInt n).drop 1 else decimalInt n) =
      decimal n.natAbs := by
  by_cases hneg : n < 0
  · rw [decimalInt, if_pos hneg, head?_cons, if_pos rfl, drop_one, tail_cons]
    congr 1
    omega
  · have habs : n.toNat = n.natAbs := by omega
    rw [decimalInt, if_neg hneg, habs, if_neg]
    intro hhead
    exact minus_notMem_decimal _ (mem_of_head? hhead)

variable {spec : PrintSpecification} {conversion : Conversion}

theorem digitsOf_eq (h : spec.specifier = conversion.char) (arg : IntArg) :
    digitsOf spec arg = .ok (conversion.digits (conversion.magnitude arg)) := by
  have hdecimal : (do
      let digits ← writeIntegerToBuffer arg
      return if digits.head? = some 0x2d then digits.drop 1 else digits) =
      (.ok (decimal arg.value.natAbs) : Except Fault Bytes) := by
    rw [writeIntegerToBuffer_eq, ok_bind, drop_minus_decimalInt]
    rfl
  unfold digitsOf
  rw [h]
  cases conversion
  case x | upperX | o => exact unsignedToString_eq (by decide) (toUnsigned_lt arg) _
  all_goals exact hdecimal

/-- A number that is filled up to a width: with blanks behind it, with zeros behind its sign and
prefix, or with blanks in front of it. -/
def pad (left zero : Bool) (width : Nat) (sign numberPrefix body : Bytes) : Bytes :=
  let fill := width - (sign ++ numberPrefix ++ body).length
  if left then sign ++ numberPrefix ++ body ++ replicate fill 0x20
  else if zero then sign ++ numberPrefix ++ replicate fill 0x30 ++ body
  else replicate fill 0x20 ++ (sign ++ numberPrefix ++ body)

theorem length_pad (left zero : Bool) (width : Nat) (sign numberPrefix body : Bytes) :
    (pad left zero width sign numberPrefix body).length =
      max width (sign ++ numberPrefix ++ body).length := by
  unfold pad
  split_ifs <;> simp only [length_append, length_replicate] <;> omega

theorem pad_of_le {left zero : Bool} {width : Nat} {sign numberPrefix body : Bytes}
    (h : width ≤ (sign ++ numberPrefix ++ body).length) :
    pad left zero width sign numberPrefix body = sign ++ numberPrefix ++ body := by
  unfold pad
  rw [Nat.sub_eq_zero_of_le h]
  split_ifs <;> simp

theorem pad_zero (left zero : Bool) (sign numberPrefix body : Bytes) :
    pad left zero 0 sign numberPrefix body = sign ++ numberPrefix ++ body :=
  pad_of_le (Nat.zero_le _)

theorem writeChars_natCast (c : UInt8) (n : Nat) : writeChars c n = .ok (replicate n c) := by
  rw [writeChars, if_neg (by omega), Int.toNat_natCast]

theorem numSize_eq (sign numberPrefix : Bytes) (zeros : Nat) (digits : Bytes) :
    (sign.length + numberPrefix.length + zeros + digits.length : Int) =
      (sign ++ numberPrefix ++ (replicate zeros 0x30 ++ digits)).length := by
  rw [length_append, length_append, length_append, length_replicate]
  push_cast
  ring

theorem writeNumberString_of_noWidth (h : spec.width = -1)
    (sign numberPrefix : Bytes) (zeros : Nat) (digits : Bytes) :
    writeNumberString spec sign numberPrefix zeros digits =
      .ok (int32 (sign ++ numberPrefix ++ (replicate zeros 0x30 ++ digits)).length,
        sign ++ numberPrefix ++ (replicate zeros 0x30 ++ digits)) := by
  have hwidth : ¬ spec.hasWidth := by
    rw [hasWidth, h]
    decide
  rw [writeNumberString, if_pos (Or.inl hwidth), writeChars_natCast, numSize_eq, ok_bind,
    pure_eq_ok, append_assoc _ _ digits]

theorem writeNumberString_of_width {width : Nat}
    (h : spec.width = width) (hwidth : width < 2 ^ 31) (sign numberPrefix : Bytes) (zeros : Nat)
    (digits : Bytes)
    (hsize : (sign ++ numberPrefix ++ (replicate zeros 0x30 ++ digits)).length < 2 ^ 31) :
    writeNumberString spec sign numberPrefix zeros digits =
      .ok ((pad spec.flags.left spec.flags.zero width sign numberPrefix
          (replicate zeros 0x30 ++ digits)).length,
        pad spec.flags.left spec.flags.zero width sign numberPrefix
          (replicate zeros 0x30 ++ digits)) := by
  have hhas : spec.hasWidth := by
    rw [hasWidth, decide_eq_true_iff]
    omega
  rw [writeNumberString, numSize_eq, int32_of_lt hsize, h, length_pad]
  generalize hbody : sign ++ numberPrefix ++ (replicate zeros 0x30 ++ digits) = text at hsize ⊢
  by_cases hle : width ≤ text.length
  · have hfill : width - text.length = 0 := by omega
    rw [if_pos (Or.inr (by omega)), writeChars_natCast, Nat.max_eq_right hle, ok_bind,
      append_assoc _ _ digits]
    unfold pad
    rw [hbody, hfill]
    split_ifs <;> simp [← hbody]
  · have hfill : (width - text.length : Int) = ((width - text.length : Nat) : Int) := by omega
    rw [if_neg (by rw [not_or, not_not]; exact ⟨hhas, by omega⟩), hfill,
      int32_of_lt (by omega), Nat.max_eq_left (by omega)]
    have hzeros : (width - text.length : Nat) + (zeros : Int) =
        ((width - text.length + zeros : Nat) : Int) := by push_cast; ring
    have hlen : zeros ≤ text.length := by
      rw [← hbody]
      simp only [length_append, length_replicate]
      omega
    dsimp only
    rw [hzeros, int32_of_lt (by omega)]
    unfold pad
    rw [hbody]
    simp only [writeChars_natCast, ok_bind, pure_eq_ok]
    split_ifs
    · simp only [← hbody, append_assoc]
    · simp only [append_assoc, replicate_add]
    · simp only [← hbody, append_assoc]

/-- The conversions that the writer of a type takes. -/
def Conversion.Accepts (conversion : Conversion) (t : IntegerType) : Prop :=
  t.isSigned → conversion ≠ .u

def IntArg.sign (arg : IntArg) (spec : PrintSpecification) : Bytes :=
  if arg.type.isSigned then signOf spec (arg.value < 0) else []

/-- The digits of a number. Zero has none with the precision zero. -/
def Conversion.shown (conversion : Conversion) (precision : Option Nat) (n : Nat) : Bytes :=
  if n = 0 ∧ precision = some 0 then [] else conversion.digits n

/-- The digits with as many zeros in front as the precision asks for. -/
def Conversion.body (conversion : Conversion) (precision : Option Nat) (n : Nat) : Bytes :=
  replicate (precision.getD 0 - (conversion.shown precision n).length) 0x30 ++
    conversion.shown precision n

theorem Conversion.body_none (conversion : Conversion) (n : Nat) :
    conversion.body none n = conversion.digits n := by
  have hshown : conversion.shown none n = conversion.digits n :=
    if_neg fun h => absurd h.2 (some_ne_none 0).symm
  rw [body, hshown, getD_none, Nat.zero_sub]
  rfl

theorem Conversion.magnitude_eq_zero (conversion : Conversion) (arg : IntArg) :
    conversion.magnitude arg = 0 ↔ arg.value = 0 := by
  have hunsigned : toUnsigned arg = 0 ↔ arg.value = 0 := by
    obtain ⟨t, value, hlow, hhigh⟩ := arg
    unfold toUnsigned promotedBits
    cases t <;> simp [IntegerType.min, IntegerType.max, IntegerType.bits, IntegerType.isSigned]
        at hlow hhigh ⊢ <;> omega
  cases conversion
  case d | i | u => exact Int.natAbs_eq_zero
  all_goals exact hunsigned

variable {precision : Option Nat}

theorem writeDigits_eq (hspecifier : spec.specifier = conversion.char)
    (hprecision : spec.precision = precision.elim (-1) Nat.cast) (arg : IntArg) (sign : Bytes) :
    writeDigits spec arg sign =
      writeNumberString spec sign (prefixOf spec (arg.value = 0))
        (precision.getD 0 - (conversion.shown precision (conversion.magnitude arg)).length : Nat)
        (conversion.shown precision (conversion.magnitude arg)) := by
  rw [writeDigits, digitsOf_eq hspecifier, ok_bind, shown]
  dsimp only
  have hempty : spec.hasPrecision ∧ arg.value = 0 ∧ spec.precision = 0 ↔
      conversion.magnitude arg = 0 ∧ precision = some 0 := by
    rw [conversion.magnitude_eq_zero, hasPrecision, hprecision]
    cases precision <;> simp
  rw [if_congr hempty rfl rfl]
  generalize (if conversion.magnitude arg = 0 ∧ precision = some 0 then []
    else conversion.digits (conversion.magnitude arg)) = digits
  congr 1
  rw [hasPrecision, hprecision]
  cases precision with
  | none =>
    rw [getD_none, Nat.zero_sub]
    rfl
  | some p =>
    have hhas : decide ((p : Int) ≠ -1) = true := decide_eq_true (by omega)
    rw [elim_some, getD_some]
    split_ifs with h
    · omega
    · rw [not_and] at h
      have hle := h hhas
      omega

variable {arg : IntArg}

section

variable (haccepts : conversion.Accepts arg.type) (hspecifier : spec.specifier = conversion.char)
  (hprecision : spec.precision = precision.elim (-1) Nat.cast)
include haccepts hspecifier hprecision

theorem IntArg.write_eq :
    arg.write spec =
      writeNumberString spec (arg.sign spec) (prefixOf spec (arg.value = 0))
        (precision.getD 0 - (conversion.shown precision (conversion.magnitude arg)).length : Nat)
        (conversion.shown precision (conversion.magnitude arg)) := by
  unfold IntArg.write IntArg.sign
  split_ifs with hsigned
  · have hmatch : spec.specifierMatch (ascii "idxXo") := by
      have hu := haccepts hsigned
      rw [specifierMatch, hspecifier]
      cases conversion
      case u => exact absurd rfl hu
      all_goals rfl
    rw [writeSigned, if_pos hmatch, writeDigits_eq hspecifier hprecision]
  · have hmatch : spec.specifierMatch (ascii "uidxXo") := by
      rw [specifierMatch, hspecifier]
      cases conversion <;> rfl
    rw [writeUnsigned, if_pos hmatch, writeDigits_eq hspecifier hprecision]

/-- A number that is written without a width. What is returned is only right if it fits. -/
theorem IntArg.write_of_noWidth (hwidth : spec.width = -1) :
    arg.write spec =
      .ok (int32 (arg.sign spec ++ prefixOf spec (arg.value = 0) ++
          conversion.body precision (conversion.magnitude arg)).length,
        arg.sign spec ++ prefixOf spec (arg.value = 0) ++
          conversion.body precision (conversion.magnitude arg)) := by
  rw [IntArg.write_eq haccepts hspecifier hprecision, writeNumberString_of_noWidth hwidth]
  rfl

theorem IntArg.write_of_width {width : Nat} (hwidth : spec.width = width) (hlt : width < 2 ^ 31)
    (hsize : (arg.sign spec ++ prefixOf spec (arg.value = 0) ++
      conversion.body precision (conversion.magnitude arg)).length < 2 ^ 31) :
    arg.write spec =
      .ok ((pad spec.flags.left spec.flags.zero width (arg.sign spec)
          (prefixOf spec (arg.value = 0))
          (conversion.body precision (conversion.magnitude arg))).length,
        pad spec.flags.left spec.flags.zero width (arg.sign spec) (prefixOf spec (arg.value = 0))
          (conversion.body precision (conversion.magnitude arg))) := by
  rw [IntArg.write_eq haccepts hspecifier hprecision,
    writeNumberString_of_width hwidth hlt _ _ _ _ hsize]
  rfl

end

theorem IntArg.asInt_eq {n : Nat} (htype : arg.type = .int)
    (hvalue : arg.value = n) : arg.asInt = .ok n := by
  have hn : n < 2 ^ 31 := by
    have hhigh := arg.high
    rw [htype] at hhigh
    have hmax : IntegerType.int.max = 2 ^ 31 - 1 := rfl
    omega
  have hlen : (decimal n).length ≤ 10 := length_decimal_le (by omega)
  have hpos : 0 < (decimal n).length := length_pos_of_ne_nil (decimal_ne_nil n)
  have hwrite : arg.write { specifier := 0x64 } = .ok ((decimal n).length, decimal n) := by
    have hsign : arg.sign { specifier := 0x64 } = [] := by
      rw [IntArg.sign, decide_eq_false (by omega)]
      exact ite_self _
    have hfront : ∀ z, prefixOf { specifier := 0x64 } z = [] := by
      intro z
      cases z <;> rfl
    have hmagnitude : Conversion.d.magnitude arg = n := by
      rw [magnitude, hvalue, Int.natAbs_natCast]
    rw [@IntArg.write_of_noWidth _ .d none arg (fun _ => Conversion.noConfusion) rfl rfl rfl, hsign,
      hfront, hmagnitude, body_none, nil_append, nil_append,
      digits, int32_of_lt (by omega)]
  rw [IntArg.asInt, hwrite, ok_bind]
  dsimp only
  rw [if_neg (by omega), take_of_length_le (by omega), stringToNumber_decimal hn]
  rfl

end Toft.Format

import Mathlib.Data.List.TakeWhile
import Mathlib.Tactic.IntervalCases
import Toft.Base.Fault
import Toft.Base.Int
import Toft.Lib.Decimal

/-!
# Numbers and their texts

`NumberToString` writes two digits at a time from a table, entered where the number of digits says;
what it writes is the decimal text (`numberToString_eq`). `StringToNumber` reads it back
(`stringToNumber_decimal`).
-/

namespace Toft

open Lib List Nat

/-! ## Printing -/

/-- An entry of `two_ASCII_digits`, a table with the entries `00` to `99`. -/
def twoASCIIDigits (digits : Nat) : Except Fault Bytes :=
  if digits < 100 then .ok [digit (digits / 10), digit (digits % 10)] else .error .overrun

/-- `u -= digits * unit`, where the product is an `int`. -/
def subDigits (u digits unit : Nat) : Nat := uint32 (u - int32 (digits * unit))

/-- A part of the function that writes two digits and goes on with the rest: at the label
`lt100_000_000` the unit is 1000000, and so on. -/
def outputTwo (unit : Nat) (rest : Nat → Except Fault Bytes) (u : Nat) : Except Fault Bytes := do
  let digits := u / unit
  return (← twoASCIIDigits digits) ++ (← rest (subDigits u digits unit))

/-- A part that writes one digit and goes on with the rest. -/
def outputOne (unit : Nat) (rest : Nat → Except Fault Bytes) (u : Nat) : Except Fault Bytes := do
  let digits := u / unit
  return digit digits :: (← rest (subDigits u digits unit))

/-- The parts of `OutputUInt32AsString` by their labels. -/
def lt100 (u : Nat) : Except Fault Bytes := twoASCIIDigits u

@[inherit_doc lt100] def lt10000 : Nat → Except Fault Bytes := outputTwo 100 lt100
@[inherit_doc lt100] def lt1000000 : Nat → Except Fault Bytes := outputTwo 10000 lt10000
@[inherit_doc lt100] def lt100000000 : Nat → Except Fault Bytes := outputTwo 1000000 lt1000000

def outputUInt32AsString (u : Nat) : Except Fault Bytes :=
  if u ≥ 1000000000 then outputTwo 100000000 lt100000000 u
  else if u < 100 then if u ≥ 10 then lt100 u else .ok [digit u]
  else if u < 10000 then if u ≥ 1000 then lt10000 u else outputOne 100 lt100 u
  else if u < 1000000 then if u ≥ 100000 then lt1000000 u else outputOne 10000 lt10000 u
  else if u < 100000000 then
    if u ≥ 10000000 then lt100000000 u else outputOne 1000000 lt1000000 u
  else outputOne 100000000 lt100000000 u

def outputInt32AsString (i : Int) : Except Fault Bytes :=
  if i < 0 then do return 0x2d :: (← outputUInt32AsString (uint32 (int32 (-i))))
  else outputUInt32AsString (uint32 i)

/-- The part of `OutputUInt64AsString` that writes the nine last digits. -/
def lastNineDigits : Nat → Except Fault Bytes :=
  outputTwo 10000000 (outputTwo 100000 (outputTwo 1000 (outputTwo 10
    fun digits => .ok [digit digits])))

def outputUInt64AsString (u64 : Nat) : Except Fault Bytes :=
  if u64 < 2 ^ 32 then outputUInt32AsString u64
  else do
    let top := u64 / 1000000000
    let output ← outputUInt64AsString top
    return output ++ (← lastNineDigits (uint32 (u64 - top * 1000000000 : Nat)))
termination_by u64

def outputInt64AsString (i : Int) : Except Fault Bytes :=
  if i < 0 then do return 0x2d :: (← outputUInt64AsString (uint64 (int64 (-i))))
  else outputUInt64AsString (uint64 i)

def numberToString (n : Int) : Except Fault Bytes := outputInt32AsString n

def numberToString64 (n : Int) : Except Fault Bytes := outputInt64AsString n

theorem twoASCIIDigits_eq {digits : Nat} (h : digits < 100) :
    twoASCIIDigits digits = .ok (digitsN 2 digits) := by
  rw [twoASCIIDigits, if_pos h, digitsN, digitsN,
    mod_eq_of_lt (show digits / 10 < 10 by omega)]
  rfl

theorem subDigits_eq {u unit : Nat} (hu : u < 2 ^ 32) : subDigits u (u / unit) unit = u % unit := by
  have hdiv := div_add_mod u unit
  have hmul : u / unit * unit = u - u % unit := by rw [mul_comm]; omega
  unfold subDigits uint32 int32
  rw [← cast_mul, Int.bmod_def]
  split <;> omega

variable {u : Nat} {rest : Nat → Except Fault Bytes}

theorem outputTwo_eq {k : Nat}
    (hrest : ∀ u < 10 ^ k, rest u = .ok (digitsN k u)) (hu : u < 100 * 10 ^ k)
    (hu32 : u < 2 ^ 32) : outputTwo (10 ^ k) rest u = .ok (digitsN (2 + k) u) := by
  have hpos : 0 < 10 ^ k := Nat.pow_pos (by omega)
  have htwo : u / 10 ^ k < 100 := Nat.div_lt_of_lt_mul (by rwa [Nat.mul_comm])
  rw [outputTwo, twoASCIIDigits_eq htwo, subDigits_eq hu32, hrest _ (mod_lt _ hpos), digitsN_add]
  rfl

theorem outputOne_eq {k : Nat}
    (hrest : ∀ u < 10 ^ k, rest u = .ok (digitsN k u)) (hu : u < 10 * 10 ^ k)
    (hu32 : u < 2 ^ 32) : outputOne (10 ^ k) rest u = .ok (digitsN (1 + k) u) := by
  have hpos : 0 < 10 ^ k := Nat.pow_pos (by omega)
  have hone : u / 10 ^ k < 10 := Nat.div_lt_of_lt_mul (by rwa [Nat.mul_comm])
  rw [outputOne, subDigits_eq hu32, hrest _ (mod_lt _ hpos), digitsN_add, digitsN,
    mod_eq_of_lt hone]
  rfl

theorem lt100_eq (h : u < 10 ^ 2) : lt100 u = .ok (digitsN 2 u) := twoASCIIDigits_eq h

theorem lt10000_eq (h : u < 10 ^ 4) : lt10000 u = .ok (digitsN 4 u) :=
  outputTwo_eq (k := 2) (fun _ hu => lt100_eq hu) (by omega) (by omega)

theorem lt1000000_eq (h : u < 10 ^ 6) : lt1000000 u = .ok (digitsN 6 u) :=
  outputTwo_eq (k := 4) (fun _ hu => lt10000_eq hu) (by omega) (by omega)

theorem lt100000000_eq (h : u < 10 ^ 8) : lt100000000 u = .ok (digitsN 8 u) :=
  outputTwo_eq (k := 6) (fun _ hu => lt1000000_eq hu) (by omega) (by omega)

theorem outputUInt32AsString_eq (hu : u < 2 ^ 32) : outputUInt32AsString u = .ok (decimal u) := by
  unfold outputUInt32AsString
  split
  · rw [decimal_eq_digitsN (k := 9) (by omega) (by omega)]
    exact outputTwo_eq (k := 8) (fun _ => lt100000000_eq) (by omega) hu
  split
  · split
    · rw [decimal_eq_digitsN (k := 1) (by omega) (by omega)]
      exact lt100_eq (by omega)
    · rw [decimal_of_lt (by omega)]
  split
  · split
    · rw [decimal_eq_digitsN (k := 3) (by omega) (by omega)]
      exact lt10000_eq (by omega)
    · rw [decimal_eq_digitsN (k := 2) (by omega) (by omega)]
      exact outputOne_eq (k := 2) (fun _ => lt100_eq) (by omega) hu
  split
  · split
    · rw [decimal_eq_digitsN (k := 5) (by omega) (by omega)]
      exact lt1000000_eq (by omega)
    · rw [decimal_eq_digitsN (k := 4) (by omega) (by omega)]
      exact outputOne_eq (k := 4) (fun _ => lt10000_eq) (by omega) hu
  split
  · split
    · rw [decimal_eq_digitsN (k := 7) (by omega) (by omega)]
      exact lt100000000_eq (by omega)
    · rw [decimal_eq_digitsN (k := 6) (by omega) (by omega)]
      exact outputOne_eq (k := 6) (fun _ => lt1000000_eq) (by omega) hu
  · rw [decimal_eq_digitsN (k := 8) (by omega) (by omega)]
    exact outputOne_eq (k := 8) (fun _ => lt100000000_eq) (by omega) hu

theorem lastNineDigits_eq (h : u < 10 ^ 9) : lastNineDigits u = .ok (digitsN 9 u) := by
  have h1 : ∀ v < 10 ^ 1, (Except.ok [digit v] : Except Fault Bytes) = .ok (digitsN 1 v) := by
    intro v hv
    rw [digitsN, digitsN, mod_eq_of_lt (by simpa using hv), nil_append]
  have h3 := fun v (hv : v < 10 ^ 3) => outputTwo_eq (u := v) h1 (by omega) (by omega)
  have h5 := fun v (hv : v < 10 ^ 5) => outputTwo_eq (u := v) h3 (by omega) (by omega)
  have h7 := fun v (hv : v < 10 ^ 7) => outputTwo_eq (u := v) h5 (by omega) (by omega)
  exact outputTwo_eq h7 (by omega) (by omega)

theorem outputUInt64AsString_eq (hu : u < 2 ^ 64) : outputUInt64AsString u = .ok (decimal u) := by
  induction u using Nat.strongRecOn with
  | ind u ih =>
    rw [outputUInt64AsString]
    split
    · rename_i hlt
      exact outputUInt32AsString_eq hlt
    · have hlast : u - u / 1000000000 * 1000000000 = u % 10 ^ 9 := by omega
      have hlt : u % 10 ^ 9 < 10 ^ 9 := mod_lt _ (by omega)
      simp only [ih (u / 1000000000) (by omega) (by omega), ok_bind, hlast,
        uint32_of_lt (show u % 10 ^ 9 < 2 ^ 32 by omega), lastNineDigits_eq hlt, pure_eq_ok]
      rw [decimal_append (k := 9) (n := u) (by omega)]
      rfl

def decimalInt (n : Int) : Bytes :=
  if n < 0 then 0x2d :: decimal (-n).toNat else decimal n.toNat

theorem decimalInt_natCast (n : Nat) : decimalInt n = decimal n := by
  rw [decimalInt, if_neg (by omega), Int.toNat_natCast]

theorem minus_notMem_decimal (n : Nat) : 0x2d ∉ decimal n := by
  intro h
  obtain ⟨d, hd, heq⟩ := exists_digit_of_mem_decimal h
  have hnat := congrArg UInt8.toNat heq
  rw [toNat_digit hd, show (0x2d : UInt8).toNat = 45 from rfl] at hnat
  omega

theorem decimalInt_inj {m n : Int} : decimalInt m = decimalInt n ↔ m = n := by
  refine ⟨fun h => ?_, fun h => h ▸ rfl⟩
  unfold decimalInt at h
  split at h <;> split at h
  · rw [cons.injEq, decimal_inj] at h
    omega
  · exact absurd (h ▸ mem_cons_self) (minus_notMem_decimal n.toNat)
  · exact absurd (h ▸ mem_cons_self) (minus_notMem_decimal m.toNat)
  · rw [decimal_inj] at h
    omega

def EndsInDigit (s : Bytes) : Prop := ∃ d < 10, s.getLast? = some (digit d)

theorem EndsInDigit.append_decimal (s : Bytes) (n : Nat) : EndsInDigit (s ++ decimal n) := by
  have hlast := getLast?_eq_some_getLast (decimal_ne_nil n)
  obtain ⟨d, hd, hdigit⟩ := exists_digit_of_mem_decimal (getLast_mem (decimal_ne_nil n))
  refine ⟨d, hd, ?_⟩
  rw [getLast?_append, hlast, hdigit]
  rfl

theorem EndsInDigit.append_decimalInt (s : Bytes) (n : Int) : EndsInDigit (s ++ decimalInt n) := by
  unfold decimalInt
  split
  · rw [← singleton_append, ← append_assoc]
    exact append_decimal _ _
  · exact append_decimal _ _

theorem numberToString_eq {n : Int} (hlow : -2 ^ 31 ≤ n) (hhigh : n < 2 ^ 31) :
    numberToString n = .ok (decimalInt n) := by
  unfold numberToString outputInt32AsString decimalInt
  split
  · have hneg : uint32 (int32 (-n)) = (-n).toNat := by
      unfold uint32 int32
      rw [Int.bmod_def]
      split <;> omega
    rw [hneg, outputUInt32AsString_eq (by omega)]
    rfl
  · rw [show uint32 n = n.toNat by unfold uint32; omega, outputUInt32AsString_eq (by omega)]

theorem numberToString64_eq {n : Int} (hlow : -2 ^ 63 ≤ n) (hhigh : n < 2 ^ 63) :
    numberToString64 n = .ok (decimalInt n) := by
  unfold numberToString64 outputInt64AsString decimalInt
  split
  · have hneg : uint64 (int64 (-n)) = (-n).toNat := by
      unfold uint64 int64
      rw [Int.bmod_def]
      split <;> omega
    rw [hneg, outputUInt64AsString_eq (by omega)]
    rfl
  · rw [show uint64 n = n.toNat by unfold uint64; omega, outputUInt64AsString_eq (by omega)]

/-! ## Parsing -/

/-- The integer types of the templates. -/
inductive IntegerType where
  | signedChar
  | unsignedChar
  | short
  | unsignedShort
  | int
  | unsignedInt
  | long
  | unsignedLong
  | longLong
  | unsignedLongLong
  deriving DecidableEq

namespace IntegerType

def bits : IntegerType → Nat
  | signedChar | unsignedChar => 8
  | short | unsignedShort => 16
  | int | unsignedInt => 32
  | long | unsignedLong | longLong | unsignedLongLong => 64

def isSigned : IntegerType → Bool
  | signedChar | short | int | long | longLong => true
  | unsignedChar | unsignedShort | unsignedInt | unsignedLong | unsignedLongLong => false

def min (t : IntegerType) : Int := if t.isSigned then -2 ^ (t.bits - 1) else 0

def max (t : IntegerType) : Int := if t.isSigned then 2 ^ (t.bits - 1) - 1 else 2 ^ t.bits - 1

end IntegerType

def isSpace (c : UInt8) : Bool := c = 0x20 ∨ 0x09 ≤ c ∧ c ≤ 0x0d

def digitOf (c : UInt8) : Option Nat :=
  if 0x30 ≤ c ∧ c ≤ 0x39 then some (c.toNat - 0x30)
  else if 0x61 ≤ c ∧ c ≤ 0x7a then some (c.toNat - 0x61 + 10)
  else if 0x41 ≤ c ∧ c ≤ 0x5a then some (c.toNat - 0x41 + 10)
  else none

def isDigitOf (base : Nat) (c : UInt8) : Bool := (digitOf c).any (· < base)

/-- Whether there is a minus sign, and the text without the sign. -/
def strtolSign (s : Bytes) : Bool × Bytes :=
  match s with
  | 0x2d :: rest => (true, rest)
  | 0x2b :: rest => (false, rest)
  | _ => (false, s)

/-- The base that a text is read in, and the text without a prefix that names the base. -/
def strtolBase (base : Nat) (s : Bytes) : Nat × Bytes :=
  match s with
  | 0x30 :: x :: c :: rest =>
    if (base = 0 ∨ base = 16) ∧ (x = 0x78 ∨ x = 0x58) ∧ isDigitOf 16 c then (16, c :: rest)
    else if base = 0 then (8, s) else (base, s)
  | 0x30 :: _ => if base = 0 then (8, s) else (base, s)
  | _ => if base = 0 then (10, s) else (base, s)

/-- The C function `strtol`: the number, the text from `*endptr` on, and whether `errno` is set. -/
def strtol (s : Bytes) (base : Nat) : Int × Bytes × Bool :=
  let (negative, text) := strtolSign (s.dropWhile isSpace)
  let (base, text) := strtolBase base text
  match text.takeWhile (isDigitOf base) with
  | [] => (0, s, false)
  | digits =>
    let magnitude : Int := digits.foldl (fun v c => base * v + ((digitOf c).getD 0 : Nat)) 0
    let number := if negative then -magnitude else magnitude
    let rest := text.dropWhile (isDigitOf base)
    if number < -2 ^ 63 then (-2 ^ 63, rest, true)
    else if 2 ^ 63 ≤ number then (2 ^ 63 - 1, rest, true)
    else (number, rest, false)

def numeral (base : Nat) (digits : Bytes) : Nat :=
  digits.foldl (fun v c => base * v + (digitOf c).getD 0) 0

/-- The C functions `strtoul` and `strtoull`: the number, the text from `*endptr` on, and whether
`errno` is set. -/
def strtoul (s : Bytes) (base : Nat) : Int × Bytes × Bool :=
  let (negative, text) := strtolSign (s.dropWhile isSpace)
  let (base, text) := strtolBase base text
  match text.takeWhile (isDigitOf base) with
  | [] => (0, s, false)
  | digits =>
    let magnitude := numeral base digits
    let rest := text.dropWhile (isDigitOf base)
    if 2 ^ 64 ≤ magnitude then (2 ^ 64 - 1, rest, true)
    else ((if negative then uint64 (-magnitude) else magnitude : Nat), rest, false)

/-- `StringToNumber<IntermediaType>::Convert` -/
def convert (t : IntegerType) (s : Bytes) (base : Nat) : Int × Bytes × Bool :=
  if t.isSigned then strtol s base else strtoul s base

/-- `ParseNumberT`: the number, if it returns true, and the text from `*endptr` on. -/
def parseNumberT (t : IntegerType) (s : Bytes) (base : Nat) : Option Int × Bytes :=
  let (number, rest, erange) := convert t s base
  if erange then (none, rest)
  else if t.bits < 64 ∧ (t.max < number ∨ number < t.min) then (none, rest)
  else if rest.length = s.length then (none, rest)
  else (some number, rest)

/-- `StringToNumber` for an integer type in a base: what it returns, and `*value` after the call.
The text ends at the first zero byte. -/
def stringToNumberIn (t : IntegerType) (base : Nat) (str : Bytes) (value : Int) : Bool × Int :=
  match parseNumberT t (str.takeWhile (· ≠ 0)) base with
  | (some number, rest) => (rest.isEmpty, number)
  | (none, _) => (false, value)

/-- `StringToNumber` without a base, which the text then names. -/
def stringToNumberT (t : IntegerType) (str : Bytes) (value : Int) : Bool × Int :=
  stringToNumberIn t 0 str value

def stringToNumber (str : Bytes) (value : Int) : Bool × Int := stringToNumberT .int str value

/-- The C function `sscanf` with the format `%x` and an `int`: the number, if there is one, is read
as `strtoul` does, and the `int` keeps its low bits. -/
def sscanfHex (s : Bytes) : Option Int :=
  let (negative, text) := strtolSign (s.dropWhile isSpace)
  let (base, text) := strtolBase 16 text
  match text.takeWhile (isDigitOf base) with
  | [] => none
  | digits =>
    let magnitude : Int := numeral base digits
    let number := if 2 ^ 64 ≤ magnitude then 2 ^ 64 - 1
      else if negative then -magnitude else magnitude
    some (int32 number)

theorem digitOf_digit {d : Nat} (h : d < 10) : digitOf (digit d) = some d := by
  have hd := toNat_digit h
  rw [digitOf, if_pos (by constructor <;> (rw [UInt8.le_iff_toNat_le, hd]; simp <;> omega)), hd]
  simp

theorem foldl_digitOf {text : Bytes} (htext : ∀ c ∈ text, ∃ d < 10, c = digit d) (v : Nat) :
    text.foldl (fun (v : Int) c => (10 : Nat) * v + ((digitOf c).getD 0 : Nat)) v =
      digitsValue v text := by
  induction text generalizing v with
  | nil => rfl
  | cons c text ih =>
    obtain ⟨d, hd, rfl⟩ := htext c mem_cons_self
    rw [foldl_cons, digitOf_digit hd]
    have := ih (fun c hc => htext c (mem_cons_of_mem _ hc)) (10 * v + d)
    rw [digitsValue, foldl_cons, toNat_digit hd, Nat.add_sub_cancel_left]
    rw [digitsValue] at this
    rw [← this]
    rfl

variable {c : UInt8} {n : Nat}

theorem isDigitOf_decimal (h : c ∈ decimal n) : isDigitOf 10 c = true := by
  obtain ⟨d, hd, rfl⟩ := exists_digit_of_mem_decimal h
  simp [isDigitOf, digitOf_digit hd, hd]

theorem strtolSign_digit {d : Nat} (h : d < 10) (rest : Bytes) :
    isSpace (digit d) = false ∧ strtolSign (digit d :: rest) = (false, digit d :: rest) := by
  interval_cases d <;> exact ⟨rfl, rfl⟩

theorem strtolBase_zero {d : Nat} (hpos : 0 < d) (hlt : d < 10) (rest : Bytes) :
    strtolBase 0 (digit d :: rest) = (10, digit d :: rest) := by
  interval_cases d <;> rfl

theorem strtolBase_ten (s : Bytes) : strtolBase 10 s = (10, s) := by
  unfold strtolBase
  split <;> simp

theorem scan_decimal (n : Nat) {rest : Bytes} (hrest : ∀ c ∈ rest.head?, isDigitOf 10 c = false) :
    strtolSign ((decimal n ++ rest).dropWhile isSpace) = (false, decimal n ++ rest) ∧
      (decimal n ++ rest).takeWhile (isDigitOf 10) = decimal n ∧
      (decimal n ++ rest).dropWhile (isDigitOf 10) = rest := by
  obtain ⟨c, text, hcons⟩ := exists_cons_of_ne_nil (decimal_ne_nil n)
  obtain ⟨d, hd, rfl⟩ := exists_digit_of_mem_decimal (hcons ▸ mem_cons_self : c ∈ decimal n)
  obtain ⟨hspace, hsign⟩ := strtolSign_digit hd (text ++ rest)
  rw [← cons_append, ← hcons] at hsign
  have hskip : (decimal n ++ rest).dropWhile isSpace = decimal n ++ rest := by
    rw [hcons, cons_append, dropWhile_cons_of_neg (by simp [hspace])]
  have hend : rest.takeWhile (isDigitOf 10) = [] ∧ rest.dropWhile (isDigitOf 10) = rest := by
    cases rest with
    | nil => exact ⟨rfl, rfl⟩
    | cons c rest =>
      have hc := hrest c rfl
      exact ⟨takeWhile_cons_of_neg (by simp [hc]), dropWhile_cons_of_neg (by simp [hc])⟩
  refine ⟨by rw [hskip, hsign], ?_, ?_⟩
  · rw [takeWhile_append_of_pos fun _ => isDigitOf_decimal, hend.1, append_nil]
  · rw [dropWhile_append_of_pos fun _ => isDigitOf_decimal, hend.2]

theorem strtol_of_base {base n : Nat} {rest : Bytes} (hn : n < 2 ^ 63)
    (hrest : ∀ c ∈ rest.head?, isDigitOf 10 c = false)
    (hbase : strtolBase base (decimal n ++ rest) = (10, decimal n ++ rest)) :
    strtol (decimal n ++ rest) base = ((n : Int), rest, false) := by
  obtain ⟨hsign, htake, hdrop⟩ := scan_decimal n hrest
  have hvalue := @foldl_digitOf (decimal n) (fun c hc => exists_digit_of_mem_decimal hc) 0
  rw [digitsValue_decimal] at hvalue
  unfold strtol
  simp only [hsign, hbase, htake, hdrop]
  split
  · rename_i hnil
    exact absurd hnil (decimal_ne_nil n)
  · rw [if_neg Bool.false_ne_true, show ((0 : Int)) = ((0 : Nat) : Int) from rfl, hvalue,
      if_neg (by omega), if_neg (by omega)]

theorem strtol_decimal_append (hn : n < 2 ^ 63) {rest : Bytes}
    (hrest : ∀ c ∈ rest.head?, isDigitOf 10 c = false) :
    strtol (decimal n ++ rest) 10 = ((n : Int), rest, false) :=
  strtol_of_base hn hrest (strtolBase_ten _)

theorem strtol_decimal (hn : n < 2 ^ 63) : strtol (decimal n) 0 = ((n : Int), [], false) := by
  rcases Nat.eq_zero_or_pos n with rfl | hpos
  · rw [decimal_of_lt (by omega)]
    decide
  · obtain ⟨d, rest, hd, hlt, hcons⟩ := head_decimal hpos
    have hbase : strtolBase 0 (decimal n ++ []) = (10, decimal n ++ []) := by
      rw [hcons, append_nil, strtolBase_zero hd hlt]
    have := strtol_of_base hn (by simp) hbase
    rwa [append_nil] at this

theorem zero_notMem_decimal (n : Nat) : 0 ∉ decimal n := by
  intro h
  obtain ⟨d, hd, heq⟩ := exists_digit_of_mem_decimal h
  have := toNat_digit hd
  rw [← heq] at this
  simp at this
  omega

theorem stringToNumberIn_decimal {base n : Nat} (hn : n < 2 ^ 31)
    (hstrtol : strtol (decimal n) base = ((n : Int), [], false)) (value : Int) :
    stringToNumberIn .int base (decimal n) value = (true, (n : Int)) := by
  have htext : (decimal n).takeWhile (· ≠ 0) = decimal n := by
    rw [takeWhile_eq_self_iff]
    intro c hc
    have hne : c ≠ 0 := fun h => zero_notMem_decimal n (h ▸ hc)
    simpa using hne
  have hlen : ([] : Bytes).length ≠ (decimal n).length := by
    have := length_pos_iff.mpr (decimal_ne_nil n)
    simp only [length_nil]
    omega
  have hmax : IntegerType.int.max = 2 ^ 31 - 1 := rfl
  have hmin : IntegerType.int.min = -2 ^ 31 := rfl
  have hrange : ¬ (IntegerType.int.max < n ∨ n < IntegerType.int.min) := by omega
  have hconvert : convert .int (decimal n) base = ((n : Int), [], false) := hstrtol
  rw [stringToNumberIn, htext, parseNumberT, hconvert]
  simp only [Bool.false_eq_true, ite_false, hlen, hrange, and_false, isEmpty_nil]

theorem stringToNumber_decimal (hn : n < 2 ^ 31) (value : Int) :
    stringToNumber (decimal n) value = (true, (n : Int)) :=
  stringToNumberIn_decimal hn (strtol_decimal (by omega)) value

theorem stringToNumberIn_ten_decimal (hn : n < 2 ^ 31) (value : Int) :
    stringToNumberIn .int 10 (decimal n) value = (true, (n : Int)) := by
  have hstrtol : strtol (decimal n) 10 = ((n : Int), [], false) := by
    have := @strtol_decimal_append n (by omega) [] (by simp)
    rwa [append_nil] at this
  exact stringToNumberIn_decimal hn hstrtol value

end Toft

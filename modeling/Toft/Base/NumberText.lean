import Mathlib.Data.List.Induction
import Toft.Base.Number

/-!
# The texts of integers

What the output functions write for the values of the four integer types is the canonical decimal
text (`output_canonical`): a minus sign for a negative number, then digits, of which the first is
zero only for zero. The table of two digits is never read outside of its bounds, for else there
would be no text.
-/

namespace Toft

open Lib List Nat

/-- `CountOutputIterator`, by its count. -/
structure CountOutputIterator where
  count : Nat := 0

/-- `*output++ = value`. The copy from before the increment takes the value and drops it. -/
def CountOutputIterator.write (output : CountOutputIterator) (_value : UInt8) :
    CountOutputIterator :=
  { output with count := output.count + 1 }

/-- `IntegerStringLength`, with what `OutputIntegerAsString(int)` writes. -/
def integerStringLength (n : Int) : Except Fault Nat := do
  let written ← outputInt32AsString n
  return (written.foldl CountOutputIterator.write {}).count

/-- The canonical decimal text of an integer. -/
structure Canonical (n : Int) (text : Bytes) : Prop where
  /-- a sign for a negative number, and digits -/
  form : ∃ digits : Bytes, text = (if n < 0 then [0x2d] else []) ++ digits ∧ digits ≠ [] ∧
    (∀ c ∈ digits, ∃ d < 10, c = digit d) ∧
    -- no leading zeros
    (digits.head? = some (digit 0) → digits = [digit 0]) ∧ digitsValue 0 digits = n.natAbs

theorem head_decimal_zero {n : Nat} (h : (decimal n).head? = some (digit 0)) :
    decimal n = [digit 0] := by
  obtain rfl | hpos := Nat.eq_zero_or_pos n
  · exact decimal_of_lt (by decide)
  · obtain ⟨d, rest, hd, hlt, heq⟩ := head_decimal hpos
    rw [heq, head?_cons, Option.some.injEq] at h
    have hnat := congrArg UInt8.toNat h
    rw [toNat_digit hlt, toNat_digit (by decide)] at hnat
    omega

theorem canonical_decimalInt (n : Int) : Canonical n (decimalInt n) := by
  refine ⟨decimal n.natAbs, ?_, decimal_ne_nil _, fun c hc => exists_digit_of_mem_decimal hc,
    head_decimal_zero, digitsValue_decimal _⟩
  unfold decimalInt
  split
  · rw [show (-n).toNat = n.natAbs by omega]
    rfl
  · rw [show n.toNat = n.natAbs by omega]
    rfl

theorem decimal_digitsValue {digits : Bytes} (hne : digits ≠ [])
    (hdigits : ∀ c ∈ digits, ∃ d < 10, c = digit d)
    (hzero : digits.head? = some (digit 0) → digits = [digit 0]) :
    decimal (digitsValue 0 digits) = digits := by
  induction digits using reverseRecOn with
  | nil => exact absurd rfl hne
  | append_singleton init c ih =>
    obtain ⟨d, hd, rfl⟩ := hdigits c (mem_append_right _ (mem_singleton_self c))
    have hvalue : digitsValue 0 (init ++ [digit d]) = 10 * digitsValue 0 init + d := by
      rw [digitsValue, foldl_append, foldl_cons, toNat_digit hd, Nat.add_sub_cancel_left]
      rfl
    rw [hvalue]
    obtain rfl | hinit := eq_or_ne init []
    · change decimal (10 * 0 + d) = [digit d]
      rw [mul_zero, zero_add, decimal_of_lt hd]
    · -- a leading zero would be the only digit
      have hhead : init.head? ≠ some (digit 0) := by
        intro hhead
        have honly := congrArg length (hzero (by rw [head?_append, hhead]; rfl))
        have hpos := length_pos_iff.mpr hinit
        rw [length_append, length_singleton, length_singleton] at honly
        omega
      have hdecimal := ih hinit (fun c hc => hdigits c (mem_append_left _ hc))
        (fun h => absurd h hhead)
      have hpos : 0 < digitsValue 0 init := by
        rcases Nat.eq_zero_or_pos (digitsValue 0 init) with hzero | hpos
        · rw [hzero, decimal_of_lt (by decide)] at hdecimal
          rw [← hdecimal] at hhead
          exact absurd rfl hhead
        · exact hpos
      rw [decimal, if_neg (by omega),
        show (10 * digitsValue 0 init + d) / 10 = digitsValue 0 init by
        omega, show (10 * digitsValue 0 init + d) % 10 = d by omega, hdecimal]

theorem canonical_iff {n : Int} {text : Bytes} : Canonical n text ↔ text = decimalInt n := by
  constructor
  · rintro ⟨digits, rfl, hne, hdigits, hzero, hvalue⟩
    rw [← decimal_digitsValue hne hdigits hzero, hvalue]
    unfold decimalInt
    split
    · rw [show (-n).toNat = n.natAbs by omega]
      rfl
    · rw [show n.toNat = n.natAbs by omega]
      rfl
  · rintro rfl
    exact canonical_decimalInt n

theorem count_foldl_write (written : Bytes) (output : CountOutputIterator) :
    (written.foldl CountOutputIterator.write output).count = output.count + written.length := by
  induction written generalizing output with
  | nil => rfl
  | cons c written ih =>
    rw [foldl_cons, ih, CountOutputIterator.write, add_right_comm]
    rfl

/-- `run` writes the canonical text of `n`, and no other text is canonical. -/
def Writes (run : Except Fault Bytes) (n : Int) : Prop :=
  ∃ text, run = .ok text ∧ ∀ other, Canonical n other ↔ other = text

theorem writes_decimalInt {run : Except Fault Bytes} {n : Int} (h : run = .ok (decimalInt n)) :
    Writes run n := ⟨decimalInt n, h, fun _ => canonical_iff⟩

/-- Every value of the four types is written as its canonical text, and `IntegerStringLength` is the
number of bytes that are written. -/
theorem output_canonical :
    (∀ u : UInt32, Writes (outputUInt32AsString u.toNat) u.toNat) ∧
    (∀ i : Int32, Writes (outputInt32AsString i.toInt) i.toInt) ∧
    (∀ u : UInt64, Writes (outputUInt64AsString u.toNat) u.toNat) ∧
    (∀ i : Int64, Writes (outputInt64AsString i.toInt) i.toInt) ∧
    ∀ n : Int32, integerStringLength n.toInt = (outputInt32AsString n.toInt).map length := by
  refine ⟨?_, ?_, ?_, ?_, ?_⟩
  · intro u
    apply writes_decimalInt
    rw [outputUInt32AsString_eq u.toNat_lt, decimalInt_natCast]
  · intro i
    apply writes_decimalInt
    exact numberToString_eq i.le_toInt i.toInt_lt
  · intro u
    apply writes_decimalInt
    rw [outputUInt64AsString_eq u.toNat_lt, decimalInt_natCast]
  · intro i
    apply writes_decimalInt
    exact numberToString64_eq i.le_toInt i.toInt_lt
  · intro n
    have hwritten : outputInt32AsString n.toInt = .ok (decimalInt n.toInt) :=
      numberToString_eq n.le_toInt n.toInt_lt
    rw [integerStringLength, hwritten, ok_bind, count_foldl_write, zero_add]
    rfl

end Toft

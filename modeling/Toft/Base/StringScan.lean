import Toft.Base.Number

/-!
# Scanning numbers out of a text

`StringScan` walks along a format and a text together. Of its conversions only `%d` into an `int` is
modelled here, with the plain characters of a format.
-/

namespace Toft

open Lib List

/-- `ParseSigned` for an `int`: the value and the text behind it, if any of it was read. A number
outside of the range of the type is not stored. -/
def parseSigned (str : Bytes) (base : Nat) : Option (Int × Bytes) :=
  let (n, rest, erange) := strtol str base
  if erange then none
  else if int32 n ≠ n then none
  else if rest.length = str.length then none
  else some (n, rest)

/-- `StringVScan` on a text without zero byte: the values that are stored, one for each conversion
that succeeds. -/
def stringVScan : Bytes → Bytes → List Int
  | [], _ => []
  | 0x25 :: 0x64 :: format, s =>
    match parseSigned s 10 with
    | some (value, rest) => value :: stringVScan format rest
    | none => []
  | f :: format, c :: s => if c = f then stringVScan format s else []
  | _ :: _, [] => []

/-- `StringScan`; the text ends at the first zero byte. -/
def stringScan (s format : Bytes) : List Int := stringVScan format (s.takeWhile (· ≠ 0))

theorem parseSigned_decimal {n : Nat} (hn : n < 2 ^ 31) {rest : Bytes}
    (hrest : ∀ c ∈ rest.head?, isDigitOf 10 c = false) :
    parseSigned (decimal n ++ rest) 10 = some ((n : Int), rest) := by
  have hlen : rest.length ≠ (decimal n ++ rest).length := by
    have := length_pos_iff.mpr (decimal_ne_nil n)
    rw [length_append]
    omega
  rw [parseSigned, strtol_decimal_append (by omega) hrest]
  simp only [Bool.false_eq_true, if_false, int32_of_lt hn, ne_eq, not_true_eq_false, hlen]

theorem stringScan_dotted {m n : Nat} (hm : m < 2 ^ 31) (hn : n < 2 ^ 31) :
    stringScan (decimal m ++ ascii "." ++ decimal n) (ascii "%d.%d") = [(m : Int), (n : Int)] := by
  have hzero : ∀ c ∈ decimal m ++ ascii "." ++ decimal n, decide (c ≠ 0) = true := by
    intro c hc
    rw [decide_eq_true_eq]
    rintro rfl
    simp [zero_notMem_decimal, show ascii "." = [0x2e] from rfl] at hc
  have hdot : ∀ c ∈ (ascii "." ++ decimal n).head?, isDigitOf 10 c = false := by
    rintro c ⟨⟩
    decide
  have hfirst := parseSigned_decimal hm hdot
  have hsecond := @parseSigned_decimal n hn [] (by simp)
  rw [append_nil] at hsecond
  rw [stringScan, takeWhile_eq_self_iff.mpr hzero, append_assoc,
    show ascii "%d.%d" = [0x25, 0x64, 0x2e, 0x25, 0x64] from rfl]
  simp only [stringVScan, hfirst]
  change (m : Int) :: stringVScan [0x25, 0x64] (decimal n) = _
  simp only [stringVScan, hsecond]

end Toft

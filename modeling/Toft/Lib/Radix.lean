import Mathlib.Data.Nat.Digits.Lemmas
import Toft.Lib.Word

/-!
# Texts of numbers in a base

`digitText` is the text of a number with the digits of a table, the most significant one in front.
-/

namespace Toft.Lib

open List Nat

/-- The text of a number. Zero has one digit. -/
def digitText (base : Nat) (table : Bytes) (n : Nat) : Bytes :=
  if n = 0 then [table.getD 0 0] else ((Nat.digits base n).map (table.getD · 0)).reverse

variable {base : Nat} {table : Bytes} {n : Nat}

theorem digitText_of_lt (h : n < base) : digitText base table n = [table.getD n 0] := by
  unfold digitText
  split_ifs with hzero
  · rw [hzero]
  · rw [digits_of_lt base n hzero h]
    rfl

theorem digitText_of_le (hbase : 2 ≤ base) (h : base ≤ n) :
    digitText base table n = digitText base table (n / base) ++ [table.getD (n % base) 0] := by
  have hdiv : 0 < n / base := div_pos h (by omega)
  rw [digitText, if_neg (by omega), digitText, if_neg hdiv.ne',
    digits_def' hbase (by omega), map_cons, reverse_cons]

theorem exists_of_mem_digitText (hbase : 2 ≤ base) {c : UInt8}
    (h : c ∈ digitText base table n) : ∃ d < base, c = table.getD d 0 := by
  unfold digitText at h
  split_ifs at h
  · exact ⟨0, by omega, mem_singleton.mp h⟩
  · rw [mem_reverse, mem_map] at h
    obtain ⟨d, hd, rfl⟩ := h
    exact ⟨d, digits_lt_base hbase hd, rfl⟩

theorem exists_head_digitText (hbase : 2 ≤ base) (h : n ≠ 0) :
    ∃ d text, 0 < d ∧ d < base ∧ digitText base table n = table.getD d 0 :: text := by
  have hne : Nat.digits base n ≠ [] := digits_ne_nil_iff_ne_zero.mpr h
  refine ⟨(Nat.digits base n).getLast hne,
    ((Nat.digits base n).dropLast.map (table.getD · 0)).reverse,
    pos_of_ne_zero (getLast_digit_ne_zero base h),
    digits_lt_base hbase (getLast_mem hne), ?_⟩
  rw [digitText, if_neg h]
  conv_lhs => rw [← dropLast_concat_getLast hne]
  rw [map_append, reverse_append]
  rfl

end Toft.Lib

import Toft.Lib.Word

/-!
# Decimal texts

`decimal n` is the decimal text of a number, without leading zeros; `digitsN k n` are its last `k`
digits. A text that is put together from groups of digits is shown to be the decimal text with
`digitsN_add`.
-/

namespace Toft.Lib

open List Nat

/-- The character of a digit. -/
def digit (d : Nat) : UInt8 := 48 + UInt8.ofNat d

/-- The last digits of a number, as many as given. -/
def digitsN : Nat → Nat → Bytes
  | 0, _ => []
  | k + 1, n => digitsN k (n / 10) ++ [digit (n % 10)]

/-- The decimal text of a number. -/
def decimal (n : Nat) : Bytes :=
  if n < 10 then [digit n] else decimal (n / 10) ++ [digit (n % 10)]
termination_by n

theorem toNat_digit {d : Nat} (h : d < 10) : (digit d).toNat = 48 + d := by
  rw [digit, UInt8.toNat_add, UInt8.toNat_ofNat']
  rw [mod_eq_of_lt (by omega : d < 2 ^ 8)]
  exact mod_eq_of_lt (by change 48 + d < 256; omega)

theorem digitsN_add (j k n : Nat) :
    digitsN (j + k) n = digitsN j (n / 10 ^ k) ++ digitsN k (n % 10 ^ k) := by
  induction k generalizing n with
  | zero => simp [digitsN]
  | succ k ih =>
    rw [← Nat.add_assoc, digitsN, ih, digitsN, Nat.div_div_eq_div_mul, pow_succ',
      mod_mul_right_div_self, mod_mul_right_mod, append_assoc]

variable {k n : Nat}

theorem decimal_eq_digitsN (hlow : 10 ^ k ≤ n) (hhigh : n < 10 ^ (k + 1)) :
    decimal n = digitsN (k + 1) n := by
  induction k generalizing n with
  | zero =>
    have hlt : n < 10 := by simpa using hhigh
    rw [decimal, if_pos hlt, digitsN, digitsN, mod_eq_of_lt hlt, nil_append]
  | succ k ih =>
    rw [decimal, if_neg (by omega), digitsN, ih (by omega) (by omega)]

/-- A number with at least one digit in front of its last `k`. -/
theorem decimal_append (h : 10 ^ k ≤ n) :
    decimal n = decimal (n / 10 ^ k) ++ digitsN k (n % 10 ^ k) := by
  induction k generalizing n with
  | zero => simp [digitsN]
  | succ k ih =>
    have hpos : 1 ≤ 10 ^ k := one_le_pow _ _ (by omega)
    rw [decimal, if_neg (by omega), ih (by omega), digitsN, Nat.div_div_eq_div_mul,
      pow_succ', mod_mul_right_div_self, mod_mul_right_mod, append_assoc]

theorem decimal_of_lt {n : Nat} (h : n < 10) : decimal n = [digit n] := by
  rw [decimal, if_pos h]

theorem decimal_ne_nil (n : Nat) : decimal n ≠ [] := by
  rw [decimal]
  split <;> simp

theorem length_decimal_le (h : n < 10 ^ (k + 1)) : (decimal n).length ≤ k + 1 := by
  induction k generalizing n with
  | zero =>
    rw [decimal_of_lt (by simpa using h)]
    rfl
  | succ k ih =>
    rw [decimal]
    split
    · simp
    · rw [pow_succ] at h
      have := ih (show n / 10 < 10 ^ (k + 1) by omega)
      rw [length_append, length_singleton]
      omega

/-- The number that more digits make of `v`. -/
def digitsValue (v : Nat) (text : Bytes) : Nat :=
  text.foldl (fun v c => 10 * v + (c.toNat - 48)) v

/-- Numbers come back from their texts. -/
theorem digitsValue_decimal (n : Nat) : digitsValue 0 (decimal n) = n := by
  induction n using Nat.strongRecOn with
  | ind n ih =>
    rw [decimal]
    split
    · rename_i hlt
      simp [digitsValue, toNat_digit hlt]
    · have hpre := ih (n / 10) (by omega)
      rw [digitsValue] at hpre
      rw [digitsValue, foldl_append, foldl_cons, foldl_nil, toNat_digit (mod_lt _ (by omega))]
      omega

theorem decimal_inj {m n : Nat} : decimal m = decimal n ↔ m = n := by
  refine ⟨fun h => ?_, fun h => h ▸ rfl⟩
  rw [← digitsValue_decimal m, h, digitsValue_decimal]

theorem exists_digit_of_mem_decimal {n : Nat} {c : UInt8} (h : c ∈ decimal n) :
    ∃ d < 10, c = digit d := by
  induction n using Nat.strongRecOn with
  | ind n ih =>
    rw [decimal] at h
    split at h
    · rename_i hlt
      exact ⟨n, hlt, mem_singleton.mp h⟩
    · rcases mem_append.mp h with h | h
      · exact ih (n / 10) (by omega) h
      · exact ⟨n % 10, mod_lt _ (by omega), mem_singleton.mp h⟩

theorem head_decimal {n : Nat} (h : 0 < n) : ∃ d rest, 0 < d ∧ d < 10 ∧
    decimal n = digit d :: rest := by
  induction n using Nat.strongRecOn with
  | ind n ih =>
    rw [decimal]
    split
    · rename_i hlt
      exact ⟨n, [], h, hlt, rfl⟩
    · obtain ⟨d, rest, hpos, hlt, heq⟩ := ih (n / 10) (by omega) (by omega)
      exact ⟨d, rest ++ [digit (n % 10)], hpos, hlt, by rw [heq]; rfl⟩

end Toft.Lib

import Mathlib.Tactic.Ring

/-!
# Conversions between machine integers

Assignments of the source that narrow a value or change its sign, on mathematical integers.
-/

namespace Toft

open Int UInt32

/-- The conversion to `int32_t`. -/
def int32 (n : Int) : Int := n.bmod (2 ^ 32)

/-- The conversion to `uint32_t`. -/
def uint32 (n : Int) : Nat := (n % 2 ^ 32).toNat

/-- The conversion to `int64_t`. -/
def int64 (n : Int) : Int := n.bmod (2 ^ 64)

/-- The conversion to `uint64_t`. -/
def uint64 (n : Int) : Nat := (n % 2 ^ 64).toNat

theorem int32_bounds (n : Int) : -2 ^ 31 ≤ int32 n ∧ int32 n < 2 ^ 31 := by
  have hlow := le_bmod (x := n) (m := 2 ^ 32) (by omega)
  have hhigh := bmod_lt (x := n) (m := 2 ^ 32) (by omega)
  unfold int32
  omega

theorem int32_of_bounds {n : Int} (hlow : -2 ^ 31 ≤ n) (hhigh : n < 2 ^ 31) : int32 n = n := by
  apply bmod_eq_of_le <;> omega

variable {n : Nat}

theorem int32_of_lt (h : n < 2 ^ 31) : int32 n = n := by
  apply bmod_eq_of_le <;> omega

theorem int32_of_ge (h : 2 ^ 31 ≤ n) (h' : n < 2 ^ 32) : int32 n = n - 2 ^ 32 := by
  unfold int32
  rw [bmod_def]
  split <;> omega

theorem sub_emod_of_int32_eq {a b : Int} (h : int32 a = int32 b) : (a - b) % 2 ^ 32 = 0 := by
  have hmod := congrArg (· % ((2 ^ 32 : Nat) : Int)) h
  simp only [int32, bmod_emod] at hmod
  omega

theorem int32_int32_add (a b : Int) : int32 (int32 a + b) = int32 (a + b) := by
  exact bmod_add_bmod

theorem int64_of_lt (h : n < 2 ^ 63) : int64 n = n := by
  apply bmod_eq_of_le <;> omega

theorem uint32_of_lt (h : n < 2 ^ 32) : uint32 n = n := by
  unfold uint32
  omega

theorem uint64_of_lt (h : n < 2 ^ 64) : uint64 n = n := by
  unfold uint64
  omega

theorem uint32_add {m n : Nat} (h : m + n < 2 ^ 32) : uint32 (m + n) = m + n := by
  unfold uint32
  omega

theorem int32_toNat_ofInt (n : Int) : int32 (ofInt n).toNat = int32 n := by
  have hnat : (((ofInt n).toNat : Nat) : Int) = n % (2 ^ 32 : Nat) := by
    rw [ofInt, toNat_ofNat']
    omega
  rw [int32, hnat, emod_bmod, int32]

theorem int64_toNat_ofInt (n : Int) : int64 (UInt64.ofInt n).toNat = int64 n := by
  have hnat : (((UInt64.ofInt n).toNat : Nat) : Int) = n % (2 ^ 64 : Nat) := by
    rw [UInt64.ofInt, UInt64.toNat_ofNat']
    omega
  rw [int64, hnat, emod_bmod, int64]

theorem int32_int32 (n : Int) : int32 (int32 n) = int32 n := by
  exact bmod_bmod

theorem int64_int32 (n : Int) : int64 (int32 n) = int32 n := by
  unfold int64 int32
  have hlow := @Int.le_bmod n (2 ^ 32) (by decide)
  have hhigh := @Int.bmod_lt n (2 ^ 32) (by decide)
  apply bmod_eq_of_le <;> omega

theorem toNat_int32_le (n : Nat) : (int32 n).toNat ≤ n := by
  unfold int32
  rw [bmod_def]
  split <;> omega

/-- A length survives the conversion to `int` below `2 ^ 31`. -/
theorem toNat_int32_eq_iff : (int32 n).toNat = n ↔ n < 2 ^ 31 := by
  unfold int32
  rw [bmod_def]
  split <;> omega

/-- Adding a count through `int32_t` and back to `uint32_t` loses nothing. -/
theorem uint32_add_int32 {m n : Nat} (h : m + n < 2 ^ 32) : uint32 (m + int32 n) = m + n := by
  unfold uint32 int32
  rw [bmod_def]
  split <;> omega

end Toft

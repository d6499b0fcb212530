import Mathlib.Algebra.Order.Ring.Nat
import Mathlib.Data.Nat.Init
import Mathlib.Tactic.Ring

/-!
# Division by a multiplication

The quotient by `t` as that of a product by a fixed `Q`. The multiplier stands for `Q / t`, rounded
up (`mul_div_of_add`) or rounded down (`succ_mul_div_of_sub`); in the second case the dividend is
taken one larger.
-/

namespace Toft.Lib.Reciprocal

open Nat

variable {t m Q e n : Nat}

theorem mul_div_of_add (ht : 0 < t) (hm : m * t = Q + e) (h : n * e < (t - n % t) * Q) :
    n * m / Q = n / t := by
  have hn : n % t + t * (n / t) = n := mod_add_div n t
  have hlt : n % t < t := mod_lt n ht
  have hprod : n * m * t = n * Q + n * e := by rw [mul_assoc, hm, mul_add]
  have hnext : n + (t - n % t) = (n / t + 1) * t := by
    rw [add_mul, one_mul, mul_comm (n / t) t]
    omega
  apply Nat.div_eq_of_lt_le
  · refine Nat.le_of_mul_le_mul_right ?_ ht
    calc n / t * Q * t = t * (n / t) * Q := by ring
      _ ≤ n * Q := mul_le_mul_right Q (mul_div_le n t)
      _ ≤ n * m * t := by omega
  · refine Nat.lt_of_mul_lt_mul_right (a := t) ?_
    calc n * m * t = n * Q + n * e := hprod
      _ < n * Q + (t - n % t) * Q := Nat.add_lt_add_left h _
      _ = (n + (t - n % t)) * Q := (add_mul _ _ _).symm
      _ = (n / t + 1) * Q * t := by
        rw [hnext]
        ring

theorem succ_mul_div_of_sub (ht : 0 < t) (he : 0 < e) (hm : m * t + e = Q)
    (h : (n + 1) * e ≤ Q) : (n + 1) * m / Q = n / t := by
  have hprod : (n + 1) * m * t + (n + 1) * e = (n + 1) * Q := by
    rw [mul_assoc, ← mul_add, hm]
  have hpos : 0 < (n + 1) * e := mul_pos (succ_pos n) he
  apply Nat.div_eq_of_lt_le
  · refine Nat.le_of_mul_le_mul_right ?_ ht
    calc n / t * Q * t = t * (n / t) * Q := by ring
      _ ≤ n * Q := mul_le_mul_right Q (mul_div_le n t)
      _ ≤ (n + 1) * m * t := by
        rw [add_mul n 1 Q, one_mul] at hprod
        omega
  · refine Nat.lt_of_mul_lt_mul_right (a := t) ?_
    calc (n + 1) * m * t < (n + 1) * Q := by omega
      _ ≤ (n / t + 1) * t * Q := by
        refine mul_le_mul_right Q ?_
        rw [add_mul, one_mul]
        exact lt_div_mul_add ht
      _ = (n / t + 1) * Q * t := by ring

end Toft.Lib.Reciprocal

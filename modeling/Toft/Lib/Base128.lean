import Toft.Lib.Word

/-!
# Numbers in groups of seven bits

A number is written least significant group first, with the high bit set on each byte but the last
(`base128`). A reader takes the bytes up to the first one without that bit (`splitGroups`); the
number that they write is `groupsNat`.
-/

namespace Toft.Lib

open List Nat

/-- The groups of seven bits, the lowest first. -/
def base128 (n : Nat) : Bytes :=
  if n < 128 then [UInt8.ofNat n] else UInt8.ofNat (n % 128 + 128) :: base128 (n / 128)
termination_by n

/-- The number that the groups stand for. -/
def groupsNat : Bytes → Nat
  | [] => 0
  | b :: bs => b.toNat % 128 + 128 * groupsNat bs

/-- The groups up to the last one, and what follows. -/
def splitGroups : Bytes → Option (Bytes × Bytes)
  | [] => none
  | b :: p =>
    if b.toNat < 128 then some ([b], p)
    else (splitGroups p).map fun (groups, q) => (b :: groups, q)

variable {b : UInt8}

theorem groupsNat_single (h : b.toNat < 128) : groupsNat [b] = b.toNat := by
  rw [groupsNat, groupsNat, mod_eq_of_lt h, mul_zero, add_zero]

theorem base128_of_lt {n : Nat} (h : n < 128) : base128 n = [UInt8.ofNat n] := by
  rw [base128, if_pos h]

theorem base128_of_le {n : Nat} (h : 128 ≤ n) :
    base128 n = UInt8.ofNat (n % 128 + 128) :: base128 (n / 128) := by
  rw [base128, if_neg (by omega)]

theorem splitGroups_last (p : Bytes) (h : b.toNat < 128) :
    splitGroups (b :: p) = some ([b], p) := by
  rw [splitGroups, if_pos h]

theorem splitGroups_more (p : Bytes) (h : 128 ≤ b.toNat) :
    splitGroups (b :: p) = (splitGroups p).map fun (groups, q) => (b :: groups, q) := by
  rw [splitGroups, if_neg (by omega)]

/-- The end of a number is found. -/
theorem splitGroups_base128 (n : Nat) (p : Bytes) :
    splitGroups (base128 n ++ p) = some (base128 n, p) := by
  induction n using base128.induct with
  | case1 n h =>
    have hb : (UInt8.ofNat n).toNat < 128 := by rw [UInt8.toNat_ofNat']; omega
    rw [base128_of_lt h]
    exact splitGroups_last p hb
  | case2 n h ih =>
    have hb : 128 ≤ (UInt8.ofNat (n % 128 + 128)).toNat := by rw [UInt8.toNat_ofNat']; omega
    rw [base128_of_le (by omega), cons_append, splitGroups_more _ hb, ih]
    rfl

/-- Numbers come back from their groups. -/
theorem groupsNat_base128 (n : Nat) : groupsNat (base128 n) = n := by
  induction n using base128.induct with
  | case1 n h =>
    rw [base128_of_lt h, groupsNat, groupsNat, UInt8.toNat_ofNat']
    omega
  | case2 n h ih =>
    rw [base128_of_le (by omega), groupsNat, UInt8.toNat_ofNat']
    omega

theorem length_base128_le {k n : Nat} (h : n < 128 ^ (k + 1)) : (base128 n).length ≤ k + 1 := by
  induction k generalizing n with
  | zero => rw [base128_of_lt (by omega)]; exact le_rfl
  | succ k ih =>
    by_cases hn : n < 128
    · rw [base128_of_lt hn]
      exact le_add_left 1 _
    · have hdiv : n / 128 < 128 ^ (k + 1) := by
        omega
      rw [base128_of_le (by omega)]
      exact succ_le_succ (ih hdiv)

theorem splitGroups_eq_some {p groups q : Bytes} :
    splitGroups p = some (groups, q) ↔
      ∃ init last, groups = init ++ [last] ∧ p = init ++ last :: q ∧
        (∀ b ∈ init, 128 ≤ b.toNat) ∧ last.toNat < 128 := by
  constructor
  · intro h
    induction p generalizing groups with
    | nil => cases h
    | cons b p ih =>
      by_cases hb : b.toNat < 128
      · rw [splitGroups_last p hb] at h
        cases h
        exact ⟨[], b, rfl, rfl, fun _ hmem => absurd hmem not_mem_nil, hb⟩
      · rw [splitGroups_more p (by omega)] at h
        obtain ⟨⟨tail, q'⟩, htail, heq⟩ := Option.map_eq_some_iff.mp h
        cases heq
        obtain ⟨init, last, rfl, rfl, hinit, hlast⟩ := ih htail
        exact ⟨b :: init, last, rfl, rfl, forall_mem_cons.mpr ⟨by omega, hinit⟩, hlast⟩
  · rintro ⟨init, last, rfl, rfl, hinit, hlast⟩
    induction init with
    | nil => exact splitGroups_last q hlast
    | cons b init ih =>
      obtain ⟨hb, hinit⟩ := forall_mem_cons.mp hinit
      rw [cons_append, splitGroups_more _ hb, ih hinit]
      rfl

theorem splitGroups_append {p groups q : Bytes} (h : splitGroups p = some (groups, q)) :
    p = groups ++ q := by
  obtain ⟨init, last, rfl, rfl, -⟩ := splitGroups_eq_some.mp h
  rw [append_assoc, singleton_append]

theorem groupsNat_lt (groups : Bytes) : groupsNat groups < 128 ^ groups.length := by
  induction groups with
  | nil => exact one_pos
  | cons b groups ih =>
    rw [groupsNat, length_cons]
    omega

theorem groupsNat_append_last (init : Bytes) {last : UInt8} (h : last.toNat < 128) :
    groupsNat (init ++ [last]) = groupsNat init + 128 ^ init.length * last.toNat := by
  induction init with
  | nil => simp [groupsNat, mod_eq_of_lt h]
  | cons b init ih =>
    rw [cons_append, groupsNat, ih, groupsNat, length_cons]
    ring

/-- A bound on the last group that may carry one is a bound on the number. -/
theorem groupsNat_lt_iff {init : Bytes} {last : UInt8} {k c : Nat} (hlast : last.toNat < 128)
    (hk : init.length ≤ k) (hc : 0 < c) :
    groupsNat (init ++ [last]) < 128 ^ k * c ↔ (init.length = k → last.toNat < c) := by
  have hlo := groupsNat_lt init
  rw [groupsNat_append_last init hlast]
  by_cases hlen : init.length = k
  · rw [hlen] at hlo ⊢
    constructor
    · intro hlt _
      exact lt_of_mul_lt_mul_left (by omega : 128 ^ k * last.toNat < 128 ^ k * c) (zero_le _)
    · intro hlt
      have hle : 128 ^ k * (last.toNat + 1) ≤ 128 ^ k * c := mul_le_mul_left _ (hlt rfl)
      rw [mul_add] at hle
      omega
  · have hpow : 128 ^ (init.length + 1) ≤ 128 ^ k := Nat.pow_le_pow_right (by decide) (by omega)
    have hmul : 128 ^ k * 1 ≤ 128 ^ k * c := mul_le_mul_left _ hc
    have hgroup : 128 ^ init.length * last.toNat ≤ 128 ^ init.length * 127 :=
      mul_le_mul_left _ (by omega)
    exact iff_of_true (by omega) (fun h => absurd h hlen)

end Toft.Lib

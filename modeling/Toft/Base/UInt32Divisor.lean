import Mathlib.Algebra.Order.Ring.Canonical
import Mathlib.Data.Nat.Factorization.Basic
import Mathlib.Data.Nat.Log
import Toft.Base.Fault
import Toft.Base.Int
import Toft.Lib.Reciprocal

/-!
# Division by a fixed divisor

`UInt32Divisor` replaces a division by a multiplication and a shift. `DetectAlgorithm` looks for the
multiplier of the odd part of the divisor. It first tries a multiplier that is rounded up
(`Magic.of_roundUp`); if that needs more than 32 bits, it takes one that is rounded down, and then
the remainder is always below a half (`Magic.of_roundDown`).
-/

namespace Toft

open Nat

/-- How a quotient is computed. -/
inductive UInt32Divisor.Algorithm where
  | multipleShift
  | multipleAddShift
  | shift
  | compare
  | invalid
  deriving DecidableEq

/-- The members of `UInt32Divisor`. -/
structure UInt32Divisor where
  divisor : Nat := 0
  algorithm : UInt32Divisor.Algorithm := .invalid
  multiplier : Nat := 0
  shift : Nat := 0
  deriving DecidableEq

namespace UInt32Divisor

/-- `1ULL << amount` -/
def shiftOne (amount : Nat) : Except Fault Nat :=
  if amount < 64 then .ok (2 ^ amount) else .error .badShift

/-- `n >> amount`, with `n` of 32 bits. -/
def shiftRight (n amount : Nat) : Except Fault Nat :=
  if amount < 32 then .ok (n / 2 ^ amount) else .error .badShift

def quotient (n divisor : Nat) : Except Fault Nat :=
  if divisor = 0 then .error .divideByZero else .ok (n / divisor)

def remainder (n divisor : Nat) : Except Fault Nat :=
  if divisor = 0 then .error .divideByZero else .ok (n % divisor)

def log2Loop : Nat → Nat → Nat → Except Fault Nat
  | 0, _, _ => .error .unended
  | fuel + 1, i, t => if i ≠ 0 then log2Loop fuel (i / 2) (uint32 (t + 1)) else .ok t

def log2 (i : Nat) : Except Fault Nat := log2Loop 32 (i / 2) 0

/-- The loops that halve a number until it is odd, and count. -/
def reduceLoop (count : Nat → Nat) : Nat → Nat → Nat → Except Fault (Nat × Nat)
  | 0, _, _ => .error .unended
  | fuel + 1, t, counter =>
    if t % 2 = 0 then reduceLoop count fuel (t / 2) (count counter) else .ok (t, counter)

/-- The loop that halves both bounds of the multiplier, at most `l` times. -/
def halveLoop (mLow mHigh : Nat) : Nat → Nat × Nat × Nat
  | 0 => (mLow, mHigh, 0)
  | l + 1 =>
    if mLow / 2 < mHigh / 2 then halveLoop (mLow / 2) (mHigh / 2) l else (mLow, mHigh, l + 1)

/-- `DetectAlgorithm`, the search for the multiplier of an odd number. -/
def detectMultiplier (t : Nat) : Except Fault (Algorithm × Nat × Nat) := do
  let log ← log2 t
  let l := uint32 (log + 1)
  let j ← remainder 0xffffffff t
  let power ← shiftOne (uint32 (32 + l))
  let k ← quotient power (uint64 (0xffffffff - j))
  let mLow ← quotient power t
  let mHigh ← quotient (uint64 (power + k)) t
  let (_, mHigh, l) := halveLoop mLow mHigh l
  if mHigh / 2 ^ 32 = 0 then
    return (.multipleShift, uint32 mHigh, l)
  else
    let shift ← log2 t
    let power ← shiftOne (uint32 (32 + shift))
    let mLow ← quotient power t
    let r ← remainder power t
    return (.multipleAddShift,
      if uint32 r < uint32 (t / 2 + 1) then uint32 mLow else uint32 (uint32 mLow + 1), shift)

def detectAlgorithm (self : UInt32Divisor) (divisor : Nat) : Except Fault (Bool × UInt32Divisor) :=
  if divisor = 0 then .ok (false, self)
  else if 0x80000000 ≤ divisor then .ok (true, { self with algorithm := .compare })
  else do
    let (t, lowestZeroBits) ← reduceLoop (fun bits => uint32 (bits + 1)) 32 divisor 0
    if t = 1 then
      return (true, { self with algorithm := .shift, multiplier := 1, shift := lowestZeroBits })
    else
      let (algorithm, multiplier, shift) ← detectMultiplier t
      let (multiplier, shift) ← reduceLoop (fun shift => uint32 (shift - 1)) 32 multiplier shift
      return (true, { self with
        algorithm := algorithm
        multiplier := multiplier
        shift := uint32 (shift + lowestZeroBits) })

def setValue (self : UInt32Divisor) (divisor : Nat) : Except Fault (Bool × UInt32Divisor) := do
  let (found, self) ← self.detectAlgorithm divisor
  return if found then (true, { self with divisor := divisor }) else (false, self)

def divide (self : UInt32Divisor) (dividend : Nat) : Except Fault Nat :=
  match self.algorithm with
  | .multipleShift =>
    let product := uint64 (dividend * self.multiplier)
    let high := uint32 (product / 2 ^ 32 : Nat)
    shiftRight high self.shift
  | .multipleAddShift =>
    let product := uint64 (dividend * self.multiplier)
    let high := uint32 (product / 2 ^ 32 : Nat)
    let low := uint32 product
    -- the sum has overflown
    let high := if uint32 (low + self.multiplier) < low then uint32 (high + 1) else high
    shiftRight high self.shift
  | .shift => shiftRight dividend self.shift
  | .compare => .ok (if self.divisor ≤ dividend then 1 else 0)
  | .invalid => .error .fatal

def modulu (self : UInt32Divisor) (dividend : Nat) : Except Fault Nat := do
  let quotient ← self.divide dividend
  return uint32 (dividend - uint32 (quotient * self.divisor))

/-! ## The loops -/

theorem shiftOne_of_lt {amount : Nat} (h : amount < 64) : shiftOne amount = .ok (2 ^ amount) :=
  if_pos h

theorem shiftRight_of_lt {amount : Nat} (h : amount < 32) (n : Nat) :
    shiftRight n amount = .ok (n / 2 ^ amount) := if_pos h

theorem quotient_of_pos {divisor : Nat} (h : 0 < divisor) (n : Nat) :
    quotient n divisor = .ok (n / divisor) := if_neg h.ne'

theorem remainder_of_pos {divisor : Nat} (h : 0 < divisor) (n : Nat) :
    remainder n divisor = .ok (n % divisor) := if_neg h.ne'

theorem log2Loop_eq {fuel n t : Nat} (hn : 0 < n) (hfuel : log 2 n < fuel)
    (ht : t + log 2 n < 2 ^ 32) : log2Loop fuel (n / 2) t = .ok (t + log 2 n) := by
  induction fuel generalizing n t with
  | zero => omega
  | succ fuel ih =>
    rw [log2Loop]
    by_cases htwo : n < 2
    · have hzero : n / 2 = 0 := div_eq_of_lt htwo
      rw [if_neg (not_not.mpr hzero), log_of_lt htwo, add_zero]
    · have hlog : log 2 n = log 2 (n / 2) + 1 :=
        Nat.log_of_one_lt_of_le one_lt_two (Nat.le_of_not_lt htwo)
      have hhalf : 0 < n / 2 := Nat.div_pos (Nat.le_of_not_lt htwo) two_pos
      have hcount : uint32 ((t : Int) + 1) = t + 1 := uint32_add (n := 1) (by omega)
      rw [if_pos hhalf.ne', hcount, ih hhalf (by omega) (by omega), hlog]
      congr 1
      omega

theorem log2_eq {n : Nat} (hn : 0 < n) (hlt : n < 2 ^ 32) : log2 n = .ok (log 2 n) := by
  have hlog : log 2 n < 32 := log_lt_of_lt_pow hn.ne' hlt
  rw [log2, log2Loop_eq hn hlog (by omega), zero_add]

theorem reduceLoop_eq (count : Nat → Nat) {fuel v odd : Nat} (hfuel : v < fuel) (hodd : Odd odd)
    (counter : Nat) :
    reduceLoop count fuel (2 ^ v * odd) counter = .ok (odd, count^[v] counter) := by
  induction v generalizing fuel counter with
  | zero =>
    obtain ⟨fuel, rfl⟩ := Nat.exists_eq_add_of_lt hfuel
    have hrem : ¬ 2 ^ 0 * odd % 2 = 0 := by
      rw [pow_zero, one_mul, odd_iff.mp hodd]
      exact one_ne_zero
    rw [reduceLoop, if_neg hrem, pow_zero, one_mul]
    rfl
  | succ v ih =>
    obtain ⟨fuel, rfl⟩ := Nat.exists_eq_add_of_lt hfuel
    have heven : 2 ^ (v + 1) * odd = 2 * (2 ^ v * odd) := by ring
    rw [reduceLoop, heven, if_pos (Nat.mul_mod_right 2 _), Nat.mul_div_cancel_left _ two_pos,
      ih (by omega)]
    rfl

/-- The bounds that the loop ends with. If it makes no round, the bounds have the same half. -/
theorem halveLoop_spec (mLow mHigh l : Nat) (h : mLow < mHigh) :
    ∃ i ≤ l, halveLoop mLow mHigh l = (mLow / 2 ^ i, mHigh / 2 ^ i, l - i) ∧
      mLow / 2 ^ i < mHigh / 2 ^ i ∧ (i = 0 → 0 < l → ¬ mLow / 2 < mHigh / 2) := by
  induction l generalizing mLow mHigh with
  | zero =>
    refine ⟨0, le_rfl, ?_, ?_, fun _ hl => absurd hl (lt_irrefl 0)⟩
    · rw [halveLoop, pow_zero, Nat.div_one, Nat.div_one]
    · rwa [pow_zero, Nat.div_one, Nat.div_one]
  | succ l ih =>
    rw [halveLoop]
    split_ifs with hhalf
    · obtain ⟨i, hi, heq, hlt, -⟩ := ih (mLow / 2) (mHigh / 2) hhalf
      rw [Nat.div_div_eq_div_mul, Nat.div_div_eq_div_mul, ← pow_succ'] at heq hlt
      refine ⟨i + 1, succ_le_succ hi, ?_, hlt, fun hzero => absurd hzero (succ_ne_zero i)⟩
      rw [heq, succ_sub_succ]
    · refine ⟨0, zero_le _, ?_, ?_, fun _ _ => hhalf⟩
      · rw [pow_zero, Nat.div_one, Nat.div_one, Nat.sub_zero]
      · rwa [pow_zero, Nat.div_one, Nat.div_one]

/-! ## Multipliers -/

/-- The multiplier `m` with the shift `s` divides by `t`, and it can be halved at most `s` times.
The dividend is taken larger by `added`. -/
structure Magic (t added s m : Nat) : Prop where
  quotient : ∀ n < 2 ^ 32, (n + added) * m / 2 ^ (32 + s) = n / t
  lt : m < 2 ^ 32
  zeros : ¬ 2 ^ (s + 1) ∣ m

/-- What makes a multiplier work that is rounded up: `e` is what it is too large, and `qt` is the
largest multiple of `t` below `2 ^ 32`. -/
theorem Magic.of_roundUp {t q s m e : Nat} (ht : t < 2 ^ 31) (hm : m < 2 ^ 32)
    (hmt : m * t = 2 ^ (32 + s) + e) (he : 0 < e) (hsmall : e < 2 ^ (s + 1))
    (hnext : 2 ^ 32 < (q + 1) * t) (hqe : q * t * e ≤ 2 ^ (32 + s)) : Magic t 0 s m where
  quotient n hn := by
    have hpos : 0 < t := pos_of_ne_zero fun h => by simp [h] at hnext
    refine Lib.Reciprocal.mul_div_of_add hpos hmt ?_
    have hrem : n % t < t := mod_lt n hpos
    by_cases hqt : n < q * t
    · -- below the last multiple the error is less than one unit
      calc n * e < q * t * e := mul_lt_mul_of_pos_right hqt he
        _ ≤ 1 * 2 ^ (32 + s) := by rwa [one_mul]
        _ ≤ (t - n % t) * 2 ^ (32 + s) := mul_le_mul_right _ (by omega)
    · -- behind it the remainder is not the largest one
      have hdiv : n / t = q := by
        apply Nat.div_eq_of_lt_le
        · omega
        · omega
      have hn' : n = q * t + n % t := by
        have := mod_add_div n t
        rw [hdiv, mul_comm t q] at this
        omega
      have hroom : 2 ≤ t - n % t := by
        rw [add_mul, one_mul] at hnext
        omega
      have hrest : n % t * e < 2 ^ (32 + s) := by
        calc n % t * e ≤ 2 ^ 31 * e := mul_le_mul_right e (by omega)
          _ < 2 ^ 31 * 2 ^ (s + 1) := Nat.mul_lt_mul_of_pos_left hsmall (Nat.two_pow_pos 31)
          _ = 2 ^ (32 + s) := by ring
      calc n * e = q * t * e + n % t * e := by rw [← add_mul, ← hn']
        _ < 2 * 2 ^ (32 + s) := by omega
        _ ≤ (t - n % t) * 2 ^ (32 + s) := mul_le_mul_right _ hroom
  lt := hm
  zeros hdvd := by
    have hpow : 2 ^ (s + 1) ∣ 2 ^ (32 + s) := pow_dvd_pow 2 (by omega)
    have hsum : 2 ^ (s + 1) ∣ 2 ^ (32 + s) + e := hmt ▸ hdvd.mul_right t
    exact absurd (Nat.le_of_dvd he ((Nat.dvd_add_right hpow).mp hsum)) (Nat.not_le.mpr hsmall)

theorem Magic.of_roundDown {t s m r : Nat} (ht : 0 < t) (hm : m < 2 ^ 32)
    (hmt : m * t + r = 2 ^ (32 + s)) (hr : 0 < r) (hsmall : r ≤ 2 ^ s) : Magic t 1 s m where
  quotient n hn := by
    refine Lib.Reciprocal.succ_mul_div_of_sub ht hr hmt ?_
    calc (n + 1) * r ≤ 2 ^ 32 * 2 ^ s := Nat.mul_le_mul hn hsmall
      _ = 2 ^ (32 + s) := (pow_add 2 32 s).symm
  lt := hm
  zeros hdvd := by
    have hpow : 2 ^ (s + 1) ∣ 2 ^ (32 + s) := pow_dvd_pow 2 (by omega)
    rw [← hmt] at hpow
    have hle := Nat.le_of_dvd hr ((Nat.dvd_add_right (hdvd.mul_right t)).mp hpow)
    omega

def Algorithm.added : Algorithm → Nat
  | .multipleAddShift => 1
  | _ => 0

theorem eq_one_of_odd_of_dvd {t n : Nat} (hodd : Odd t) (h : t ∣ 2 ^ n) : t = 1 :=
  ((coprime_two_right.mpr hodd).pow_right n).eq_one_of_dvd h

/-- The largest error that is allowed for the multiplier, before it is halved. -/
theorem error_bounds {n l : Nat} (hlow : 2 ^ 31 < n) (hhigh : n < 2 ^ 32) :
    2 ^ l ≤ 2 ^ (32 + l) / n ∧ 2 ^ (32 + l) / n < 2 ^ (l + 1) := by
  have hpos : 0 < n := by omega
  refine ⟨(le_div_iff_mul_le hpos).mpr ?_, (div_lt_iff_lt_mul hpos).mpr ?_⟩
  · calc 2 ^ l * n ≤ 2 ^ l * 2 ^ 32 := mul_le_mul_left _ hhigh.le
      _ = 2 ^ (32 + l) := by ring
  · calc 2 ^ (32 + l) = 2 ^ (l + 1) * 2 ^ 31 := by ring
      _ < 2 ^ (l + 1) * n := Nat.mul_lt_mul_of_pos_left hlow (Nat.two_pow_pos _)

/-- The multiplier that the halving loop ends with, after `i` rounds. -/
theorem Magic.of_halved {t q l i m : Nat} (ht : t < 2 ^ 31) (hq : q * t < 2 ^ 32)
    (hnext : 2 ^ 32 < (q + 1) * t) (hi : i ≤ l) (hm : m < 2 ^ 32)
    (hlow : 2 ^ (32 + l) / t / 2 ^ i < m)
    (hhigh : m ≤ (2 ^ (32 + l) + 2 ^ (32 + l) / (q * t)) / t / 2 ^ i) :
    Magic t 0 (l - i) m := by
  have hpos : 0 < t := pos_of_ne_zero fun h => by simp [h] at hnext
  have hpow : 2 ^ (32 + l) = 2 ^ (32 + (l - i)) * 2 ^ i := by
    rw [← pow_add]
    congr 1
    omega
  have hlarge : 2 ^ 31 < q * t := by
    rw [add_mul, one_mul] at hnext
    omega
  set k := 2 ^ (32 + l) / (q * t) with hkdef
  have hkq : k * (q * t) ≤ 2 ^ (32 + l) := div_mul_le_self _ _
  have hk : k < 2 ^ (l - i + 1) * 2 ^ i := by
    have hexp : l - i + 1 + i = l + 1 := by omega
    rw [← pow_add, hexp]
    exact (error_bounds hlarge hq).2
  -- the multiplier is larger than the quotient, and not by more than `k / 2 ^ i`
  rw [hpow, Nat.div_right_comm, Nat.mul_div_cancel _ (Nat.two_pow_pos i),
    div_lt_iff_lt_mul hpos] at hlow
  obtain ⟨e, hmt⟩ := Nat.exists_eq_add_of_lt hlow
  have hek : (e + 1) * 2 ^ i ≤ k := by
    have hbound : m * 2 ^ i * t ≤ 2 ^ (32 + l) + k :=
      (le_div_iff_mul_le hpos).mp ((le_div_iff_mul_le (Nat.two_pow_pos i)).mp hhigh)
    have hprod : m * 2 ^ i * t = 2 ^ (32 + l) + (e + 1) * 2 ^ i := by
      rw [hpow, ← add_mul, mul_right_comm, hmt]
      ring
    omega
  refine Magic.of_roundUp ht hm hmt (succ_pos e) ?_ hnext ?_
  · exact Nat.lt_of_mul_lt_mul_right (lt_of_le_of_lt hek hk)
  · refine le_of_mul_le_mul_right ?_ (Nat.two_pow_pos i)
    calc q * t * (e + 1) * 2 ^ i = (e + 1) * 2 ^ i * (q * t) := by ring
      _ ≤ k * (q * t) := mul_le_mul_right _ hek
      _ ≤ 2 ^ (32 + (l - i)) * 2 ^ i := hpow ▸ hkq

/-- If the first quotient is even, that by half the power has a remainder below a half. -/
theorem Magic.of_even {t s : Nat} (hodd : Odd t) (hlow : 2 ^ s < t) (hhigh : t < 2 ^ (s + 1))
    (heven : 2 ^ (32 + (s + 1)) / t % 2 = 0) :
    2 ^ (32 + s) % t < t / 2 + 1 ∧ Magic t 1 s (2 ^ (32 + s) / t) := by
  have hpos : 0 < t := hodd.pos
  set m := 2 ^ (32 + s) / t with hmdef
  set r := 2 ^ (32 + s) % t with hrdef
  have hmt : m * t + r = 2 ^ (32 + s) := by
    rw [mul_comm]
    exact div_add_mod _ _
  have hrt : r < t := mod_lt _ hpos
  have hhalf : 2 * r < t := by
    by_contra hge
    have hquot : 2 ^ (32 + (s + 1)) / t = 2 * m + 1 := by
      have hdouble : 2 ^ (32 + (s + 1)) = 2 * r + 2 * m * t := by
        rw [← add_assoc, pow_succ, ← hmt]
        ring
      rw [hdouble, add_mul_div_right _ _ hpos, add_comm]
      congr 1
      apply Nat.div_eq_of_lt_le <;> omega
    omega
  have hr : 0 < r := by
    refine pos_of_ne_zero ?_
    intro hzero
    have hone := eq_one_of_odd_of_dvd hodd (dvd_of_mod_eq_zero hzero)
    omega
  refine ⟨by omega, Magic.of_roundDown hpos ?_ hmt hr ?_⟩
  · rw [hmdef, div_lt_iff_lt_mul hpos, pow_add]
    exact Nat.mul_lt_mul_of_pos_left hlow (Nat.two_pow_pos 32)
  · rw [pow_succ] at hhigh
    omega

theorem detectMultiplier_eq {t s : Nat} (ht : 0 < t) (hlt : t < 2 ^ 31) (hs : log 2 t = s) :
    detectMultiplier t = .ok (
      let power := 2 ^ (32 + (s + 1))
      let k := power / (0xffffffff / t * t)
      let (_, mHigh, l) := halveLoop (power / t) ((power + k) / t) (s + 1)
      if mHigh / 2 ^ 32 = 0 then (.multipleShift, uint32 mHigh, l)
      else (.multipleAddShift,
        if 2 ^ (32 + s) % t < t / 2 + 1 then uint32 (2 ^ (32 + s) / t : Nat)
        else uint32 (uint32 (2 ^ (32 + s) / t : Nat) + 1), s)) := by
  have hsmall : s < 31 := hs ▸ log_lt_of_lt_pow ht.ne' hlt
  have hlog : log2 t = .ok s := hs ▸ log2_eq ht (by omega)
  have hj : uint64 (0xffffffff - ((0xffffffff % t : Nat) : Int)) = 0xffffffff / t * t := by
    have := div_add_mod 0xffffffff t
    rw [mul_comm] at this
    unfold uint64
    omega
  have hqtwo : 2 ≤ 0xffffffff / t * t := by
    have := lt_div_mul_add ht (a := 0xffffffff)
    omega
  have hl : uint32 ((s : Int) + 1) = s + 1 := by
    unfold uint32
    omega
  have hpower : uint32 (32 + ((s + 1 : Nat) : Int)) = 32 + (s + 1) := by
    unfold uint32
    omega
  have hpower' : uint32 (32 + (s : Int)) = 32 + s := by
    unfold uint32
    omega
  have hsum : uint64 (((2 ^ (32 + (s + 1)) : Nat) : Int) +
      ((2 ^ (32 + (s + 1)) / (0xffffffff / t * t) : Nat) : Int)) =
      2 ^ (32 + (s + 1)) + 2 ^ (32 + (s + 1)) / (0xffffffff / t * t) := by
    have hhigh : 2 ^ (32 + (s + 1)) ≤ 2 ^ 63 := Nat.pow_le_pow_right two_pos (by omega)
    have hk : 2 ^ (32 + (s + 1)) / (0xffffffff / t * t) ≤ 2 ^ (32 + (s + 1)) / 2 :=
      div_le_div_left (by omega) two_pos
    rw [← cast_add, uint64_of_lt (by omega)]
  have hr : uint32 ((2 ^ (32 + s) % t : Nat) : Int) = 2 ^ (32 + s) % t := by
    have := mod_lt (2 ^ (32 + s)) ht
    exact uint32_of_lt (by omega)
  have hhalf : uint32 ((t : Int) / 2 + 1) = t / 2 + 1 := by
    unfold uint32
    omega
  rw [detectMultiplier]
  simp only [hlog, ok_bind, pure_eq_ok, remainder_of_pos ht, quotient_of_pos ht, hl, hpower,
    shiftOne_of_lt (by omega : 32 + (s + 1) < 64), hj, quotient_of_pos (two_pos.trans_le hqtwo),
    hsum, hpower', shiftOne_of_lt (by omega : 32 + s < 64), hr, hhalf]
  exact (apply_ite _ _ _ _).symm

theorem detectMultiplier_spec {t : Nat} (hodd : Odd t) (hthree : 3 ≤ t) (hlt : t < 2 ^ 31) :
    ∃ algorithm m s, detectMultiplier t = .ok (algorithm, m, s) ∧
      (algorithm = .multipleShift ∨ algorithm = .multipleAddShift) ∧
      s ≤ log 2 t + 1 ∧ Magic t algorithm.added s m := by
  have hpos : 0 < t := hodd.pos
  obtain ⟨s, hlog⟩ : ∃ s, log 2 t = s := ⟨_, rfl⟩
  have hhigh : t < 2 ^ (s + 1) := hlog ▸ lt_pow_succ_log_self one_lt_two t
  have hlow : 2 ^ s < t := by
    refine lt_of_le_of_ne (hlog ▸ pow_log_le_self 2 hpos.ne') ?_
    intro heq
    have hone := eq_one_of_odd_of_dvd hodd ⟨1, by rw [mul_one, heq]⟩
    omega
  obtain ⟨q, hq⟩ : ∃ q, 0xffffffff / t = q := ⟨_, rfl⟩
  have hnext : 2 ^ 32 < (q + 1) * t := by
    refine lt_of_le_of_ne (succ_le_of_lt ((div_lt_iff_lt_mul hpos).mp ?_)) ?_
    · omega
    · intro heq
      have hone := eq_one_of_odd_of_dvd hodd ⟨q + 1, by rw [heq, mul_comm]⟩
      omega
  have hqt : q * t < 2 ^ 32 := by
    have := div_mul_le_self 0xffffffff t
    rw [hq] at this
    omega
  have hlarge : 2 ^ 31 < q * t := by
    rw [add_mul, one_mul] at hnext
    omega
  obtain ⟨hklow, hkhigh⟩ := @error_bounds _ (s + 1) hlarge hqt
  have hstart : 2 ^ (32 + (s + 1)) / t <
      (2 ^ (32 + (s + 1)) + 2 ^ (32 + (s + 1)) / (q * t)) / t := by
    calc 2 ^ (32 + (s + 1)) / t < 2 ^ (32 + (s + 1)) / t + 1 := lt_succ_self _
      _ = (2 ^ (32 + (s + 1)) + t) / t := (add_div_right _ hpos).symm
      _ ≤ _ := Nat.div_le_div_right (by omega)
  rw [detectMultiplier_eq hpos hlt hlog, hlog, hq]
  dsimp only
  obtain ⟨i, hi, hloop, hless, hnone⟩ := halveLoop_spec (2 ^ (32 + (s + 1)) / t)
    ((2 ^ (32 + (s + 1)) + 2 ^ (32 + (s + 1)) / (q * t)) / t) (s + 1) hstart
  rw [hloop]
  by_cases hfits : (2 ^ (32 + (s + 1)) + 2 ^ (32 + (s + 1)) / (q * t)) / t / 2 ^ i / 2 ^ 32 = 0
  · have hm := Nat.lt_of_div_eq_zero (Nat.two_pow_pos 32) hfits
    rw [if_pos hfits, uint32_of_lt hm]
    refine ⟨_, _, _, rfl, Or.inl rfl, sub_le _ _, ?_⟩
    exact Magic.of_halved hlt hqt hnext hi hm hless le_rfl
  · -- after a round the multiplier would fit, so none was made
    have hzero : i = 0 := by
      by_contra hne
      refine hfits (div_eq_of_lt ?_)
      have htwo : 2 ≤ 2 ^ i := le_self_pow hne 2
      have hsum : 2 ^ (32 + (s + 1)) + 2 ^ (32 + (s + 1)) / (q * t) < 2 ^ 33 * t := by
        calc _ < 2 ^ (32 + (s + 1)) + 2 ^ 33 := by omega
          _ = 2 ^ 33 * (2 ^ s + 1) := by ring
          _ ≤ 2 ^ 33 * t := mul_le_mul_left _ hlow
      have hquot := (div_lt_iff_lt_mul hpos).mpr hsum
      have hle := div_le_div_left htwo two_pos
        (a := (2 ^ (32 + (s + 1)) + 2 ^ (32 + (s + 1)) / (q * t)) / t)
      omega
    obtain ⟨hr, hmagic⟩ := Magic.of_even hodd hlow hhigh (by omega)
    rw [if_neg hfits, if_pos hr, uint32_of_lt hmagic.lt]
    exact ⟨_, _, _, rfl, Or.inr rfl, le_succ s, hmagic⟩

/-! ## Setting and dividing -/

theorem iterate_succ {v : Nat} (h : v < 2 ^ 32) :
    (fun bits : Nat => uint32 (bits + 1))^[v] 0 = v := by
  induction v with
  | zero => rfl
  | succ v ih =>
    rw [Function.iterate_succ_apply', ih (by omega)]
    exact uint32_add h

theorem iterate_pred {v s : Nat} (hv : v ≤ s) (hs : s < 2 ^ 32) :
    (fun shift : Nat => uint32 (shift - 1))^[v] s = s - v := by
  induction v with
  | zero => rfl
  | succ v ih =>
    rw [Function.iterate_succ_apply', ih (by omega)]
    unfold uint32
    omega

theorem Magic.reduce {t added s m : Nat} (h : Magic t added s m) (hs : s < 32) :
    ∃ m' s', reduceLoop (fun shift => uint32 (shift - 1)) 32 m s = .ok (m', s') ∧
      m' < 2 ^ 32 ∧ s' ≤ s ∧ ∀ n < 2 ^ 32, (n + added) * m' / 2 ^ (32 + s') = n / t := by
  have hne : m ≠ 0 := by
    rintro rfl
    exact h.zeros (dvd_zero _)
  obtain ⟨v, odd, hodd, rfl⟩ := exists_eq_two_pow_mul_odd hne
  have hv : v ≤ s := by
    by_contra hlt
    exact h.zeros ((pow_dvd_pow 2 (by omega)).mul_right odd)
  have hle : odd ≤ 2 ^ v * odd := Nat.le_mul_of_pos_left odd (Nat.two_pow_pos v)
  have hloop := reduceLoop_eq (fun shift => uint32 (shift - 1)) (by omega : v < 32) hodd s
  rw [iterate_pred hv (by omega)] at hloop
  refine ⟨odd, s - v, hloop, lt_of_le_of_lt hle h.lt, sub_le s v, ?_⟩
  intro n hn
  have hpow : 2 ^ (32 + s) = 2 ^ v * 2 ^ (32 + (s - v)) := by
    rw [← pow_add]
    congr 1
    omega
  rw [← h.quotient n hn, hpow, mul_left_comm, Nat.mul_div_mul_left _ _ (Nat.two_pow_pos v)]

/-- The carry of the sum is that of the product with the next dividend. -/
theorem carry_eq {product m : Nat} (hm : m < 2 ^ 32) (hproduct : product + m < 2 ^ 64) :
    (if uint32 ((uint32 product : Int) + m) < uint32 product
      then uint32 ((uint32 ((product / 2 ^ 32 : Nat) : Int) : Int) + 1)
      else uint32 ((product / 2 ^ 32 : Nat) : Int)) = (product + m) / 2 ^ 32 := by
  unfold uint32
  split_ifs <;> omega

theorem divide_multiple {self : UInt32Divisor}
    (h : self.algorithm = .multipleShift ∨ self.algorithm = .multipleAddShift)
    (hm : self.multiplier < 2 ^ 32) (hs : self.shift < 32) {n : Nat} (hn : n < 2 ^ 32) :
    self.divide n = .ok ((n + self.algorithm.added) * self.multiplier / 2 ^ (32 + self.shift)) := by
  have hproduct : n * self.multiplier ≤ (2 ^ 32 - 1) * (2 ^ 32 - 1) :=
    Nat.mul_le_mul (by omega) (by omega)
  have hwide : uint64 ((n : Int) * self.multiplier) = n * self.multiplier := by
    rw [← cast_mul, uint64_of_lt (by omega)]
  rcases h with h | h
  · simp only [divide, h, hwide, Algorithm.added, shiftRight_of_lt hs]
    rw [uint32_of_lt (by omega), Nat.div_div_eq_div_mul, ← pow_add, Nat.add_zero]
  · simp only [divide, h, hwide, Algorithm.added, shiftRight_of_lt hs]
    rw [carry_eq hm (by omega), Nat.div_div_eq_div_mul, ← pow_add, add_mul, one_mul]

/-- What `SetValue` does with a divisor that is not zero: the quotients are right. -/
theorem setValue_spec (self : UInt32Divisor) {d : Nat} (hd : 0 < d) (hlt : d < 2 ^ 32) :
    ∃ self', self.setValue d = .ok (true, self') ∧ self'.divisor = d ∧
      ∀ n < 2 ^ 32, self'.divide n = .ok (n / d) := by
  rw [setValue, detectAlgorithm, if_neg hd.ne']
  by_cases hlarge : 0x80000000 ≤ d
  · rw [if_pos hlarge]
    refine ⟨_, rfl, rfl, ?_⟩
    intro n hn
    refine congrArg Except.ok ?_
    dsimp only
    split_ifs with hle
    · exact (Nat.div_eq_of_lt_le (by omega) (by omega)).symm
    · exact (Nat.div_eq_of_lt (Nat.lt_of_not_le hle)).symm
  · rw [if_neg hlarge]
    obtain ⟨z, t, hodd, rfl⟩ := exists_eq_two_pow_mul_odd hd.ne'
    have hlog : 2 ^ (log 2 t + z) < 2 ^ 31 := by
      calc 2 ^ (log 2 t + z) = 2 ^ z * 2 ^ log 2 t := by rw [pow_add, mul_comm]
        _ ≤ 2 ^ z * t := mul_le_mul_left _ (pow_log_le_self 2 hodd.pos.ne')
        _ < 2 ^ 31 := Nat.lt_of_not_le hlarge
    have hbits : Nat.log 2 t + z < 31 := (Nat.pow_lt_pow_iff_right one_lt_two).mp hlog
    have hreduce := reduceLoop_eq (fun bits => uint32 (bits + 1)) (by omega : z < 32) hodd 0
    rw [iterate_succ (by omega)] at hreduce
    simp only [hreduce, ok_bind]
    by_cases hone : t = 1
    · rw [if_pos hone]
      refine ⟨_, rfl, rfl, ?_⟩
      intro n _
      rw [hone, mul_one]
      exact shiftRight_of_lt (by omega : z < 32) n
    · rw [if_neg hone]
      have hthree : 3 ≤ t := by
        have := odd_iff.mp hodd
        omega
      have hle : t ≤ 2 ^ z * t := Nat.le_mul_of_pos_left t (Nat.two_pow_pos z)
      obtain ⟨algorithm, m, s, hdetect, halgorithm, hs, hmagic⟩ :=
        detectMultiplier_spec hodd hthree (by omega)
      obtain ⟨m', s', hloop, hm', hs', hquotient⟩ := hmagic.reduce (by omega)
      have hshift : uint32 ((s' : Int) + z) = s' + z := uint32_add (by omega)
      simp only [hdetect, hloop, ok_bind, pure_eq_ok, hshift]
      refine ⟨_, rfl, rfl, ?_⟩
      intro n hn
      rw [divide_multiple halgorithm hm' (by omega : s' + z < 32) hn]
      rw [← Nat.add_assoc, pow_add, ← Nat.div_div_eq_div_mul, hquotient n hn,
        Nat.div_div_eq_div_mul, mul_comm t]

theorem modulu_of_divide {self : UInt32Divisor} {n : Nat}
    (h : self.divide n = .ok (n / self.divisor)) (hn : n < 2 ^ 32) :
    self.modulu n = .ok (n % self.divisor) := by
  have hmod := mod_add_div n self.divisor
  rw [modulu, h, ok_bind, ← cast_mul, mul_comm (n / self.divisor), uint32_of_lt (by omega)]
  refine congrArg Except.ok ?_
  unfold uint32
  omega

theorem setValue_modulu (self : UInt32Divisor) {d : Nat} (hd : 0 < d) (hlt : d < 2 ^ 32) :
    ∃ self', self.setValue d = .ok (true, self') ∧ ∀ n < 2 ^ 32, self'.modulu n = .ok (n % d) := by
  obtain ⟨self', hset, rfl, hdivide⟩ := self.setValue_spec hd hlt
  exact ⟨self', hset, fun n hn => modulu_of_divide (hdivide n hn) hn⟩

/-- Dividing by the fixed divisor is exact. `SetValue` fails for zero only, and then it changes
nothing. -/
theorem fast_division_exact (self : UInt32Divisor) :
    (∀ d, 1 ≤ d → d < 2 ^ 32 → ∃ self', self.setValue d = .ok (true, self') ∧
      ∀ n < 2 ^ 32, self'.divide n = .ok (n / d) ∧ self'.modulu n = .ok (n % d)) ∧
    self.setValue 0 = .ok (false, self) := by
  refine ⟨?_, rfl⟩
  intro d hd hlt
  obtain ⟨self', hset, rfl, hdivide⟩ := self.setValue_spec hd hlt
  refine ⟨self', hset, ?_⟩
  intro n hn
  exact ⟨hdivide n hn, modulu_of_divide (hdivide n hn) hn⟩

/-- Division by seven, whose multiplier is rounded down. -/
theorem fast_division_seven : ∃ self', ({} : UInt32Divisor).setValue 7 = .ok (true, self') ∧
    self'.divide 100 = .ok 14 ∧ self'.modulu 100 = .ok 2 := by
  obtain ⟨self', hset, hexact⟩ := (fast_division_exact {}).1 7 (by decide) (by decide)
  exact ⟨self', hset, hexact 100 (by decide)⟩

end UInt32Divisor

end Toft

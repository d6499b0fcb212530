import Toft.Encoding.Percent

/-!
# Percent decoding at the end of a text

The decoders check `i + 2 > size` before they read two digits behind a percent sign, so a percent
sign in front of the last byte lets them read the byte behind the text. In a `std::string` that byte
is NUL and no digit, and decoding in place gives what decoding to a copy gives (`decodeInPlace_eq`).
Behind a view it may be any byte, and the result depends on it (`staysInside_iff`).
-/

namespace Toft.PercentEncoding

open Lib List Ascii Nat

/-- `DecodeAppend` on a view, with the byte that stands behind the view in memory. -/
def decodeView (behind : UInt8) : Bytes → Bytes → Bool × Bytes
  | [], output => (true, output)
  | 37 :: a :: b :: input, output =>
    if isHexDigit a && isHexDigit b then
      decodeView behind input (output ++ [hexValue a <<< 4 ||| hexValue b])
    else (false, output)
  | [37, a], output =>
    if isHexDigit a && isHexDigit behind then
      (true, output ++ [hexValue a <<< 4 ||| hexValue behind])
    else (false, output)
  | c :: input, output =>
    if c = '%'.toUInt8 then (false, output)
    else if c = '+'.toUInt8 then decodeView behind input (output ++ [' '.toUInt8])
    else decodeView behind input (output ++ [c])

/-- Every percent sign at which decoding stands is followed by two digits. -/
def Decodable : Bytes → Prop
  | [] => True
  | 37 :: a :: b :: s => isHexDigit a ∧ isHexDigit b ∧ Decodable s
  | c :: s => c ≠ '%'.toUInt8 ∧ Decodable s

/-- Decoding comes to stand at a percent sign that is in front of the last byte of the text, and
that byte is a digit. -/
def EndsInHalf (s : Bytes) : Prop :=
  ∃ before a, s = before ++ [37, a] ∧ Decodable before ∧ isHexDigit a

/-- What decoding does is the same whatever stands behind the view. -/
def StaysInside (view output : Bytes) : Prop :=
  ∃ result, (∀ behind, decodeView behind view output = result) ∧
    (result.1 = true ↔ Decodable view)

theorem decodable_byte {c : UInt8} (hpercent : c ≠ '%'.toUInt8) (s : Bytes) :
    Decodable (c :: s) ↔ Decodable s := by
  rw [Decodable]
  · exact and_iff_right hpercent
  · exact fun _ _ _ hc _ => hpercent hc

theorem endsInHalf_byte {c : UInt8} (hpercent : c ≠ '%'.toUInt8) (s : Bytes) :
    EndsInHalf (c :: s) ↔ EndsInHalf s := by
  constructor
  · rintro ⟨before, a, heq, hbefore, ha⟩
    cases before with
    | nil =>
      cases heq
      exact absurd rfl hpercent
    | cons d before =>
      cases heq
      exact ⟨before, a, rfl, (decodable_byte hpercent before).mp hbefore, ha⟩
  · rintro ⟨before, a, rfl, hbefore, ha⟩
    exact ⟨c :: before, a, rfl, (decodable_byte hpercent before).mpr hbefore, ha⟩

theorem endsInHalf_percent (a b : UInt8) (s : Bytes) :
    EndsInHalf (37 :: a :: b :: s) ↔ isHexDigit a ∧ isHexDigit b ∧ EndsInHalf s := by
  constructor
  · rintro ⟨before, x, heq, hbefore, hx⟩
    match before with
    | [] => cases heq
    | [c] =>
      cases heq
      exact (hbefore.1 rfl).elim
    | [c, d] =>
      cases heq
      exact (hbefore.1 rfl).elim
    | c :: d :: e :: before =>
      cases heq
      exact ⟨hbefore.1, hbefore.2.1, before, x, rfl, hbefore.2.2, hx⟩
  · rintro ⟨ha, hb, before, x, rfl, hbefore, hx⟩
    exact ⟨37 :: a :: b :: before, x, rfl, ⟨ha, hb, hbefore⟩, hx⟩

/-- A text of at most two bytes ends in half a code only if it is that half. -/
theorem endsInHalf_short {s : Bytes} (hs : s.length ≤ 2) :
    EndsInHalf s ↔ ∃ a, s = [37, a] ∧ isHexDigit a := by
  constructor
  · rintro ⟨before, a, rfl, -, ha⟩
    rw [length_append] at hs
    obtain rfl := length_eq_zero_iff.mp (show before.length = 0 by simpa using hs)
    exact ⟨a, rfl, ha⟩
  · rintro ⟨a, rfl, ha⟩
    exact ⟨[], a, rfl, trivial, ha⟩

theorem decodeView_byte {c : UInt8} (hpercent : c ≠ '%'.toUInt8) (behind : UInt8)
    (input output : Bytes) : decodeView behind (c :: input) output =
      decodeView behind input (output ++ [if c = '+'.toUInt8 then ' '.toUInt8 else c]) := by
  rw [decodeView]
  · rw [if_neg hpercent]
    split <;> rfl
  · exact fun _ _ _ hc _ => hpercent hc
  · exact fun _ hc _ => hpercent hc

/-- Only at half a code the result depends on the byte behind the view. -/
theorem decodeView_spec (view output : Bytes) :
    (EndsInHalf view → ∀ behind, (decodeView behind view output).1 = isHexDigit behind) ∧
    (¬ EndsInHalf view → ∃ result, (∀ behind, decodeView behind view output = result) ∧
      (result.1 = true ↔ Decodable view)) := by
  fun_induction decodeAppend view output with
  | case1 output =>
    refine ⟨fun h => ?_, fun _ => ⟨(true, output), fun _ => rfl, iff_of_true rfl trivial⟩⟩
    obtain ⟨a, heq, -⟩ := (endsInHalf_short (by decide)).mp h
    cases heq
  | case2 a b input output hdigits ih =>
    have hboth := (Bool.and_eq_true _ _).mp hdigits
    simpa only [endsInHalf_percent, decodeView, Decodable, hboth, Bool.and_self, if_true,
      true_and] using ih
  | case3 a b input output hdigits =>
    have hnot : ¬ (isHexDigit a ∧ isHexDigit b) := fun h => hdigits ((Bool.and_eq_true _ _).mpr h)
    refine ⟨fun h => ?_, fun _ => ⟨(false, output), fun _ => if_neg hdigits, ?_⟩⟩
    · obtain ⟨ha, hb, -⟩ := (endsInHalf_percent a b input).mp h
      exact absurd ⟨ha, hb⟩ hnot
    · exact iff_of_false Bool.false_ne_true fun h => hnot ⟨h.1, h.2.1⟩
  | case4 a output hdigit =>
    refine ⟨fun _ behind => ?_, fun h => absurd ((endsInHalf_short le_rfl).mpr ⟨a, rfl, hdigit⟩) h⟩
    rw [decodeView, hdigit]
    cases isHexDigit behind <;> rfl
  | case5 a output hdigit =>
    refine ⟨fun h => ?_, fun _ => ⟨(false, output), fun _ => if_neg fun h => hdigit ?_, ?_⟩⟩
    · obtain ⟨a', heq, ha'⟩ := (endsInHalf_short le_rfl).mp h
      cases heq
      exact absurd ha' hdigit
    · exact ((Bool.and_eq_true _ _).mp h).1
    · exact iff_of_false Bool.false_ne_true fun h => h.1 rfl
  | case6 input output hlong hshort =>
    match input with
    | [] =>
      refine ⟨fun h => ?_, fun _ => ⟨(false, output), fun _ => rfl, ?_⟩⟩
      · obtain ⟨a, heq, -⟩ := (endsInHalf_short (by decide)).mp h
        cases heq
      · exact iff_of_false Bool.false_ne_true fun h => h.1 rfl
    | [a] => exact (hshort a rfl rfl).elim
    | a :: b :: input => exact (hlong a b input rfl rfl).elim
  | case7 input output _ _ hpercent ih =>
    simpa only [endsInHalf_byte hpercent, decodeView_byte hpercent, decodable_byte hpercent,
      if_pos] using ih
  | case8 c input output _ _ hpercent hplus ih =>
    simpa only [endsInHalf_byte hpercent, decodeView_byte hpercent, decodable_byte hpercent,
      if_neg hplus] using ih

/-- Decoding stays inside its view exactly if the view does not end, behind a text that can be
decoded, with a percent sign and a single digit. -/
theorem staysInside_iff (view output : Bytes) : StaysInside view output ↔
    ¬ ∃ before a, view = before ++ [37, a] ∧ Decodable before ∧ isHexDigit a := by
  obtain ⟨hhalf, hwhole⟩ := decodeView_spec view output
  refine ⟨?_, hwhole⟩
  rintro ⟨result, hresult, -⟩ hends
  have hone := hhalf hends '1'.toUInt8
  rw [hresult, ← hresult 0, hhalf hends 0] at hone
  exact absurd hone (by decide)

/-- A code that is cut behind its percent sign is refused, whatever stands behind the view. -/
theorem staysInside_cut : StaysInside (ascii "a%41%") [] := by
  refine (staysInside_iff _ _).mpr ?_
  rintro ⟨before, a, heq, -⟩
  have hlast : (ascii "a%41%").dropLast.getLast? = some 37 := by rw [heq]; simp
  exact absurd hlast (by decide)

theorem not_staysInside_half : ¬ StaysInside (ascii "%4") [] := by
  rintro ⟨result, hresult, -⟩
  exact absurd ((hresult 0).trans (hresult '1'.toUInt8).symm) (by decide)

/-! ## Decoding in place -/

/-- The loop of `PercentEncoding::Decode` in its string; the byte behind the end is NUL. Every round
moves `i` on. -/
def decodeInPlaceLoop : Nat → Nat → Nat → Bytes → Except Fault (Bool × Bytes)
  | 0, _, _, _ => .error .unended
  | fuel + 1, i, writePos, s =>
    if i < s.length then
      if s.getD i 0 = '%'.toUInt8 then
        if i + 2 > s.length then .ok (false, s)
        else if !isHexDigit (s.getD (i + 1) 0) || !isHexDigit (s.getD (i + 2) 0) then
          .ok (false, s)
        else
          decodeInPlaceLoop fuel (i + 3) (writePos + 1)
            (s.set writePos (hexValue (s.getD (i + 1) 0) <<< 4 ||| hexValue (s.getD (i + 2) 0)))
      else
        decodeInPlaceLoop fuel (i + 1) (writePos + 1)
          (s.set writePos (if s.getD i 0 = '+'.toUInt8 then ' '.toUInt8 else s.getD i 0))
    else .ok (true, s.take writePos)

def decodeInPlace (s : Bytes) : Except Fault (Bool × Bytes) :=
  decodeInPlaceLoop (s.length + 1) 0 0 s

/-- The string with the bytes `written` over its front. -/
def overwritten (s written : Bytes) : Bytes := written ++ s.drop written.length

variable {s written : Bytes}

theorem length_overwritten (h : written.length ≤ s.length) :
    (overwritten s written).length = s.length := by
  rw [overwritten, length_append, length_drop]
  omega

/-- What is not written yet is there to be read. -/
theorem getD_overwritten {i : Nat} (h : written.length ≤ i) :
    (overwritten s written).getD i 0 = s.getD i 0 := by
  rw [overwritten, getD_append_right _ _ _ _ h, getD_eq_getElem?_getD, getD_eq_getElem?_getD,
    List.getElem?_drop, Nat.add_sub_cancel' h]

theorem set_overwritten (h : written.length < s.length) (c : UInt8) :
    (overwritten s written).set written.length c = overwritten s (written ++ [c]) := by
  rw [overwritten, set_append_right _ _ le_rfl, Nat.sub_self, drop_eq_getElem_cons h, set_cons_zero,
    overwritten, append_assoc, singleton_append, length_append, length_singleton]

/-- With NUL behind the text, a percent sign needs no check of the length. -/
theorem decodeLoop_percent {i : Nat} (h : s.getD i 0 = '%'.toUInt8) :
    decodeLoop (s.drop i) written =
      if isHexDigit (s.getD (i + 1) 0) && isHexDigit (s.getD (i + 2) 0) then
        decodeLoop (s.drop (i + 3))
          (written ++ [hexValue (s.getD (i + 1) 0) <<< 4 ||| hexValue (s.getD (i + 2) 0)])
      else (false, written) := by
  have hget (k : Nat) : s.getD (i + k) 0 = (s.drop i).getD k 0 := by
    rw [getD_eq_getElem?_getD, getD_eq_getElem?_getD, List.getElem?_drop]
  rw [← add_zero i, hget] at h
  rw [hget, hget, ← drop_drop]
  revert h
  match s.drop i with
  | [] => exact fun h => absurd h (by decide)
  | [c] =>
    rintro rfl
    rfl
  | [c, a] =>
    rintro rfl
    have hnul : isHexDigit 0 = false := by decide
    exact (if_neg (by simp [hnul])).symm
  | c :: a :: b :: t =>
    rintro rfl
    rfl

/-- The write position never overtakes the read position, so the loop reads the original bytes. -/
theorem decodeInPlaceLoop_eq {fuel i : Nat} (hw : written.length ≤ i) (hi : i ≤ s.length)
    (hfuel : s.length < fuel + i) :
    decodeInPlaceLoop fuel i written.length (overwritten s written) =
      .ok (match decodeLoop (s.drop i) written with
        | (true, out) => (true, out)
        | (false, out) => (false, overwritten s out)) := by
  induction fuel generalizing i written with
  | zero => omega
  | succ fuel ih =>
    rw [decodeInPlaceLoop, length_overwritten (hw.trans hi), getD_overwritten hw,
      getD_overwritten (by omega), getD_overwritten (by omega)]
    by_cases hlt : i < s.length
    · rw [if_pos hlt]
      by_cases hpercent : s.getD i 0 = '%'.toUInt8
      · rw [if_pos hpercent, decodeLoop_percent hpercent, ← Bool.not_and]
        cases hdigits : isHexDigit (s.getD (i + 1) 0) && isHexDigit (s.getD (i + 2) 0) with
        | false =>
          rw [Bool.not_false, if_pos rfl, ite_self]
          rfl
        | true =>
          have hlong : i + 2 < s.length := by
            by_contra hge
            rw [getD_eq_default _ _ (Nat.le_of_not_lt hge), Bool.and_comm] at hdigits
            cases hdigits
          rw [if_neg (by omega), set_overwritten (by omega)]
          have hrest := @ih (written ++
            [hexValue (s.getD (i + 1) 0) <<< 4 ||| hexValue (s.getD (i + 2) 0)]) (i + 3)
          rw [length_append, length_singleton] at hrest
          exact hrest (by omega) hlong (by omega)
      · have hdrop : s.drop i = s.getD i 0 :: s.drop (i + 1) := by
          rw [drop_eq_getElem_cons hlt, getD_eq_getElem _ _ hlt]
        rw [if_neg hpercent, hdrop, decodeLoop_byte hpercent, set_overwritten (by omega)]
        have hrest := @ih
          (written ++ [if s.getD i 0 = '+'.toUInt8 then ' '.toUInt8 else s.getD i 0]) (i + 1)
        rw [length_append, length_singleton] at hrest
        exact hrest (by omega) hlt (by omega)
    · rw [if_neg hlt, drop_eq_nil_of_le (Nat.le_of_not_lt hlt), overwritten, take_left]
      rfl

theorem decodeInPlace_eq (s : Bytes) : decodeInPlace s = .ok (decode s) :=
  @decodeInPlaceLoop_eq s [] _ _ (zero_le _) (zero_le _) (lt_succ_self _)

theorem decodeView_nul (s output : Bytes) : decodeView 0 s output = decodeLoop s output := by
  fun_induction decodeView 0 s output with
  | case1 => rfl
  | case2 output a b input hdigits ih => rw [decodeLoop, if_pos hdigits, ih]
  | case3 output a b input hdigits => rw [decodeLoop, if_neg hdigits]
  | case4 output a hdigits => exact absurd ((Bool.and_eq_true _ _).mp hdigits).2 (by decide)
  | case5 => rfl
  | case6 input output hnot hnot' =>
    rcases input with _ | ⟨a, _ | ⟨b, input⟩⟩
    · rfl
    · exact (hnot' a rfl rfl).elim
    · exact (hnot a b input rfl rfl).elim
  | case7 input output _ _ hpercent ih =>
    rw [ih]
    rfl
  | case8 c input output _ _ hpercent hplus ih => rw [decodeLoop_byte hpercent, ih, if_neg hplus]

/-- `Decode` returns what `DecodeTo` returns on the original string, where the byte behind the
string is NUL, and leaves the same text when it is true. -/
theorem decodeInPlace_agrees (s : Bytes) :
    ∃ s', decodeInPlace s = .ok ((decodeView 0 s []).1, s') ∧
      ((decodeView 0 s []).1 = true → s' = (decodeView 0 s []).2) := by
  rw [decodeInPlace_eq, decode, decodeView_nul]
  split
  · rename_i h
    rw [h]
    exact ⟨_, rfl, fun _ => rfl⟩
  · rename_i h
    rw [h]
    exact ⟨_, rfl, fun hfalse => absurd hfalse Bool.false_ne_true⟩

end Toft.PercentEncoding

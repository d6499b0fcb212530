import Toft.Base.Format.VPrint

/-!
# Integers as `printf` writes them

What the C standard prescribes for the integer conversions, and when `StringPrint` writes the same.
-/

namespace Toft.Format

open Lib List Conversion Option Int Nat

def Conversion.isSigned : Conversion → Bool
  | .d | .i => true
  | .u | .x | .upperX | .o => false

/-- An argument in the type of the conversion. What is shorter than an `int` is promoted for the
signed conversions; the unsigned ones take it modulo two to the bits of its type. -/
def Conversion.converted (conversion : Conversion) (arg : IntArg) : Int :=
  if conversion.isSigned then arg.value.bmod (2 ^ promotedBits arg.type)
  else arg.value % 2 ^ arg.type.bits

/-- The sign: only the signed conversions have one. -/
def Conversion.cSign (conversion : Conversion) (flags : Flags) (n : Int) : Bytes :=
  if conversion.isSigned then
    if n < 0 then ascii "-" else if flags.sign then ascii "+" else if flags.space then ascii " "
    else []
  else []

/-- The prefix of a number that is not zero, in the alternative form. -/
def Conversion.cPrefix (conversion : Conversion) (flags : Flags) (n : Int) : Bytes :=
  if flags.sharp ∧ n ≠ 0 then
    match conversion with
    | .x => ascii "0x"
    | .upperX => ascii "0X"
    | .d | .i | .u | .o => []
  else []

/-- The digits. The alternative form of `o` has one more zero if there is none in front. -/
def Conversion.cBody (conversion : Conversion) (flags : Flags) (precision : Option Nat) (n : Int) :
    Bytes :=
  let body := conversion.body precision n.natAbs
  if conversion = .o ∧ flags.sharp ∧ body.head? ≠ some 0x30 then 0x30 :: body else body

namespace Directive

/-- The precision of the C standard: zero for a dot alone. -/
def cPrecision (d : Directive) : Option Nat := d.precision.map fun a => a.value.getD 0

/-- The text that the C standard prescribes. The flag `0` is ignored with `-` and with a
precision. -/
def cText (d : Directive) (arg : IntArg) : Bytes :=
  pad d.flagSet.left (d.flagSet.zero ∧ d.precision = none) (d.width.value.getD 0)
    (d.conversion.cSign d.flagSet (d.conversion.converted arg))
    (d.conversion.cPrefix d.flagSet (d.conversion.converted arg))
    (d.conversion.cBody d.flagSet d.cPrecision (d.conversion.converted arg))

/-- `StringPrintAppend` appends the text that C prescribes and returns its length; `StringPrint`
gives this text. -/
def Follows (d : Directive) (arg : IntArg) : Prop :=
  ∀ ws ps : List IntArg, d.width.Given ws → d.precisionAmount.Given ps →
    (∀ target : Bytes, stringVPrintAppend target (0x25 :: d.text) (ws ++ (ps ++ [arg])) =
      .ok ((d.cText arg).length, target ++ d.cText arg)) ∧
    stringVPrint (0x25 :: d.text) (ws ++ (ps ++ [arg])) = .ok (d.cText arg)

/-- What keeps a specification and its argument away from the differences to C: there is no dot
alone; the flag `0` stands with `-`, without a precision or without effect, since the number is as
long as the width; the zero of `%#o` is not given by the
precision already, nor left out for a zero with the precision zero; and an argument whose type is
not as signed as the conversion is a value of both types and has no sign flag. -/
structure Conforms (d : Directive) (arg : IntArg) : Prop where
  dot : d.precision ≠ some .nothing
  zero : d.flagSet.zero → d.flagSet.left ∨ d.precision = none ∨
    d.width.value.getD 0 ≤ (cText { d with width := .nothing } arg).length
  octal : d.conversion = .o → d.flagSet.sharp → ∀ p, d.precisionAmount.value = some p →
    if arg.value = 0 then p ≠ 0 else p ≤ (digitText 8 octalDigits arg.value.natAbs).length
  mixed : arg.type.isSigned ≠ d.conversion.isSigned → 0 ≤ arg.value ∧
    arg.value < 2 ^ (promotedBits arg.type - 1) ∧ ¬ d.flagSet.sign ∧ ¬ d.flagSet.space

def ownText (d : Directive) (arg : IntArg) : Bytes :=
  pad d.flagSet.left d.flagSet.zero (d.width.value.getD 0) (arg.sign d.filledSpec)
    (prefixOf d.filledSpec (arg.value = 0))
    (d.conversion.body d.precisionAmount.value (d.conversion.magnitude arg))

end Directive

/-! ## Values and signs -/

theorem IntArg.value_bounds (arg : IntArg) :
    (arg.type.isSigned → -2 ^ (promotedBits arg.type - 1) ≤ arg.value ∧
      arg.value < 2 ^ (promotedBits arg.type - 1)) ∧
    (¬ arg.type.isSigned → 0 ≤ arg.value ∧ arg.value < 2 ^ arg.type.bits) ∧
    (0 ≤ arg.value → arg.value < 2 ^ arg.type.bits) := by
  obtain ⟨t, value, hlow, hhigh⟩ := arg
  unfold promotedBits
  cases t <;> simp [IntegerType.min, IntegerType.max, IntegerType.bits, IntegerType.isSigned]
      at hlow hhigh ⊢ <;> omega

theorem two_pow_promotedBits (t : IntegerType) :
    (2 : Int) ^ promotedBits t = 2 * 2 ^ (promotedBits t - 1) := by
  cases t <;> rfl

theorem two_pow_bits_le (t : IntegerType) : (2 : Int) ^ t.bits ≤ 2 ^ promotedBits t := by
  cases t <;> decide

variable {conversion : Conversion} {arg : IntArg}

theorem Conversion.magnitude_of_nonneg (h : conversion.isSigned = false → 0 ≤ arg.value) :
    conversion.magnitude arg = arg.value.natAbs := by
  have hunsigned : 0 ≤ arg.value → toUnsigned arg = arg.value.natAbs := by
    intro hnonneg
    have hlt := arg.value_bounds.2.2 hnonneg
    have hle := two_pow_bits_le arg.type
    rw [toUnsigned, emod_eq_of_lt hnonneg (by omega)]
    omega
  cases conversion
  case d | i | u => rfl
  all_goals exact hunsigned (h rfl)

section

variable
  (h : arg.type.isSigned ≠ conversion.isSigned →
    0 ≤ arg.value ∧ arg.value < 2 ^ (promotedBits arg.type - 1))
include h

theorem Conversion.converted_eq : conversion.converted arg = arg.value := by
  obtain ⟨hsigned, hunsigned, hlt⟩ := arg.value_bounds
  have hpow := two_pow_promotedBits arg.type
  unfold converted
  split_ifs with hc
  · have hbounds : -2 ^ (promotedBits arg.type - 1) ≤ arg.value ∧
        arg.value < 2 ^ (promotedBits arg.type - 1) := by
      by_cases ht : arg.type.isSigned
      · exact hsigned ht
      · obtain ⟨hnonneg, hsmall⟩ := h (by rw [hc]; exact ht)
        exact ⟨by omega, hsmall⟩
    apply bmod_eq_of_le <;> push_cast <;> omega
  · have hnonneg : 0 ≤ arg.value := by
      by_cases ht : arg.type.isSigned
      · exact (h (by rw [ht]; exact Ne.symm hc)).1
      · exact (hunsigned ht).1
    exact emod_eq_of_lt hnonneg (hlt hnonneg)

theorem Conversion.magnitude_eq : conversion.magnitude arg = arg.value.natAbs := by
  refine magnitude_of_nonneg fun hc => ?_
  by_cases ht : arg.type.isSigned
  · exact (h (by rw [ht, hc]; decide)).1
  · exact (arg.value_bounds.2.1 ht).1

end

variable {spec : PrintSpecification}

theorem signOf_eq_nil {neg : Bool} :
    signOf spec neg = [] ↔ ¬ neg ∧ ¬ spec.flags.sign ∧ ¬ spec.flags.space := by
  unfold signOf
  cases neg <;> cases spec.flags.sign <;> cases spec.flags.space <;> decide

theorem Conversion.cSign_of_isSigned (hc : conversion.isSigned)
    (spec : PrintSpecification) (n : Int) :
    conversion.cSign spec.flags n = signOf spec (n < 0) := by
  rw [cSign, if_pos hc, signOf]
  simp only [decide_eq_true_eq]

theorem Conversion.cSign_of_not_isSigned (hc : ¬ conversion.isSigned)
    (flags : Flags) (n : Int) : conversion.cSign flags n = [] := if_neg hc

theorem Conversion.converted_neg_iff (hc : conversion.isSigned) (ht : ¬ arg.type.isSigned) :
    conversion.converted arg < 0 ↔ 2 ^ (promotedBits arg.type - 1) ≤ arg.value := by
  obtain ⟨hnonneg, hlt⟩ := arg.value_bounds.2.1 ht
  have hpow := two_pow_promotedBits arg.type
  have hle := two_pow_bits_le arg.type
  rw [converted, bmod_def, emod_eq_of_lt hnonneg] <;> push_cast
  · split_ifs <;> omega
  · omega

theorem Directive.sign_eq_iff (d : Directive) (arg : IntArg) :
    arg.sign d.filledSpec = d.conversion.cSign d.flagSet (d.conversion.converted arg) ↔
      (arg.type.isSigned ≠ d.conversion.isSigned → 0 ≤ arg.value ∧
        arg.value < 2 ^ (promotedBits arg.type - 1) ∧ ¬ d.flagSet.sign ∧ ¬ d.flagSet.space) := by
  have hflags : d.filledSpec.flags = d.flagSet := rfl
  unfold IntArg.sign
  by_cases ht : arg.type.isSigned <;> by_cases hc : d.conversion.isSigned
  · have hsame := ht.trans hc.symm
    have hvalue := @Conversion.converted_eq d.conversion arg fun hne => absurd hsame hne
    rw [if_pos ht, hvalue, ← hflags, cSign_of_isSigned hc]
    exact iff_of_true rfl fun hne => absurd hsame hne
  · obtain ⟨-, hlt⟩ := arg.value_bounds.1 ht
    rw [if_pos ht, cSign_of_not_isSigned hc, signOf_eq_nil, decide_eq_true_iff]
    constructor
    · rintro ⟨hnonneg, hsign, hspace⟩ -
      exact ⟨by omega, hlt, hsign, hspace⟩
    · intro h
      obtain ⟨hnonneg, -, hsign, hspace⟩ := h (by rw [ht]; exact Ne.symm hc)
      exact ⟨by omega, hsign, hspace⟩
  · obtain ⟨hnonneg, -⟩ := arg.value_bounds.2.1 ht
    rw [if_neg ht, ← hflags, cSign_of_isSigned hc, eq_comm, signOf_eq_nil,
      decide_eq_true_iff, converted_neg_iff hc ht]
    constructor
    · rintro ⟨hlt, hsign, hspace⟩ -
      exact ⟨hnonneg, by omega, hsign, hspace⟩
    · intro h
      obtain ⟨-, hlt, hsign, hspace⟩ := h (by rw [hc]; exact ht)
      exact ⟨by omega, hsign, hspace⟩
  · rw [if_neg ht, cSign_of_not_isSigned hc]
    refine iff_of_true rfl fun hne => absurd ?_ hne
    rw [Bool.eq_false_iff.mpr ht, Bool.eq_false_iff.mpr hc]

/-! ## Texts without signs -/

def isSign (c : UInt8) : Bool := c = 0x2d ∨ c = 0x2b ∨ c = 0x20

theorem append_inj_of_isSign {a b s t : Bytes} (ha : ∀ c ∈ a, isSign c) (hb : ∀ c ∈ b, isSign c)
    (hs : ∀ c ∈ s, ¬ isSign c) (ht : ∀ c ∈ t, ¬ isSign c) (h : a ++ s = b ++ t) :
    a = b ∧ s = t := by
  have htake : ∀ {s : Bytes}, (∀ c ∈ s, ¬ isSign c) → s.takeWhile isSign = [] := by
    intro s hs
    cases s with
    | nil => rfl
    | cons c s => exact takeWhile_cons_of_neg (hs c mem_cons_self)
  have hfront := congrArg (takeWhile isSign) h
  rw [takeWhile_append_of_pos ha, takeWhile_append_of_pos hb, htake hs, htake ht,
    append_nil, append_nil] at hfront
  exact ⟨hfront, append_cancel_left (hfront ▸ h)⟩

theorem isSign_signOf (spec : PrintSpecification) (neg : Bool) :
    ∀ c ∈ signOf spec neg, isSign c := by
  unfold signOf
  split_ifs <;> exact all_eq_true.mp (by decide)

theorem isSign_sign (arg : IntArg) (spec : PrintSpecification) : ∀ c ∈ arg.sign spec, isSign c := by
  unfold IntArg.sign
  split_ifs
  · exact isSign_signOf _ _
  · exact fun c hc => absurd hc not_mem_nil

theorem isSign_cSign (conversion : Conversion) (flags : Flags) (n : Int) :
    ∀ c ∈ conversion.cSign flags n, isSign c := by
  unfold cSign
  split_ifs <;> exact all_eq_true.mp (by decide)

variable {n : Nat}

theorem Conversion.not_isSign_digits : ∀ c ∈ conversion.digits n, ¬ isSign c := by
  intro c hc
  cases conversion
  case x | upperX | o =>
    obtain ⟨d, hd, rfl⟩ := exists_of_mem_digitText (by decide) hc
    interval_cases d <;> decide
  all_goals
    obtain ⟨d, hd, rfl⟩ := exists_digit_of_mem_decimal hc
    interval_cases d <;> decide

theorem not_isSign_zeros : ∀ c ∈ replicate n (0x30 : UInt8), ¬ isSign c := by
  intro c hc
  rw [eq_of_mem_replicate hc]
  decide

variable {precision : Option Nat}

theorem Conversion.not_isSign_body : ∀ c ∈ conversion.body precision n, ¬ isSign c := by
  intro c hc
  rcases mem_append.mp hc with hc | hc
  · exact not_isSign_zeros c hc
  · unfold shown at hc
    split_ifs at hc
    · exact absurd hc not_mem_nil
    · exact not_isSign_digits c hc

theorem not_isSign_prefixOf (spec : PrintSpecification) (isZero : Bool) :
    ∀ c ∈ prefixOf spec isZero, ¬ isSign c := by
  unfold prefixOf
  split_ifs <;> exact any_eq_false.mp (by decide)

theorem Conversion.not_isSign_cPrefix (conversion : Conversion) (flags : Flags) (n : Int) :
    ∀ c ∈ conversion.cPrefix flags n, ¬ isSign c := by
  unfold cPrefix
  split_ifs
  · cases conversion <;> exact any_eq_false.mp (by decide)
  · exact any_eq_false.mp (by decide)

theorem Conversion.not_isSign_cBody (conversion : Conversion) (flags : Flags)
    (precision : Option Nat) (n : Int) : ∀ c ∈ conversion.cBody flags precision n, ¬ isSign c := by
  intro c hc
  unfold cBody at hc
  dsimp only at hc
  split_ifs at hc
  · rcases mem_cons.mp hc with rfl | hc
    · decide
    · exact not_isSign_body c hc
  · exact not_isSign_body c hc

/-! ## Prefixes and digits -/

theorem head_octal (h : n ≠ 0) : (digitText 8 octalDigits n).head? ≠ some 0x30 := by
  obtain ⟨d, text, hpos, hlt, heq⟩ := @exists_head_digitText 8 octalDigits n (by decide) h
  rw [heq, head?_cons]
  interval_cases d <;> decide

theorem head_body_octal (precision : Option Nat) (n : Nat) :
    (Conversion.o.body precision n).head? = some 0x30 ↔
      if n = 0 then precision ≠ some 0
      else ∃ p, precision = some p ∧ (digitText 8 octalDigits n).length < p := by
  unfold body shown
  by_cases hn : n = 0
  · rw [hn]
    by_cases hp : precision = some 0
    · rw [hp]
      decide
    · rw [if_neg fun h => hp h.2]
      refine iff_of_true ?_ hp
      have hdigits : Conversion.o.digits 0 = [0x30] := by decide
      rw [hdigits]
      cases precision.getD 0 - [(0x30 : UInt8)].length <;> rfl
  · rw [if_neg hn, if_neg fun h => hn h.1]
    have hdigits : Conversion.o.digits n = digitText 8 octalDigits n := rfl
    rw [hdigits]
    constructor
    · intro h
      by_contra hnone
      have hle : precision.getD 0 - (digitText 8 octalDigits n).length = 0 := by
        cases precision with
        | none => exact Nat.zero_sub _
        | some p =>
          by_contra hpos
          exact hnone ⟨p, rfl, by rw [getD_some] at hpos; omega⟩
      rw [hle] at h
      exact head_octal hn h
    · rintro ⟨p, rfl, hlt⟩
      obtain ⟨k, hk⟩ := exists_eq_succ_of_ne_zero (sub_ne_zero_of_lt hlt)
      rw [getD_some, hk]
      rfl

/-- The prefixes differ only for `%#o`, whose zero C counts to the digits. -/
theorem prefixOf_eq (hspecifier : spec.specifier = conversion.char) (n : Int) :
    prefixOf spec (n = 0) =
      if conversion = .o ∧ spec.flags.sharp ∧ n ≠ 0 then [0x30]
      else conversion.cPrefix spec.flags n := by
  unfold prefixOf cPrefix
  rw [hspecifier]
  cases spec.flags.sharp <;> by_cases hn : n = 0 <;> cases conversion <;> simp [hn] <;> decide

/-- When the alternative form of `o` is as in C. -/
def OctalAgrees (conversion : Conversion) (flags : Flags) (precision : Option Nat) (n : Nat) :
    Prop :=
  conversion = .o → flags.sharp →
    ((Conversion.o.body precision n).head? = some 0x30 ↔ n = 0)

theorem octalAgrees_iff {flags : Flags} :
    OctalAgrees conversion flags precision n ↔
      (conversion = .o → flags.sharp → ∀ p, precision = some p →
        if n = 0 then p ≠ 0 else p ≤ (digitText 8 octalDigits n).length) := by
  unfold OctalAgrees
  rw [head_body_octal]
  refine forall_congr' fun _ => forall_congr' fun _ => ?_
  by_cases hn : n = 0
  · rw [if_pos hn]
    simp only [hn, iff_true, if_true]
    constructor
    · rintro hp p rfl rfl
      exact hp rfl
    · rintro h rfl
      exact h 0 rfl rfl
  · rw [if_neg hn]
    simp only [hn, iff_false, if_false, not_exists, not_and, not_lt]

theorem octalAgrees_of_eq (hspecifier : spec.specifier = conversion.char) {n : Int}
    (h : prefixOf spec (n = 0) ++ conversion.body precision n.natAbs =
      conversion.cPrefix spec.flags n ++ conversion.cBody spec.flags precision n) :
    OctalAgrees conversion spec.flags precision n.natAbs := by
  rintro rfl hsharp
  have hfront : Conversion.o.cPrefix spec.flags n = [] := ite_self _
  rw [prefixOf_eq hspecifier, hfront, cBody] at h
  rw [natAbs_eq_zero]
  by_cases hn : n = 0
  · refine iff_of_true ?_ hn
    by_contra hhead
    rw [if_neg fun h => h.2.2 hn, if_pos ⟨rfl, hsharp, hhead⟩] at h
    exact cons_ne_self _ _ h.symm
  · refine iff_of_false ?_ hn
    intro hhead
    rw [if_pos ⟨rfl, hsharp, hn⟩, if_neg fun h => h.2.2 hhead] at h
    exact cons_ne_self _ _ h

theorem pad_zero_prefix (left zero : Bool) (width : Nat) (sign body : Bytes) :
    pad left zero width sign [0x30] body = pad left zero width sign [] (0x30 :: body) := by
  have hcomm : ∀ n,
      [0x30] ++ replicate n (0x30 : UInt8) = replicate n 0x30 ++ [0x30] := by
    intro n
    rw [← replicate_succ']
    rfl
  unfold pad
  split_ifs
  · simp
  · simp [hcomm]
  · simp

theorem pad_eq_of_octalAgrees (hspecifier : spec.specifier = conversion.char) {n : Int}
    (h : OctalAgrees conversion spec.flags precision n.natAbs) (left zero : Bool) (width : Nat)
    (sign : Bytes) :
    pad left zero width sign (prefixOf spec (n = 0)) (conversion.body precision n.natAbs) =
      pad left zero width sign (conversion.cPrefix spec.flags n)
        (conversion.cBody spec.flags precision n) := by
  rw [prefixOf_eq hspecifier, cBody]
  by_cases ho : conversion = .o ∧ spec.flags.sharp
  · obtain ⟨rfl, hsharp⟩ := ho
    have hfront : Conversion.o.cPrefix spec.flags n = [] := ite_self _
    have hhead := h rfl hsharp
    rw [natAbs_eq_zero] at hhead
    rw [hfront]
    by_cases hn : n = 0
    · rw [if_neg fun h => h.2.2 hn, if_neg fun h => h.2.2 (hhead.mpr hn)]
    · rw [if_pos ⟨rfl, hsharp, hn⟩, if_pos ⟨rfl, hsharp, fun h => hn (hhead.mp h)⟩,
        pad_zero_prefix]
  · rw [if_neg fun h => ho ⟨h.1, h.2.1⟩, if_neg fun h => ho ⟨h.1, h.2.1⟩]

/-! ## What is printed -/

namespace Directive

variable {d : Directive} {arg : IntArg}

theorem filled_width (d : Directive) :
    d.width = .nothing ∨ d.filledSpec.width = d.width.value.getD 0 := by
  cases d with
  | mk flags width precision conversion =>
    cases width
    · exact Or.inl rfl
    · exact Or.inr rfl
    · exact Or.inr rfl

theorem write_eq_of_noWidth (haccepts : d.conversion.Accepts arg.type) (h : d.width = .nothing) :
    arg.write d.filledSpec = .ok (int32 (d.ownText arg).length, d.ownText arg) := by
  have hwidth : d.filledSpec.width = -1 := by
    unfold filledSpec
    rw [h]
    rfl
  rw [IntArg.write_of_noWidth haccepts rfl rfl hwidth, ownText, h]
  dsimp only [Amount.value, getD_none]
  rw [pad_zero]

theorem write_eq (haccepts : d.conversion.Accepts arg.type) (h : (d.ownText arg).length < 2 ^ 31) :
    arg.write d.filledSpec = .ok ((d.ownText arg).length, d.ownText arg) := by
  rcases d.filled_width with hnothing | hwidth
  · rw [write_eq_of_noWidth haccepts hnothing, int32_of_lt h]
  · rw [ownText, length_pad] at h
    exact IntArg.write_of_width haccepts rfl rfl hwidth (by omega) (by omega)

theorem numbers_lt (h : (d.cText arg).length < 2 ^ 31) :
    (∀ n, d.width.value = some n → n < 2 ^ 31) ∧
      ∀ n, d.precisionAmount.value = some n → n < 2 ^ 31 := by
  rw [cText, length_pad] at h
  constructor
  · intro n hn
    rw [hn, getD_some] at h
    omega
  · intro n hn
    have hprecision : d.cPrecision = some n := by
      unfold cPrecision
      unfold precisionAmount at hn
      cases hp : d.precision with
      | none =>
        rw [hp] at hn
        cases hn
      | some a =>
        rw [hp, getD_some] at hn
        rw [map_some, hn]
        rfl
    have hbody : n ≤ (d.conversion.cBody d.flagSet d.cPrecision
        (d.conversion.converted arg)).length := by
      unfold cBody body
      rw [hprecision]
      dsimp only
      split_ifs <;> simp only [length_cons, length_append, length_replicate, getD_some] <;> omega
    rw [length_append] at h
    omega

theorem cPrecision_eq (h : d.precision ≠ some .nothing) :
    d.cPrecision = d.precisionAmount.value := by
  unfold cPrecision precisionAmount
  cases hp : d.precision with
  | none => rfl
  | some a =>
    cases a with
    | nothing => exact absurd hp h
    | number n => rfl
    | star n => rfl

/-- The alternative form of `o`, as the condition states it. -/
theorem octalAgrees_value_iff (d : Directive) (arg : IntArg) :
    OctalAgrees d.conversion d.filledSpec.flags d.precisionAmount.value arg.value.natAbs ↔
      (d.conversion = .o → d.flagSet.sharp → ∀ p, d.precisionAmount.value = some p →
        if arg.value = 0 then p ≠ 0
        else p ≤ (digitText 8 octalDigits arg.value.natAbs).length) := by
  rw [octalAgrees_iff]
  simp only [natAbs_eq_zero]
  rfl

theorem length_ownText (d : Directive) (arg : IntArg) (width : Amount) :
    (ownText { d with width := width } arg).length =
      max (width.value.getD 0) (ownText { d with width := .nothing } arg).length := by
  unfold ownText
  rw [length_pad, length_pad]
  exact congrArg (max _) (zero_max _).symm

theorem length_cText (d : Directive) (arg : IntArg) (width : Amount) :
    (cText { d with width := width } arg).length =
      max (width.value.getD 0) (cText { d with width := .nothing } arg).length := by
  unfold cText
  rw [length_pad, length_pad]
  exact congrArg (max _) (zero_max _).symm

theorem Conforms.ownText_eq (h : d.Conforms arg) : d.ownText arg = d.cText arg := by
  have hnothing : cText { d with width := .nothing } arg =
      d.conversion.cSign d.flagSet (d.conversion.converted arg) ++
        d.conversion.cPrefix d.flagSet (d.conversion.converted arg) ++
        d.conversion.cBody d.flagSet d.cPrecision (d.conversion.converted arg) := pad_zero ..
  have hzero := h.zero
  have hboth := fun hne => (h.mixed hne).imp_right And.left
  have hsign := (d.sign_eq_iff arg).mpr h.mixed
  have hoctal := (d.octalAgrees_value_iff arg).mpr h.octal
  rw [hnothing, converted_eq hboth, cPrecision_eq h.dot] at hzero
  rw [ownText, cText, hsign, converted_eq hboth, magnitude_eq hboth,
    pad_eq_of_octalAgrees rfl hoctal, cPrecision_eq h.dot]
  by_cases hz : d.flagSet.zero
  · rcases hzero hz with hleft | hnone | hle
    · rw [hleft]
      rfl
    · rw [decide_eq_true ⟨hz, hnone⟩, hz]
      rfl
    · exact (pad_of_le hle).trans (pad_of_le hle).symm
  · rw [decide_eq_false fun h => hz h.1, Bool.eq_false_iff.mpr hz]
    rfl

theorem Conforms.follows (h : d.Conforms arg) (haccepts : d.conversion.Accepts arg.type)
    (hpos : d.width ≠ .number 0) (hlt : (d.cText arg).length < 2 ^ 31) : d.Follows arg := by
  intro ws ps hws hps
  obtain ⟨hwidth, hprecision⟩ := numbers_lt hlt
  have hwrite : arg.write d.filledSpec = .ok ((d.ownText arg).length, d.ownText arg) :=
    write_eq haccepts (h.ownText_eq ▸ hlt)
  have happend : ∀ target, stringVPrintAppend target (0x25 :: d.text) (ws ++ (ps ++ [arg])) =
      .ok ((d.cText arg).length, target ++ d.cText arg) := by
    intro target
    rw [stringVPrintAppend_write hpos (fun n hn => hwidth n (by rw [hn]; rfl))
      (fun n hn => hprecision n (by rw [precisionAmount, hn]; rfl)) h.dot hws hps target hwrite,
      h.ownText_eq, if_neg (by omega), int32_of_lt hlt]
  refine ⟨happend, ?_⟩
  rw [stringVPrint, happend]
  rfl

theorem exists_given {a : Amount} (h : ∀ n, a.value = some n → n < 2 ^ 31) :
    ∃ args, a.Given args := by
  cases a with
  | nothing => exact ⟨[], rfl⟩
  | number n => exact ⟨[], rfl⟩
  | star n =>
    have hn := h n rfl
    have hmin : IntegerType.int.min = -2 ^ 31 := rfl
    have hmax : IntegerType.int.max = 2 ^ 31 - 1 := rfl
    exact ⟨[⟨.int, n, by omega, by omega⟩], _, rfl, rfl, rfl⟩

/-- The text that is written decides, whatever is returned. -/
theorem Follows.ownText_eq (h : d.Follows arg) (hpos : d.width ≠ .number 0)
    (hlt : (d.cText arg).length < 2 ^ 31) {printed : Int}
    (hwrite : arg.write d.filledSpec = .ok (printed, d.ownText arg)) :
    d.precision ≠ some .nothing ∧ d.ownText arg = d.cText arg := by
  obtain ⟨hwidth, hprecision⟩ := numbers_lt hlt
  obtain ⟨ws, hws⟩ := exists_given hwidth
  obtain ⟨ps, hps⟩ := exists_given hprecision
  have hnumber : ∀ n, d.width = .number n → n < 2 ^ 31 := fun n hn => hwidth n (by rw [hn]; rfl)
  have hrun := (h ws ps hws hps).1 []
  have hdot : d.precision ≠ some .nothing := by
    intro hdot
    rw [stringVPrintAppend_bareDot hpos hnumber hdot] at hrun
    have hlength := congrArg Prod.fst (Except.ok.inj hrun)
    omega
  refine ⟨hdot, ?_⟩
  rw [stringVPrintAppend_write hpos hnumber
    (fun n hn => hprecision n (by rw [precisionAmount, hn]; rfl)) hdot hws hps [] hwrite] at hrun
  exact congrArg Prod.snd (Except.ok.inj hrun)

/-- The texts without a width are equal only if their signs and what is behind them are. -/
theorem pieces_of_ownText_eq (hnothing : d.width = .nothing) (h : d.ownText arg = d.cText arg) :
    arg.sign d.filledSpec = d.conversion.cSign d.flagSet (d.conversion.converted arg) ∧
      prefixOf d.filledSpec (arg.value = 0) ++
          d.conversion.body d.precisionAmount.value (d.conversion.magnitude arg) =
        d.conversion.cPrefix d.flagSet (d.conversion.converted arg) ++
          d.conversion.cBody d.flagSet d.cPrecision (d.conversion.converted arg) := by
  rw [ownText, cText, hnothing] at h
  dsimp only [Amount.value, getD_none] at h
  rw [pad_zero, pad_zero, append_assoc, append_assoc] at h
  refine append_inj_of_isSign (isSign_sign _ _) (isSign_cSign _ _ _) ?_ ?_ h
  · exact forall_mem_append.mpr ⟨not_isSign_prefixOf _ _, not_isSign_body⟩
  · exact forall_mem_append.mpr ⟨not_isSign_cPrefix _ _ _, not_isSign_cBody _ _ _ _⟩

/-- Zeros between a sign and the digits are no blanks in front of it. -/
theorem pad_zero_ne {width : Nat} {sign p q body cBody : Bytes} (hsign : ∀ c ∈ sign, isSign c)
    (htail : ∀ c ∈ p ++ body, ¬ isSign c) (hcTail : ∀ c ∈ q ++ cBody, ¬ isSign c)
    (hlt : (sign ++ q ++ cBody).length < width) :
    pad false true width sign p body ≠ pad false false width sign q cBody := by
  intro h
  obtain ⟨k, hk⟩ := exists_eq_succ_of_ne_zero (sub_ne_zero_of_lt hlt)
  unfold pad at h
  rw [if_neg Bool.false_ne_true, if_neg Bool.false_ne_true,
    if_neg Bool.false_ne_true] at h
  rw [hk, append_assoc sign p, append_assoc sign, append_assoc sign q, ← append_assoc _ sign] at h
  rw [forall_mem_append] at htail
  have hblank : ∀ c ∈ replicate (k + 1) (0x20 : UInt8), isSign c := by
    intro c hc
    rw [eq_of_mem_replicate hc]
    decide
  obtain ⟨heq, -⟩ := append_inj_of_isSign hsign (forall_mem_append.mpr ⟨hblank, hsign⟩)
    (forall_mem_append.mpr ⟨forall_mem_append.mpr ⟨htail.1, not_isSign_zeros⟩, htail.2⟩)
    hcTail h
  have hlength := congrArg length heq
  rw [length_append, length_replicate] at hlength
  omega

/-- C fills a column more than the number needs with a blank, unless the flag `0` counts. -/
theorem zero_of_ownText_eq
    (hsign : arg.sign d.filledSpec =
      d.conversion.cSign d.flagSet (d.conversion.converted arg))
    (h : d.ownText arg = d.cText arg)
    (hlt : (cText { d with width := .nothing } arg).length < d.width.value.getD 0) :
    d.flagSet.zero → d.flagSet.left ∨ d.precision = none := by
  intro hzero
  by_contra hnot
  obtain ⟨hleft, hprecision⟩ := not_or.mp hnot
  have hignored : decide (d.flagSet.zero ∧ d.precision = none) = false :=
    decide_eq_false fun h => hprecision h.2
  rw [ownText, cText, ← hsign, hignored, hzero, Bool.eq_false_iff.mpr hleft] at h
  refine pad_zero_ne (isSign_sign _ _) ?_ ?_ ?_ h
  · exact forall_mem_append.mpr ⟨not_isSign_prefixOf _ _, not_isSign_body⟩
  · exact forall_mem_append.mpr ⟨not_isSign_cPrefix _ _ _, not_isSign_cBody _ _ _ _⟩
  · rw [hsign]
    unfold cText at hlt
    rw [length_pad] at hlt
    exact lt_of_le_of_lt (le_max_right _ _) hlt

/-- A specification of the integer conversions writes, with its width and all smaller ones, what C
prescribes exactly if it conforms. -/
theorem stringPrint_follows_iff (d : Directive) (arg : IntArg)
    (haccepts : d.conversion.Accepts arg.type) (hsize : (d.cText arg).length < 2 ^ 31) :
    (∀ width, width ≠ .number 0 → width.value.getD 0 ≤ d.width.value.getD 0 →
      Follows { d with width := width } arg) ↔ d.Conforms arg := by
  have hwhole : (d.cText arg).length = _ := length_cText d arg d.width
  constructor
  · intro h
    have hown := (h .nothing Amount.noConfusion (zero_le _)).ownText_eq Amount.noConfusion
      (by omega) (write_eq_of_noWidth haccepts rfl)
    obtain ⟨hdot, htext⟩ := hown
    obtain ⟨hsign, htail⟩ := pieces_of_ownText_eq rfl htext
    have hmixed := (sign_eq_iff _ arg).mp hsign
    have hboth := fun hne => (hmixed hne).imp_right And.left
    rw [converted_eq hboth, magnitude_eq hboth, cPrecision_eq hdot] at htail
    have hoctal := (octalAgrees_value_iff { d with width := .nothing } arg).mp
      (octalAgrees_of_eq rfl htail)
    refine ⟨hdot, fun hzero => ?_, hoctal, hmixed⟩
    generalize hn : (cText { d with width := .nothing } arg).length = n at hwhole
    by_cases hwide : d.width.value.getD 0 ≤ n
    · exact .inr (.inr hwide)
    have hlength := length_cText d arg (.number (n + 1))
    have hlengthOwn := length_ownText d arg (.number (n + 1))
    rw [htext] at hlengthOwn
    dsimp only [Amount.value, getD_some] at hlength hlengthOwn
    have hne : Amount.number (n + 1) ≠ .number 0 := by simp
    have hfollows := (h (.number (n + 1)) hne (not_le.mp hwide)).ownText_eq hne (by omega)
      (write_eq haccepts (by omega))
    exact (@zero_of_ownText_eq { d with width := .number (n + 1) } arg hsign hfollows.2
      (lt_of_eq_of_lt hn (lt_succ_self n)) hzero).imp_right .inl
  · intro h width hpos hle
    have hconforms : Conforms { d with width := width } arg :=
      ⟨h.dot, fun hzero => (h.zero hzero).imp_right (Or.imp_right hle.trans), h.octal, h.mixed⟩
    have hlength := length_cText d arg width
    exact hconforms.follows haccepts hpos (by omega)

/-- `%#8x` of 255 and `%0.3d` of 7 are as in C. -/
theorem stringPrint_follows_hex :
    Follows ⟨[.sharp], .number 8, none, .x⟩ ⟨.int, 255, by decide, by decide⟩ ∧
      Follows ⟨[.zero], .nothing, some (.number 3), .d⟩ ⟨.int, 7, by decide, by decide⟩ :=
  ⟨(stringPrint_follows_iff ⟨[.sharp], .number 8, none, .x⟩ ⟨.int, 255, by decide, by decide⟩
      (fun _ => Conversion.noConfusion) (by decide)).mpr
        ⟨by decide, by decide, by decide, by decide⟩
      (.number 8) (by decide) le_rfl,
    (stringPrint_follows_iff ⟨[.zero], .nothing, some (.number 3), .d⟩
      ⟨.int, 7, by decide, by decide⟩ (fun _ => Conversion.noConfusion) (by decide +kernel)).mpr
      ⟨by decide, fun _ => .inr (.inr (zero_le _)), by decide, by decide⟩ .nothing (by decide)
      le_rfl⟩

/-- `%05.3d` of 7, `%x` of -1, `%#.3o` of 8, `%d` of the largest `unsigned int` and `%.d` of 7 are
not as in C. -/
theorem stringPrint_differs :
    (stringVPrintAppend [] (ascii "%05.3d") [⟨.int, 7, by decide, by decide⟩] =
        .ok (5, ascii "00007") ∧
      cText ⟨[.zero], .number 5, some (.number 3), .d⟩ ⟨.int, 7, by decide, by decide⟩ =
        ascii "  007") ∧
    (stringVPrintAppend [] (ascii "%x") [⟨.int, -1, by decide, by decide⟩] =
        .ok (9, ascii "-ffffffff") ∧
      cText ⟨[], .nothing, none, .x⟩ ⟨.int, -1, by decide, by decide⟩ = ascii "ffffffff") ∧
    (stringVPrintAppend [] (ascii "%#.3o") [⟨.int, 8, by decide, by decide⟩] =
        .ok (4, ascii "0010") ∧
      cText ⟨[.sharp], .nothing, some (.number 3), .o⟩ ⟨.int, 8, by decide, by decide⟩ =
        ascii "010") ∧
    (stringVPrintAppend [] (ascii "%d") [⟨.unsignedInt, 4294967295, by decide, by decide⟩] =
        .ok (10, ascii "4294967295") ∧
      cText ⟨[], .nothing, none, .d⟩ ⟨.unsignedInt, 4294967295, by decide, by decide⟩ =
        ascii "-1") ∧
    (stringVPrintAppend [] (ascii "%.d") [⟨.int, 7, by decide, by decide⟩] = .ok (-1, []) ∧
      cText ⟨[], .nothing, some .nothing, .d⟩ ⟨.int, 7, by decide, by decide⟩ = ascii "7") := by
  refine ⟨⟨?_, ?_⟩, ⟨?_, ?_⟩, ⟨?_, ?_⟩, ⟨?_, ?_⟩, ⟨?_, ?_⟩⟩ <;> decide +kernel

end Directive

end Toft.Format

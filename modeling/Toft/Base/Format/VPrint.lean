import Toft.Base.Format.PrintArg

/-!
# Printing by a format

`VFormatPrint` copies a format and writes an argument for each conversion specification. It gives
the number that it returns and the text that it has written until then.
-/

namespace Toft.Format

open Lib List

/-- `FillSpeciationFromArg`: the value and the arguments that are left, none if it fails. -/
def fillSpeciationFromArg (value : Int) (args : List IntArg) :
    Except Fault (Option (Int × List IntArg)) :=
  if value = starValue then
    match args with
    | [] => .ok none
    | arg :: args => do
      let value ← arg.asInt
      return if value < starValue then none else some (value, args)
  else .ok (some (value, args))

/-- A conversion specification behind its `%`: what is written and the number for it, the format
behind it and the arguments that are left. Nothing if `VFormatPrint` returns -1. -/
def printConversion (format : Bytes) (args : List IntArg) :
    Except Fault (Option (Int × Bytes × Bytes × List IntArg) × Bytes) :=
  match parse format with
  | none => .ok (none, [])
  | some (spec, f) => do
    let some (width, args) ← fillSpeciationFromArg spec.width args | return (none, [])
    let some (precision, args) ← fillSpeciationFromArg spec.precision args | return (none, [])
    match args with
    | [] => return (none, [])
    | arg :: args =>
      let (printed, text) ← arg.write { spec with width := width, precision := precision }
      return if printed < 0 then (none, text) else (some (printed, text, f, args), text)

/-- The loop of `VFormatPrint`; every round shortens the format. -/
def vFormatPrintLoop : Nat → Bytes → List IntArg → Int → Bytes → Except Fault (Int × Bytes)
  | _, [], _, total, out => .ok (total, out)
  | 0, _ :: _, _, _, _ => .error .unended
  | fuel + 1, format, args, total, out =>
    let literal := format.takeWhile (· ≠ 0x25)
    let total := int32 (total + literal.length)
    let out := out ++ literal
    match format.dropWhile (· ≠ 0x25) with
    | [] => .ok (total, out)
    | [_] => .ok (-1, out)
    | _ :: 0x25 :: f => vFormatPrintLoop fuel f args (int32 (total + 1)) (out ++ [0x25])
    | _ :: f => do
      match ← printConversion f args with
      | (none, text) => return (-1, out ++ text)
      | (some (printed, text, f, args), _) =>
        vFormatPrintLoop fuel f args (int32 (total + printed)) (out ++ text)

/-- `StringVPrintAppend`, for a format without zero byte: what it returns and the target. -/
def stringVPrintAppend (target format : Bytes) (args : List IntArg) : Except Fault (Int × Bytes) :=
  vFormatPrintLoop format.length format args 0 target

def stringVPrint (format : Bytes) (args : List IntArg) : Except Fault Bytes := do
  let (_, s) ← stringVPrintAppend [] format args
  return s

/-! ## One conversion specification -/

/-- The arguments that a width or a precision takes: an `int` for a star. -/
def Amount.Given : Amount → List IntArg → Prop
  | .nothing, args | .number _, args => args = []
  | .star n, args => ∃ arg : IntArg, args = [arg] ∧ arg.type = .int ∧ arg.value = n

def Amount.filled (a : Amount) : Int := a.value.elim (-1) Nat.cast

theorem fillSpeciationFromArg_eq {a : Amount} {args : List IntArg} (h : a.Given args)
    (rest : List IntArg) :
    fillSpeciationFromArg a.field (args ++ rest) = .ok (some (a.filled, rest)) := by
  cases a with
  | nothing =>
    rw [show args = [] from h]
    rfl
  | number n =>
    have hfield : (Amount.number n).field ≠ starValue := by
      rw [Amount.field, starValue]
      omega
    rw [show args = [] from h, fillSpeciationFromArg.eq_def]
    rfl
  | star n =>
    obtain ⟨arg, rfl, htype, hvalue⟩ := h
    have hfield : (Amount.star n).field = starValue := rfl
    rw [singleton_append, fillSpeciationFromArg, if_pos hfield]
    rw [IntArg.asInt_eq htype hvalue, ok_bind, starValue]
    rfl

namespace Directive

/-- The amount of the precision, which is nothing if there is no dot. -/
def precisionAmount (d : Directive) : Amount := d.precision.getD .nothing

def filledSpec (d : Directive) : PrintSpecification where
  flags := d.flagSet
  width := d.width.filled
  precision := d.precisionAmount.filled
  specifier := d.conversion.char

theorem percent_notMem_text (d : Directive) : 0x25 ∉ d.text := by
  have hamount : ∀ a : Amount, 0x25 ∉ a.text := by
    intro a hmem
    cases a with
    | nothing => exact not_mem_nil hmem
    | number n => exact absurd (isDigitOf_decimal hmem) (by decide)
    | star n => exact absurd (mem_singleton.mp hmem) (by decide)
  have htail : 0x25 ∉ d.tail := by
    unfold tail
    intro hmem
    rw [mem_append] at hmem
    rcases hmem with hmem | hmem
    · cases hp : d.precision with
      | none =>
        rw [hp] at hmem
        exact not_mem_nil hmem
      | some a =>
        rw [hp] at hmem
        rcases mem_cons.mp hmem with heq | hmem
        · exact absurd heq (by decide)
        · exact hamount a hmem
    · cases hc : d.conversion <;> rw [hc] at hmem <;> exact absurd hmem (by decide)
  intro hmem
  rcases mem_append.mp hmem with hmem | hmem
  · obtain ⟨flag, -, heq⟩ := mem_map.mp hmem
    cases flag <;> exact absurd heq (by decide)
  · rcases mem_append.mp hmem with hmem | hmem
    · exact hamount _ hmem
    · exact htail hmem

theorem stringVPrintAppend_text (d : Directive) (target : Bytes) (args : List IntArg) :
    stringVPrintAppend target (0x25 :: d.text) args = (do
      match ← printConversion d.text args with
      | (none, text) => return (-1, target ++ text)
      | (some (printed, text, f, args), _) =>
        vFormatPrintLoop d.text.length f args (int32 printed) (target ++ text)) := by
  have hpercent := d.percent_notMem_text
  have hne : d.text ≠ [] := by
    unfold text tail
    simp
  obtain ⟨c, f, hcons⟩ := exists_cons_of_ne_nil hne
  rw [hcons] at hpercent ⊢
  have hc : c ≠ 0x25 := fun h => hpercent (h ▸ mem_cons_self)
  rw [stringVPrintAppend, length_cons, vFormatPrintLoop]
  · have hliteral : (0x25 :: c :: f).takeWhile (· ≠ (0x25 : UInt8)) = [] := rfl
    have hrest : (0x25 :: c :: f).dropWhile (· ≠ (0x25 : UInt8)) = 0x25 :: c :: f := rfl
    have htotal : int32 (0 + ([] : Bytes).length) = 0 := rfl
    rw [hliteral, htotal, append_nil]
    split
    case h_1 heq => cases heq
    case h_2 heq => cases heq
    case h_3 heq => exact absurd (List.cons.inj (List.cons.inj heq).2).1 hc
    case h_4 heq =>
      cases heq
      simp only [Int.zero_add]
  · exact cons_ne_nil _ _

section

variable {d : Directive} (hpos : d.width ≠ .number 0)
  (hwidth : ∀ n, d.width = .number n → n < 2 ^ 31)
include hpos hwidth

theorem stringVPrintAppend_bareDot (hdot : d.precision = some .nothing)
    (target : Bytes) (args : List IntArg) :
    stringVPrintAppend target (0x25 :: d.text) args = .ok (-1, target) := by
  have hparse : parse d.text = none := by
    have h := d.parse_text hpos hwidth (fun n hn => by rw [hdot] at hn; cases hn) []
    rwa [append_nil, if_pos hdot] at h
  rw [stringVPrintAppend_text, printConversion, hparse]
  exact congrArg (fun s => Except.ok (-1, s)) (append_nil target)

theorem stringVPrintAppend_write (hprecision : ∀ n, d.precision = some (.number n) → n < 2 ^ 31)
    (hdot : d.precision ≠ some .nothing) {ws ps : List IntArg} (hws : d.width.Given ws)
    (hps : d.precisionAmount.Given ps) (target : Bytes) {arg : IntArg} {printed : Int}
    {text : Bytes} (h : arg.write d.filledSpec = .ok (printed, text)) :
    stringVPrintAppend target (0x25 :: d.text) (ws ++ (ps ++ [arg])) =
      .ok (if printed < 0 then -1 else int32 printed, target ++ text) := by
  have hparse : parse d.text = some (d.spec, []) := by
    have h := d.parse_text hpos hwidth hprecision []
    rwa [append_nil, if_neg hdot] at h
  have hfield : d.spec.precision = d.precisionAmount.field := by
    unfold spec precisionAmount
    cases d.precision <;> rfl
  have hspec : { d.spec with width := d.width.filled, precision := d.precisionAmount.filled } =
    d.filledSpec := rfl
  have hconversion : printConversion d.text (ws ++ (ps ++ [arg])) =
      .ok (if printed < 0 then (none, text) else (some (printed, text, [], []), text)) := by
    rw [printConversion, hparse]
    dsimp only
    rw [show d.spec.width = d.width.field from rfl, fillSpeciationFromArg_eq hws, ok_bind]
    dsimp only
    rw [hfield, fillSpeciationFromArg_eq hps, ok_bind]
    dsimp only
    rw [hspec, h]
    rfl
  rw [stringVPrintAppend_text, hconversion, ok_bind]
  split_ifs
  · rfl
  · dsimp only
    rw [vFormatPrintLoop]

end

end Directive

end Toft.Format

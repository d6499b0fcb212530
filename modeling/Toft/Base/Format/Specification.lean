import Toft.Base.ParseNumber

/-!
# Conversion specifications

`PrintSpecification::Parse` reads what stands behind a `%`: flags, a width, a precision, a length
modifier, which no integer is written differently for, and the specifier. Widths go through an
`int`, in which `-1` means that there is none and `-'*'` that an argument gives it.
-/

namespace Toft.Format

open Lib List Option

/-- The members of `PrintSpecification::Flags`. -/
structure Flags where
  left : Bool := false
  sign : Bool := false
  space : Bool := false
  sharp : Bool := false
  zero : Bool := false
  deriving DecidableEq

/-- A parsed conversion; a negative number is one that is not given. -/
structure PrintSpecification where
  flags : Flags := {}
  width : Int := -1
  precision : Int := -1
  specifier : UInt8 := 0
  deriving DecidableEq

abbrev starValue : Int := -42

namespace PrintSpecification

def hasWidth (spec : PrintSpecification) : Bool := spec.width ≠ -1

def hasPrecision (spec : PrintSpecification) : Bool := spec.precision ≠ -1

def specifierMatch (spec : PrintSpecification) (specifiers : Bytes) : Bool :=
  spec.specifier = 0x76 ∨ spec.specifier ∈ specifiers

end PrintSpecification

def setFlag (flags : Flags) (c : UInt8) : Option Flags :=
  if c = 0x2d then some { flags with left := true }
  else if c = 0x2b then some { flags with sign := true }
  else if c = 0x20 then some { flags with space := true }
  else if c = 0x23 then some { flags with sharp := true }
  else if c = 0x30 then some { flags with zero := true }
  else none

/-- `ParseFlags`: the flags and the text behind them. -/
def parseFlags : Bytes → Flags → Flags × Bytes
  | [], flags => (flags, [])
  | c :: f, flags =>
    match setFlag flags c with
    | some flags => parseFlags f flags
    | none => (flags, c :: f)

/-- `ParseWidth`: the width, and the text behind it if there is one that fits. -/
def parseWidth (format : Bytes) (width : Int) : Int × Option Bytes :=
  match format with
  | [] => (width, none)
  | c :: _ =>
    if isDigitOf 10 c then
      let (number, rest, _) := strtoul format 10
      let width := int32 number
      if width < 0 then (width, none) else (width, some rest)
    else (width, none)

/-- `ParsePrintWidth`: the value, and the text behind it if there is one. -/
def parsePrintWidth (format : Bytes) (value : Int) : Int × Option Bytes :=
  match parseWidth format value with
  | (value, some rest) => (value, some rest)
  | (value, none) =>
    match format with
    | 0x2a :: rest => (starValue, some rest)
    | _ => (value, none)

/-- `ParseLength`: the text behind a length modifier. -/
def parseLength : Bytes → Bytes
  | 0x68 :: 0x68 :: f => f
  | 0x6c :: 0x6c :: f => f
  | c :: f => if c ∈ ascii "hljztL" then f else c :: f
  | [] => []

/-- The letters that `ParseSpecifier` takes. -/
def specifiers : Bytes := ascii "AEFGXabcdefginopsuvx"

def parsePrintSpecifier : Bytes → Option (UInt8 × Bytes)
  | [] => none
  | c :: f => if c ∈ specifiers then some (c, f) else none

/-- The part of `Parse` that reads a precision: it and the text behind it. A dot without a number or
a star is an error. -/
def parsePrecision : Bytes → Option (Int × Bytes)
  | 0x2e :: f =>
    let (precision, rest) := parsePrintWidth f (-1)
    rest.map (precision, ·)
  | f => some (-1, f)

/-- `Parse`: the specification and the text behind it, none if it returns zero. -/
def parse (format : Bytes) : Option (PrintSpecification × Bytes) := do
  let (flags, f) := parseFlags format {}
  let (width, rest) := parsePrintWidth f (-1)
  let f := rest.getD f
  let (precision, f) ← parsePrecision f
  let (specifier, f) ← parsePrintSpecifier (parseLength f)
  return ({ flags := flags, width := width, precision := precision, specifier := specifier }, f)

/-! ## The texts of specifications -/

/-- The flag characters of the C standard. -/
inductive Flag where
  | left
  | sign
  | space
  | sharp
  | zero

def Flag.char : Flag → UInt8
  | .left => 0x2d
  | .sign => 0x2b
  | .space => 0x20
  | .sharp => 0x23
  | .zero => 0x30

def Flag.set (flags : Flags) : Flag → Flags
  | .left => { flags with left := true }
  | .sign => { flags with sign := true }
  | .space => { flags with space := true }
  | .sharp => { flags with sharp := true }
  | .zero => { flags with zero := true }

/-- A width or a precision in a format: nothing, a number, or a star and the argument for it. -/
inductive Amount where
  | nothing
  | number (n : Nat)
  | star (n : Nat)
  deriving DecidableEq

def Amount.text : Amount → Bytes
  | .nothing => []
  | .number n => decimal n
  | .star _ => [0x2a]

def Amount.field : Amount → Int
  | .nothing => -1
  | .number n => n
  | .star _ => starValue

def Amount.value : Amount → Option Nat
  | .nothing => none
  | .number n => some n
  | .star n => some n

/-- The conversions of integers. -/
inductive Conversion where
  | d
  | i
  | u
  | x
  | upperX
  | o
  deriving DecidableEq

def Conversion.char : Conversion → UInt8
  | .d => 0x64
  | .i => 0x69
  | .u => 0x75
  | .x => 0x78
  | .upperX => 0x58
  | .o => 0x6f

/-- A conversion as the C standard writes it. -/
structure Directive where
  flags : List Flag
  width : Amount
  precision : Option Amount
  conversion : Conversion

namespace Directive

def flagSet (d : Directive) : Flags := d.flags.foldl Flag.set {}

def tail (d : Directive) : Bytes :=
  (match d.precision with
    | none => []
    | some amount => 0x2e :: amount.text) ++ [d.conversion.char]

def text (d : Directive) : Bytes := d.flags.map Flag.char ++ (d.width.text ++ d.tail)

def spec (d : Directive) : PrintSpecification where
  flags := d.flagSet
  width := d.width.field
  precision := (d.precision.map Amount.field).getD (-1)
  specifier := d.conversion.char

end Directive

/-- A byte that ends flags and numbers. -/
def Stops (c : UInt8) : Prop := isDigitOf 10 c = false ∧ c ≠ 0x2a ∧ ∀ flags, setFlag flags c = none

theorem Conversion.stops (conversion : Conversion) : Stops conversion.char := by
  cases conversion <;> exact ⟨rfl, by decide, fun _ => rfl⟩

theorem Directive.stops_tail (d : Directive) (rest : Bytes) :
    ∃ c f, d.tail ++ rest = c :: f ∧ Stops c := by
  unfold Directive.tail
  cases d.precision with
  | none => exact ⟨_, rest, rfl, d.conversion.stops⟩
  | some amount => exact ⟨0x2e, _, rfl, rfl, by decide, fun _ => rfl⟩

theorem parseFlags_append (fs : List Flag) {rest : Bytes} {c : UInt8} {f : Bytes}
    (hrest : rest = c :: f) (hc : ∀ flags, setFlag flags c = none) (flags : Flags) :
    parseFlags (fs.map Flag.char ++ rest) flags = (fs.foldl Flag.set flags, rest) := by
  induction fs generalizing flags with
  | nil =>
    rw [map_nil, nil_append, hrest, parseFlags, hc]
    rfl
  | cons flag fs ih =>
    have hset : setFlag flags flag.char = some (flag.set flags) := by cases flag <;> rfl
    rw [map_cons, cons_append, parseFlags, hset]
    exact ih (flag.set flags)

theorem Amount.head_text {a : Amount} (ha : a ≠ .number 0) {rest : Bytes} {c : UInt8} {f : Bytes}
    (hrest : rest = c :: f) (hc : ∀ flags, setFlag flags c = none) :
    ∃ c f, a.text ++ rest = c :: f ∧ ∀ flags, setFlag flags c = none := by
  cases a with
  | nothing => exact ⟨c, f, hrest, hc⟩
  | number n =>
    have hpos : 0 < n := by
      refine Nat.pos_of_ne_zero ?_
      rintro rfl
      exact ha rfl
    obtain ⟨d, text, hd, hlt, hcons⟩ := head_decimal hpos
    refine ⟨digit d, text ++ rest, by rw [Amount.text, hcons]; rfl, ?_⟩
    intro flags
    interval_cases d <;> rfl
  | star n => exact ⟨0x2a, rest, rfl, fun _ => rfl⟩

theorem parsePrintWidth_text {a : Amount} (ha : ∀ n, a = .number n → n < 2 ^ 31) {rest : Bytes}
    {c : UInt8} {f : Bytes} (hrest : rest = c :: f) (hc : Stops c) :
    parsePrintWidth (a.text ++ rest) (-1) =
      (a.field, if a = .nothing then none else some rest) := by
  obtain ⟨hdigit, hstar, -⟩ := hc
  cases a with
  | nothing =>
    have hwidth : parseWidth rest (-1) = (-1, none) := by
      rw [hrest, parseWidth, if_neg (ne_true_of_eq_false hdigit)]
    rw [Amount.text, nil_append, parsePrintWidth, hwidth, hrest]
    dsimp only
    split
    · rename_i heq
      exact absurd (List.cons.inj heq).1 hstar
    · rfl
  | number n =>
    have hn := ha n rfl
    have hstop : ∀ b ∈ rest.head?, isDigitOf 10 b = false := by
      rw [hrest]
      intro b hb
      cases hb
      exact hdigit
    have hscan := strtoul_decimal_append (by omega : n < 2 ^ 64) hstop
    have hwidth : parseWidth (decimal n ++ rest) (-1) = ((n : Int), some rest) := by
      obtain ⟨b, text, hcons⟩ := exists_cons_of_ne_nil (decimal_ne_nil n)
      have hb : isDigitOf 10 b := isDigitOf_decimal (hcons ▸ mem_cons_self)
      rw [hcons, cons_append] at hscan ⊢
      rw [parseWidth, if_pos hb, hscan]
      dsimp only
      rw [int32_of_lt hn, if_neg (by omega)]
    rw [Amount.text, parsePrintWidth, hwidth]
    rfl
  | star n =>
    rfl

theorem parsePrintSpecifier_char (conversion : Conversion) (rest : Bytes) :
    parsePrintSpecifier (parseLength (conversion.char :: rest)) = some (conversion.char, rest) := by
  cases conversion <;> rfl

theorem Directive.parsePrecision_tail {d : Directive}
    (hprecision : ∀ n, d.precision = some (.number n) → n < 2 ^ 31) (rest : Bytes) :
    parsePrecision (d.tail ++ rest) = if d.precision = some .nothing then none
      else some (d.spec.precision, d.conversion.char :: rest) := by
  unfold Directive.tail Directive.spec
  cases hp : d.precision with
  | none =>
    cases d.conversion <;> rfl
  | some amount =>
    have hwidth := @parsePrintWidth_text amount (fun n hn => hprecision n (hn ▸ hp))
      (d.conversion.char :: rest) _ _ rfl d.conversion.stops
    rw [append_assoc, cons_append, singleton_append, parsePrecision, hwidth]
    by_cases hnothing : amount = .nothing
    · rw [hnothing]
      rfl
    · rw [if_neg hnothing, if_neg fun heq => hnothing (some.inj heq)]
      rfl

theorem Directive.parse_text {d : Directive} (hpos : d.width ≠ .number 0)
    (hwidth : ∀ n, d.width = .number n → n < 2 ^ 31)
    (hprecision : ∀ n, d.precision = some (.number n) → n < 2 ^ 31) (rest : Bytes) :
    parse (d.text ++ rest) = if d.precision = some .nothing then none else some (d.spec, rest) := by
  obtain ⟨c, f, htail, hstops⟩ := d.stops_tail rest
  obtain ⟨c', f', hhead, hflag⟩ := Amount.head_text hpos htail hstops.2.2
  have htext : d.text ++ rest = d.flags.map Flag.char ++ (d.width.text ++ (d.tail ++ rest)) := by
    rw [Directive.text, append_assoc, append_assoc]
  have hrest : (if d.width = .nothing then none else some (d.tail ++ rest)).getD
      (d.width.text ++ (d.tail ++ rest)) = d.tail ++ rest := by
    split_ifs with hnothing
    · rw [hnothing]
      rfl
    · rfl
  rw [parse, htext, parseFlags_append _ hhead hflag]
  dsimp only
  rw [parsePrintWidth_text hwidth htail hstops]
  dsimp only
  rw [hrest, d.parsePrecision_tail hprecision]
  split_ifs
  · rfl
  · simp only [bind_eq_bind, bind_some, parsePrintSpecifier_char]
    rfl

end Toft.Format

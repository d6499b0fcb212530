import Toft.Base.Fault
import Toft.Lib.Word

/-!
# Escaping for the shell

`ShellEscape` writes a control byte that has a letter as a backslash and the letter, and a byte that
the shell would read otherwise behind a backslash. `ShellUnescape` reads more sequences than that,
but each of those that are written stands for its byte, whatever follows it (`unescapeLoop_escape`).
-/

namespace Toft.Shell

open Lib List

abbrev backslash : UInt8 := 0x5c

/-! ## Escape sequences -/

/-- The value of a hexadecimal digit, or -1. Of the small letters only `a` is taken. -/
def decodeHex (c : UInt8) : Int :=
  if 0x30 ≤ c ∧ c ≤ 0x39 then c.toNat - 0x30
  else if 0x41 ≤ c ∧ c ≤ 0x46 then c.toNat - 0x41 + 10
  else if 0x61 ≤ c ∧ c ≤ 0x61 then c.toNat - 0x61 + 10
  else -1

def letterEscapes : List (UInt8 × UInt8) :=
  [(0x61, 0x07), (0x62, 0x08), (0x65, 0x1b), (0x45, 0x1b), (0x66, 0x0c), (0x6e, 0x0a),
    (0x72, 0x0d), (0x74, 0x09), (0x76, 0x0b), (backslash, backslash)]

/-- The sequence behind `x`. Without a digit other than zero the output is not set. -/
def unescapeHex : Bytes → Nat × Option UInt8
  | [] => (1, none)
  | high :: p =>
    let n := decodeHex high
    if 0 < n then
      match p with
      | [] => (2, some (UInt8.ofInt n))
      | low :: _ =>
        let d := decodeHex low
        if 0 < d then (3, some (UInt8.ofInt (n * 16 + d))) else (2, some (UInt8.ofInt n))
    else (1, none)

def isDecimalDigit (c : UInt8) : Bool := 0x30 ≤ c ∧ c ≤ 0x39

/-- The sequence that starts with the octal digit `e`. The iterator is not moved behind a third
digit. -/
def unescapeOctal (e : UInt8) : Bytes → Except Fault (Nat × Option UInt8)
  | [] => .error .overrun
  | d :: p =>
    let n := e - 0x30
    if isDecimalDigit d then
      let n := n * 8 + (d - 0x30)
      match p with
      | [] => .error .overrun
      | d :: _ => .ok (2, some (if isDecimalDigit d then n * 8 + (d - 0x30) else n))
    else .ok (1, some n)

/-- `UnescapeChar` on the text behind the backslash: how much of it the sequence takes, and the
output if it was set. -/
def unescapeChar : Bytes → Except Fault (Nat × Option UInt8)
  | [] => .ok (0, none)
  | e :: p =>
    match letterEscapes.lookup e with
    | some c => .ok (1, some c)
    | none =>
      if e = 0x78 ∨ e = 0x58 then .ok (unescapeHex p)
      else if 0x30 ≤ e ∧ e ≤ 0x37 then unescapeOctal e p
      else .ok (0, none)

/-! ## Escaping -/

/-- The control bytes that are written with a letter. -/
def escapeLetters : List (UInt8 × UInt8) :=
  [(0x07, 0x61), (0x08, 0x62), (0x0c, 0x66), (0x0a, 0x6e), (0x0d, 0x72), (0x09, 0x74), (0x0b, 0x76)]

/-- The bytes that are written behind a backslash. -/
def escapeNeeds : Bytes := ascii " !\"#$&()*,:;?@[\\]`\x7b\x7d"

def escapeByte (c : UInt8) : Bytes :=
  match escapeLetters.lookup c with
  | some letter => [backslash, letter]
  | none => if c ∈ escapeNeeds then [backslash, c] else [c]

def shellEscape (str : Bytes) : Bytes := str.flatMap escapeByte

/-- What `ShellUnescape` does behind a backslash: the text that is left and the result. -/
def unescapeNext (pos result : Bytes) : Except Fault (Bytes × Bytes) := do
  let (unescapedSize, e) ← unescapeChar pos
  if 0 < unescapedSize then
    match e with
    | some e => .ok (pos.drop unescapedSize, result ++ [e])
    | none => .error .uninitialized
  else
    match pos with
    | [] => .error .overrun
    | c :: pos => .ok (pos, result ++ [c])

/-- The loop of `ShellUnescape`; every round consumes a byte. -/
def unescapeLoop : Nat → Bytes → Bytes → Except Fault Bytes
  | _, [], result => .ok result
  | 0, _ :: _, _ => .error .unended
  | fuel + 1, c :: pos, result =>
    if c = backslash then do
      let (pos, result) ← unescapeNext pos result
      unescapeLoop fuel pos result
    else unescapeLoop fuel pos (result ++ [c])

def shellUnescape (str result : Bytes) : Except Fault (Bool × Bytes) := do
  let result ← unescapeLoop str.length str result
  return (true, result)

/-! ## Reversing -/

theorem lookup_letter {c letter : UInt8} (h : escapeLetters.lookup c = some letter) :
    letterEscapes.lookup letter = some c := by
  have hall : ∀ m ∈ escapeLetters, decide (letterEscapes.lookup m.2 = some m.1) :=
    all_eq_true.mp (by decide)
  obtain ⟨before, behind, heq, -⟩ := lookup_eq_some_iff.mp h
  refine decide_eq_true_iff.mp (hall (c, letter) ?_)
  rw [heq]
  exact mem_append_right before mem_cons_self

theorem unescapeNext_letter {c letter : UInt8} (h : letterEscapes.lookup letter = some c)
    (pos result : Bytes) : unescapeNext (letter :: pos) result = .ok (pos, result ++ [c]) := by
  rw [unescapeNext, unescapeChar, h]
  rfl

/-- Behind a backslash none of these bytes starts another sequence. -/
theorem unescapeNext_need {c : UInt8} (h : c ∈ escapeNeeds) (pos result : Bytes) :
    unescapeNext (c :: pos) result = .ok (pos, result ++ [c]) := by
  have hall : ∀ c ∈ escapeNeeds, decide (letterEscapes.lookup c = some c ∨
      letterEscapes.lookup c = none ∧ ¬ (c = 0x78 ∨ c = 0x58) ∧ ¬ (0x30 ≤ c ∧ c ≤ 0x37)) :=
    all_eq_true.mp (by decide)
  rcases decide_eq_true_iff.mp (hall c h) with hletter | ⟨hnone, hhex, hoctal⟩
  · exact unescapeNext_letter hletter pos result
  · rw [unescapeNext, unescapeChar, hnone]
    rw [if_neg hhex, if_neg hoctal]
    rfl

theorem unescapeLoop_backslash {fuel : Nat} {e c : UInt8} {pos result : Bytes}
    (h : unescapeNext (e :: pos) result = .ok (pos, result ++ [c])) :
    unescapeLoop (fuel + 1) (backslash :: e :: pos) result =
      unescapeLoop fuel pos (result ++ [c]) := by
  rw [unescapeLoop, h]
  rfl

theorem unescapeLoop_escapeByte (fuel : Nat) (c : UInt8) (pos result : Bytes) :
    unescapeLoop (fuel + 1) (escapeByte c ++ pos) result =
      unescapeLoop fuel pos (result ++ [c]) := by
  unfold escapeByte
  cases hletter : escapeLetters.lookup c with
  | some letter =>
    exact unescapeLoop_backslash (unescapeNext_letter (lookup_letter hletter) pos result)
  | none =>
    split_ifs with hneed
    · exact unescapeLoop_backslash (unescapeNext_need hneed pos result)
    · have hne : c ≠ backslash := by
        rintro rfl
        exact hneed (by decide)
      exact if_neg hne

theorem unescapeLoop_escape {fuel : Nat} {s : Bytes} (hfuel : s.length ≤ fuel) (result : Bytes) :
    unescapeLoop fuel (shellEscape s) result = .ok (result ++ s) := by
  induction s generalizing fuel result with
  | nil =>
    rw [append_nil, shellEscape, flatMap_nil, unescapeLoop]
  | cons c s ih =>
    cases fuel with
    | zero => cases hfuel
    | succ fuel =>
      have happend : result ++ c :: s = result ++ [c] ++ s := by
        rw [append_assoc, singleton_append]
      rw [shellEscape, flatMap_cons, unescapeLoop_escapeByte, happend]
      exact ih (Nat.le_of_succ_le_succ hfuel) (result ++ [c])

theorem length_le_shellEscape (s : Bytes) : s.length ≤ (shellEscape s).length := by
  induction s with
  | nil => exact Nat.zero_le _
  | cons c s ih =>
    have hpos : 1 ≤ (escapeByte c).length := by
      unfold escapeByte
      split
      · exact one_le_two
      · split_ifs
        · exact one_le_two
        · exact le_rfl
    rw [shellEscape] at ih
    rw [shellEscape, flatMap_cons, length_append, length_cons]
    omega

/-- `ShellUnescape` undoes `ShellEscape`. -/
theorem shellUnescape_shellEscape (s : Bytes) :
    shellUnescape (shellEscape s) [] = .ok (true, s) := by
  rw [shellUnescape, unescapeLoop_escape (length_le_shellEscape s)]
  rfl

end Toft.Shell

import Mathlib.Data.List.DropRight
import Toft.Base.Number
import Toft.Lib.Segments

/-!
# Lines and white space around a text

`SplitLines` cuts a text behind every line feed and takes all line endings off the end of each
line. Lines without a carriage return or line feed of their own come back from the text that ends
each of them with both (`splitLines_crlf`).
-/

namespace Toft

open Lib List

abbrev cr : UInt8 := 0x0d

abbrev lf : UInt8 := 0x0a

def crlf : Bytes := [cr, lf]

def removeLineEnding (line : Bytes) : Bytes := line.rdropWhile fun c => c = cr ∨ c = lf

/-- The loop of `SplitLines` on what is left of the text; each round consumes a line. -/
def splitLinesLoop (keepLineEnding : Bool) : Nat → Bytes → List Bytes
  | 0, _ => []
  | fuel + 1, s =>
    let token := fun line => if keepLineEnding then line else removeLineEnding line
    match s.findIdx? (· == lf) with
    | some pos =>
      token (s.take (pos + 1)) :: splitLinesLoop keepLineEnding fuel (s.drop (pos + 1))
    | none => if s.isEmpty then [] else [token s]

def splitLines (full : Bytes) (keepLineEnding : Bool) : List Bytes :=
  splitLinesLoop keepLineEnding (full.length + 1) full

/-- `StringTrim` with the white space of `isspace`. -/
def stringTrim (s : Bytes) : Bytes := (s.dropWhile isSpace).rdropWhile isSpace

/-- `StringTrimRight` with the bytes to trim. -/
def stringTrimRight (s trimChars : Bytes) : Bytes := s.rdropWhile (· ∈ trimChars)

/-- There is no line ending in the text. -/
structure OneLine (s : Bytes) : Prop where
  cr : Toft.cr ∉ s
  lf : Toft.lf ∉ s

theorem OneLine.append {s t : Bytes} (hs : OneLine s) (ht : OneLine t) : OneLine (s ++ t) :=
  ⟨by simp [hs.cr, ht.cr], by simp [hs.lf, ht.lf]⟩

theorem removeLineEnding_crlf {line : Bytes} (h : OneLine line) :
    removeLineEnding (line ++ crlf) = line := by
  have hend : ∀ hne : line ≠ [], ¬ (decide (line.getLast hne = cr ∨ line.getLast hne = lf)) := by
    intro hne hlast
    rcases of_decide_eq_true hlast with hlast | hlast
    · exact h.cr (hlast ▸ getLast_mem hne)
    · exact h.lf (hlast ▸ getLast_mem hne)
  rw [removeLineEnding, crlf, show [cr, lf] = [cr] ++ [lf] from rfl, ← append_assoc,
    rdropWhile_concat_pos _ _ _ (by decide), rdropWhile_concat_pos _ _ _ (by decide)]
  exact rdropWhile_eq_self_iff.mpr hend

theorem splitLinesLoop_crlf {line : Bytes} (h : OneLine line) (fuel : Nat) (rest : Bytes) :
    splitLinesLoop false (fuel + 1) (line ++ crlf ++ rest) =
      line :: splitLinesLoop false fuel rest := by
  have hlf : lf ∉ line ++ [cr] := by simp [h.lf, show lf ≠ cr by decide]
  have hsplit : line ++ crlf ++ rest = line ++ [cr] ++ lf :: rest := by simp [crlf]
  have htake : (line ++ [cr] ++ lf :: rest).take ((line ++ [cr]).length + 1) = line ++ crlf := by
    rw [take_length_add_append]
    simp [crlf]
  have hdrop : (line ++ [cr] ++ lf :: rest).drop ((line ++ [cr]).length + 1) = rest := by
    rw [drop_length_add_append]
    rfl
  rw [splitLinesLoop, hsplit, Segments.findIdx?_sep hlf]
  simp only [htake, hdrop, Bool.false_eq_true, if_false, removeLineEnding_crlf h]

theorem splitLines_crlf {lines : List Bytes} (h : ∀ line ∈ lines, OneLine line) :
    splitLines (lines.flatMap (· ++ crlf)) false = lines := by
  have hloop : ∀ fuel, (lines.flatMap (· ++ crlf)).length < fuel →
      splitLinesLoop false fuel (lines.flatMap (· ++ crlf)) = lines := by
    induction lines with
    | nil =>
      rintro (_ | fuel) hfuel
      · exact absurd hfuel (Nat.not_lt_zero _)
      · rfl
    | cons line lines ih =>
      obtain ⟨hline, hlines⟩ := forall_mem_cons.mp h
      rintro (_ | fuel) hfuel
      · exact absurd hfuel (Nat.not_lt_zero _)
      · rw [flatMap_cons, length_append, length_append] at hfuel
        have hcrlf : crlf.length = 2 := rfl
        rw [flatMap_cons, splitLinesLoop_crlf hline, ih hlines fuel (by omega)]
  exact hloop _ (Nat.lt_succ_self _)

/-- There is no white space at the ends. -/
structure Trimmed (s : Bytes) : Prop where
  head : ∀ c ∈ s.head?, isSpace c = false
  last : ∀ c ∈ s.getLast?, isSpace c = false

variable {s : Bytes}

theorem dropWhile_of_head (h : ∀ c ∈ s.head?, isSpace c = false) : s.dropWhile isSpace = s := by
  cases s with
  | nil => rfl
  | cons c s => exact dropWhile_cons_of_neg (by simp [h c rfl])

theorem stringTrim_of_trimmed (h : Trimmed s) : stringTrim s = s := by
  rw [stringTrim, dropWhile_of_head h.head, rdropWhile_eq_self_iff]
  intro hne
  rw [h.last _ (List.getLast?_eq_some_getLast hne)]
  exact Bool.false_ne_true

theorem stringTrim_space (h : Trimmed s) : stringTrim (0x20 :: s) = s := by
  exact stringTrim_of_trimmed h

theorem stringTrimRight_cr (h : cr ∉ s) : stringTrimRight (s ++ [cr]) [cr] = s := by
  rw [stringTrimRight, rdropWhile_concat_pos _ _ _ (by decide), rdropWhile_eq_self_iff]
  intro hne hlast
  have hcr : s.getLast hne = cr := mem_singleton.mp (of_decide_eq_true hlast)
  exact h (hcr ▸ getLast_mem hne)

end Toft

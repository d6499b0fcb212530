import Mathlib.Data.List.Infix
import Toft.Base.Fault
import Toft.Lib.Word

/-!
# String algorithms
-/

namespace Toft

open Lib List Nat

/-- `StringPiece::find`: the first place from `start` on where the pattern stands. -/
def findFrom (s pattern : Bytes) (start : Nat) : Option Nat :=
  (range (s.length + 1)).find? fun pos => start ≤ pos ∧ pattern.isPrefixOf (s.drop pos)

/-- The loop of `ReplaceAll`. -/
def replaceAllLoop (s oldsub newsub : Bytes) : Nat → Nat → Bytes → Except Fault Bytes
  | 0, _, _ => .error .unended
  | fuel + 1, startPos, res =>
    match findFrom s oldsub startPos with
    | none => .ok (res ++ s.drop startPos)
    | some pos =>
      replaceAllLoop s oldsub newsub fuel (pos + oldsub.length)
        (res ++ (s.drop startPos).take (pos - startPos) ++ newsub)

def replaceAll (s oldsub newsub : Bytes) : Except Fault Bytes :=
  if oldsub.isEmpty then .ok s else replaceAllLoop s oldsub newsub (s.length + 1) 0 []

/-- The loop of the `ReplaceAll` that works in place. -/
def replaceInPlaceLoop (old new : Bytes) : Nat → Nat → Bytes → Except Fault Bytes
  | 0, _, _ => .error .unended
  | fuel + 1, pos, s =>
    match findFrom s old pos with
    | none => .ok s
    | some pos =>
      replaceInPlaceLoop old new fuel (pos + new.length)
        (s.take pos ++ new ++ s.drop (pos + old.length))

def replaceInPlace (s old new : Bytes) : Except Fault Bytes :=
  replaceInPlaceLoop old new (s.length + 1) 0 s

theorem findFrom_eq_none {s pattern : Bytes} {start : Nat} (h : findFrom s pattern start = none)
    {pos : Nat} (hstart : start ≤ pos) (hpos : pos ≤ s.length) :
    ¬ pattern.isPrefixOf (s.drop pos) := by
  have hnone := find?_eq_none.mp h pos (mem_range.mpr (by omega))
  simpa [hstart] using hnone

theorem findFrom_eq_some {s pattern : Bytes} {start pos : Nat}
    (h : findFrom s pattern start = some pos) :
    start ≤ pos ∧ pattern.isPrefixOf (s.drop pos) ∧
      ∀ i, start ≤ i → i < pos → ¬ pattern.isPrefixOf (s.drop i) := by
  rw [findFrom, find?_range_eq_some] at h
  obtain ⟨hfound, -, hfirst⟩ := h
  rw [decide_eq_true_eq] at hfound
  refine ⟨hfound.1, hfound.2, fun i hstart hi => ?_⟩
  simpa [hstart] using hfirst i hi

/-! ## Finding a terminator -/

/-- The C function `strstr`, on bytes that are followed by a zero byte. -/
def strstr (s pattern : Bytes) : Option Nat := findFrom (s.takeWhile (· ≠ 0)) pattern 0

/-- The pattern ends the text and stands nowhere else in it; the text has no zero byte. -/
structure Terminated (pattern s : Bytes) : Prop where
  suffix : pattern <:+ s
  first : ∀ i, i + pattern.length < s.length → ¬ pattern <+: s.drop i
  nul : 0 ∉ s

variable {s : Bytes}

theorem takeWhile_nul (h : 0 ∉ s) (rest : Bytes) :
    (s ++ rest).takeWhile (· ≠ 0) = s ++ rest.takeWhile (· ≠ 0) := by
  refine takeWhile_append_of_pos fun c hc => ?_
  have hne : c ≠ 0 := fun heq => h (heq ▸ hc)
  simpa using hne

/-- The terminator is found where it ends the text, whatever follows. -/
theorem Terminated.strstr_append {pattern s : Bytes} (h : Terminated pattern s) (rest : Bytes) :
    strstr (s ++ rest) pattern = some (s.length - pattern.length) := by
  rw [strstr, takeWhile_nul h.nul, findFrom, find?_range_eq_some]
  generalize rest.takeWhile (· ≠ 0) = t
  refine ⟨?_, mem_range.mpr (by rw [length_append]; omega), fun j hj => ?_⟩
  · have hend : s.drop (s.length - pattern.length) = pattern :=
      (suffix_iff_eq_drop.mp h.suffix).symm
    rw [decide_eq_true_eq, isPrefixOf_iff_prefix, drop_append_of_le_length (by omega),
      hend]
    exact ⟨zero_le _, prefix_append _ _⟩
  · -- an earlier place would lie within the text
    have hearlier := h.first j (by omega)
    rw [Bool.not_eq_true', decide_eq_false_iff_not, isPrefixOf_iff_prefix,
      drop_append_of_le_length (by omega)]
    rintro ⟨-, hpre⟩
    refine hearlier (prefix_of_prefix_length_le hpre (prefix_append _ _) ?_)
    rw [length_drop]
    omega

/-- It is not found before all of the text is there. -/
theorem Terminated.strstr_prefix {pattern s u : Bytes} (h : Terminated pattern s) (hu : u <+: s)
    (hlt : u.length < s.length) : strstr u pattern = none := by
  rw [strstr, findFrom, find?_eq_none]
  intro i hi hfound
  have hbefore := takeWhile_prefix (l := u) (· ≠ 0)
  have hend := hbefore.length_le
  rw [mem_range] at hi
  rw [decide_eq_true_eq, isPrefixOf_iff_prefix] at hfound
  have hpre : pattern <+: u.drop i := hfound.2.trans (hbefore.drop i)
  have hlen := hpre.length_le
  rw [length_drop] at hlen
  exact h.first i (by omega) (hpre.trans (hu.drop i))

/-! ## Replacing a byte -/

def replaceByte (old new : UInt8) (s : Bytes) : Bytes := s.map fun c => if c = old then new else c

theorem map_eq_self_iff {α : Type} {f : α → α} {xs : List α} :
    xs.map f = xs ↔ ∀ x ∈ xs, f x = x := by
  conv_lhs => rhs; rw [← map_id xs]
  exact map_inj_left

theorem replaceByte_append (old new : UInt8) (s t : Bytes) :
    replaceByte old new (s ++ t) = replaceByte old new s ++ replaceByte old new t :=
  map_append

theorem replaceByte_eq_self_iff {old new : UInt8} (h : new ≠ old) :
    replaceByte old new s = s ↔ old ∉ s := by
  rw [replaceByte, map_eq_self_iff]
  constructor
  · intro hall hmem
    exact h ((if_pos rfl).symm.trans (hall old hmem))
  · intro hnot c hc
    have hne : c ≠ old := fun heq => hnot (heq ▸ hc)
    exact if_neg hne

theorem replaceByte_of_notMem {old : UInt8} (h : old ∉ s) (new : UInt8) :
    replaceByte old new s = s := by
  refine map_eq_self_iff.mpr fun c hc => ?_
  have hne : c ≠ old := fun heq => h (heq ▸ hc)
  exact if_neg hne

/-! ## Replacing all occurrences -/

/-- The text with a replacement for the occurrences of a pattern that are found from the left, each
behind the last one. -/
def substitute (old new : Bytes) : Bytes → Bytes
  | [] => []
  | c :: s =>
    if old <+: c :: s then new ++ substitute old new (s.drop (old.length - 1))
    else c :: substitute old new s
termination_by s => s.length
decreasing_by
  · rw [length_drop, length_cons]
    omega
  · exact lt_succ_self _

variable {old new : Bytes}

theorem substitute_old (h : old ≠ []) (rest : Bytes) :
    substitute old new (old ++ rest) = new ++ substitute old new rest := by
  cases old with
  | nil => exact absurd rfl h
  | cons c old =>
    rw [cons_append, substitute, ← cons_append, if_pos (prefix_append _ _), length_cons,
      Nat.add_sub_cancel, drop_left]

/-- What stands in front of the first occurrence is kept. -/
theorem substitute_front {front rest : Bytes}
    (h : ∀ i < front.length, ¬ old.isPrefixOf ((front ++ rest).drop i)) :
    substitute old new (front ++ rest) = front ++ substitute old new rest := by
  induction front with
  | nil => rfl
  | cons c front ih =>
    have hfirst := h 0 (zero_lt_succ _)
    rw [drop_zero, isPrefixOf_iff_prefix] at hfirst
    rw [cons_append, substitute, ← cons_append, if_neg hfirst,
      ih fun i hi => h (i + 1) (succ_lt_succ hi), cons_append]

theorem substitute_of_none {start : Nat} (h : findFrom s old start = none) :
    substitute old new (s.drop start) = s.drop start := by
  have hfront := @substitute_front old new (s.drop start) [] fun i hi => by
    rw [length_drop] at hi
    rw [append_nil, drop_drop]
    exact findFrom_eq_none h (by omega) (by omega)
  rwa [substitute, append_nil] at hfront

theorem substitute_of_some (hold : old ≠ []) {start pos : Nat}
    (h : findFrom s old start = some pos) :
    start ≤ pos ∧ pos + old.length ≤ s.length ∧
      substitute old new (s.drop start) =
        (s.drop start).take (pos - start) ++ new ++
          substitute old new (s.drop (pos + old.length)) := by
  obtain ⟨hle, hfound, hfirst⟩ := findFrom_eq_some h
  obtain ⟨rest, hrest⟩ := isPrefixOf_iff_prefix.mp hfound
  have hlength := congrArg length hrest
  have hpos := length_pos_of_ne_nil hold
  rw [length_append, length_drop] at hlength
  have hsplit : (s.drop start).take (pos - start) ++ (old ++ rest) = s.drop start := by
    rw [hrest, ← Nat.add_sub_cancel' hle, ← drop_drop, Nat.add_sub_cancel_left, take_append_drop]
  have hbehind : s.drop (pos + old.length) = rest := by rw [← drop_drop, ← hrest, drop_left]
  refine ⟨hle, by omega, ?_⟩
  conv_lhs => rw [← hsplit]
  rw [substitute_front, substitute_old hold, hbehind, append_assoc]
  intro i hi
  rw [length_take] at hi
  rw [hsplit, drop_drop]
  exact hfirst _ (by omega) (by omega)

theorem replaceAllLoop_eq (hold : old ≠ []) {fuel start : Nat} (hstart : start ≤ s.length)
    (hfuel : s.length < fuel + start) (res : Bytes) :
    replaceAllLoop s old new fuel start res = .ok (res ++ substitute old new (s.drop start)) := by
  induction fuel generalizing start res with
  | zero => omega
  | succ fuel ih =>
    rw [replaceAllLoop]
    cases hfind : findFrom s old start with
    | none => rw [substitute_of_none hfind]
    | some pos =>
      obtain ⟨hle, hend, heq⟩ := @substitute_of_some s old new hold _ _ hfind
      have hpos := length_pos_of_ne_nil hold
      dsimp only
      rw [ih hend (by omega), heq, append_assoc, append_assoc, append_assoc]

/-- In front of the position stands what is done, behind it the rest of the original text. -/
theorem replaceInPlaceLoop_eq (hold : old ≠ []) {fuel pos : Nat} (hpos : pos ≤ s.length)
    (hfuel : s.length < fuel + pos) :
    replaceInPlaceLoop old new fuel pos s =
      .ok (s.take pos ++ substitute old new (s.drop pos)) := by
  induction fuel generalizing pos s with
  | zero => omega
  | succ fuel ih =>
    rw [replaceInPlaceLoop]
    cases hfind : findFrom s old pos with
    | none => rw [substitute_of_none hfind, take_append_drop]
    | some p =>
      obtain ⟨hle, hend, heq⟩ := @substitute_of_some s old new hold _ _ hfind
      have hold := length_pos_of_ne_nil hold
      have hdone : (s.take p ++ new).length = p + new.length := by
        rw [length_append, length_take, min_eq_left (by omega)]
      have htake : s.take p = s.take pos ++ (s.drop pos).take (p - pos) := by
        rw [← take_add, Nat.add_sub_cancel' hle]
      dsimp only
      rw [ih (by rw [length_append]; omega)
        (by rw [length_append, length_drop]; omega), take_left' hdone, drop_left' hdone, heq,
        htake, append_assoc, append_assoc, append_assoc]

theorem replaceAll_eq (hold : old ≠ []) (s : Bytes) :
    replaceAll s old new = .ok (substitute old new s) := by
  rw [replaceAll, if_neg (by simpa using hold),
    replaceAllLoop_eq hold (zero_le _) (lt_succ_self _)]
  rfl

/-- The copying and the in-place `ReplaceAll` give the same text. -/
theorem replaceAll_agree (s old new : Bytes) (hold : old ≠ []) :
    replaceAll s old new = .ok (substitute old new s) ∧
      replaceInPlace s old new = .ok (substitute old new s) :=
  ⟨replaceAll_eq hold s, replaceInPlaceLoop_eq hold (zero_le _) (lt_succ_self _)⟩

/-- The replacement has the pattern and makes a new one with what follows. -/
theorem replaceAll_agree_overlapping :
    replaceAll (ascii "aabb") (ascii "ab") (ascii "aab") =
        .ok (substitute (ascii "ab") (ascii "aab") (ascii "aabb")) ∧
      replaceInPlace (ascii "aabb") (ascii "ab") (ascii "aab") =
        .ok (substitute (ascii "ab") (ascii "aab") (ascii "aabb")) :=
  replaceAll_agree _ _ _ (by decide)

theorem replaceAll_byte (s : Bytes) (old new : UInt8) :
    replaceAll s [old] [new] = .ok (replaceByte old new s) := by
  rw [replaceAll_eq (cons_ne_nil _ _)]
  congr 1
  induction s with
  | nil => rw [substitute]; rfl
  | cons c s ih =>
    rw [substitute, length_singleton, drop_zero, ih]
    by_cases h : old = c
    · simp [replaceByte, h]
    · simp [replaceByte, h, Ne.symm h]

end Toft

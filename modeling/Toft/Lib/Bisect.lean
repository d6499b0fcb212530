import Mathlib.Tactic.Ring

/-!
# Bisection

A bisection over places `lo … lo + len - 1` looks at the middle place and goes on to its right if
what is looked for lies behind it, and to its left otherwise. `lastProbe` is the last place looked
at: it is the first place that is not before the target, or the place in front of that one
(`lastProbe_cases`). Which of the two depends only on how the gaps between the places are halved
(`lastProbe_eq_iff`).
-/

namespace Toft.Lib

open List

/-- The last place that a bisection looks at, or `last` if there is no place. -/
def lastProbe (before : Nat → Bool) (lo len last : Nat) : Nat :=
  if len = 0 then last
  else
    let mid := lo + (len - 1) / 2
    if before mid then lastProbe before (mid + 1) (len - 1 - (len - 1) / 2) mid
    else lastProbe before lo ((len - 1) / 2) mid
termination_by len

/-- Among the places, those before the target are the ones below `r`. -/
structure Splits (before : Nat → Bool) (lo len r : Nat) : Prop where
  le : lo ≤ r
  le_end : r ≤ lo + len
  before_iff : ∀ i, lo ≤ i → i < lo + len → (before i = true ↔ i < r)

namespace Splits

variable {before : Nat → Bool} {lo len r : Nat}

theorem right (h : Splits before lo len r) (hlen : len ≠ 0)
    (hmid : before (lo + (len - 1) / 2) = true) :
    Splits before (lo + (len - 1) / 2 + 1) (len - 1 - (len - 1) / 2) r := by
  have hlt := (h.before_iff _ (by omega) (by omega)).mp hmid
  have hend := h.le_end
  exact ⟨hlt, by omega, fun i h₁ h₂ => h.before_iff i (by omega) (by omega)⟩

theorem left (h : Splits before lo len r) (hlen : len ≠ 0)
    (hmid : ¬ before (lo + (len - 1) / 2) = true) : Splits before lo ((len - 1) / 2) r := by
  rw [h.before_iff _ (by omega) (by omega)] at hmid
  exact ⟨h.le, by omega, fun i h₁ h₂ => h.before_iff i h₁ (by omega)⟩

end Splits

/-- In a list in which what satisfies `p` comes first, those elements are the ones below the length
of `takeWhile p`. -/
theorem Splits.of_pairwise {α : Type} {p : α → Bool} {xs : List α}
    (h : xs.Pairwise fun x y => p y = true → p x = true) :
    Splits (fun i => xs[i]?.any p) 0 xs.length (xs.takeWhile p).length where
  le := Nat.zero_le _
  le_end := by
    rw [Nat.zero_add]
    exact (takeWhile_sublist p).length_le
  before_iff := by
    intro i _ hi
    induction xs generalizing i with
    | nil => simp at hi
    | cons x xs ih =>
      rw [pairwise_cons] at h
      cases hx : p x with
      | true =>
        rw [takeWhile_cons_of_pos hx, length_cons]
        cases i with
        | zero => simp [hx]
        | succ i =>
          rw [getElem?_cons_succ, ih h.2 i (Nat.zero_le _) (by simpa using hi)]
          omega
      | false =>
        rw [takeWhile_cons_of_neg (by simp [hx])]
        cases i with
        | zero => simp [hx]
        | succ i =>
          have hlt : i < xs.length := by simpa using hi
          have hnot : p xs[i] = false := by
            rw [← Bool.not_eq_true]
            intro hp
            rw [h.1 _ (getElem_mem hlt) hp] at hx
            cases hx
          simp [hlt, hnot]

variable {before : Nat → Bool}

theorem lastProbe_cases {lo len r : Nat} (last : Nat) (h : Splits before lo len r) :
    (lastProbe before lo len last = r ∧ r < lo + len) ∨
      (lastProbe before lo len last + 1 = r ∧ lo < r) ∨
      (lastProbe before lo len last = last ∧ len = 0) := by
  induction len using Nat.strongRecOn generalizing lo last with
  | ind len ih =>
    unfold lastProbe
    split
    · exact .inr (.inr ⟨rfl, by assumption⟩)
    · rename_i hlen
      simp only
      split
      · rename_i hmid
        have hlt := (h.before_iff _ (by omega) (by omega)).mp hmid
        have hend := h.le_end
        rcases ih _ (by omega) (lo + (len - 1) / 2) (h.right hlen hmid) with h' | h' | h'
        · exact .inl ⟨h'.1, by omega⟩
        · exact .inr (.inl ⟨h'.1, by omega⟩)
        · exact .inr (.inl ⟨by omega, by omega⟩)
      · rename_i hmid
        have hle := h.le
        have hnot : ¬ lo + (len - 1) / 2 < r :=
          fun hlt => hmid ((h.before_iff _ (by omega) (by omega)).mpr hlt)
        rcases ih _ (by omega) (lo + (len - 1) / 2) (h.left hlen hmid) with h' | h' | h'
        · exact .inl ⟨h'.1, by omega⟩
        · exact .inr (.inl ⟨h'.1, h'.2⟩)
        · exact .inl ⟨by omega, by omega⟩

/-- Halving a row of `gaps` gaps until one is left: the gap `r` is left by a step to the left. -/
def endsLeft (gaps r : Nat) : Bool :=
  if gaps < 2 then false
  else if r < gaps / 2 then gaps / 2 = 1 || endsLeft (gaps / 2) r
  else endsLeft (gaps - gaps / 2) (r - gaps / 2)
termination_by gaps

/-- A bisection of `len` places halves the `len + 1` gaps around them. -/
theorem lastProbe_eq_iff {lo len r : Nat} (last : Nat)
    (h : Splits before lo len r) (hlen : len ≠ 0) :
    lastProbe before lo len last = r ↔ endsLeft (len + 1) (r - lo) = true := by
  induction len using Nat.strongRecOn generalizing lo last with
  | ind len ih =>
    have hhalf : (len + 1) / 2 = (len - 1) / 2 + 1 := by omega
    have hle := h.le
    have hmid := h.before_iff (lo + (len - 1) / 2) (by omega) (by omega)
    rw [lastProbe, if_neg hlen, endsLeft, if_neg (show ¬ len + 1 < 2 by omega)]
    by_cases hb : before (lo + (len - 1) / 2) = true
    · have hlt := hmid.mp hb
      rw [if_pos hb, if_neg (show ¬ r - lo < (len + 1) / 2 by omega)]
      by_cases hrest : len - 1 - (len - 1) / 2 = 0
      · rw [hrest, lastProbe, if_pos rfl]
        rw [endsLeft, if_pos (by omega)]
        simp only [Bool.false_eq_true, iff_false]
        omega
      · rw [ih _ (by omega) _ (h.right hlen hb) hrest,
          show len - 1 - (len - 1) / 2 + 1 = len + 1 - (len + 1) / 2 by omega,
          show r - (lo + (len - 1) / 2 + 1) = r - lo - (len + 1) / 2 by omega]
    · have hnot : ¬ lo + (len - 1) / 2 < r := fun hlt => hb (hmid.mpr hlt)
      rw [if_neg hb, if_pos (show r - lo < (len + 1) / 2 by omega)]
      by_cases hrest : (len - 1) / 2 = 0
      · rw [hrest, lastProbe]
        simp [hhalf, hrest]
        omega
      · rw [ih _ (by omega) _ (h.left hlen hb) hrest, hhalf]
        simp [hrest]

end Toft.Lib

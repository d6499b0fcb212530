import Mathlib.Data.List.Basic

/-!
# Reading a text to its end

A text of items is read by a loop that takes one item after the other until nothing is left. If a
reader takes exactly the items of a layout (`Parses`), then the loop gives a list of items exactly
if they make up the whole text (`Parses.readAll_ok_iff`), and does not fail with a given error
exactly if they do so up to a text that is refused with another one (`Parses.readAll_ne_error_iff`).
-/

namespace Toft.Lib

open List Except

variable {α β ε : Type}

/-- The items lie in the list, one after the other. -/
def Laid (layout : α → List β → Prop) : List α → List β → Prop
  | [], s => s = []
  | x :: xs, s => ∃ piece rest, s = piece ++ rest ∧ layout x piece ∧ Laid layout xs rest

/-- Reads items up to the end of the list. -/
def readAll (read : List β → Except ε (α × List β)) (unended : ε) :
    Nat → List β → Except ε (List α)
  | _, [] => .ok []
  | 0, _ :: _ => .error unended
  | fuel + 1, c :: s =>
    match read (c :: s) with
    | .error e => .error e
    | .ok (x, rest) =>
      match readAll read unended fuel rest with
      | .error e => .error e
      | .ok xs => .ok (x :: xs)

theorem readAll_nil (read : List β → Except ε (α × List β)) (unended : ε) (fuel : Nat) :
    readAll read unended fuel [] = .ok [] := by
  cases fuel <;> rfl

theorem readAll_cons (read : List β → Except ε (α × List β)) (unended : ε) (fuel : Nat) (c : β)
    (s : List β) :
    readAll read unended (fuel + 1) (c :: s) = (do
      let (x, rest) ← read (c :: s)
      let xs ← readAll read unended fuel rest
      return x :: xs) := by
  rw [readAll]
  cases read (c :: s) with
  | error e => rfl
  | ok item =>
    obtain ⟨x, rest⟩ := item
    simp only [bind, Except.bind, pure, Except.pure]
    cases readAll read unended fuel rest <;> rfl

/-- `read` takes an item from the front of a text exactly if the text starts with its layout. -/
structure Parses (read : List β → Except ε (α × List β)) (layout : α → List β → Prop) : Prop where
  ne_nil : ∀ {x piece}, layout x piece → piece ≠ []
  read_iff : ∀ {s x rest}, read s = .ok (x, rest) ↔ ∃ piece, s = piece ++ rest ∧ layout x piece

/-- The text is made of items up to its end, or up to a text that is refused. -/
def LaidUpTo (layout : α → List β → Prop) (refused : List β → Prop) (s : List β) : Prop :=
  ∃ xs front rest, s = front ++ rest ∧ Laid layout xs front ∧ (rest = [] ∨ refused rest)

namespace Parses

variable {read : List β → Except ε (α × List β)} {layout : α → List β → Prop} {unended : ε}

section

variable (h : Parses read layout)
include h

variable {s rest : List β}

theorem length_lt {x : α} (hread : read s = .ok (x, rest)) : rest.length < s.length := by
  obtain ⟨piece, rfl, hpiece⟩ := h.read_iff.mp hread
  have := length_pos_of_ne_nil (h.ne_nil hpiece)
  rw [length_append]
  omega

theorem laid_cons_iff {x y : α} (hread : read s = .ok (x, rest)) {ys : List α} :
    Laid layout (y :: ys) s ↔ y = x ∧ Laid layout ys rest := by
  constructor
  · rintro ⟨piece, rest', rfl, hpiece, hlaid⟩
    cases hread.symm.trans (h.read_iff.mpr ⟨piece, rfl, hpiece⟩)
    exact ⟨rfl, hlaid⟩
  · rintro ⟨rfl, hlaid⟩
    obtain ⟨piece, rfl, hpiece⟩ := h.read_iff.mp hread
    exact ⟨piece, rest, rfl, hpiece, hlaid⟩

theorem laid_nil_iff {xs : List α} : Laid layout xs [] ↔ xs = [] := by
  cases xs with
  | nil => simp [Laid]
  | cons x xs =>
    simp only [reduceCtorEq, iff_false]
    rintro ⟨piece, rest, hnil, hpiece, -⟩
    exact h.ne_nil hpiece (append_eq_nil_iff.mp hnil.symm).1

theorem not_laid_cons {front rest : List β} {e : ε}
    (hread : read (front ++ rest) = .error e) {x : α} {xs : List α} :
    ¬ Laid layout (x :: xs) front := by
  rintro ⟨piece, rest', rfl, hpiece, -⟩
  rw [append_assoc] at hread
  cases hread.symm.trans (h.read_iff.mpr ⟨piece, rfl, hpiece⟩)

theorem readAll_ok_iff {fuel : Nat} {s : List β} (hfuel : s.length ≤ fuel)
    {xs : List α} : readAll read unended fuel s = .ok xs ↔ Laid layout xs s := by
  induction fuel generalizing s xs with
  | zero =>
    obtain rfl := length_eq_zero_iff.mp (Nat.le_zero.mp hfuel)
    rw [readAll_nil, h.laid_nil_iff, ok.injEq, eq_comm]
  | succ fuel ih =>
    cases s with
    | nil => rw [readAll_nil, h.laid_nil_iff, ok.injEq, eq_comm]
    | cons c s =>
      rw [readAll]
      cases hread : read (c :: s) with
      | error e =>
        cases xs with
        | nil => simp [Laid]
        | cons x xs =>
          simp only [reduceCtorEq, false_iff]
          exact @not_laid_cons _ _ _ _ _ h (c :: s) [] e (by rwa [append_nil]) x xs
      | ok item =>
        obtain ⟨x, rest⟩ := item
        have hrest := @ih rest (by have := h.length_lt hread; simp at this hfuel; omega)
        cases xs with
        | nil =>
          dsimp only
          cases readAll read unended fuel rest <;> simp [Laid]
        | cons y ys =>
          rw [h.laid_cons_iff hread, ← hrest]
          dsimp only
          cases readAll read unended fuel rest <;> simp [eq_comm]

variable {refused : List β → Prop}

/-- Behind an item that is read, the text goes on in the same way. -/
theorem laidUpTo_iff {x : α} (hread : read s = .ok (x, rest)) (hs : ¬ refused s) :
    LaidUpTo layout refused s ↔ LaidUpTo layout refused rest := by
  obtain ⟨piece, hpiece, hlayout⟩ := h.read_iff.mp hread
  constructor
  · rintro ⟨xs, front, rest', hfront, hlaid, hend⟩
    cases xs with
    | nil =>
      obtain rfl : front = [] := hlaid
      obtain rfl : s = rest' := hfront
      obtain rfl := hend.resolve_right hs
      exact absurd (append_eq_nil_iff.mp hpiece.symm).1 (h.ne_nil hlayout)
    | cons y ys =>
      obtain ⟨piece', front', rfl, hlayout', hlaid⟩ := hlaid
      rw [append_assoc] at hfront
      cases hread.symm.trans (h.read_iff.mpr ⟨piece', hfront, hlayout'⟩)
      exact ⟨ys, front', rest', rfl, hlaid, hend⟩
  · rintro ⟨xs, front, rest', rfl, hlaid, hend⟩
    exact ⟨x :: xs, piece ++ front, rest', by rw [hpiece, append_assoc],
      ⟨piece, front, rfl, hlayout, hlaid⟩, hend⟩

/-- The loop does not fail with `e` exactly if the text is made of items up to its end, or up to a
text on which the reader fails with something else. -/
theorem readAll_ne_error_iff (unended : ε) {fuel : Nat} {s : List β}
    (hfuel : s.length ≤ fuel) {e : ε}
    (hrefused : ∀ {rest}, (∃ e', e' ≠ e ∧ read rest = .error e') ↔ refused rest) :
    readAll read unended fuel s ≠ .error e ↔ LaidUpTo layout refused s := by
  have hnil (fuel : Nat) : readAll read unended fuel [] ≠ .error e ↔ LaidUpTo layout refused [] :=
    iff_of_true (by simp [readAll_nil]) ⟨[], [], [], rfl, rfl, .inl rfl⟩
  induction fuel generalizing s with
  | zero =>
    obtain rfl := length_eq_zero_iff.mp (Nat.le_zero.mp hfuel)
    exact hnil 0
  | succ fuel ih =>
    cases s with
    | nil => exact hnil _
    | cons c s =>
      rw [readAll]
      cases hread : read (c :: s) with
      | error e' =>
        constructor
        · intro hne
          exact ⟨[], [], c :: s, rfl, rfl,
            .inr (hrefused.mp ⟨e', fun heq => hne (congrArg _ heq), hread⟩)⟩
        · rintro ⟨xs, front, rest, hs, hlaid, hend⟩ heq
          cases xs with
          | nil =>
            obtain rfl : front = [] := hlaid
            obtain rfl : c :: s = rest := hs
            obtain ⟨e'', hne, hfail⟩ := hrefused.mpr (hend.resolve_left (cons_ne_nil c s))
            cases hread.symm.trans hfail
            exact hne (error.inj heq)
          | cons x xs => exact h.not_laid_cons (hs ▸ hread) hlaid
      | ok item =>
        obtain ⟨x, rest⟩ := item
        have hs : ¬ refused (c :: s) := by
          rw [← hrefused]
          rintro ⟨e', -, hfail⟩
          cases hread.symm.trans hfail
        have hlt := h.length_lt hread
        refine .trans ?_ ((ih (by simp at hlt hfuel; omega)).trans (h.laidUpTo_iff hread hs).symm)
        dsimp only
        cases readAll read unended fuel rest <;> simp

end

end Parses

end Toft.Lib

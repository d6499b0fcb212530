import Mathlib.Data.List.Forall2
import Mathlib.Data.List.Sort

/-!
# Interleavings

A merge takes the elements of several lists one by one, each time the first of one of the lists.
-/

namespace Toft.Lib

open List

variable {α : Type}

/-- `ys` has the elements of all lists, those of each list in their order. -/
inductive Interleaves : List (List α) → List α → Prop
  | nil {xss : List (List α)} (h : ∀ xs ∈ xss, xs = []) : Interleaves xss []
  | cons {xss : List (List α)} {i : Nat} {x : α} {xs ys : List α} (h : xss[i]? = some (x :: xs))
      (hrest : Interleaves (xss.set i xs) ys) : Interleaves xss (x :: ys)

variable {x : α}

theorem perm_flatten_set {xss : List (List α)} {i : Nat} {xs : List α}
    (h : xss[i]? = some (x :: xs)) : xss.flatten.Perm (x :: (xss.set i xs).flatten) := by
  obtain ⟨hi, hget⟩ := List.getElem?_eq_some_iff.mp h
  have hsplit : xss.flatten = (xss.take i).flatten ++ x :: (xs ++ (xss.drop (i + 1)).flatten) := by
    conv_lhs => rw [← take_append_drop i xss, drop_eq_getElem_cons hi, hget]
    simp
  rw [hsplit, set_eq_take_append_cons_drop, if_pos hi]
  simp

/-- An interleaving has the elements of its lists. -/
theorem Interleaves.perm {xss : List (List α)} {ys : List α} (h : Interleaves xss ys) :
    ys.Perm xss.flatten := by
  induction h with
  | nil h => rw [flatten_eq_nil_iff.mpr h]
  | cons h _ ih => exact (ih.cons _).trans (perm_flatten_set h).symm

/-- Inserting at the upper bound keeps a list sorted. -/
theorem pairwise_orderedInsert {r lt : α → α → Prop} [DecidableRel lt] {xs : List α}
    (htrans : ∀ {a b c}, r a b → r b c → r a c) (hlt : ∀ y, lt x y → r x y)
    (hnot : ∀ y, ¬ lt x y → r y x) (h : xs.Pairwise r) :
    (xs.orderedInsert lt x).Pairwise r := by
  induction xs with
  | nil => exact pairwise_singleton _ _
  | cons y ys ih =>
    rw [pairwise_cons] at h
    rw [orderedInsert_cons]
    split
    · rename_i hxy
      refine pairwise_cons.mpr ⟨fun z hz => ?_, pairwise_cons.mpr h⟩
      rcases mem_cons.mp hz with rfl | hz
      · exact hlt _ hxy
      · exact htrans (hlt _ hxy) (h.1 z hz)
    · rename_i hxy
      refine pairwise_cons.mpr ⟨fun z hz => ?_, ih h.2⟩
      rcases mem_cons.mp ((perm_orderedInsert lt x ys).mem_iff.mp hz) with rfl | hz
      · exact hnot _ hxy
      · exact h.1 z hz

/-! ## Lists that agree place by place -/

variable {β : Type} {R : α → β → Prop} {xs : List α} {ys : List β}

theorem forall₂_getElem? (h : List.Forall₂ R xs ys) {i : Nat} (hx : xs[i]? = some x) :
    ∃ y, ys[i]? = some y ∧ R x y := by
  obtain ⟨hi, rfl⟩ := List.getElem?_eq_some_iff.mp hx
  have hi' : i < ys.length := h.length_eq ▸ hi
  exact ⟨ys[i], List.getElem?_eq_getElem hi', h.get hi hi'⟩

theorem forall₂_mem_right (h : List.Forall₂ R xs ys) {y : β} (hy : y ∈ ys) : ∃ x ∈ xs, R x y := by
  induction h with
  | nil => cases hy
  | cons hab _ ih =>
    rcases mem_cons.mp hy with rfl | hy
    · exact ⟨_, mem_cons_self, hab⟩
    · obtain ⟨x, hx, hxy⟩ := ih hy
      exact ⟨x, mem_cons_of_mem _ hx, hxy⟩

theorem exists_forall₂ (h : ∀ x ∈ xs, ∃ y, R x y) : ∃ ys, List.Forall₂ R xs ys := by
  induction xs with
  | nil => exact ⟨[], .nil⟩
  | cons x xs ih =>
    obtain ⟨y, hy⟩ := h x mem_cons_self
    obtain ⟨ys, hys⟩ := ih fun x hx => h x (mem_cons_of_mem _ hx)
    exact ⟨y :: ys, .cons hy hys⟩

theorem forall₂_set (h : List.Forall₂ R xs ys) {i : Nat} {y : β} (hx : xs[i]? = some x)
    (hy : R x y) : List.Forall₂ R xs (ys.set i y) := by
  induction h generalizing i with
  | nil => cases hx
  | cons hab _ ih =>
    cases i with
    | zero =>
      cases hx
      exact .cons hy ‹_›
    | succ i => exact .cons hab (ih hx)

end Toft.Lib

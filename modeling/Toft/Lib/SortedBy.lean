import Mathlib.Data.List.Sort

/-!
# Lists sorted by a key

`IsStableSort` determines the result of a stable sort: the elements in nondecreasing order of their
keys, those with the same key in the order they had. In a sorted list a search for a key ends at the
first element that is not smaller, which is the rest `dropWhile` leaves.
-/

namespace Toft.Lib

open List

variable {α κ : Type} [LE κ] {key : α → κ}

/-- The keys do not descend. -/
def SortedBy (key : α → κ) (xs : List α) : Prop := xs.Pairwise fun x y => key x ≤ key y

/-- `ys` is `xs` sorted by key, and elements with the same key keep their order. -/
structure IsStableSort [DecidableEq κ] (key : α → κ) (xs ys : List α) : Prop where
  sorted : SortedBy key ys
  stable : ∀ k, (ys.filter fun x => key x = k) = xs.filter fun x => key x = k

/-- Elements with one key stay in their order. -/
def stableSort [DecidableLE κ] (key : α → κ) (xs : List α) : List α :=
  xs.insertionSort fun x y => key x ≤ key y

theorem stableSort_perm [DecidableLE κ] (key : α → κ) (xs : List α) : (stableSort key xs).Perm xs :=
  perm_insertionSort _ xs

theorem SortedBy.stableSort_eq [DecidableLE κ] {xs : List α} (h : SortedBy key xs) :
    stableSort key xs = xs :=
  List.Pairwise.insertionSort_eq h

/-- A stable sort does not change which element with a key is the first. -/
theorem IsStableSort.find?_eq [DecidableEq κ] {xs ys : List α} (h : IsStableSort key xs ys)
    (k : κ) : (ys.find? fun x => key x = k) = xs.find? fun x => key x = k := by
  rw [← head?_filter, h.stable, head?_filter]

section Linear

variable [Std.IsLinearOrder κ]

theorem sortedBy_stableSort [DecidableLE κ] (key : α → κ) (xs : List α) :
    SortedBy key (stableSort key xs) := by
  exact pairwise_insertionSort _ xs

/-- The elements with a given key form a sorted sublist, which the sort keeps; nothing else has
that key, since the result is a permutation. -/
theorem isStableSort_stableSort [DecidableLE κ] [DecidableEq κ] (key : α → κ) (xs : List α) :
    IsStableSort key xs (stableSort key xs) := by
  refine ⟨sortedBy_stableSort key xs, fun k => ?_⟩
  have hsorted : (xs.filter fun x => key x = k).Pairwise fun x y => key x ≤ key y := by
    apply pairwise_of_forall_mem_list
    intro x hx y hy
    simp only [mem_filter, decide_eq_true_eq] at hx hy
    rw [hx.2, hy.2]
    exact Std.le_refl k
  have hsub := (sublist_insertionSort hsorted filter_sublist).filter fun x => key x = k
  rw [filter_filter] at hsub
  simp only [Bool.and_self] at hsub
  have hlen := ((stableSort_perm key xs).filter fun x => key x = k).length_eq
  exact (hsub.eq_of_length hlen.symm).symm

theorem SortedBy.dropWhile_eq_filter [LT κ] [Std.LawfulOrderLT κ] [DecidableLE κ] [DecidableLT κ]
    {xs : List α}
    (h : SortedBy key xs) (k : κ) :
    (xs.dropWhile fun x => key x < k) = xs.filter fun x => k ≤ key x := by
  induction xs with
  | nil => rfl
  | cons y ys ih =>
    rw [dropWhile_cons]
    split
    · rename_i hy
      have hk : ¬ k ≤ key y := Std.not_le.mpr (by simpa using hy)
      rw [ih h.of_cons, filter_cons_of_neg (by simpa using hk)]
    · rename_i hy
      have hk : k ≤ key y := Std.not_lt.mp (by simpa using hy)
      symm
      rw [filter_eq_self]
      intro x hx
      rcases mem_cons.mp hx with rfl | hx
      · simpa using hk
      · simpa using Std.le_trans hk (rel_of_pairwise_cons h hx)

/-- The first element with key `k` is the first one that is not smaller, if that has key `k`. -/
theorem SortedBy.find?_eq [LT κ] [Std.LawfulOrderLT κ] [DecidableEq κ] [DecidableLT κ]
    {xs : List α} (h : SortedBy key xs) (k : κ) :
    (xs.find? fun x => key x = k) =
      (xs.dropWhile fun x => key x < k).head?.filter fun x => key x = k := by
  induction xs with
  | nil => rfl
  | cons y ys ih =>
    rw [dropWhile_cons]
    split
    · rename_i hy
      have hne : ¬ key y = k := Std.ne_of_lt (by simpa using hy)
      rw [find?_cons_of_neg (by simpa using hne), ih h.of_cons]
    · rename_i hy
      have hk : k ≤ key y := Std.not_lt.mp (by simpa using hy)
      by_cases heq : key y = k
      · simp [heq, Option.filter]
      · have hnone : (ys.find? fun x => key x = k) = none := by
          rw [find?_eq_none]
          intro x hx hxk
          have hle := rel_of_pairwise_cons h hx
          rw [show key x = k by simpa using hxk] at hle
          exact heq (Std.le_antisymm hle hk)
        rw [find?_cons_of_neg (by simpa using heq), hnone]
        simp [heq, Option.filter]

end Linear

end Toft.Lib

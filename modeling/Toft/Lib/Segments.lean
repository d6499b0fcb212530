import Mathlib.Data.List.Basic

/-!
# Texts cut at a separator

A text is its first segment and then, behind one separator each, the others (`cut`). Segments
without the separator and texts correspond to each other (`append_behind`, `cut_append`).
-/

namespace Toft.Lib.Segments

open List

variable {α : Type} [DecidableEq α] {sep : α}

/-- The segments, each behind a separator. -/
def behind (sep : α) (segments : List (List α)) : List α := segments.flatMap (sep :: ·)

/-- The text in front of the first separator, and the segments behind. -/
def cut (sep : α) : List α → List α × List (List α)
  | [] => ([], [])
  | c :: s =>
    let (first, others) := cut sep s
    if c = sep then ([], first :: others) else (c :: first, others)

/-- No segment has a separator in it. -/
def Free (sep : α) (segments : List (List α)) : Prop := ∀ segment ∈ segments, sep ∉ segment

omit [DecidableEq α] in
@[simp] theorem behind_nil : behind sep [] = [] := rfl

omit [DecidableEq α] in
@[simp] theorem behind_cons (segment : List α) (segments : List (List α)) :
    behind sep (segment :: segments) = sep :: (segment ++ behind sep segments) := rfl

omit [DecidableEq α] in
theorem behind_append (xs ys : List (List α)) :
    behind sep (xs ++ ys) = behind sep xs ++ behind sep ys := flatMap_append

/-- Cutting loses nothing. -/
theorem append_behind (s : List α) : (cut sep s).1 ++ behind sep (cut sep s).2 = s := by
  induction s with
  | nil => rfl
  | cons c s ih =>
    simp only [cut]
    split
    · rename_i hc
      rw [nil_append, behind_cons, ih, hc]
    · rw [cons_append, ih]

theorem cut_free (s : List α) : sep ∉ (cut sep s).1 ∧ Free sep (cut sep s).2 := by
  induction s with
  | nil => exact ⟨not_mem_nil, fun _ h => absurd h not_mem_nil⟩
  | cons c s ih =>
    obtain ⟨hfirst, hothers⟩ := ih
    simp only [cut]
    split
    · exact ⟨not_mem_nil, forall_mem_cons.mpr ⟨hfirst, hothers⟩⟩
    · rename_i hc
      exact ⟨not_mem_cons_of_ne_of_not_mem (Ne.symm hc) hfirst, hothers⟩

theorem cut_sep (s : List α) : cut sep (sep :: s) = ([], (cut sep s).1 :: (cut sep s).2) :=
  if_pos rfl

variable {first : List α}

theorem cut_free_append (h : sep ∉ first) (s : List α) :
    cut sep (first ++ s) = (first ++ (cut sep s).1, (cut sep s).2) := by
  induction first with
  | nil => rfl
  | cons c first ih =>
    have hc : c ≠ sep := fun hc => h (hc ▸ mem_cons_self)
    rw [cons_append, cut, ih (fun hmem => h (mem_cons_of_mem c hmem))]
    exact if_neg hc

variable {others : List (List α)}

/-- Segments without separators come back. -/
theorem cut_append (hfirst : sep ∉ first)
    (hothers : Free sep others) : cut sep (first ++ behind sep others) = (first, others) := by
  induction others generalizing first with
  | nil => rw [cut_free_append hfirst, behind_nil, cut, append_nil]
  | cons segment others ih =>
    obtain ⟨hsegment, hothers⟩ := forall_mem_cons.mp hothers
    rw [cut_free_append hfirst, behind_cons, cut_sep, ih hsegment hothers, append_nil]

omit [DecidableEq α] in
theorem findIdx?_sep [BEq α] [LawfulBEq α] (h : sep ∉ first) (s : List α) :
    (first ++ sep :: s).findIdx? (· == sep) = some first.length := by
  have hnone : first.findIdx? (· == sep) = none := by
    rw [List.findIdx?_eq_none_iff]
    intro c hc
    exact beq_false_of_ne fun heq => h (heq ▸ hc)
  rw [List.findIdx?_append, hnone]
  simp [List.findIdx?_cons]

theorem append_behind_inj {first first' : List α} {others others' : List (List α)}
    (hfirst : sep ∉ first) (hothers : Free sep others) (hfirst' : sep ∉ first')
    (hothers' : Free sep others')
    (h : first ++ behind sep others = first' ++ behind sep others') :
    first = first' ∧ others = others' := by
  have hcut := congrArg (cut sep) h
  rw [cut_append hfirst hothers, cut_append hfirst' hothers'] at hcut
  exact Prod.mk.inj hcut

theorem append_behind_eq_iff {w first : List α} (hw : sep ∉ w)
    (hfirst : sep ∉ first) (hothers : Free sep others) :
    first ++ behind sep others = w ↔ first = w ∧ others = [] := by
  constructor
  · intro h
    exact append_behind_inj hfirst hothers hw (fun _ hmem => absurd hmem not_mem_nil)
      (h.trans (append_nil w).symm)
  · rintro ⟨rfl, rfl⟩
    exact append_nil _

theorem append_sep_prefix_iff {w first : List α} (hw : sep ∉ w)
    (hfirst : sep ∉ first) (hothers : Free sep others) :
    w ++ [sep] <+: first ++ behind sep others ↔ first = w ∧ others ≠ [] := by
  constructor
  · rintro ⟨t, ht⟩
    have hcut := congrArg (cut sep) ht
    rw [cut_append hfirst hothers, append_assoc, cut_free_append hw, singleton_append,
      cut_sep, append_nil] at hcut
    cases hcut
    exact ⟨rfl, cons_ne_nil _ _⟩
  · rintro ⟨rfl, hne⟩
    obtain ⟨segment, others, rfl⟩ := exists_cons_of_ne_nil hne
    refine ⟨segment ++ behind sep others, ?_⟩
    rw [append_assoc, singleton_append, behind_cons]

/-! ## All segments -/

/-- The text cut at the separators. -/
def segments (sep : α) (s : List α) : List (List α) := (cut sep s).1 :: (cut sep s).2

theorem free_segments (s : List α) : Free sep (segments sep s) := forall_mem_cons.mpr (cut_free s)

theorem segments_append_behind (hfirst : sep ∉ first)
    (hothers : Free sep others) : segments sep (first ++ behind sep others) = first :: others := by
  rw [segments, cut_append hfirst hothers]

/-- A separator stands between the segments in front of it and those behind it. -/
theorem segments_append_sep (s t : List α) :
    segments sep (s ++ sep :: t) = segments sep s ++ segments sep t := by
  obtain ⟨hfirst, hothers⟩ := @cut_free _ _ sep s
  have htext : s ++ sep :: t =
      (cut sep s).1 ++ behind sep ((cut sep s).2 ++ (cut sep t).1 :: (cut sep t).2) := by
    rw [behind_append, behind_cons, append_behind, ← append_assoc, append_behind]
  rw [htext, segments_append_behind hfirst]
  · rfl
  · intro segment hmem
    rcases mem_append.mp hmem with hmem | hmem
    · exact hothers segment hmem
    · exact free_segments t segment hmem

end Toft.Lib.Segments

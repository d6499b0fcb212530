import Mathlib.Data.Finset.Card
import Mathlib.Data.List.TakeWhile
import Toft.Lib.SortedBy

/-!
# Lists grouped by key

A list of pairs in order of the keys can be kept as a list of groups, one for each key. What lies
behind the smaller keys is then a rest of the list of groups (`Grouped.dropWhile_ungroup`).
-/

namespace Toft.Lib

open List

variable {K V : Type}

/-- Each value with the key of its group. -/
def ungroup (groups : List (K × List V)) : List (K × V) :=
  groups.flatMap fun g => g.2.map fun v => (g.1, v)

@[simp] theorem ungroup_nil : ungroup ([] : List (K × List V)) = [] := rfl

theorem ungroup_cons (g : K × List V) (groups : List (K × List V)) :
    ungroup (g :: groups) = g.2.map (fun v => (g.1, v)) ++ ungroup groups :=
  flatMap_cons

theorem ungroup_append (xs ys : List (K × List V)) :
    ungroup (xs ++ ys) = ungroup xs ++ ungroup ys :=
  flatMap_append

theorem length_le_ungroup {groups : List (K × List V)} {g : K × List V} (hg : g ∈ groups) :
    g.2.length ≤ (ungroup groups).length := by
  obtain ⟨front, back, rfl⟩ := append_of_mem hg
  rw [ungroup_append, ungroup_cons, length_append, length_append, length_map]
  omega

/-- Every key has one group, the groups are in order, and none is empty. -/
structure Grouped [LT K] (groups : List (K × List V)) : Prop where
  keys : groups.Pairwise fun g h => g.1 < h.1
  ne_nil : ∀ g ∈ groups, g.2 ≠ []

namespace Grouped

section

variable [LT K] {groups : List (K × List V)} {g : K × List V}

theorem of_cons (h : Grouped (g :: groups)) : Grouped groups :=
  ⟨h.keys.of_cons, fun g hg => h.ne_nil g (mem_cons_of_mem _ hg)⟩

theorem mem_ungroup_of_mem (h : Grouped groups) (hg : g ∈ groups) :
    ∃ v, (g.1, v) ∈ ungroup groups := by
  obtain ⟨v, vs, hvs⟩ := exists_cons_of_ne_nil (h.ne_nil g hg)
  exact ⟨v, mem_flatMap.mpr ⟨g, hg, by simp [hvs]⟩⟩

theorem extend {key : K} {values : List V} (h : Grouped (groups ++ [(key, values)])) (v : V) :
    Grouped (groups ++ [(key, values ++ [v])]) := by
  obtain ⟨hkeys, hne⟩ := h
  constructor
  · simpa [pairwise_append] using hkeys
  · intro g hg
    rw [mem_append, mem_singleton] at hg
    rcases hg with hg | rfl
    · exact hne g (mem_append_left _ hg)
    · simp

section

variable (h : Grouped groups)
include h

/-- What is left of the groups gets less with every group. -/
theorem length_ungroup_drop_succ_lt {i : Nat} (hi : i < groups.length) :
    (ungroup (groups.drop (i + 1))).length < (ungroup (groups.drop i)).length := by
  have hpos := length_pos_iff.mpr (h.ne_nil _ (getElem_mem hi))
  rw [drop_eq_getElem_cons hi, ungroup_cons, length_append, length_map]
  omega

theorem length_ungroup_drop_lt {i j : Nat} (hij : i < j) (hj : j ≤ groups.length) :
    (ungroup (groups.drop j)).length < (ungroup (groups.drop i)).length := by
  induction hij with
  | refl => exact h.length_ungroup_drop_succ_lt hj
  | step _ ih => exact (h.length_ungroup_drop_succ_lt hj).trans (ih (Nat.le_of_succ_le hj))

theorem length_le : groups.length ≤ (ungroup groups).length := by
  induction groups with
  | nil => exact Nat.zero_le _
  | cons g groups ih =>
    have hpos := length_pos_iff.mpr (h.ne_nil g mem_cons_self)
    have hle := ih h.of_cons
    rw [ungroup_cons, length_append, length_map, length_cons]
    omega

theorem ungroup_drop_inj {i j : Nat} (hi : i ≤ groups.length)
    (hj : j ≤ groups.length) : ungroup (groups.drop i) = ungroup (groups.drop j) ↔ i = j := by
  refine ⟨fun heq => ?_, fun heq => by rw [heq]⟩
  have hlen := congrArg List.length heq
  rcases Nat.lt_trichotomy i j with hlt | hij | hlt
  · have := h.length_ungroup_drop_lt hlt hj
    omega
  · exact hij
  · have := h.length_ungroup_drop_lt hlt hi
    omega

/-- Dropping smaller keys drops whole groups. -/
theorem dropWhile_ungroup [DecidableLT K] (k : K) :
    ((ungroup groups).dropWhile fun x => x.1 < k) =
      ungroup (groups.drop ((groups.map Prod.fst).takeWhile (· < k)).length) := by
  induction groups with
  | nil => rfl
  | cons g groups ih =>
    rw [ungroup_cons, map_cons]
    by_cases hg : g.1 < k
    · rw [dropWhile_append_of_pos (by simp [hg]),
        takeWhile_cons_of_pos (by simpa using hg), ih h.of_cons]
      rfl
    · obtain ⟨v, vs, hvs⟩ := exists_cons_of_ne_nil (h.ne_nil g mem_cons_self)
      rw [takeWhile_cons_of_neg (by simpa using hg), length_nil, drop_zero,
        ungroup_cons, hvs, map_cons, cons_append,
        dropWhile_cons_of_neg (by simpa using hg)]

theorem mem_keys_iff (k : K) : k ∈ groups.map Prod.fst ↔ k ∈ (ungroup groups).map Prod.fst := by
  simp only [mem_map]
  constructor
  · rintro ⟨g, hg, rfl⟩
    obtain ⟨v, hv⟩ := h.mem_ungroup_of_mem hg
    exact ⟨_, hv, rfl⟩
  · rintro ⟨x, hx, rfl⟩
    obtain ⟨g, hg, hxg⟩ := mem_flatMap.mp hx
    obtain ⟨v, -, rfl⟩ := mem_map.mp hxg
    exact ⟨g, hg, rfl⟩

theorem toFinset_keys [DecidableEq K] :
    ((ungroup groups).map Prod.fst).toFinset = (groups.map Prod.fst).toFinset := by
  ext k
  rw [mem_toFinset, mem_toFinset, h.mem_keys_iff]

end

end

variable [LE K] [LT K] [Std.IsLinearOrder K] [Std.LawfulOrderLT K] {groups : List (K × List V)}

theorem snoc {last : K} {values : List V} (h : Grouped (groups ++ [(last, values)])) {key : K}
    (hlt : last < key) (v : V) : Grouped (groups ++ [(last, values)] ++ [(key, [v])]) := by
  obtain ⟨hkeys, hne⟩ := h
  constructor
  · rw [pairwise_append] at hkeys ⊢
    refine ⟨pairwise_append.mpr hkeys, pairwise_singleton _ _, ?_⟩
    intro g hg g' hg'
    rw [mem_singleton] at hg'
    subst hg'
    rw [mem_append, mem_singleton] at hg
    rcases hg with hg | rfl
    · exact Std.lt_trans (hkeys.2.2 g hg _ (mem_singleton_self _)) hlt
    · exact hlt
  · intro g hg
    rw [mem_append, mem_singleton] at hg
    rcases hg with hg | rfl
    · exact hne g hg
    · simp

omit [Std.IsLinearOrder K] in
theorem nodup_keys (h : Grouped groups) : (groups.map Prod.fst).Nodup :=
  pairwise_map.mpr (h.keys.imp fun hlt heq => absurd (heq ▸ hlt) Std.lt_irrefl)

omit [Std.IsLinearOrder K] in
theorem card_keys [DecidableEq K] (h : Grouped groups) :
    ((ungroup groups).map Prod.fst).toFinset.card = groups.length := by
  rw [h.toFinset_keys, toFinset_card_of_nodup h.nodup_keys, length_map]

theorem mem_takeWhile_keys [DecidableLE K] [DecidableLT K] (h : Grouped groups) (k x : K) :
    x ∈ (groups.map Prod.fst).takeWhile (· < k) ↔ x ∈ groups.map Prod.fst ∧ x < k := by
  have hsorted : SortedBy id (groups.map Prod.fst) :=
    pairwise_map.mpr (h.keys.imp fun hlt => Std.le_of_lt hlt)
  constructor
  · intro hx
    exact ⟨(takeWhile_sublist _).subset hx, by simpa using mem_takeWhile_imp hx⟩
  · rintro ⟨hx, hlt⟩
    rw [← takeWhile_append_dropWhile (p := fun y => decide (y < k))
      (l := groups.map Prod.fst), mem_append] at hx
    rcases hx with hx | hx
    · exact hx
    · have hge : k ≤ x := by
        rw [show (fun y : K => decide (y < k)) = fun y => decide (id y < k) from rfl,
          hsorted.dropWhile_eq_filter, mem_filter] at hx
        simpa using hx.2
      exact absurd hlt (Std.not_lt.mpr hge)

theorem card_keys_lt [DecidableEq K] [DecidableLE K] [DecidableLT K] (h : Grouped groups) (k : K) :
    (((ungroup groups).map Prod.fst).toFinset.filter (· < k)).card =
      ((groups.map Prod.fst).takeWhile (· < k)).length := by
  have hset : ((ungroup groups).map Prod.fst).toFinset.filter (· < k) =
      ((groups.map Prod.fst).takeWhile (· < k)).toFinset := by
    ext x
    rw [h.toFinset_keys, Finset.mem_filter, mem_toFinset, mem_toFinset, h.mem_takeWhile_keys]
  rw [hset, toFinset_card_of_nodup (h.nodup_keys.sublist (takeWhile_sublist _))]

end Grouped

end Toft.Lib

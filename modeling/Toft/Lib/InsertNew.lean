import Mathlib.Data.List.Sort

/-!
# Maps filled from a list

`std::map::insert` leaves an entry that is there alone, so a map that it fills has for each key the
first value that the list has; a map that is filled by assignments has the last one.
-/

namespace Toft.Lib

open Std.TreeMap Option

variable {K V : Type} [Ord K] [Std.TransOrd K] [Std.LawfulEqOrd K] [DecidableEq K]

theorem getElem?_foldl_insertIfNew (m : Std.TreeMap K V) (xs : List (K × V)) (k : K) :
    (xs.foldl (fun m x => m.insertIfNew x.1 x.2) m)[k]? =
      m[k]?.or ((xs.find? fun x => x.1 = k).map Prod.snd) := by
  induction xs generalizing m with
  | nil => simp
  | cons x xs ih =>
    rw [List.foldl_cons, ih, getElem?_insertIfNew]
    by_cases hk : x.1 = k
    · subst hk
      by_cases hmem : x.1 ∈ m
      · simp [hmem]
      · simp [hmem]
    · have hne : ¬ compare x.1 k = .eq := fun h => hk (Std.LawfulEqOrd.eq_of_compare h)
      simp [hk, hne]

/-- A map filled from a list. -/
def insertNew (xs : List (K × V)) : Std.TreeMap K V :=
  xs.foldl (fun m x => m.insertIfNew x.1 x.2) ∅

/-- The first value for a key is kept. -/
theorem getElem?_insertNew (xs : List (K × V)) (k : K) :
    (insertNew xs)[k]? = (xs.find? fun x => x.1 = k).map Prod.snd := by
  simpa [insertNew] using getElem?_foldl_insertIfNew ∅ xs k

theorem find?_toList (m : Std.TreeMap K V) (k : K) :
    (m.toList.find? fun x => x.1 = k).map Prod.snd = m[k]? := by
  cases hfind : m.toList.find? fun x => x.1 = k with
  | none =>
    symm
    rw [map_none, eq_none_iff_forall_ne_some]
    intro v hv
    have hmem := mem_toList_iff_getElem?_eq_some.mpr hv
    simpa using List.find?_eq_none.mp hfind _ hmem
  | some x =>
    have hkey : x.1 = k := by simpa using List.find?_some hfind
    have hmem : (x.1, x.2) ∈ m.toList := List.mem_of_find?_eq_some hfind
    rw [mem_toList_iff_getElem?_eq_some, hkey] at hmem
    exact hmem.symm

theorem find?_toList_insertNew (xs : List (K × V)) (k : K) :
    ((insertNew xs).toList.find? fun x => x.1 = k).map Prod.snd =
      (xs.find? fun x => x.1 = k).map Prod.snd := by
  rw [find?_toList, getElem?_insertNew]

theorem toList_insertNew_toList (m : Std.TreeMap K V) : (insertNew m.toList).toList = m.toList := by
  refine (Std.TreeMap.Equiv.of_forall_constGet?_eq fun k => ?_).toList_eq
  rw [getElem?_insertNew, find?_toList]

theorem mem_of_mem_insertNew {xs : List (K × V)} {x : K × V} (h : x ∈ (insertNew xs).toList) :
    x ∈ xs := by
  have hget := getElem?_insertNew xs x.1
  rw [mem_toList_iff_getElem?_eq_some.mp h] at hget
  obtain ⟨found, hfind, hvalue⟩ := map_eq_some_iff.mp hget.symm
  have hkey : found.1 = x.1 := by simpa using List.find?_some hfind
  have hx : found = x := Prod.ext hkey hvalue
  exact hx ▸ List.mem_of_find?_eq_some hfind

/-- A map filled by assignments, so with the last value for each key. -/
def assignAll (m : Std.TreeMap K V) (xs : List (K × V)) : Std.TreeMap K V :=
  xs.foldl (fun m x => m.insert x.1 x.2) m

omit [DecidableEq K] in
theorem mem_of_mem_assignAll {m : Std.TreeMap K V} {xs : List (K × V)} {x : K × V}
    (h : x ∈ (assignAll m xs).toList) : x ∈ m.toList ∨ x ∈ xs := by
  induction xs generalizing m with
  | nil => exact .inl h
  | cons y xs ih =>
    rcases ih h with hmem | hmem
    · rw [mem_toList_iff_getElem?_eq_some, getElem?_insert] at hmem
      split at hmem
      · rename_i heq
        refine .inr (List.mem_cons.mpr (.inl (Prod.ext ?_ (some.inj hmem).symm)))
        exact (Std.LawfulEqOrd.eq_of_compare heq).symm
      · exact .inl (mem_toList_iff_getElem?_eq_some.mpr hmem)
    · exact .inr (List.mem_cons_of_mem _ hmem)

end Toft.Lib

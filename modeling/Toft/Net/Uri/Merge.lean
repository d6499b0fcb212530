import Toft.Net.Uri.Accepted
import Toft.Net.Uri.DotSegments

/-!
# Merging a reference with a base

`URI::Merge` puts a reference and a base together into a new object (`merge_of_keepsScheme` and the
lemmas after it say what becomes of each member). The object is of the grammar, so its text is
parsed back as the object exactly if it has an authority or no path (`mergesFaithfully_iff`).
-/

namespace Toft

open Lib Lib.Scanner Lib.Segments UriGrammar List Bool

namespace URI

def setAuthority (u : URI) (value : UriAuthority) : URI :=
  { u with hasAuthority := true, authority := value }

def mergePath (baseHasAuthority : Bool) (basePath path : Bytes) : Bytes :=
  if baseHasAuthority && basePath.isEmpty then slash :: path
  else
    match findLastOf slash basePath with
    | some pos => basePath.take (pos + 1) ++ path
    | none => path

/-- `URI::Merge`: the return value and the object after it. -/
def merge (self base : URI) (strict : Bool) : Bool × URI :=
  let schemeUndefined := !strict && self.scheme == base.scheme
  let result : URI :=
    if !schemeUndefined && !self.scheme.isEmpty then
      let result := ({} : URI).setScheme self.scheme
      let result := if self.hasAuthority then result.setAuthority self.authority else result
      let result := result.setPath (removeDotSegments self.path)
      if self.hasQuery then result.setQuery self.query else result
    else
      let result :=
        if self.hasAuthority then
          let result := ({} : URI).setAuthority self.authority
          let result := result.setPath (removeDotSegments self.path)
          if self.hasQuery then result.setQuery self.query else result
        else
          let result :=
            if self.path.isEmpty then
              let result := ({} : URI).setPath base.path
              if self.hasQuery then result.setQuery self.query
              else if base.hasQuery then result.setQuery base.query else result
            else
              let path :=
                if self.path.head? = some slash then removeDotSegments self.path
                else removeDotSegments (mergePath base.hasAuthority base.path self.path)
              let result := ({} : URI).setPath path
              if self.hasQuery then result.setQuery self.query else result
          if base.hasAuthority then result.setAuthority base.authority else result
      result.setScheme base.scheme
  (true, if self.hasFragment then result.setFragment self.fragment else result)

/-! ## The members of the merged object -/

section Members

variable {self base : URI} {strict : Bool}

def keepsScheme (self base : URI) (strict : Bool) : Bool :=
  !(!strict && self.scheme == base.scheme) && !self.scheme.isEmpty

theorem merge_of_keepsScheme (hself : self.WellFormed) (h : keepsScheme self base strict = true) :
    merge self base strict = (true, { self with path := removeDotSegments self.path }) := by
  unfold keepsScheme at h
  simp only [merge, h, if_true]
  cases hauth : self.hasAuthority <;> cases hquery : self.hasQuery <;>
    cases hfragment : self.hasFragment <;>
    simp [setScheme, setAuthority, setPath, setQuery, setFragment, hself.noAuthority,
      hself.noQuery, hself.noFragment, *]

theorem merge_of_hasAuthority (hself : self.WellFormed) (h : keepsScheme self base strict = false)
    (hauth : self.hasAuthority = true) :
    merge self base strict =
      (true, { self with scheme := base.scheme, path := removeDotSegments self.path }) := by
  unfold keepsScheme at h
  simp only [merge, h, hauth, false_eq_true, if_false, if_true]
  cases hquery : self.hasQuery <;> cases hfragment : self.hasFragment <;>
    simp [setScheme, setAuthority, setPath, setQuery, setFragment, hself.noQuery,
      hself.noFragment, *]

/-- A reference without path takes the base and its own query and fragment. -/
theorem merge_of_path_nil (hself : self.WellFormed) (hbase : base.WellFormed)
    (h : keepsScheme self base strict = false) (hauth : self.hasAuthority = false)
    (hpath : self.path = []) :
    merge self base strict =
      (true, { base with
        hasQuery := self.hasQuery || base.hasQuery
        query := if self.hasQuery then self.query else base.query
        hasFragment := self.hasFragment
        fragment := self.fragment }) := by
  unfold keepsScheme at h
  simp only [merge, h, hauth, hpath, isEmpty_nil, false_eq_true, if_false, if_true]
  cases hbauth : base.hasAuthority <;> cases hquery : self.hasQuery <;>
    cases hbquery : base.hasQuery <;> cases hfragment : self.hasFragment <;>
    simp [setScheme, setAuthority, setPath, setQuery, setFragment, hbase.noAuthority,
      hbase.noQuery, hself.noFragment, *]

/-- The path of the merged object when the reference has one. -/
def targetPath (self base : URI) : Bytes :=
  if self.path.head? = some slash then removeDotSegments self.path
  else removeDotSegments (mergePath base.hasAuthority base.path self.path)

theorem merge_of_path_ne_nil (hself : self.WellFormed) (hbase : base.WellFormed)
    (h : keepsScheme self base strict = false) (hauth : self.hasAuthority = false)
    (hpath : self.path ≠ []) :
    merge self base strict =
      (true, { self with
        scheme := base.scheme
        hasAuthority := base.hasAuthority
        authority := base.authority
        path := targetPath self base }) := by
  unfold keepsScheme at h
  simp only [merge, h, hauth, isEmpty_eq_false_iff.mpr hpath, false_eq_true, if_false,
    targetPath]
  cases hbauth : base.hasAuthority <;> cases hquery : self.hasQuery <;>
    cases hfragment : self.hasFragment <;>
    simp [setScheme, setAuthority, setPath, setQuery, setFragment, hbase.noAuthority,
      hself.noQuery, hself.noFragment, *]

end Members

/-! ## Paths stay in the grammar -/

theorem cut_path {first : Bytes} {segments : List Bytes} (hfirst : IsSegment first)
    (hsegments : ∀ segment ∈ segments, IsSegment segment) :
    cut slash (first ++ behind slash segments) = (first, segments) :=
  cut_append hfirst.slash_notMem fun segment hmem => (hsegments segment hmem).slash_notMem

theorem isPath_removeDotSegments {path : Bytes} (h : IsPath path) :
    IsPath (removeDotSegments path) := by
  obtain ⟨first, _, hfirst, ⟨segments, hsegments, rfl⟩, rfl⟩ := h
  rw [removeDotSegments_eq, cut_path hfirst hsegments]
  obtain ⟨hfirst', hsegments'⟩ := strip_forall (P := IsSegment) .nil hfirst hsegments
  exact ⟨_, _, hfirst', ⟨_, walk_forall .nil (fun _ hmem => absurd hmem not_mem_nil)
    fun segment h _ => hsegments' segment h, rfl⟩, rfl⟩

theorem isPathAbempty_removeDotSegments {path : Bytes} (h : IsPathAbempty path) :
    IsPathAbempty (removeDotSegments path) := by
  obtain ⟨segments, hsegments, rfl⟩ := h
  have hstrip : strip [] segments = ([], segments) := by
    cases segments <;> rfl
  have hcut := @cut_path [] _ .nil hsegments
  rw [nil_append] at hcut
  rw [removeDotSegments_eq, hcut, hstrip]
  exact ⟨_, walk_forall .nil (fun _ hmem => absurd hmem not_mem_nil)
    fun segment h _ => hsegments segment h, rfl⟩

/-- Behind an authority a path starts with a slash, so the merged path does. -/
theorem isPathAbempty_mergePath {basePath path : Bytes} (hbase : IsPathAbempty basePath)
    (hpath : IsPath path) : IsPathAbempty (mergePath true basePath path) := by
  obtain ⟨segments, hsegments, rfl⟩ := hbase
  obtain ⟨first, _, hfirst, ⟨rest, hrest, rfl⟩, rfl⟩ := hpath
  rcases eq_nil_or_concat segments with rfl | ⟨segments, last, rfl⟩
  · exact ⟨first :: rest, forall_mem_cons.mpr ⟨hfirst, hrest⟩, rfl⟩
  · rw [concat_eq_append] at hsegments ⊢
    obtain ⟨hsegments, hlast⟩ := forall_mem_append.mp hsegments
    have hslash : slash ∉ last := (hlast last (mem_singleton.mpr rfl)).slash_notMem
    have hbehind : behind slash (segments ++ [last]) = behind slash segments ++ slash :: last := by
      simp [behind_append]
    refine ⟨segments ++ first :: rest,
      forall_mem_append.mpr ⟨hsegments, forall_mem_cons.mpr ⟨hfirst, hrest⟩⟩, ?_⟩
    rw [mergePath, hbehind, findLastOf_append_cons _ hslash]
    simp [behind_append, take_append]

section Merged

variable {self base : URI} {strict : Bool}

/-- Without an authority the base has no path, so the path is that of the reference. -/
theorem targetPath_of_noAuthority (hbase : base.Accepted) (hscheme : base.scheme ≠ [])
    (hauth : base.hasAuthority = false) : targetPath self base = removeDotSegments self.path := by
  rw [targetPath, hbase.rooted hscheme hauth, hauth]
  exact ite_self _

section

variable (hself : self.WellFormed)
include hself

theorem isPath_targetPath (hbase : base.Accepted)
    (hscheme : base.scheme ≠ []) : IsPath (targetPath self base) := by
  unfold targetPath
  split
  · exact isPath_removeDotSegments hself.path
  · refine isPath_removeDotSegments ?_
    cases hauth : base.hasAuthority with
    | true => exact (isPathAbempty_mergePath (hbase.authority hauth).2 hself.path).isPath
    | false =>
      rw [hbase.rooted hscheme hauth]
      exact hself.path

theorem isPathAbempty_targetPath (hbase : base.WellFormed)
    (hauth : base.hasAuthority = true) : IsPathAbempty (targetPath self base) := by
  unfold targetPath
  split
  · rename_i hhead
    -- a path that starts with a slash has an empty first segment
    obtain ⟨first, rest, hfirst, hrest, hpath⟩ := hself.path
    cases first with
    | nil => exact isPathAbempty_removeDotSegments (hpath ▸ hrest)
    | cons c first =>
      rw [hpath] at hhead
      cases hhead
      exact absurd mem_cons_self hfirst.slash_notMem
  · rw [hauth]
    exact isPathAbempty_removeDotSegments
      (isPathAbempty_mergePath (hbase.authority hauth).2 hself.path)

theorem WellFormed.removeDotSegments :
    { self with path := URI.removeDotSegments self.path }.WellFormed :=
  { hself with
    path := isPath_removeDotSegments hself.path
    authority := fun h =>
      ⟨(hself.authority h).1, isPathAbempty_removeDotSegments (hself.authority h).2⟩ }

theorem WellFormed.withScheme (hbase : base.WellFormed) :
    { self with scheme := base.scheme }.WellFormed :=
  { hself with scheme := hbase.scheme }

end

theorem wellFormed_merge (hself : self.Accepted) (hbase : base.Accepted)
    (hscheme : base.scheme ≠ []) :
    (merge self base strict).2.WellFormed ∧ (merge self base strict).2.scheme ≠ [] := by
  have hself' := hself.toWellFormed
  have hbase' := hbase.toWellFormed
  cases hkeeps : keepsScheme self base strict with
  | true =>
    rw [merge_of_keepsScheme hself' hkeeps]
    refine ⟨hself'.removeDotSegments, fun hnil => ?_⟩
    rw [keepsScheme, show self.scheme = [] from hnil] at hkeeps
    simp at hkeeps
  | false =>
    cases hauth : self.hasAuthority with
    | true =>
      rw [merge_of_hasAuthority hself' hkeeps hauth]
      exact ⟨hself'.removeDotSegments.withScheme hbase', hscheme⟩
    | false =>
      by_cases hpath : self.path = []
      · rw [merge_of_path_nil hself' hbase' hkeeps hauth hpath]
        refine ⟨{ hbase' with
          query := fun h => ?_
          noQuery := fun h => ?_
          fragment := hself'.fragment
          noFragment := hself'.noFragment }, hscheme⟩
        · cases hquery : self.hasQuery with
          | true => exact hself'.query hquery
          | false =>
            rw [hquery] at h
            exact hbase'.query h
        · obtain ⟨hquery, hbquery⟩ := or_eq_false_iff.mp h
          simp only [hquery, false_eq_true, if_false]
          exact hbase'.noQuery hbquery
      · rw [merge_of_path_ne_nil hself' hbase' hkeeps hauth hpath]
        exact ⟨{ hself' with
          scheme := hbase'.scheme
          path := isPath_targetPath hself' hbase hscheme
          authority := fun h =>
            ⟨(hbase'.authority h).1, isPathAbempty_targetPath hself' hbase' h⟩
          noAuthority := hbase'.noAuthority }, hscheme⟩

theorem merge_rooted_iff (hself : self.Accepted) (hbase : base.Accepted)
    (hscheme : base.scheme ≠ []) :
    ((merge self base strict).2.hasAuthority = true ∨ (merge self base strict).2.path = []) ↔
      keepsScheme self base strict = true ∨ self.hasAuthority = true ∨ base.hasAuthority = true ∨
        removeDotSegments self.path = [] := by
  have hself' := hself.toWellFormed
  have hbase' := hbase.toWellFormed
  cases hkeeps : keepsScheme self base strict with
  | true =>
    rw [merge_of_keepsScheme hself' hkeeps]
    refine iff_of_true ?_ (.inl rfl)
    cases hauth : self.hasAuthority with
    | true => exact .inl rfl
    | false =>
      have hne : self.scheme ≠ [] := by
        intro hnil
        rw [keepsScheme, hnil] at hkeeps
        simp at hkeeps
      refine .inr ?_
      rw [hself.rooted hne hauth]
      rfl
  | false =>
    cases hauth : self.hasAuthority with
    | true =>
      rw [merge_of_hasAuthority hself' hkeeps hauth]
      exact iff_of_true (.inl hauth) (.inr (.inl rfl))
    | false =>
      by_cases hpath : self.path = []
      · rw [merge_of_path_nil hself' hbase' hkeeps hauth hpath, hpath]
        refine iff_of_true ?_ (.inr (.inr (.inr rfl)))
        cases hbauth : base.hasAuthority with
        | true => exact .inl rfl
        | false => exact .inr (hbase.rooted hscheme hbauth)
      · rw [merge_of_path_ne_nil hself' hbase' hkeeps hauth hpath]
        cases hbauth : base.hasAuthority with
        | true => simp
        | false => simp [targetPath_of_noAuthority hbase hscheme hbauth]

/-- The text of an object of the grammar is parsed back exactly if it has an authority or no
path. -/
theorem parse_toString_iff {u : URI} (hu : u.WellFormed) (hne : u.scheme ≠ []) :
    parse u.toString = (true, u) ↔ u.hasAuthority = true ∨ u.path = [] := by
  constructor
  · intro h
    cases hauth : u.hasAuthority with
    | true => exact .inl rfl
    | false => exact .inr ((spelled_of_parse h).2.rooted hne hauth)
  · exact parse_toString hu hne

/-- If the merge succeeds, the merged object is parsed back from its text. -/
def MergesFaithfully (self base : URI) (strict : Bool) : Prop :=
  (merge self base strict).1 = true →
    parse (merge self base strict).2.toString = (true, (merge self base strict).2)

/-- **Merging.** The merged object is parsed back from its text exactly if the reference keeps its
own scheme, or there is an authority, of the reference or of the base, or the path of the reference
is empty or has dot segments only. -/
theorem mergesFaithfully_iff {s t : Bytes} (hbase : parse s = (true, base))
    (hscheme : base.scheme ≠ []) (hself : parse t = (true, self)) :
    MergesFaithfully self base strict ↔
      keepsScheme self base strict = true ∨ self.hasAuthority = true ∨ base.hasAuthority = true ∨
        OnlyDots self.path := by
  obtain ⟨-, hbase⟩ := spelled_of_parse hbase
  obtain ⟨-, hself⟩ := spelled_of_parse hself
  obtain ⟨hform, hne⟩ := @wellFormed_merge _ _ strict hself hbase hscheme
  have hsucceeds : (merge self base strict).1 = true := rfl
  rw [MergesFaithfully, forall_prop_of_true hsucceeds, parse_toString_iff hform hne,
    merge_rooted_iff hself hbase hscheme, removeDotSegments_eq_nil_iff]

end Merged

/-- A base with authority and a reference with dot segments and a query. -/
theorem mergesFaithfully_relative :
    MergesFaithfully (parse (ascii "../e?f")).2 (parse (ascii "http://a/b/c/d")).2 false := by
  refine (mergesFaithfully_iff (s := ascii "http://a/b/c/d") (t := ascii "../e?f")
    (Prod.ext (by decide) rfl) (by decide) (Prod.ext (by decide) rfl)).mpr (.inr (.inr (.inl ?_)))
  decide

/-- A base without authority: the text of the merged object is not accepted (`a:` and `b`), or is
read with the first segment of the path as authority (`a:` and `/.//c`). -/
theorem merge_not_faithful :
    (parse (ascii "a:")).1 = true ∧ (parse (ascii "b")).1 = true ∧
      (parse (ascii "/.//c")).1 = true ∧
      ¬ MergesFaithfully (parse (ascii "b")).2 (parse (ascii "a:")).2 false ∧
      ¬ MergesFaithfully (parse (ascii "/.//c")).2 (parse (ascii "a:")).2 false := by
  unfold MergesFaithfully
  decide

end URI

end Toft

import Toft.Net.Uri.RoundTrip

/-!
# Which objects are parsed back

An object of the grammar with a scheme that has an authority or no path is what the parser makes of
its text (`URI.parse_toString`). A path behind a scheme and without authority is matched, but the
position goes back before it, so the text is not accepted (`URI.parse_withoutAuthority_iff`).
-/

namespace Toft

open Lib Lib.Matcher Lib.Scanner Lib.Segments ByteSet UriGrammar UriParserByteSets List URI Matcher
  Option

namespace UriParser

/-! ## The parts in front of a known text -/

theorem matchSchemeAndColon_append {scheme : Bytes} (hscheme : IsScheme scheme) (r : Bytes)
    (u : URI) :
    matchSchemeAndColon { current := scheme ++ ascii ":" ++ r, result := u } =
      (true, { current := r, result := u.setScheme scheme }) := by
  obtain ⟨b, t, rfl, hb, ht⟩ := hscheme
  have hfirst : one alphaSet (b :: t ++ ascii ":" ++ r) = (true, t ++ ':'.toUInt8 :: r) := by
    simp [one, hb, ascii_colon]
  have hloop : (whileMatch (one scheme) (t ++ ':'.toUInt8 :: r)).2 = ':'.toUInt8 :: r :=
    whileMatch_one ht (by decide : (!scheme ':'.toUInt8) = true)
  have hcolon : matchLiteral ':' (':'.toUInt8 :: r) = (true, r) := by
    simp [matchLiteral, one]
  have htake : (b :: t ++ ascii ":" ++ r).take (length (b :: t ++ ascii ":" ++ r) r - 1) =
      b :: t := by
    simp [length, ascii_colon,
      show t.length + (r.length + 1) + 1 - r.length - 1 = t.length + 1 by omega]
  simp only [matchSchemeAndColon, hfirst, hloop, hcolon, htake]

theorem matchNetPath_append {a : UriAuthority} (ha : IsAuthority a) {path r : Bytes}
    (hpath : IsPathAbempty path) (hr : Ends stopsHierPart r) {u : URI} (hu : u.authority = {}) :
    matchNetPath { current := ascii "//" ++ authorityText a ++ path ++ r, result := u } =
      (true, { current := r,
               result := { u with hasAuthority := true, authority := a, path := path } }) := by
  have hstop : Ends stopsAuthority (path ++ r) := by
    obtain ⟨segments, -, rfl⟩ := hpath
    cases segments with
    | nil => exact ends_stopsAuthority hr
    | cons segment segments => exact stopsAuthority_iff.mpr (.inl rfl)
  have htext : scan (text (ascii "//"))
      { current := ascii "//" ++ authorityText a ++ path ++ r, result := u } =
      (true, { current := authorityText a ++ (path ++ r), result := u }) := by
    simp [scan, text, append_assoc]
  have hsegments := matchSegments_abempty hpath (ends_stopsPath hr)
  have htake : (path ++ r).take (length (path ++ r) r) = path := by simp [length]
  simp only [matchNetPath, seq, htext, ha.matchAuthority hu hstop, matchPathAbempty,
    matchPathAs, hsegments, htake, setPath]

theorem matchHierPart_stop {r : Bytes} (hr : Ends stopsHierPart r) (u : URI) :
    matchHierPart { current := r, result := u } =
      (true, { current := r, result := u.setPath [] }) := by
  cases r with
  | nil => rfl
  | cons c r =>
    have hc : c = '?'.toUInt8 ∨ c = '#'.toUInt8 := by
      simpa [Ends, stopsHierPart] using hr
    rcases hc with rfl | rfl <;> rfl

variable {v t : Bytes}

theorem matchOptional_append {c : Char} {m : Scanner UInt8}
    (hm : m (v ++ t) = (true, t)) (set : URI → Bytes → URI) (u : URI) :
    matchOptional c m set { current := c.toUInt8 :: (v ++ t), result := u } =
      { current := t, result := set u v } := by
  have hscan : attempt (seq (matchLiteral c) m) (c.toUInt8 :: (v ++ t)) = (true, t) := by
    simp [Scanner.attempt, seq, matchLiteral, one, hm]
  have htake : (v ++ t).take (length (c.toUInt8 :: (v ++ t)) t - 1) = v := by
    simp [length, show v.length + t.length + 1 - t.length - 1 = v.length by omega]
  simp only [matchOptional, hscan, drop_succ_cons, drop_zero, htake]

theorem matchQueryOrFragment_append (hv : IsQueryOrFragment v)
    (ht : t = [] ∨ ∃ t', t = '#'.toUInt8 :: t') : matchQueryOrFragment (v ++ t) = (true, t) := by
  refine Prod.ext rfl (whileMatch_chars (by decide) hv ?_)
  rcases ht with rfl | ⟨t', rfl⟩
  · trivial
  · exact (by decide : stopsChars queryOrFragment '#'.toUInt8 = true)

theorem matchOptional_absent {c : Char} {m : Scanner UInt8} (hm : Advances m)
    {set : URI → Bytes → URI} {p : UriParser} (h : ∀ t, p.current ≠ c.toUInt8 :: t) :
    matchOptional c m set p = p := by
  rcases matchOptional_spec c hm set p with heq | ⟨v, t, hcur, -, -⟩
  · exact heq
  · exact absurd hcur (h _)

/-! ## Query and fragment -/

def tailText (u : URI) : Bytes :=
  optional u.hasQuery (ascii "?" ++ u.query) ++
    optional u.hasFragment (ascii "#" ++ u.fragment)

theorem ends_tailText (u : URI) : Ends stopsHierPart (tailText u) := by
  unfold tailText
  cases u.hasQuery with
  | true => exact (by decide : stopsHierPart '?'.toUInt8 = true)
  | false =>
    cases u.hasFragment with
    | true => exact (by decide : stopsHierPart '#'.toUInt8 = true)
    | false => trivial

theorem matchOptional_optional {c : Char} {present : Bool}
    (hv : present = true → IsQueryOrFragment v) (ht : t = [] ∨ ∃ t', t = '#'.toUInt8 :: t')
    (habsent : ∀ t', t ≠ c.toUInt8 :: t') (set : URI → Bytes → URI) (u : URI) :
    matchOptional c matchQueryOrFragment set
        { current := optional present (c.toUInt8 :: v) ++ t, result := u } =
      { current := t, result := if present then set u v else u } := by
  cases present with
  | false => exact matchOptional_absent advances_matchQueryOrFragment habsent
  | true => exact matchOptional_append (matchQueryOrFragment_append (hv rfl) ht) set u

theorem matchTail {u : URI} (hu : u.WellFormed) (scheme path : Bytes) (present : Bool)
    (authority : UriAuthority) :
    matchOptional '#' matchQueryOrFragment setFragment
        (matchOptional '?' matchQueryOrFragment setQuery
          { current := tailText u
            result := { scheme := scheme, hasAuthority := present, authority := authority,
                        path := path } }) =
      { current := []
        result := { scheme := scheme, hasAuthority := present, authority := authority,
                    path := path, hasQuery := u.hasQuery, query := u.query,
                    hasFragment := u.hasFragment, fragment := u.fragment } } := by
  generalize hv :
    ({ scheme := scheme, hasAuthority := present, authority := authority, path := path } : URI) = v
  have hends : optional u.hasFragment ('#'.toUInt8 :: u.fragment) = [] ∨
      ∃ t, optional u.hasFragment ('#'.toUInt8 :: u.fragment) = '#'.toUInt8 :: t := by
    cases u.hasFragment
    · exact .inl rfl
    · exact .inr ⟨_, rfl⟩
  have hnoquery (t : Bytes) :
      optional u.hasFragment ('#'.toUInt8 :: u.fragment) ≠ '?'.toUInt8 :: t := by
    rcases hends with h | ⟨t', h⟩ <;> rw [h]
    · exact (cons_ne_nil _ _).symm
    · exact fun heq => absurd (List.cons.inj heq).1 (by decide)
  have hfirst : matchOptional '?' matchQueryOrFragment setQuery
      { current := tailText u, result := v } = _ :=
    matchOptional_optional hu.query hends hnoquery setQuery v
  have hsecond := matchOptional_optional (c := '#') (t := []) hu.fragment (.inl rfl)
    (fun _ => (cons_ne_nil _ _).symm) setFragment
    (if u.hasQuery then v.setQuery u.query else v)
  rw [append_nil] at hsecond
  rw [hfirst, hsecond]
  rw [← hv]
  cases hq : u.hasQuery <;> cases hf : u.hasFragment <;>
    simp [setQuery, setFragment, hu.noQuery, hu.noFragment, hq, hf]

end UriParser

namespace URI

open UriParser

theorem toString_of_scheme {u : URI} (hscheme : u.scheme ≠ []) :
    u.toString = u.scheme ++ ascii ":" ++
      (optional u.hasAuthority (ascii "//" ++ authorityText u.authority) ++ u.path ++
        tailText u) := by
  simp [toString, tailText, isEmpty_eq_false_iff.mpr hscheme]

theorem parse_toString {u : URI} (hu : u.WellFormed) (hscheme : u.scheme ≠ [])
    (hpath : u.hasAuthority = true ∨ u.path = []) : parse u.toString = (true, u) := by
  have hgrammar : IsScheme u.scheme := hu.scheme.resolve_left hscheme
  have hhier : matchHierPart
      { current := optional u.hasAuthority (ascii "//" ++ authorityText u.authority) ++ u.path ++
          tailText u,
        result := ({} : URI).setScheme u.scheme } =
      (true, { current := tailText u,
               result := { scheme := u.scheme, hasAuthority := u.hasAuthority,
                           authority := u.authority, path := u.path } }) := by
    cases hauth : u.hasAuthority with
    | true =>
      obtain ⟨ha, hp⟩ := hu.authority hauth
      have hnet :=
        matchNetPath_append (u := ({} : URI).setScheme u.scheme) ha hp (ends_tailText u) rfl
      simp only [matchHierPart, guarded, optional_true, hnet]
      rfl
    | false =>
      have hnil : u.path = [] := hpath.resolve_left (by simp [hauth])
      have hstop := matchHierPart_stop (ends_tailText u) (({} : URI).setScheme u.scheme)
      rw [hnil, hu.noAuthority hauth]
      exact hstop
  have htail := matchTail hu u.scheme u.path u.hasAuthority u.authority
  have hmatch : matchURIReference { current := u.toString, result := {} } =
      (true, { current := [], result := u }) := by
    simp only [matchURIReference, alt, matchURI, guarded, seq,
      toString_of_scheme hscheme,
      matchSchemeAndColon_append hgrammar, hhier, htail]
  simp only [parse, parseBuffer, hmatch, UriParser.length, length_nil, Nat.sub_zero,
    beq_self_eq_true]

/-- The text of a URI without authority. -/
def textWithoutAuthority (scheme path : Bytes) (query fragment : Option Bytes) : Bytes :=
  scheme ++ ascii ":" ++ path ++ query.elim [] (ascii "?" ++ ·) ++ fragment.elim [] (ascii "#" ++ ·)

def withoutAuthority (scheme path : Bytes) (query fragment : Option Bytes) : URI :=
  { scheme := scheme
    path := path
    hasQuery := query.isSome
    query := query.getD []
    hasFragment := fragment.isSome
    fragment := fragment.getD [] }

/-- **URIs without authority.** The text of one is accepted exactly if its path is empty. -/
theorem parse_withoutAuthority_iff {scheme path : Bytes} {query fragment : Option Bytes}
    (hscheme : IsScheme scheme)
    (hpath : IsPathAbsolute path ∨ IsPathRootless path ∨ path = [])
    (hquery : ∀ v ∈ query, IsQueryOrFragment v) (hfragment : ∀ v ∈ fragment, IsQueryOrFragment v) :
    parse (textWithoutAuthority scheme path query fragment) =
        (true, withoutAuthority scheme path query fragment) ↔ path = [] := by
  have hne : scheme ≠ [] := by
    obtain ⟨b, t, rfl, -⟩ := hscheme
    exact cons_ne_nil b t
  constructor
  · intro h
    exact (spelled_of_parse h).2.rooted hne rfl
  · rintro rfl
    have hform : (withoutAuthority scheme [] query fragment).WellFormed := {
      scheme := .inr hscheme
      path := isPathAbempty_nil.isPath
      authority := fun h => absurd h Bool.false_ne_true
      noAuthority := fun _ => rfl
      query := fun h => by
        obtain ⟨v, rfl⟩ := isSome_iff_exists.mp h
        exact hquery v rfl
      noQuery := fun h => by
        rw [withoutAuthority, isSome_eq_false_iff, isNone_iff_eq_none] at h
        rw [h]
        rfl
      fragment := fun h => by
        obtain ⟨v, rfl⟩ := isSome_iff_exists.mp h
        exact hfragment v rfl
      noFragment := fun h => by
        rw [withoutAuthority, isSome_eq_false_iff, isNone_iff_eq_none] at h
        rw [h]
        rfl }
    have htext : textWithoutAuthority scheme [] query fragment =
        (withoutAuthority scheme [] query fragment).toString := by
      cases query <;> cases fragment <;>
        simp [textWithoutAuthority, withoutAuthority, toString, isEmpty_eq_false_iff.mpr hne]
    rw [htext]
    exact parse_toString hform hne (.inr rfl)

/-- A scheme with a query and a fragment, and no path. -/
theorem parse_withoutAuthority_query :
    parse (textWithoutAuthority (ascii "a") [] (some (ascii "b")) (some (ascii "c"))) =
      (true, withoutAuthority (ascii "a") [] (some (ascii "b")) (some (ascii "c"))) := by
  have hscheme : IsScheme (ascii "a") :=
    ⟨97, [], rfl, by decide, fun _ hmem => absurd hmem not_mem_nil⟩
  refine (parse_withoutAuthority_iff hscheme (.inr (.inr rfl)) ?_ ?_).mpr rfl
  · rintro _ ⟨⟩
    exact .byte (by decide) .nil
  · rintro _ ⟨⟩
    exact .byte (by decide) .nil

/-- A path without leading slash and one with: both are of the grammar and neither is accepted. -/
theorem parse_withoutAuthority_rejects :
    IsScheme (ascii "a") ∧ IsPathRootless (ascii "b") ∧ IsPathAbsolute (ascii "/b") ∧
      (parse (textWithoutAuthority (ascii "a") (ascii "b") none none)).1 = false ∧
      (parse (textWithoutAuthority (ascii "a") (ascii "/b") none none)).1 = false := by
  have hrootless : IsPathRootless (ascii "b") :=
    ⟨ascii "b", [], by decide, .byte (by decide) .nil, isPathAbempty_nil, rfl⟩
  refine ⟨⟨97, [], rfl, by decide, fun _ hmem => absurd hmem not_mem_nil⟩, hrootless,
    ⟨ascii "b", rfl, .inr hrootless⟩, ?_, ?_⟩
  · decide
  · decide

end URI

end Toft

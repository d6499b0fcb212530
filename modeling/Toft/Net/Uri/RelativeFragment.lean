import Toft.Net.Uri.Accepted

/-!
# Fragments of relative references

`match_relative_ref` looks for no fragment, and no part of a relative reference takes a number sign.
So `URI::Parse` refuses every relative reference with a fragment (`URI.parse_relative_fragment`).
-/

namespace Toft

open Lib Lib.Matcher Lib.Scanner Lib.Segments List UriParserByteSets ByteSet UriParser

namespace UriGrammar

abbrev hash : UInt8 := '#'.toUInt8

def IsPathNoscheme (s : Bytes) : Prop :=
  ∃ first rest, first ≠ [] ∧ ':'.toUInt8 ∉ first ∧ IsSegment first ∧ IsPathAbempty rest ∧
    s = first ++ rest

/-- `relative-part`, with any text in the place of the authority. -/
inductive IsRelativePart : Bytes → Prop
  | netPath (authority : Bytes) {path : Bytes} :
      IsPathAbempty path → IsRelativePart (ascii "//" ++ authority ++ path)
  | pathAbsolute {path : Bytes} : IsPathAbsolute path → IsRelativePart path
  | pathNoscheme {path : Bytes} : IsPathNoscheme path → IsRelativePart path
  | pathEmpty : IsRelativePart []

/-- A byte that no scheme has stands in front of the first colon. -/
def Schemeless (s : Bytes) : Prop :=
  ∃ front b rest, s = front ++ b :: rest ∧ ':'.toUInt8 ∉ front ∧
    alphaSet b = false ∧ scheme b = false ∧ b ≠ ':'.toUInt8

theorem IsRelativePart.schemeless {part : Bytes} (hpart : IsRelativePart part) {b : UInt8}
    (hb : b = '?'.toUInt8 ∨ b = hash) (rest : Bytes) : Schemeless (part ++ b :: rest) := by
  have hstop : alphaSet b = false ∧ scheme b = false ∧ b ≠ ':'.toUInt8 := by
    rcases hb with rfl | rfl <;> decide
  cases hpart with
  | netPath authority hpath => exact ⟨[], slash, _, rfl, not_mem_nil, by decide⟩
  | pathAbsolute hpath =>
    obtain ⟨t, rfl, -⟩ := hpath
    exact ⟨[], slash, _, rfl, not_mem_nil, by decide⟩
  | pathNoscheme hpath =>
    obtain ⟨first, _, -, hcolon, -, ⟨segments, -, rfl⟩, rfl⟩ := hpath
    cases segments with
    | nil => exact ⟨first, b, rest, by simp, hcolon, hstop⟩
    | cons segment segments =>
      exact ⟨first, slash, segment ++ behind slash segments ++ b :: rest, by simp, hcolon,
        by decide⟩
  | pathEmpty => exact ⟨[], b, rest, rfl, not_mem_nil, hstop⟩

theorem Schemeless.ne_append {s v : Bytes} (hs : Schemeless s) (hv : IsScheme v) (r : Bytes) :
    s ≠ v ++ ascii ":" ++ r := by
  obtain ⟨front, b, rest, rfl, hcolon, halpha, hscheme, hb⟩ := hs
  have hfree : b ∉ v := by
    obtain ⟨c, t, rfl, hc, ht⟩ := hv
    intro hmem
    rcases mem_cons.mp hmem with rfl | hmem
    · simp [halpha] at hc
    · simp [ht b hmem] at hscheme
  intro h
  rw [append_assoc] at h
  rcases append_eq_append_iff.mp h with ⟨_ | ⟨c, u⟩, rfl, hu⟩ | ⟨_ | ⟨c, u⟩, rfl, hu⟩
  · exact hb (cons.inj hu).1
  · exact hfree (by simp [(cons.inj hu).1])
  · exact hb (cons.inj hu).1.symm
  · exact hcolon (mem_append_right _ (mem_cons.mpr (.inl (cons.inj hu).1)))

/-! ## No part has a number sign -/

theorem IsPath.hash_notMem {s : Bytes} (hs : IsPath s) : hash ∉ s := by
  obtain ⟨first, _, hfirst, ⟨segments, hsegments, rfl⟩, rfl⟩ := hs
  have hfree {t : Bytes} (ht : IsSegment t) : hash ∉ t := Chars.notMem (by decide) (by decide) ht
  rw [mem_append, behind, mem_flatMap]
  rintro (h | ⟨segment, hmem, h⟩)
  · exact hfree hfirst h
  · rcases mem_cons.mp h with h | h
    · cases h
    · exact hfree (hsegments segment hmem) h

end UriGrammar

open UriGrammar

theorem UriParser.IsAuthority.hash_notMem {a : UriAuthority} (ha : UriParser.IsAuthority a) :
    hash ∉ URI.authorityText a := by
  intro hmem
  obtain ⟨front, rest, htext⟩ := append_of_mem hmem
  have hextend := matchAuthority_extend (p := { current := front, result := {} })
    (r := hash :: rest) (by decide : stopsAuthority hash = true)
  rw [extend, ← htext, ha] at hextend
  have hrest := congrArg (fun q => q.2.current) hextend
  simp [extend] at hrest

namespace URI

theorem hasFragment_of_parse {s : Bytes} {u : URI} (hs : Schemeless s) (h : parse s = (true, u)) :
    u.hasFragment = false := by
  have hnoscheme : matchURI { current := s, result := {} } =
      (false, { current := s, result := {} }) := by
    unfold matchURI guarded Matcher.seq
    rcases hscheme : matchSchemeAndColon { current := s, result := {} } with ⟨_ | _, p⟩
    · obtain rfl := matchSchemeAndColon_false hscheme
      rfl
    · obtain ⟨v, hv, hcur, -⟩ := matchSchemeAndColon_true hscheme
      exact absurd hcur (hs.ne_append hv _)
  obtain ⟨q, hq, hcases⟩ := matchRelativeRef_spec s
  simp only [parse, parseBuffer, matchURIReference, alt, hnoscheme, hq, Prod.mk.injEq,
    beq_iff_eq] at h
  obtain ⟨hlen, rfl⟩ := h
  rcases hcases with ⟨-, hfrag⟩ | hleft
  · exact hfrag
  · exact absurd hlen hleft.length_lt.ne

/-- `URI::Parse` refuses every relative reference with a fragment. -/
theorem parse_relative_fragment {part : Bytes} (hpart : IsRelativePart part)
    (query : Option Bytes) (fragment : Bytes) :
    (parse (part ++ query.elim [] (ascii "?" ++ ·) ++ ascii "#" ++ fragment)).1 = false := by
  have hschemeless :
      Schemeless (part ++ query.elim [] (ascii "?" ++ ·) ++ ascii "#" ++ fragment) := by
    cases query with
    | none =>
      simpa [show ascii "#" = [hash] from rfl] using hpart.schemeless (.inr rfl) fragment
    | some v =>
      simpa [show ascii "?" = ['?'.toUInt8] from rfl] using
        hpart.schemeless (.inl rfl) (v ++ ascii "#" ++ fragment)
  rw [← Bool.not_eq_true]
  intro htrue
  obtain ⟨u, hu⟩ : ∃ u, parse _ = (true, u) := ⟨_, Prod.ext htrue rfl⟩
  obtain ⟨hspelled, haccepted⟩ := spelled_of_parse hu
  have hmem : hash ∈ u.toString := by
    rw [hspelled]
    simp [show ascii "#" = [hash] from rfl]
  have hscheme : u.scheme = [] := by
    by_contra hne
    exact hschemeless.ne_append (haccepted.scheme.resolve_left hne) _
      (hspelled.symm.trans (toString_of_scheme hne))
  rw [toString, hscheme, hasFragment_of_parse hschemeless hu] at hmem
  simp only [isEmpty_nil, Bool.not_true, optional_false, nil_append, append_nil, mem_append] at hmem
  rcases hmem with (h | h) | h
  · cases hauth : u.hasAuthority with
    | false => simp [hauth] at h
    | true =>
      rw [hauth, optional_true, mem_append] at h
      exact h.elim (by decide) (haccepted.authority hauth).1.hash_notMem
  · exact haccepted.path.hash_notMem h
  · cases hquery : u.hasQuery with
    | false => simp [hquery] at h
    | true =>
      rw [hquery, optional_true, mem_append] at h
      exact h.elim (by decide) ((haccepted.query hquery).notMem (by decide) (by decide))

/-- A path with a query. -/
theorem parse_relative_fragment_path : (parse (ascii "/a?b#c")).1 = false := by
  have hpath : IsPathAbsolute (ascii "/a") :=
    ⟨ascii "a", rfl,
      .inr ⟨ascii "a", [], by decide, .byte (by decide) .nil, isPathAbempty_nil, rfl⟩⟩
  exact parse_relative_fragment (.pathAbsolute hpath) (some (ascii "b")) (ascii "c")

/-- The empty part: the text in front of the number sign is empty, and the fragment is lost. -/
theorem parse_fragment_rejects :
    IsRelativePart [] ∧ IsQueryOrFragment (ascii "a") ∧ (parse (ascii "#a")).1 = false ∧
      (parse (ascii "#a")).2.hasFragment = false :=
  ⟨.pathEmpty, .byte (by decide) .nil, by decide, by decide⟩

end URI

end Toft

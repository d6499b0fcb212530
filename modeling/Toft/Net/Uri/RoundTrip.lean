import Toft.Net.Uri.Authority

/-!
# Parsing a URI and writing it again

What the parser leaves behind is either spelled by the object it filled (`Spelled`), or the parser
stopped in front of a byte that no later matcher takes. An accepted string has no rest, so it is
spelled by the object: `URI.toString_eq_of_parse`.
-/

namespace Toft

open Lib Lib.Matcher Lib.Scanner Lib.Segments ByteSet List URI

namespace URI

open UriGrammar
open UriParser (IsAuthority)

/-- The components of the object are of the grammar, and absent ones are as `Clear` leaves them. -/
structure WellFormed (u : URI) : Prop where
  scheme : u.scheme = [] ∨ IsScheme u.scheme
  path : IsPath u.path
  authority : u.hasAuthority = true → IsAuthority u.authority ∧ IsPathAbempty u.path
  noAuthority : u.hasAuthority = false → u.authority = {}
  query : u.hasQuery = true → IsQueryOrFragment u.query
  noQuery : u.hasQuery = false → u.query = []
  fragment : u.hasFragment = true → IsQueryOrFragment u.fragment
  noFragment : u.hasFragment = false → u.fragment = []

/-- An object that the parser fills on the whole of a text. A path behind a scheme needs an
authority. -/
structure Accepted (u : URI) : Prop extends WellFormed u where
  rooted : u.scheme ≠ [] → u.hasAuthority = false → u.path = []

theorem Accepted.setQuery {u : URI} (hu : u.Accepted) {v : Bytes} (hv : IsQueryOrFragment v) :
    (u.setQuery v).Accepted :=
  { hu with query := fun _ => hv, noQuery := fun h => absurd h (by simp [URI.setQuery]) }

theorem Accepted.setFragment {u : URI} (hu : u.Accepted) {v : Bytes} (hv : IsQueryOrFragment v) :
    (u.setFragment v).Accepted :=
  { hu with fragment := fun _ => hv, noFragment := fun h => absurd h (by simp [URI.setFragment]) }

end URI

namespace UriParser

open UriGrammar

/-! ## Paths -/

variable {p q : UriParser} {m : Scanner UInt8}

theorem matchPathAs_true {P : Bytes → Prop} (hm : ∀ s t, m s = (true, t) → ∃ v, P v ∧ s = v ++ t)
    (h : matchPathAs m p = (true, q)) :
    ∃ v, P v ∧ p.current = v ++ q.current ∧ q.result = p.result.setPath v := by
  unfold matchPathAs at h
  split at h
  · rename_i t ht
    cases h
    obtain ⟨v, hv, hcur⟩ := hm _ _ ht
    exact ⟨v, hv, hcur, by simp [hcur, length]⟩
  · cases h

theorem matchPathAs_current
    (h : matchPathAs m p = (true, q)) : m p.current = (true, q.current) := by
  unfold matchPathAs at h
  split at h
  · rename_i t ht
    cases h
    exact ht
  · cases h

theorem matchPathAs_false (hm : Restores m) (h : matchPathAs m p = (false, q)) : q = p := by
  unfold matchPathAs at h
  split at h
  · cases h
  · rename_i t ht
    cases h
    rw [hm _ _ ht]

theorem matchPathAbempty_true (h : matchPathAbempty p = (true, q)) :
    ∃ v, IsPathAbempty v ∧ p.current = v ++ q.current ∧ q.result = p.result.setPath v := by
  refine matchPathAs_true (fun s t ht => ?_) h
  obtain ⟨v, hv, hs⟩ := exists_segments s
  exact ⟨v, hv, hs.trans (congrArg (v ++ ·) (congrArg Prod.snd ht))⟩

theorem matchPathAbsolute_true (h : matchPathAbsolute p = (true, q)) :
    ∃ v, IsPathAbempty v ∧ p.current = v ++ q.current ∧ q.result = p.result.setPath v := by
  refine matchPathAs_true (fun s t ht => ?_) h
  obtain ⟨u, hu, hrest⟩ := seq_eq_true ht
  obtain ⟨b, rfl, hb⟩ := one_eq_true hu
  rw [beq_iff_eq.mp hb]
  split at hrest
  · rename_i u' hsegment
    obtain ⟨segment, hchars, rfl⟩ := exists_segmentNz hsegment
    obtain ⟨v, hv, hu'⟩ := exists_segments u'
    rw [hrest] at hu'
    refine ⟨UriGrammar.slash :: (segment ++ v), .cons hchars hv, ?_⟩
    rw [hu', cons_append, append_assoc]
  · rename_i u' hsegment
    obtain ⟨segment, hchars, rfl⟩ := exists_segmentNz hsegment
    cases hrest
    refine ⟨UriGrammar.slash :: (segment ++ []), .cons hchars isPathAbempty_nil, ?_⟩
    rw [append_nil, cons_append]

theorem matchPathNoscheme_true (h : matchPathNoscheme p = (true, q)) :
    ∃ v, IsPath v ∧ p.current = v ++ q.current ∧ q.result = p.result.setPath v := by
  refine matchPathAs_true (fun s t ht => ?_) h
  obtain ⟨u, hu, hrest⟩ := seq_eq_true ht
  obtain ⟨segment, hsegment, rfl⟩ := exists_segmentNzNc hu
  obtain ⟨v, hv, hu'⟩ := exists_segments u
  rw [hrest] at hu'
  refine ⟨segment ++ v, ⟨segment, v, hsegment, hv, rfl⟩, ?_⟩
  rw [hu', append_assoc]

theorem matchPathAbsolute_false (h : matchPathAbsolute p = (false, q)) : q = p := by
  refine matchPathAs_false ((restores_one _).seq fun s => ?_) h
  split <;> rfl

theorem matchPathRootless_false (h : matchPathRootless p = (false, q)) : q = p :=
  matchPathAs_false ((restores_count (consumes_or_pct _)
    ((restores_one _).alt restores_matchPctEncoded)).seq fun _ => rfl) h

theorem matchPathNoscheme_false (h : matchPathNoscheme p = (false, q)) : q = p := by
  refine matchPathAs_false ((restores_count (Consumes.attempt ?_)
    (restores_attempt _)).seq fun _ => rfl) h
  exact (consumes_one _).alt (advances_one _) (consumes_matchPctEncoded.alt
    advances_matchPctEncoded ((consumes_one _).alt (advances_one _) (consumes_one _)))

/-! ## The two alternatives of the hierarchical part -/

def stopsHierPart : ByteSet := fun c => c == '?'.toUInt8 || c == '#'.toUInt8

theorem ends_stopsAuthority {r : Bytes} (hr : Ends stopsHierPart r) : Ends stopsAuthority r := by
  refine hr.mono fun c hc => ?_
  simp only [stopsHierPart, Bool.or_eq_true, beq_iff_eq] at hc
  exact stopsAuthority_iff.mpr (.inr hc)

theorem ends_stopsPath {r : Bytes} (hr : Ends stopsHierPart r) : Ends stopsPath r := by
  refine hr.mono fun c hc => ?_
  simp only [stopsHierPart, Bool.or_eq_true, beq_iff_eq] at hc
  rcases hc with rfl | rfl <;> decide

/-- The parser stopped in front of a byte that starts neither a query nor a fragment. -/
def Stuck (p q : UriParser) : Prop :=
  q.current <:+ p.current ∧
    ∃ b t, q.current = b :: t ∧ b ≠ '?'.toUInt8 ∧ b ≠ '#'.toUInt8

theorem scan_eq {b : Bool} (h : scan m p = (b, q)) :
    m p.current = (b, q.current) ∧ q.result = p.result := by
  rcases hm : m p.current with ⟨ok, t⟩
  simp only [scan, hm] at h
  cases h
  exact ⟨rfl, rfl⟩

theorem matchNetPath_true (hp : p.result.authority = {}) (h : matchNetPath p = (true, q)) :
    ∃ a v, IsPathAbempty v ∧ (Ends stopsHierPart q.current → IsAuthority a) ∧
      p.current = ascii "//" ++ authorityText a ++ v ++ q.current ∧
      q.result = { p.result with hasAuthority := true, authority := a, path := v } := by
  obtain ⟨r, hr, hrest⟩ := seq_eq_true h
  obtain ⟨r', hauth, hpath⟩ := seq_eq_true hrest
  obtain ⟨htext, hsame⟩ := scan_eq hr
  rw [← hsame] at hp
  obtain ⟨a, ha, hres⟩ := matchAuthority_spec hp hauth
  obtain ⟨v, hv, hcur, hres'⟩ := matchPathAbempty_true hpath
  refine ⟨a, v, hv, fun hends => ?_, ?_, ?_⟩
  · have hstop : Ends stopsAuthority r'.current := by
      rw [hcur]
      obtain ⟨segments, -, rfl⟩ := hv
      cases segments with
      | nil => exact ends_stopsAuthority hends
      | cons segment segments => exact stopsAuthority_iff.mpr (.inl rfl)
    obtain ⟨a', ha', -, hres₂⟩ := isAuthority_of_matchAuthority hp hstop hauth
    have hsame : a = a' := congrArg authority (hres.symm.trans hres₂)
    rw [hsame]
    exact ha'
  · rw [text_eq_true htext, ha, hcur]
    simp
  · rw [hres', hres, hsame]
    rfl

theorem matchNetPath_false (h : matchNetPath p = (false, q)) :
    q.result = p.result ∨ ∃ t, p.current = ascii "//" ++ t := by
  unfold matchNetPath seq at h
  split at h
  · rename_i r hr
    exact .inr ⟨_, text_eq_true (scan_eq hr).1⟩
  · rename_i r hr
    cases h
    exact .inl (scan_eq hr).2

variable {p : UriParser}

theorem matchPathAbsolute_slash {t : Bytes} (h : p.current = '/'.toUInt8 :: t) :
    ∃ q, matchPathAbsolute p = (true, q) := by
  rcases hm : matchPathAbsolute p with ⟨_ | _, q⟩
  · exfalso
    unfold matchPathAbsolute matchPathAs at hm
    split at hm
    · cases hm
    · rename_i u hu
      rw [h] at hu
      simp only [seq, matchLiteral, one, beq_self_eq_true, ite_true] at hu
      split at hu <;> cases hu
  · exact ⟨q, rfl⟩

theorem matchSegmentNz_true {s t : Bytes} (h : matchSegmentNz s = (true, t)) :
    ∃ b v, s = b :: v ∧ b ≠ '?'.toUInt8 ∧ b ≠ '#'.toUInt8 := by
  have hcount : 0 < (whileMatch matchPchar s).1 := of_decide_eq_true (congrArg Prod.fst h)
  obtain ⟨u, hu⟩ := whileMatch_pos (consumes_or_pct _) hcount
  rcases alt_eq_true hu with hone | ⟨s', hone, hpct⟩
  · obtain ⟨b, rfl, hb⟩ := one_eq_true hone
    refine ⟨b, u, rfl, ?_, ?_⟩ <;> rintro rfl <;> exact absurd hb (by decide)
  · obtain rfl := restores_one _ _ _ hone
    obtain ⟨v, rfl, -⟩ := matchPctEncoded_eq_true hpct
    exact ⟨37, v, rfl, by decide, by decide⟩

/-- The hierarchical part of a URI always matches. Without an authority the position stays, so a
path that is not empty leaves the parser stuck in front of it. -/
theorem matchHierPart_spec (p : UriParser) :
    ∃ q, matchHierPart p = (true, q) ∧
      (matchNetPath p = (true, q) ∨ Stuck p q ∨ q = { p with result := p.result.setPath [] }) := by
  unfold matchHierPart guarded
  rcases hnet : matchNetPath p with ⟨_ | _, q⟩
  · simp only
    rcases habs : matchPathAbsolute { q with current := p.current } with ⟨_ | _, r⟩
    · rw [matchPathAbsolute_false habs] at habs
      rcases hroot : matchPathRootless { q with current := p.current } with ⟨_ | _, r'⟩
      · rw [matchPathRootless_false hroot] at hroot
        simp only [alt, habs, hroot, matchPathEmpty]
        refine ⟨_, rfl, .inr (.inr ?_)⟩
        rcases matchNetPath_false hnet with hsame | ⟨t, ht⟩
        · rw [hsame]
        · -- two slashes would have been an absolute path
          obtain ⟨r', hr'⟩ := matchPathAbsolute_slash (p := { q with current := p.current }) ht
          rw [habs] at hr'
          cases hr'
      · simp only [alt, habs, hroot]
        refine ⟨_, rfl, .inr (.inl ⟨suffix_rfl, ?_⟩)⟩
        obtain ⟨u, hu, -⟩ := seq_eq_true (matchPathAs_current hroot)
        exact matchSegmentNz_true hu
    · simp only [alt, habs]
      refine ⟨_, rfl, .inr (.inl ⟨suffix_rfl, ?_⟩)⟩
      obtain ⟨u, hu, -⟩ := seq_eq_true (matchPathAs_current habs)
      obtain ⟨b, hb, hslash⟩ := one_eq_true hu
      refine ⟨b, u, hb, ?_⟩
      rw [beq_iff_eq.mp hslash]
      decide
  · exact ⟨q, rfl, .inl rfl⟩

/-- An absolute path stops in front of a second slash. -/
theorem matchPathAbsolute_slashes {t : Bytes}
    (h : p.current = ascii "//" ++ t) (hq : matchPathAbsolute p = (true, q)) :
    q.current = '/'.toUInt8 :: t := by
  have hcur := matchPathAs_current hq
  rw [h] at hcur
  exact (congrArg Prod.snd hcur).symm

theorem matchRelativePart_spec (p : UriParser) :
    ∃ q, matchRelativePart p = (true, q) ∧
      (matchNetPath p = (true, q) ∨ Stuck p q ∨
        ∃ v, IsPath v ∧ p.current = v ++ q.current ∧ q.result = p.result.setPath v) := by
  unfold matchRelativePart guarded
  rcases hnet : matchNetPath p with ⟨_ | _, q⟩
  · simp only
    rcases matchNetPath_false hnet with hsame | ⟨t, ht⟩
    · have hq : ({ q with current := p.current } : UriParser) = p := by rw [hsame]
      rw [hq]
      rcases habs : matchPathAbsolute p with ⟨_ | _, r⟩
      · obtain rfl := matchPathAbsolute_false habs
        rcases hnos : matchPathNoscheme r with ⟨_ | _, r'⟩
        · obtain rfl := matchPathNoscheme_false hnos
          simp only [alt, habs, hnos, matchPathEmpty]
          exact ⟨_, rfl, .inr (.inr ⟨[], isPathAbempty_nil.isPath, rfl, rfl⟩)⟩
        · simp only [alt, habs, hnos]
          exact ⟨_, rfl, .inr (.inr (matchPathNoscheme_true hnos))⟩
      · simp only [alt, habs]
        obtain ⟨v, hv, hpath⟩ := matchPathAbsolute_true habs
        exact ⟨_, rfl, .inr (.inr ⟨v, hv.isPath, hpath⟩)⟩
    · obtain ⟨r, hr⟩ := matchPathAbsolute_slash (p := { q with current := p.current }) ht
      have hstop := matchPathAbsolute_slashes (p := { q with current := p.current }) ht hr
      simp only [alt, hr]
      refine ⟨r, rfl, .inr (.inl ⟨?_, '/'.toUInt8, t, hstop, by decide, by decide⟩)⟩
      rw [hstop, ht]
      exact suffix_cons _ _
  · exact ⟨q, rfl, .inl rfl⟩

/-! ## The whole reference -/

theorem matchSchemeAndColon_true (h : matchSchemeAndColon p = (true, q)) :
    ∃ v, IsScheme v ∧ p.current = v ++ ascii ":" ++ q.current ∧
      q.result = p.result.setScheme v := by
  unfold matchSchemeAndColon at h
  split at h
  · cases h
  · rename_i u hu
    simp only at h
    split at h
    · rename_i t ht
      cases h
      obtain ⟨b, hb, halpha⟩ := one_eq_true hu
      obtain ⟨c, hc, hcolon⟩ := one_eq_true ht
      obtain ⟨v, hv, hrest⟩ := exists_whileMatch
        (P := fun v => ∀ c ∈ v, UriParserByteSets.scheme c = true) (consumes_one _)
        (restores_one _) (fun _ hmem => absurd hmem not_mem_nil) exists_one u
      have hcur : p.current = (b :: v) ++ ascii ":" ++ t := by
        rw [hb, hrest, hc, beq_iff_eq.mp hcolon]
        simp [ascii_colon]
      refine ⟨b :: v, ⟨b, v, rfl, halpha, hv⟩, hcur, ?_⟩
      have htake : p.current.take (length p.current t - 1) = b :: v := by
        rw [hcur]
        simp [length, ascii_colon,
          show v.length + (t.length + 1) + 1 - t.length - 1 = v.length + 1 by omega]
      rw [htake]
    · cases h

theorem matchSchemeAndColon_false (h : matchSchemeAndColon p = (false, q)) : q = p := by
  unfold matchSchemeAndColon at h
  split at h
  · cases h
    rfl
  · simp only at h
    split at h
    · cases h
    · cases h
      rfl

/-- The text is what the object writes and then what is left. -/
def Spelled (s : Bytes) (p : UriParser) : Prop := s = p.result.toString ++ p.current

/-- The text is spelled, and by an object of the grammar unless the text goes on where none of its
parts ends. -/
def Read (s : Bytes) (p : UriParser) : Prop :=
  Spelled s p ∧ (Ends stopsHierPart p.current → p.result.Accepted)

def Unfinished (s : Bytes) (p : UriParser) : Prop := p.current ≠ [] ∧ p.current <:+ s

theorem matchOptional_queryOrFragment (c : Char) (set : URI → Bytes → URI) (p : UriParser) :
    matchOptional c matchQueryOrFragment set p = p ∨
      ∃ v t, IsQueryOrFragment v ∧ p.current = c.toUInt8 :: (v ++ t) ∧
        matchOptional c matchQueryOrFragment set p =
          { current := t, result := set p.result v } := by
  rcases matchOptional_spec c advances_matchQueryOrFragment set p with
    heq | ⟨v, t, hcur, hm, heq⟩
  · exact .inl heq
  · obtain ⟨v', hv', happend⟩ := exists_queryOrFragment hm
    obtain rfl := append_cancel_right happend
    exact .inr ⟨v, t, hv', hcur, heq⟩

variable {s : Bytes}

theorem Read.query (h : Read s p)
    (hq : p.result.hasQuery = false) (hf : p.result.hasFragment = false) :
    Read s (matchOptional '?' matchQueryOrFragment URI.setQuery p) ∧
      (matchOptional '?' matchQueryOrFragment URI.setQuery p).result.hasFragment = false := by
  obtain ⟨hspelled, haccepted⟩ := h
  rcases matchOptional_queryOrFragment '?' URI.setQuery p with
    heq | ⟨v, t, hv, hcur, heq⟩ <;> rw [heq]
  · exact ⟨⟨hspelled, haccepted⟩, hf⟩
  · refine ⟨⟨?_, fun _ => (haccepted ?_).setQuery hv⟩, hf⟩
    · rw [Spelled, hspelled, hcur]
      simp [toString_setQuery hq hf, show ascii "?" = ['?'.toUInt8] from rfl]
    · rw [hcur]
      exact (by decide : stopsHierPart '?'.toUInt8 = true)

theorem Read.fragment (h : Read s p) (hf : p.result.hasFragment = false) :
    Read s (matchOptional '#' matchQueryOrFragment URI.setFragment p) := by
  obtain ⟨hspelled, haccepted⟩ := h
  rcases matchOptional_queryOrFragment '#' URI.setFragment p with
    heq | ⟨v, t, hv, hcur, heq⟩ <;> rw [heq]
  · exact ⟨hspelled, haccepted⟩
  · refine ⟨?_, fun _ => (haccepted ?_).setFragment hv⟩
    · rw [Spelled, hspelled, hcur]
      simp [toString_setFragment hf, show ascii "#" = ['#'.toUInt8] from rfl]
    · rw [hcur]
      exact (by decide : stopsHierPart '#'.toUInt8 = true)

theorem Stuck.unfinished (h : Stuck p q) (hs : p.current <:+ s) :
    matchOptional '?' matchQueryOrFragment URI.setQuery q = q ∧
      matchOptional '#' matchQueryOrFragment URI.setFragment q = q ∧ Unfinished s q := by
  obtain ⟨hsuf, b, t, hcur, hquery, hfrag⟩ := h
  refine ⟨matchOptional_skip advances_matchQueryOrFragment hcur hquery,
    matchOptional_skip advances_matchQueryOrFragment hcur hfrag, ?_, hsuf.trans hs⟩
  rw [hcur]
  exact cons_ne_nil _ _

theorem read_netPath {s scheme : Bytes} (hscheme : scheme = [] ∨ IsScheme scheme)
    (hs : s = optional (!scheme.isEmpty) (scheme ++ ascii ":") ++ p.current)
    (hp : p.result = ({} : URI).setScheme scheme) (hnet : matchNetPath p = (true, q)) :
    Read s q ∧ q.result.hasQuery = false ∧ q.result.hasFragment = false := by
  obtain ⟨a, v, hv, ha, hcur, hres⟩ := matchNetPath_true (by rw [hp]; rfl) hnet
  refine ⟨⟨?_, fun hends => ?_⟩, by rw [hres, hp]; rfl, by rw [hres, hp]; rfl⟩
  · rw [Spelled, hs, hcur, hres, hp]
    simp [URI.toString, URI.setScheme]
  · rw [hres, hp]
    exact {
      scheme := hscheme
      path := hv.isPath
      authority := fun _ => ⟨ha hends, hv⟩
      noAuthority := fun h => absurd h (by simp)
      query := fun h => absurd h (by simp [URI.setScheme])
      noQuery := fun _ => rfl
      fragment := fun h => absurd h (by simp [URI.setScheme])
      noFragment := fun _ => rfl
      rooted := fun _ h => absurd h (by simp) }

theorem read_path {s scheme v : Bytes} (hscheme : scheme = [] ∨ IsScheme scheme)
    (hs : s = optional (!scheme.isEmpty) (scheme ++ ascii ":") ++ p.current)
    (hp : p.result = ({} : URI).setScheme scheme) (hv : IsPath v)
    (hrooted : scheme ≠ [] → v = []) (hcur : p.current = v ++ q.current)
    (hres : q.result = p.result.setPath v) :
    Read s q ∧ q.result.hasQuery = false ∧ q.result.hasFragment = false := by
  refine ⟨⟨?_, fun _ => ?_⟩, by rw [hres, hp]; rfl, by rw [hres, hp]; rfl⟩
  · rw [Spelled, hs, hcur, hres, hp]
    simp [URI.toString, URI.setScheme, URI.setPath]
  · rw [hres, hp]
    exact {
      scheme := hscheme
      path := hv
      authority := fun h => absurd h (by simp [URI.setScheme, URI.setPath])
      noAuthority := fun _ => rfl
      query := fun h => absurd h (by simp [URI.setScheme, URI.setPath])
      noQuery := fun _ => rfl
      fragment := fun h => absurd h (by simp [URI.setScheme, URI.setPath])
      noFragment := fun _ => rfl
      rooted := fun h _ => hrooted h }

theorem matchURI_spec (s : Bytes) :
    matchURI { current := s, result := {} } = (false, { current := s, result := {} }) ∨
      ∃ q, matchURI { current := s, result := {} } = (true, q) ∧ (Read s q ∨ Unfinished s q) := by
  unfold matchURI guarded seq
  rcases hscheme : matchSchemeAndColon { current := s, result := {} } with ⟨_ | _, p⟩
  · obtain rfl := matchSchemeAndColon_false hscheme
    exact .inl rfl
  · right
    obtain ⟨v, hv, hcur, hres⟩ := matchSchemeAndColon_true hscheme
    have hne : v.isEmpty = false := by
      obtain ⟨b, t, rfl, -⟩ := hv
      rfl
    have hs : s = optional (!v.isEmpty) (v ++ ascii ":") ++ p.current := by
      rw [hne]
      exact hcur
    obtain ⟨q, hq, hcases⟩ := matchHierPart_spec p
    simp only [hq]
    refine ⟨_, rfl, ?_⟩
    rcases hcases with hnet | hstuck | rfl
    · obtain ⟨hread, hnoquery, hnofrag⟩ := read_netPath (.inr hv) hs hres hnet
      obtain ⟨hquery, hfrag⟩ := hread.query hnoquery hnofrag
      exact .inl (hquery.fragment hfrag)
    · obtain ⟨hquery, hfrag, hleft⟩ := hstuck.unfinished (s := s) ⟨v ++ ascii ":", hcur.symm⟩
      rw [hquery, hfrag]
      exact .inr hleft
    · obtain ⟨hread, hnoquery, hnofrag⟩ := read_path
        (q := { p with result := p.result.setPath [] }) (.inr hv) hs hres
        isPathAbempty_nil.isPath (fun _ => rfl) rfl rfl
      obtain ⟨hquery, hfrag⟩ := hread.query hnoquery hnofrag
      exact .inl (hquery.fragment hfrag)

theorem matchRelativeRef_spec (s : Bytes) :
    ∃ q, matchRelativeRef { current := s, result := {} } = (true, q) ∧
      (Read s q ∧ q.result.hasFragment = false ∨ Unfinished s q) := by
  unfold matchRelativeRef guarded
  obtain ⟨q, hq, hcases⟩ := matchRelativePart_spec { current := s, result := {} }
  simp only [hq]
  refine ⟨_, rfl, ?_⟩
  rcases hcases with hnet | hstuck | ⟨path, hpath, hcur, hres⟩
  · obtain ⟨hread, hnoquery, hnofrag⟩ := @read_netPath _ _ s [] (.inl rfl) rfl rfl hnet
    exact .inl (hread.query hnoquery hnofrag)
  · obtain ⟨hquery, -, hleft⟩ := hstuck.unfinished (s := s) suffix_rfl
    rw [hquery]
    exact .inr hleft
  · obtain ⟨hread, hnoquery, hnofrag⟩ := @read_path _ _ s [] _ (.inl rfl) rfl rfl hpath
      (fun h => absurd rfl h) hcur hres
    exact .inl (hread.query hnoquery hnofrag)

/-- The parser leaves a text that its object spells, or some of the text. -/
theorem matchURIReference_spec (s : Bytes) :
    ∃ q, matchURIReference { current := s, result := {} } = (true, q) ∧
      (Read s q ∨ Unfinished s q) := by
  unfold matchURIReference alt
  rcases matchURI_spec s with h | ⟨q, h, hq⟩
  · rw [h]
    obtain ⟨q, hq, hcases⟩ := matchRelativeRef_spec s
    exact ⟨q, hq, hcases.imp_left And.left⟩
  · rw [h]
    exact ⟨q, rfl, hq⟩

theorem Unfinished.length_lt {s : Bytes} {p : UriParser} (h : Unfinished s p) :
    length s p.current < s.length := by
  have := length_pos_iff.mpr h.1
  have := h.2.length_le
  rw [length]
  omega

end UriParser

namespace URI

theorem spelled_of_parse {s : Bytes} {u : URI} (h : parse s = (true, u)) :
    u.toString = s ∧ u.Accepted := by
  obtain ⟨q, hq, hcases⟩ := UriParser.matchURIReference_spec s
  simp only [parse, parseBuffer, hq, UriParser.length, Prod.mk.injEq, beq_iff_eq] at h
  obtain ⟨hlen, rfl⟩ := h
  rcases hcases with ⟨hspelled, haccepted⟩ | hleft
  · have hrest : q.current = [] := by
      have := congrArg List.length hspelled
      rw [length_append] at this
      exact length_eq_zero_iff.mp (by omega)
    rw [hrest] at haccepted
    rw [UriParser.Spelled, hrest, append_nil] at hspelled
    exact ⟨hspelled.symm, haccepted trivial⟩
  · exact absurd hlen hleft.length_lt.ne

/-- **URI round trip.** A string that `URI::Parse` accepts is what `URI::ToString` gives. -/
theorem toString_eq_of_parse {s : Bytes} {u : URI} (h : parse s = (true, u)) : u.toString = s :=
  (spelled_of_parse h).1

/-- A string with every component. -/
theorem toString_eq_of_parse_http :
    (parse (ascii "http://u@a.b:1/c?d#e")).1 = true ∧
      (parse (ascii "http://u@a.b:1/c?d#e")).2.toString = ascii "http://u@a.b:1/c?d#e" :=
  ⟨by decide, toString_eq_of_parse (s := ascii "http://u@a.b:1/c?d#e")
    (Prod.ext (by decide) rfl)⟩

end URI

end Toft

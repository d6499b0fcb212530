import Toft.Net.Uri.Grammar

/-!
# An authority is read the same wherever it stands

The scanners of the authority do not look beyond a slash, a question mark or a number sign. The
search for an `@` does, but what it finds there changes nothing (`matchOptionalUserinfo_eq`). So an
authority that was read once is read again in front of any other path, query or fragment
(`IsAuthority.matchAuthority`).
-/

namespace Toft

open Lib Lib.Matcher Lib.Scanner ByteSet List URI UriParserByteSets

namespace UriParser

open UriGrammar

/-! ## Texts between positions -/

theorem ascii_at : ascii "@" = ['@'.toUInt8] := rfl

theorem ascii_colon : ascii ":" = [':'.toUInt8] := rfl

theorem ascii_slashes : ascii "//" = ['/'.toUInt8, '/'.toUInt8] := rfl

theorem take_length {s t : Bytes} (h : t <:+ s) : s.take (length s t) ++ t = s := by
  obtain ⟨v, rfl⟩ := h
  simp [length]

theorem matchOptional_spec (c : Char) {m : Scanner UInt8} (hm : Advances m)
    (set : URI → Bytes → URI) (p : UriParser) :
    matchOptional c m set p = p ∨
      ∃ v t, p.current = c.toUInt8 :: (v ++ t) ∧ m (v ++ t) = (true, t) ∧
        matchOptional c m set p = { current := t, result := set p.result v } := by
  unfold matchOptional
  split
  · rename_i t ht
    right
    obtain ⟨u, hu, hmu⟩ := seq_eq_true (attempt_eq_true ht)
    obtain ⟨b, hb, hbc⟩ := one_eq_true hu
    obtain ⟨v, rfl⟩ := hm.eq hmu
    refine ⟨v, t, ?_, hmu, ?_⟩
    · rw [hb, beq_iff_eq.mp hbc]
    · simp [hb, length, show v.length + t.length + 1 - t.length - 1 = v.length by omega]
  · exact .inl rfl

theorem matchOptional_skip {c : Char} {m : Scanner UInt8} (hm : Advances m)
    {set : URI → Bytes → URI} {p : UriParser} {b : UInt8} {t : Bytes} (hp : p.current = b :: t)
    (hb : b ≠ c.toUInt8) : matchOptional c m set p = p := by
  rcases matchOptional_spec c hm set p with h | ⟨v, t', h, -, -⟩
  · exact h
  · rw [hp] at h
    exact absurd (List.cons.inj h).1 hb

/-! ## Authority -/

theorem matchOptionalUserinfo_spec {p : UriParser} (hp : p.result.authority = {}) :
    ∃ a present, (matchOptionalUserinfo p).result =
        { p.result with hasAuthority := present, authority := a } ∧
      a.host = [] ∧ a.hasPort = false ∧
      p.current = authorityText a ++ (matchOptionalUserinfo p).current := by
  have hskip : ∃ a present, p.result = { p.result with hasAuthority := present, authority := a } ∧
      a.host = [] ∧ a.hasPort = false ∧ p.current = authorityText a ++ p.current :=
    ⟨{}, p.result.hasAuthority, by rw [← hp], rfl, rfl, rfl⟩
  unfold matchOptionalUserinfo
  split
  · split
    · rename_i t ht
      obtain ⟨u, hu, hat⟩ := seq_eq_true (attempt_eq_true ht)
      obtain ⟨b, rfl, hbc⟩ := one_eq_true hat
      obtain ⟨v, hv⟩ := advances_matchUserinfo.eq hu
      rw [beq_iff_eq.mp hbc] at hv
      have htake : p.current.take (length p.current t - 1) = v := by
        simp [← hv, length, show v.length + (t.length + 1) - t.length - 1 = v.length by omega]
      refine ⟨{ hasUserInfo := true, userInfo := v }, true, ?_, rfl, rfl, ?_⟩
      · simp only [htake, setUserInfo, hp]
      · rw [← hv]
        simp [authorityText, ascii_at]
    · exact hskip
  · exact hskip

variable {p q : UriParser}

theorem matchHost_spec (h : matchHost p = (true, q)) :
    ∃ v, p.current = v ++ q.current ∧ q.result = p.result.setHost v := by
  unfold matchHost at h
  split at h
  · rename_i t ht
    cases h
    have hadv : t <:+ p.current :=
      (advances_matchHostname.alt ((advances_matchIPv4Fields 3).attempt.alt
        (fun _ => suffix_rfl))).eq ht
    exact ⟨_, (take_length hadv).symm, rfl⟩
  · cases h

/-- An authority that matches is written as it was read. -/
theorem matchAuthority_spec (hp : p.result.authority = {}) (h : matchAuthority p = (true, q)) :
    ∃ a, p.current = authorityText a ++ q.current ∧
      q.result = { p.result with hasAuthority := true, authority := a } := by
  obtain ⟨a, present, hres, hhost, hport, hcur⟩ := matchOptionalUserinfo_spec hp
  unfold matchAuthority at h
  split at h
  · rename_i r hr
    cases h
    obtain ⟨v, hv, hr'⟩ := matchHost_spec hr
    have hr'' : r.result =
        { p.result with hasAuthority := true, authority := { a with host := v } } := by
      rw [hr', hres]
      rfl
    have hcur' : p.current = authorityText { a with host := v } ++ r.current := by
      rw [hcur, hv]
      simp [authorityText, hhost, hport]
    rcases matchOptional_spec ':' advances_matchPort setPort r with hq | ⟨port, t, ht, -, hq⟩
    · rw [hq]
      exact ⟨_, hcur', hr''⟩
    · rw [hq]
      refine ⟨{ a with host := v, hasPort := true, port := port }, ?_, ?_⟩
      · rw [hcur', ht]
        simp [authorityText, hport, ascii_colon]
      · simp only [hr'', setPort]
  · cases h

/-! ## Stop bytes -/

def stopsAuthority : ByteSet := fun c =>
  c == '/'.toUInt8 || c == '?'.toUInt8 || c == '#'.toUInt8

theorem stopsAuthority_iff {c : UInt8} :
    stopsAuthority c = true ↔ c = '/'.toUInt8 ∨ c = '?'.toUInt8 ∨ c = '#'.toUInt8 := by
  simp only [stopsAuthority, Bool.or_eq_true, beq_iff_eq, or_assoc]

/-! ## The scanners -/

theorem local_matchPctEncoded : Local stopsAuthority matchPctEncoded := by
  intro s r hr
  rcases h : matchPctEncoded s with ⟨_ | _, t⟩
  · obtain rfl := restores_matchPctEncoded s t h
    have hfail {e : Bytes} (he : PctEncoded e) (u : Bytes) : t ≠ e ++ u := by
      rintro rfl
      rw [matchPctEncoded_append he] at h
      cases h
    rcases h' : matchPctEncoded (t ++ r) with ⟨_ | _, t'⟩
    · rw [restores_matchPctEncoded _ _ h']
    · -- an escape that begins in front of the stop would contain it
      exfalso
      obtain ⟨e, he, happend⟩ := exists_pctEncoded h'
      rcases append_eq_append_iff.mp happend with ⟨u, rfl, hu⟩ | ⟨u, htu, -⟩
      · cases u with
        | nil => exact hfail he [] (by simp)
        | cons c u =>
          rw [hu] at hr
          have hc : hexSet c = false ∧ c ≠ percent ∧ c ≠ 'u'.toUInt8 := by
            rcases stopsAuthority_iff.mp hr with rfl | rfl | rfl <;> decide
          exact he.notMem hc (by simp)
      · exact hfail he u htu
  · obtain ⟨e, he, rfl⟩ := exists_pctEncoded h
    rw [append_assoc, matchPctEncoded_append he]

theorem local_byteSet {set : ByteSet} (hslash : set '/'.toUInt8 = false)
    (hquery : set '?'.toUInt8 = false) (hfragment : set '#'.toUInt8 = false) :
    Local stopsAuthority (one set) := by
  refine local_one fun c hc => ?_
  rcases stopsAuthority_iff.mp hc with rfl | rfl | rfl
  · exact hslash
  · exact hquery
  · exact hfragment

theorem local_hyphen : Local stopsAuthority (matchLiteral '-') :=
  local_byteSet (by decide) (by decide) (by decide)

theorem local_dot : Local stopsAuthority (matchLiteral '.') :=
  local_byteSet (by decide) (by decide) (by decide)

theorem local_digit : Local stopsAuthority (one digitSet) :=
  local_byteSet (by decide) (by decide) (by decide)

theorem local_matchLabelRest : Local stopsAuthority matchLabelRest := by
  intro s r hr
  have hlocal : Local stopsAuthority
      fun s => one alphaNumSet (whileMatch (matchLiteral '-') s).2 := by
    intro s r hr
    have halpha : Local stopsAuthority (one alphaNumSet) :=
      local_byteSet (by decide) (by decide) (by decide)
    simp only [Local.whileMatch local_hyphen (consumes_one _) s hr, halpha _ r hr]
  have hcons : Consumes fun s => one alphaNumSet (whileMatch (matchLiteral '-') s).2 :=
    fun s t h => Nat.lt_of_lt_of_le (consumes_one _ _ t h) (advances_hyphens s).length_le
  simp only [matchLabelRest, Local.whileMatch hlocal hcons s hr]
  split <;> rfl

theorem local_matchDomainlabel : Local stopsAuthority matchDomainlabel :=
  ((local_byteSet (by decide) (by decide) (by decide)).seq local_matchLabelRest).attempt

theorem local_matchToplabel : Local stopsAuthority matchToplabel :=
  ((local_byteSet (by decide) (by decide) (by decide)).seq local_matchLabelRest).attempt

theorem local_matchHostname : Local stopsAuthority matchHostname := by
  refine Local.attempt fun s r hr => ?_
  have hcons : Consumes (attempt (seq matchDomainlabel (matchLiteral '.'))) :=
    (consumes_matchDomainlabel.seq (advances_one _)).attempt
  simp only [Local.whileMatch (local_matchDomainlabel.seq local_dot).attempt hcons s hr]
  rcases h : matchToplabel (whileMatch (attempt (seq matchDomainlabel (matchLiteral '.'))) s).2 with
    ⟨_ | _, t⟩
  · rw [local_matchToplabel.eq hr h]
  · rw [local_matchToplabel.eq hr h]
    simp only [local_dot t r hr]

theorem local_matchIPv4Fields (n : Nat) : Local stopsAuthority (matchIPv4Fields n) := by
  induction n with
  | zero =>
    intro s r hr
    rcases h : one digitSet s with ⟨_ | _, t⟩
    · simp only [matchIPv4Fields, h, local_digit.eq hr h]
    · simp only [matchIPv4Fields, h, local_digit.eq hr h,
        Local.whileMatch local_digit (consumes_one _) t hr]
  | succ n ih =>
    intro s r hr
    rcases h : one digitSet s with ⟨_ | _, t⟩
    · simp only [matchIPv4Fields, h, local_digit.eq hr h, ih t r hr]
    · simp only [matchIPv4Fields, h, local_digit.eq hr h,
        Local.whileMatch local_digit (consumes_one _) t hr]
      exact (local_dot.seq ih) _ r hr

theorem local_host :
    Local stopsAuthority (alt matchRegName (alt matchIPv4address matchIPLiteral)) :=
  local_matchHostname.alt ((local_matchIPv4Fields 3).attempt.alt fun _ _ _ => rfl)

theorem local_userinfo : Local stopsAuthority (attempt (seq matchUserinfo (matchLiteral '@'))) := by
  refine Local.attempt (Local.seq (fun s r hr => ?_) (local_byteSet ?_ ?_ ?_))
  · have hround : Local stopsAuthority (charOf userinfo) :=
      (local_byteSet (by decide) (by decide) (by decide)).alt local_matchPctEncoded
    simp only [matchUserinfo, Local.whileMatch hround (consumes_or_pct _) s hr]
  all_goals decide

theorem local_port : Local stopsAuthority (attempt (seq (matchLiteral ':') matchPort)) := by
  refine Local.attempt (Local.seq (local_byteSet ?_ ?_ ?_) fun s r hr => ?_)
  case refine_4 => simp only [matchPort, Local.whileMatch local_digit (consumes_one _) s hr]
  all_goals decide

/-! ## The search for user info -/

theorem maybeContainsUserinfo_append {v : Bytes} (hv : UriGrammar.slash ∉ v) (t : Bytes) :
    maybeContainsUserinfo (v ++ '@'.toUInt8 :: t) = true := by
  induction v with
  | nil => rfl
  | cons c v ih =>
    have hc : c ≠ '/'.toUInt8 := fun hc => hv (hc ▸ mem_cons_self)
    rw [cons_append, maybeContainsUserinfo, if_neg hc,
      ih fun hmem => hv (mem_cons_of_mem c hmem), ite_self]

/-- User info that matches stands before the next slash, so the search may be left out. -/
theorem matchOptionalUserinfo_eq (p : UriParser) :
    matchOptionalUserinfo p =
      match attempt (seq matchUserinfo (matchLiteral '@')) p.current with
      | (true, s) =>
        { current := s, result := p.result.setUserInfo (p.current.take (length p.current s - 1)) }
      | (false, _) => p := by
  unfold matchOptionalUserinfo
  split
  · rfl
  · rename_i hsearch
    split
    · rename_i t ht
      obtain ⟨u, hu, hat⟩ := seq_eq_true (attempt_eq_true ht)
      obtain ⟨b, rfl, hb⟩ := one_eq_true hat
      obtain ⟨v, hv, hcur⟩ := @exists_chars userinfo p.current
      have hrest : (whileMatch (charOf userinfo) p.current).2 = b :: t := congrArg Prod.snd hu
      rw [hcur, hrest, beq_iff_eq.mp hb] at hsearch
      exact absurd (maybeContainsUserinfo_append (hv.notMem (by decide) (by decide)) t) hsearch
    · rfl

/-! ## The authority in front of another text -/

def extend (p : UriParser) (r : Bytes) : UriParser := { p with current := p.current ++ r }

theorem take_extend {s t : Bytes} (h : t <:+ s) (r : Bytes) (k : Nat) :
    (s ++ r).take (length (s ++ r) (t ++ r) - k) = s.take (length s t - k) := by
  have hlen := h.length_le
  have hcount : length (s ++ r) (t ++ r) = length s t := by
    simp only [length, length_append]
    omega
  rw [hcount, take_append_of_le_length]
  simp only [length]
  omega

section extend

variable {p : UriParser} {r : Bytes} (hr : Ends stopsAuthority r)

include hr

theorem matchOptionalUserinfo_extend :
    matchOptionalUserinfo (p.extend r) = (matchOptionalUserinfo p).extend r := by
  rw [matchOptionalUserinfo_eq, matchOptionalUserinfo_eq]
  rcases h : attempt (seq matchUserinfo (matchLiteral '@')) p.current with ⟨_ | _, t⟩
  · simp only [extend, local_userinfo.eq hr h]
  · have hadv : t <:+ p.current := (advances_matchUserinfo.seq (advances_one _)).attempt.eq h
    simp only [extend, local_userinfo.eq hr h, take_extend hadv r 1]

theorem matchHost_extend :
    matchHost (p.extend r) = ((matchHost p).1, (matchHost p).2.extend r) := by
  unfold matchHost
  rcases h : alt matchRegName (alt matchIPv4address matchIPLiteral) p.current with ⟨_ | _, t⟩
  · simp only [extend, local_host.eq hr h]
  · have hadv : t <:+ p.current :=
      (advances_matchHostname.alt ((advances_matchIPv4Fields 3).attempt.alt
        (fun _ => suffix_rfl))).eq h
    simp only [extend, local_host.eq hr h, Prod.mk.injEq, UriParser.mk.injEq, true_and]
    exact congrArg _ (take_extend hadv r 0)

theorem matchPort_extend :
    matchOptional ':' matchPort setPort (p.extend r) =
      (matchOptional ':' matchPort setPort p).extend r := by
  unfold matchOptional
  rcases h : attempt (seq (matchLiteral ':') matchPort) p.current with ⟨_ | _, t⟩
  · simp only [extend, local_port.eq hr h]
  · obtain ⟨u, hu, hport⟩ := seq_eq_true (attempt_eq_true h)
    obtain ⟨b, hb, -⟩ := one_eq_true hu
    have htake := take_extend (advances_matchPort.eq hport) r 0
    have hlen (s t : Bytes) : length (b :: s) t - 1 = length s t := by
      simp only [length, length_cons]
      omega
    simp only [extend, local_port.eq hr h]
    simp only [hb, cons_append, drop_succ_cons, drop_zero, hlen]
    exact congrArg (fun text => UriParser.mk (t ++ r) (setPort p.result text)) htake

theorem matchAuthority_extend :
    matchAuthority (p.extend r) = ((matchAuthority p).1, (matchAuthority p).2.extend r) := by
  unfold matchAuthority
  rw [matchOptionalUserinfo_extend hr, matchHost_extend hr]
  rcases h : matchHost (matchOptionalUserinfo p) with ⟨_ | _, q⟩
  · rfl
  · simp only [matchPort_extend hr]

end extend

/-- Two parsers in front of one text with one authority set so far. -/
def SameAuthority (p p' : UriParser) : Prop :=
  p'.current = p.current ∧ p'.result.authority = p.result.authority

theorem SameAuthority.userinfo {p p' : UriParser} (h : SameAuthority p p') :
    SameAuthority (matchOptionalUserinfo p) (matchOptionalUserinfo p') ∧
      ∃ present a, (matchOptionalUserinfo p').result =
        { p'.result with hasAuthority := present, authority := a } := by
  obtain ⟨hcur, hauth⟩ := h
  rw [matchOptionalUserinfo_eq, matchOptionalUserinfo_eq, hcur]
  split
  · exact ⟨⟨rfl, by simp only [setUserInfo, hauth]⟩, _, _, rfl⟩
  · exact ⟨⟨hcur, hauth⟩, _, _, rfl⟩

theorem SameAuthority.host {p p' q : UriParser} (h : SameAuthority p p')
    (hq : matchHost p = (true, q)) :
    ∃ q', matchHost p' = (true, q') ∧ SameAuthority q q' ∧
      ∃ a, q'.result = { p'.result with hasAuthority := true, authority := a } := by
  obtain ⟨hcur, hauth⟩ := h
  unfold matchHost at hq ⊢
  rw [hcur]
  split at hq
  · cases hq
    exact ⟨_, rfl, ⟨rfl, by simp only [setHost, hauth]⟩, _, rfl⟩
  · cases hq

theorem SameAuthority.port {p p' : UriParser} (h : SameAuthority p p')
    (hpresent : p'.result.hasAuthority = true) :
    SameAuthority (matchOptional ':' matchPort setPort p)
        (matchOptional ':' matchPort setPort p') ∧
      ∃ a, (matchOptional ':' matchPort setPort p').result =
        { p'.result with hasAuthority := true, authority := a } := by
  obtain ⟨hcur, hauth⟩ := h
  unfold matchOptional
  rw [hcur]
  split
  · exact ⟨⟨rfl, by simp only [setPort, hauth]⟩, _, rfl⟩
  · exact ⟨⟨hcur, hauth⟩, p'.result.authority, by rw [← hpresent]⟩

theorem SameAuthority.matchAuthority {p p' q : UriParser} (h : SameAuthority p p')
    (hq : matchAuthority p = (true, q)) :
    UriParser.matchAuthority p' =
      (true, { current := q.current,
               result := { p'.result with
                 hasAuthority := true, authority := q.result.authority } }) := by
  obtain ⟨hsame₁, present, a₁, hresult₁⟩ := h.userinfo
  unfold UriParser.matchAuthority at hq ⊢
  split at hq
  · rename_i q₁ hhost
    cases hq
    obtain ⟨q₂, hhost₂, hsame₂, a₂, hresult₂⟩ := hsame₁.host hhost
    obtain ⟨⟨hcur, hauth⟩, a₃, hresult₃⟩ := hsame₂.port (by rw [hresult₂])
    rw [hresult₃] at hauth
    have hresult : (matchOptional ':' matchPort setPort q₂).result = { p'.result with
          hasAuthority := true
          authority := (matchOptional ':' matchPort setPort q₁).result.authority } := by
      rw [hresult₃, hresult₂, hresult₁, ← hauth]
    rw [hhost₂, ← hcur, ← hresult]
  · cases hq

/-- The text of an authority that is read as this authority. -/
def IsAuthority (a : UriAuthority) : Prop :=
  matchAuthority { current := authorityText a, result := {} } =
    (true, { current := [], result := { hasAuthority := true, authority := a } })

/-- What was read in front of a stop byte is read alone. -/
theorem isAuthority_of_matchAuthority (hp : p.result.authority = {})
    (hr : Ends stopsAuthority q.current) (h : matchAuthority p = (true, q)) :
    ∃ a, IsAuthority a ∧ p.current = authorityText a ++ q.current ∧
      q.result = { p.result with hasAuthority := true, authority := a } := by
  obtain ⟨a, hcur, hresult⟩ := matchAuthority_spec hp h
  refine ⟨a, ?_, hcur, hresult⟩
  have halone := matchAuthority_extend (p := { p with current := authorityText a }) hr
  have hp' : ({ p with current := authorityText a } : UriParser).extend q.current = p := by
    rw [extend, ← hcur]
  rw [hp', h] at halone
  rcases hread : matchAuthority { p with current := authorityText a } with ⟨ok, q'⟩
  rw [hread] at halone
  obtain ⟨rfl, hq⟩ := Prod.mk.inj halone
  have hnil : q'.current = [] := append_left_eq_self.mp (congrArg UriParser.current hq).symm
  have hresult' : q'.result = q.result := (congrArg UriParser.result hq).symm
  have hsame : SameAuthority { p with current := authorityText a }
      { current := authorityText a, result := {} } := ⟨rfl, hp.symm⟩
  have hempty := hsame.matchAuthority hread
  rwa [hnil, hresult', hresult] at hempty

theorem IsAuthority.matchAuthority {a : UriAuthority} (ha : IsAuthority a) {u : URI}
    (hu : u.authority = {}) {r : Bytes} (hr : Ends stopsAuthority r) :
    UriParser.matchAuthority { current := authorityText a ++ r, result := u } =
      (true, { current := r, result := { u with hasAuthority := true, authority := a } }) := by
  have hsame : SameAuthority { current := authorityText a, result := {} }
      { current := authorityText a, result := u } := ⟨rfl, hu⟩
  have halone := hsame.matchAuthority ha
  have hextend := matchAuthority_extend (p := { current := authorityText a, result := u }) hr
  rw [halone] at hextend
  exact hextend

end UriParser

end Toft

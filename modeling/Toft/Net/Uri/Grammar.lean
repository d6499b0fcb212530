import Toft.Lib.Segments
import Toft.Net.Uri.Scanners

/-!
# The grammar of the parser's comments

The parts of a URI as the comments of the parser derive them, and that the scanners take exactly
such parts: a loop over a set and escapes reads a text of the grammar up to a byte that starts no
other round (`whileMatch_chars`), and what it reads is of the grammar (`exists_chars`).
-/

namespace Toft

open Lib Lib.Matcher Lib.Scanner Lib.Segments ByteSet List UriParserByteSets Matcher

namespace UriGrammar

abbrev slash : UInt8 := '/'.toUInt8

abbrev percent : UInt8 := '%'.toUInt8

/-- `escaped = "%" hex hex | "%u" hex hex hex hex`. -/
inductive PctEncoded : Bytes → Prop
  | two {a b : UInt8} : hexSet a = true → hexSet b = true → PctEncoded [percent, a, b]
  | four {a b c d : UInt8} : hexSet a = true → hexSet b = true → hexSet c = true →
      hexSet d = true → PctEncoded [percent, 'u'.toUInt8, a, b, c, d]

/-- Bytes of a set and escapes, in any number. -/
inductive Chars (set : ByteSet) : Bytes → Prop
  | nil : Chars set []
  | byte {b : UInt8} {s : Bytes} : set b = true → Chars set s → Chars set (b :: s)
  | escaped {e s : Bytes} : PctEncoded e → Chars set s → Chars set (e ++ s)

/-- `scheme`. -/
def IsScheme (s : Bytes) : Prop :=
  ∃ b t, s = b :: t ∧ alphaSet b = true ∧ ∀ c ∈ t, scheme c = true

/-- `segment`. -/
def IsSegment (s : Bytes) : Prop := Chars pchar s

/-- `path-abempty`. -/
def IsPathAbempty (s : Bytes) : Prop :=
  ∃ segments, (∀ segment ∈ segments, IsSegment segment) ∧ s = behind slash segments

/-- `path-rootless`. -/
def IsPathRootless (s : Bytes) : Prop :=
  ∃ first rest, first ≠ [] ∧ IsSegment first ∧ IsPathAbempty rest ∧ s = first ++ rest

/-- `path-absolute`. -/
def IsPathAbsolute (s : Bytes) : Prop := ∃ t, s = slash :: t ∧ (t = [] ∨ IsPathRootless t)

/-- A segment and then others behind slashes: what all kinds of paths have in common. -/
def IsPath (s : Bytes) : Prop :=
  ∃ first rest, IsSegment first ∧ IsPathAbempty rest ∧ s = first ++ rest

/-- `query` and `fragment`. -/
def IsQueryOrFragment (s : Bytes) : Prop := Chars queryOrFragment s

/-! ## Texts of the grammar -/

theorem Chars.append {set : ByteSet} {s t : Bytes} (hs : Chars set s) (ht : Chars set t) :
    Chars set (s ++ t) := by
  induction hs with
  | nil => exact ht
  | byte hb _ ih => exact .byte hb ih
  | escaped he _ ih => rw [append_assoc]; exact .escaped he ih

theorem PctEncoded.notMem {b : UInt8} (hb : hexSet b = false ∧ b ≠ percent ∧ b ≠ 'u'.toUInt8)
    {e : Bytes} (he : PctEncoded e) : b ∉ e := by
  obtain ⟨hhex, hp, hu⟩ := hb
  have hne {a : UInt8} (ha : hexSet a = true) : b ≠ a := by
    rintro rfl
    rw [hhex] at ha
    cases ha
  cases he with
  | two h₁ h₂ => simp [hp, hne h₁, hne h₂]
  | four h₁ h₂ h₃ h₄ => simp [hp, hu, hne h₁, hne h₂, hne h₃, hne h₄]

variable {s : Bytes}

theorem Chars.notMem {set : ByteSet} {b : UInt8}
    (hb : hexSet b = false ∧ b ≠ percent ∧ b ≠ 'u'.toUInt8) (hset : set b = false)
    (hs : Chars set s) : b ∉ s := by
  induction hs with
  | nil => exact not_mem_nil
  | byte hb _ ih =>
    refine not_mem_cons_of_ne_of_not_mem ?_ ih
    rintro rfl
    rw [hset] at hb
    cases hb
  | escaped he _ ih => exact fun hmem => (mem_append.mp hmem).elim (he.notMem hb) ih

theorem IsSegment.slash_notMem (hs : IsSegment s) : slash ∉ s :=
  Chars.notMem (by decide) (by decide) hs

theorem IsPathAbempty.cons {segment rest : Bytes} (hsegment : IsSegment segment)
    (hrest : IsPathAbempty rest) : IsPathAbempty (slash :: (segment ++ rest)) := by
  obtain ⟨segments, hsegments, rfl⟩ := hrest
  exact ⟨segment :: segments, forall_mem_cons.mpr ⟨hsegment, hsegments⟩, rfl⟩

theorem isPathAbempty_nil : IsPathAbempty [] := ⟨[], fun _ hmem => absurd hmem not_mem_nil, rfl⟩

theorem IsPathAbempty.isPath (hs : IsPathAbempty s) : IsPath s := ⟨[], s, .nil, hs, rfl⟩

end UriGrammar

namespace UriParser

open UriGrammar

/-! ## Escapes -/

theorem matchPctEncoded_append {e : Bytes} (he : PctEncoded e) (t : Bytes) :
    matchPctEncoded (e ++ t) = (true, t) := by
  cases he with
  | @two a b ha hb =>
    change matchPctEncoded (37 :: a :: b :: t) = _
    simp [matchPctEncoded, ha, hb]
  | @four a b c d ha hb hc hd =>
    have hu : hexSet 117 = false := by decide
    change matchPctEncoded (37 :: 117 :: a :: b :: c :: d :: t) = _
    simp [matchPctEncoded, ha, hb, hc, hd, hu]

variable {s t : Bytes}

theorem exists_pctEncoded (h : matchPctEncoded s = (true, t)) : ∃ e, PctEncoded e ∧ s = e ++ t := by
  unfold matchPctEncoded at h
  split at h
  · rename_i a b t'
    split at h
    · rename_i hab
      cases h
      rw [Bool.and_eq_true] at hab
      exact ⟨_, .two hab.1 hab.2, rfl⟩
    · split at h
      · rename_i c d e t' _ _
        split at h
        · rename_i hhex
          cases h
          simp only [Bool.and_eq_true] at hhex
          obtain ⟨⟨⟨hb, hc⟩, hd⟩, he⟩ := hhex
          exact ⟨_, .four hb hc hd he, rfl⟩
        · cases h
      · cases h
  · cases h

/-! ## Loops over a set and escapes -/

section Chars

variable {set : ByteSet}

abbrev charOf (set : ByteSet) : Scanner UInt8 := alt (one set) matchPctEncoded

theorem chars_of_charOf {s t : Bytes} (h : charOf set s = (true, t)) :
    ∃ e, Chars set e ∧ s = e ++ t := by
  rcases alt_eq_true h with hone | ⟨s', hone, hpct⟩
  · obtain ⟨b, rfl, hb⟩ := one_eq_true hone
    exact ⟨[b], .byte hb .nil, rfl⟩
  · obtain rfl := restores_one _ _ _ hone
    obtain ⟨e, he, rfl⟩ := exists_pctEncoded hpct
    have hchars : Chars set (e ++ []) := .escaped he .nil
    rw [append_nil] at hchars
    exact ⟨e, hchars, rfl⟩

theorem exists_chars (s : Bytes) : ∃ v, Chars set v ∧ s = v ++ (whileMatch (charOf set) s).2 := by
  refine exists_whileMatch (consumes_or_pct set) ((restores_one _).alt restores_matchPctEncoded)
    .nil (fun s t h => ?_) s
  obtain ⟨e, he, rfl⟩ := chars_of_charOf h
  exact ⟨e, rfl, fun _ hv => he.append hv⟩

def stopsChars (set : ByteSet) : ByteSet := fun c => !set c && c != percent

theorem whileMatch_chars (hset : set percent = false) {v r : Bytes} (hv : Chars set v)
    (hr : Ends (stopsChars set) r) : (whileMatch (charOf set) (v ++ r)).2 = r := by
  have hcons : Consumes (charOf set) := consumes_or_pct set
  induction hv with
  | nil =>
    have hround : charOf set r = (false, r) := by
      cases r with
      | nil => rfl
      | cons c r =>
        obtain ⟨hc, hpct⟩ : set c = false ∧ c ≠ percent := by
          simpa [Ends, stopsChars] using hr
        have hescape : matchPctEncoded (c :: r) = (false, c :: r) := by
          unfold matchPctEncoded
          split
          · rename_i heq
            exact absurd (List.cons.inj heq).1 hpct
          · rfl
        simp [charOf, alt, one, hc, hescape]
    rw [nil_append, whileMatch_eq hcons, hround]
  | @byte b s hb _ ih =>
    have hround : charOf set (b :: s ++ r) = (true, s ++ r) := by
      simp [charOf, alt, one, hb]
    rw [whileMatch_eq hcons, hround]
    exact ih
  | @escaped e s he _ ih =>
    have hround : charOf set (e ++ s ++ r) = (true, s ++ r) := by
      have hescape := matchPctEncoded_append he (s ++ r)
      obtain ⟨t, ht⟩ : ∃ t, e = percent :: t := by cases he <;> exact ⟨_, rfl⟩
      have hone : one set (e ++ s ++ r) = (false, e ++ s ++ r) := by
        rw [ht]
        simp [one, hset]
      rw [charOf, alt, hone]
      rwa [append_assoc]
    rw [whileMatch_eq hcons, hround]
    exact ih

end Chars

theorem exists_queryOrFragment (h : matchQueryOrFragment s = (true, t)) :
    ∃ v, IsQueryOrFragment v ∧ s = v ++ t := by
  obtain ⟨v, hv, hs⟩ := @exists_chars queryOrFragment s
  exact ⟨v, hv, hs.trans (congrArg (v ++ ·) (congrArg Prod.snd h))⟩

/-! ## Segments -/

def stopsPath : ByteSet := fun c => stopsChars pchar c && c != slash

/-- The round of the path matchers. -/
abbrev slashSegment : Scanner UInt8 := attempt (seq (matchLiteral '/') matchSegment)

theorem consumes_slashSegment : Consumes slashSegment :=
  ((consumes_one _).seq advances_matchSegment).attempt

theorem exists_segments (s : Bytes) : ∃ v, IsPathAbempty v ∧ s = v ++ (matchSegments s).2 := by
  refine exists_whileMatch consumes_slashSegment (restores_attempt _) isPathAbempty_nil
    (fun s t h => ?_) s
  obtain ⟨u, hu, hsegment⟩ := seq_eq_true (attempt_eq_true h)
  obtain ⟨b, rfl, hb⟩ := one_eq_true hu
  obtain ⟨segment, hchars, hseg⟩ := @exists_chars pchar u
  have hrest : (whileMatch (charOf pchar) u).2 = t := congrArg Prod.snd hsegment
  rw [hrest] at hseg
  refine ⟨slash :: segment, ?_, fun _ hv => IsPathAbempty.cons hchars hv⟩
  rw [beq_iff_eq.mp hb, hseg]
  rfl

theorem exists_segmentNz {ok : Bool} (h : matchSegmentNz s = (ok, t)) :
    ∃ v, IsSegment v ∧ s = v ++ t := by
  obtain ⟨v, hv, hs⟩ := @exists_chars pchar s
  exact ⟨v, hv, hs.trans (congrArg (v ++ ·) (congrArg Prod.snd h))⟩

theorem exists_pcharNc
    (h : attempt (alt (one unreserved) (alt matchPctEncoded
      (alt (one subDelims) (matchLiteral '@')))) s = (true, t)) :
    ∃ e, IsSegment e ∧ s = e ++ t := by
  have hbyte {b : UInt8} (hb : pchar b = true) (t : Bytes) :
      ∃ e, IsSegment e ∧ b :: t = e ++ t := ⟨[b], .byte hb .nil, rfl⟩
  rcases alt_eq_true (attempt_eq_true h) with hone | ⟨s₁, hfail₁, hrest₁⟩
  · obtain ⟨b, rfl, hb⟩ := one_eq_true hone
    exact hbyte (by simp [pchar, ByteSet.or, hb]) t
  obtain rfl := restores_one _ _ _ hfail₁
  rcases alt_eq_true hrest₁ with hpct | ⟨s₂, hfail₂, hrest₂⟩
  · obtain ⟨e, he, rfl⟩ := exists_pctEncoded hpct
    have hchars : IsSegment (e ++ []) := .escaped he .nil
    rw [append_nil] at hchars
    exact ⟨e, hchars, rfl⟩
  obtain rfl := restores_matchPctEncoded _ _ hfail₂
  rcases alt_eq_true hrest₂ with hone | ⟨s₃, hfail₃, hat⟩
  · obtain ⟨b, rfl, hb⟩ := one_eq_true hone
    exact hbyte (by simp [pchar, ByteSet.or, hb]) t
  · obtain rfl := restores_one _ _ _ hfail₃
    obtain ⟨b, rfl, hb⟩ := one_eq_true hat
    rw [beq_iff_eq.mp hb]
    exact hbyte (by decide) t

theorem exists_segmentNzNc {ok : Bool} (h : matchSegmentNzNc s = (ok, t)) :
    ∃ v, IsSegment v ∧ s = v ++ t := by
  have hcons : Consumes (attempt (alt (one unreserved) (alt matchPctEncoded
      (alt (one subDelims) (matchLiteral '@'))))) :=
    Consumes.attempt ((consumes_one _).alt (advances_one _) (consumes_matchPctEncoded.alt
      advances_matchPctEncoded ((consumes_one _).alt (advances_one _) (consumes_one _))))
  obtain ⟨v, hv, hs⟩ := exists_whileMatch hcons (restores_attempt _) Chars.nil (fun s t h =>
    let ⟨e, he, heq⟩ := exists_pcharNc h
    ⟨e, heq, fun _ hv => he.append hv⟩) s
  exact ⟨v, hv, hs.trans (congrArg (v ++ ·) (congrArg Prod.snd h))⟩

theorem matchSegments_abempty {v r : Bytes} (hv : IsPathAbempty v) (hr : Ends stopsPath r) :
    matchSegments (v ++ r) = (true, r) := by
  obtain ⟨segments, hsegments, rfl⟩ := hv
  have hchars : Ends (stopsChars pchar) r := by
    cases r with
    | nil => trivial
    | cons c r => exact (Bool.and_eq_true_iff.mp hr).1
  refine Prod.ext rfl ?_
  change (whileMatch slashSegment _).2 = r
  induction segments with
  | nil =>
    have hround : slashSegment r = (false, r) := by
      cases r with
      | nil => rfl
      | cons c r =>
        have hc : (c == '/'.toUInt8) = false := by
          simpa using (Bool.and_eq_true_iff.mp hr).2
        simp [slashSegment, Scanner.attempt, seq, matchLiteral, one, hc]
    rw [behind_nil, nil_append, whileMatch_eq consumes_slashSegment, hround]
  | cons segment segments ih =>
    obtain ⟨hsegment, hsegments⟩ := forall_mem_cons.mp hsegments
    have hnext : Ends (stopsChars pchar) (behind slash segments ++ r) := by
      cases segments with
      | nil => exact hchars
      | cons next segments => exact (by decide : stopsChars pchar slash = true)
    have hloop := whileMatch_chars (by decide) hsegment hnext
    have hround : slashSegment (behind slash (segment :: segments) ++ r) =
        (true, behind slash segments ++ r) := by
      have hseg : matchSegment (segment ++ (behind slash segments ++ r)) =
          (true, behind slash segments ++ r) := Prod.ext rfl hloop
      have hslash : matchLiteral '/' (behind slash (segment :: segments) ++ r) =
          (true, segment ++ (behind slash segments ++ r)) := by
        simp [matchLiteral, one]
      rw [slashSegment, Scanner.attempt, seq, hslash]
      simp only [hseg]
    rw [whileMatch_eq consumes_slashSegment, hround]
    exact ih hsegments

end UriParser

end Toft

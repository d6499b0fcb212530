import Toft.Net.Uri.Parser

/-!
# The scanners of the URI parser

Each scanner leaves a suffix of its input, the rounds of each loop consume something, and an escape
that does not match leaves the position where it was.
-/

namespace Toft

open Lib Lib.Matcher Lib.Scanner ByteSet List

namespace UriParser

/-! ## The scanners advance -/

theorem advances_matchPctEncoded : Advances matchPctEncoded := by
  intro s
  unfold matchPctEncoded
  split
  · rename_i a b t
    split
    · exact ⟨[37, a, b], rfl⟩
    · split
      · rename_i c d e t _
        split
        · exact ⟨[37, 117, b, c, d, e], rfl⟩
        · exact suffix_rfl
      · exact suffix_rfl
  · exact suffix_rfl

theorem matchPctEncoded_eq_true {s t : Bytes} (h : matchPctEncoded s = (true, t)) :
    ∃ v, s = 37 :: v ∧ t.length < s.length := by
  unfold matchPctEncoded at h
  split at h
  · rename_i a b t'
    refine ⟨a :: b :: t', rfl, ?_⟩
    split at h
    · cases h
      simp only [length_cons]
      omega
    · split at h
      · split at h
        · cases h
          simp only [length_cons]
          omega
        · cases h
      · cases h
  · cases h

theorem consumes_matchPctEncoded : Consumes matchPctEncoded := by
  intro s t h
  obtain ⟨-, -, hlt⟩ := matchPctEncoded_eq_true h
  exact hlt

theorem advances_or_pct (set : ByteSet) : Advances (alt (one set) matchPctEncoded) :=
  (advances_one _).alt advances_matchPctEncoded

theorem consumes_or_pct (set : ByteSet) : Consumes (alt (one set) matchPctEncoded) :=
  (consumes_one _).alt (advances_one _) consumes_matchPctEncoded

theorem advances_matchSegment : Advances matchSegment :=
  fun s => Advances.whileMatch (advances_or_pct _) (consumes_or_pct _) s

theorem advances_matchQueryOrFragment : Advances matchQueryOrFragment :=
  fun s => Advances.whileMatch (advances_or_pct _) (consumes_or_pct _) s

theorem advances_matchUserinfo : Advances matchUserinfo :=
  fun s => Advances.whileMatch (advances_or_pct _) (consumes_or_pct _) s

theorem advances_matchPort : Advances matchPort :=
  fun s => Advances.whileMatch (advances_one _) (consumes_one _) s

theorem advances_hyphens (s : Bytes) : (whileMatch (matchLiteral '-') s).2 <:+ s :=
  Advances.whileMatch (advances_one _) (consumes_one _) s

theorem advances_matchLabelRest : Advances matchLabelRest := by
  intro s
  unfold matchLabelRest
  have hadv : Advances fun s => one alphaNumSet (whileMatch (matchLiteral '-') s).2 :=
    fun s => (advances_one _ _).trans (advances_hyphens s)
  have hcon : Consumes fun s => one alphaNumSet (whileMatch (matchLiteral '-') s).2 :=
    fun s t h => Nat.lt_of_lt_of_le (consumes_one _ _ t h) (advances_hyphens s).length_le
  simp only
  split
  · exact Advances.whileMatch hadv hcon s
  · exact suffix_rfl

theorem advances_matchDomainlabel : Advances matchDomainlabel :=
  ((advances_one _).seq advances_matchLabelRest).attempt

theorem consumes_matchDomainlabel : Consumes matchDomainlabel :=
  ((consumes_one _).seq advances_matchLabelRest).attempt

theorem advances_matchHostname : Advances matchHostname := by
  refine Advances.attempt fun s => ?_
  have hlabels := Advances.whileMatch
    (advances_matchDomainlabel.seq (advances_one (· == '.'.toUInt8))).attempt
    (consumes_matchDomainlabel.seq (advances_one (· == '.'.toUInt8))).attempt s
  have htop : Advances matchToplabel := ((advances_one _).seq advances_matchLabelRest).attempt
  simp only
  split
  · rename_i t ht
    exact ((advances_one _ t).trans (htop.eq ht)).trans hlabels
  · rename_i t ht
    exact (htop.eq ht).trans hlabels

theorem advances_matchIPv4Fields (n : Nat) : Advances (matchIPv4Fields n) := by
  have hdigits : ∀ s : Bytes, (whileMatch (one digitSet) s).2 <:+ s :=
    Advances.whileMatch (advances_one _) (consumes_one _)
  induction n with
  | zero =>
    intro s
    unfold matchIPv4Fields
    split
    · rename_i t ht
      exact (hdigits t).trans ((advances_one _).eq ht)
    · rename_i t ht
      exact (advances_one _).eq ht
  | succ n ih =>
    intro s
    unfold matchIPv4Fields
    split
    · rename_i t ht
      exact (((advances_one _).seq ih _).trans (hdigits t)).trans ((advances_one _).eq ht)
    · rename_i t ht
      exact (ih t).trans ((advances_one _).eq ht)

/-! ## Scanners that do not move -/

theorem restores_matchPctEncoded : Restores matchPctEncoded := by
  intro s t h
  unfold matchPctEncoded at h
  split at h
  · split at h
    · cases h
    · split at h
      · split at h
        · cases h
        · cases h
          rfl
      · cases h
        rfl
  · cases h
    rfl

/-- A counting loop that fails has not moved. -/
theorem restores_count {m : Scanner UInt8} (hc : Consumes m) (hr : Restores m) :
    Restores fun s => (decide ((whileMatch m s).1 > 0), (whileMatch m s).2) := by
  intro s t h
  obtain ⟨hzero, rfl⟩ := Prod.mk.inj h
  exact whileMatch_zero hc hr (by simpa using hzero)

end UriParser

end Toft

import Mathlib.Data.List.Infix
import Toft.Base.Int
import Toft.Lib.Word

/-!
# The longest common substring

`LongestCommonSubstring` shifts the two strings against each other and looks along each overlap for
the longest run of equal bytes. An overlap that is no longer than the longest run so far is left
out, and all that come after it. What is found stands in both strings (`scan_found`), and no common
substring is longer: it lies in one overlap (`scan_longest`), and what is left out is too short
(`shift_longest`).
-/

namespace Toft

open Lib List

namespace CommonSubstring

/-- The longest match so far, and where it is in the two strings. -/
structure Best where
  longest : Nat := 0
  str1Pos : Int := -1
  str2Pos : Int := -1

/-- The inner loop: along the rests of the strings from `m` and `n` on, behind a run of equal
bytes. -/
def scan : Bytes → Bytes → Nat → Nat → Nat → Best → Best
  | x :: xs, y :: ys, m, n, length, best =>
    if x ≠ y then scan xs ys (m + 1) (n + 1) 0 best
    else
      let length := length + 1
      let best :=
        if best.longest < length then
          { longest := length
            str1Pos := (m : Int) - length + 1
            str2Pos := (n : Int) - length + 1 }
        else best
      scan xs ys (m + 1) (n + 1) length best
  | [], _, _, _, _, best => best
  | _ :: _, [], _, _, _, best => best

/-- `indices[0]` and `indices[1]` in the two rounds of the outermost loop. -/
def indices (index : Fin 2) (i : Nat) : Nat × Nat := if index = 0 then (i, 0) else (0, i)

def shift (str1 str2 : Bytes) (index : Fin 2) : Nat → Nat → Best → Best
  | 0, _, best => best
  | count + 1, i, best =>
    let m := (indices index i).1
    let n := (indices index i).2
    if str1.length - m ≤ best.longest ∨ str2.length - n ≤ best.longest then best
    else shift str1 str2 index count (i + 1) (scan (str1.drop m) (str2.drop n) m n 0 best)

end CommonSubstring

open CommonSubstring in
/-- `LongestCommonSubstring`. The sizes are kept as `int`. -/
def longestCommonSubstring (str1 str2 : Bytes) : Bytes :=
  if str1.isEmpty || str2.isEmpty then []
  else
    let part1 := str1.take (int32 str1.length).toNat
    let part2 := str2.take (int32 str2.length).toNat
    let best := shift part1 part2 0 part1.length 0 {}
    -- both strings from their start were compared in the first round
    let best := shift part1 part2 1 (part2.length - 1) 1 best
    if best.longest = 0 then [] else (str1.drop best.str1Pos.toNat).take best.longest

namespace CommonSubstring

/-! ## What is found stands in both strings -/

/-- The run is a part of both strings and starts where it is said to. -/
def Found (str1 str2 : Bytes) (best : Best) : Prop :=
  0 < best.longest → ∃ pre₁ run post₁ pre₂ post₂,
    str1 = pre₁ ++ run ++ post₁ ∧ str2 = pre₂ ++ run ++ post₂ ∧ run.length = best.longest ∧
      best.str1Pos = pre₁.length ∧ best.str2Pos = pre₂.length

variable {best : Best}

theorem scan_found {str1 str2 : Bytes} (pre₁ pre₂ run xs ys : Bytes)
    (h₁ : str1 = pre₁ ++ run ++ xs) (h₂ : str2 = pre₂ ++ run ++ ys)
    (h : Found str1 str2 best) :
    Found str1 str2
      (scan xs ys (pre₁.length + run.length) (pre₂.length + run.length) run.length best) := by
  induction xs generalizing ys pre₁ pre₂ run best with
  | nil => simpa [scan] using h
  | cons x xs ih =>
    cases ys with
    | nil => simpa [scan] using h
    | cons y ys =>
      unfold scan
      by_cases hne : x ≠ y
      · -- a new run begins behind the two bytes
        rw [if_pos hne]
        have hnext := ih (pre₁ ++ run ++ [x]) (pre₂ ++ run ++ [y]) [] ys (by simp [h₁])
          (by simp [h₂]) h
        simpa [Nat.add_assoc] using hnext
      · obtain rfl := Decidable.not_not.mp hne
        rw [if_neg hne]
        have hlen : (run ++ [x]).length = run.length + 1 := by simp
        rw [Nat.add_assoc, Nat.add_assoc, ← hlen]
        refine ih pre₁ pre₂ (run ++ [x]) ys (by simp [h₁]) (by simp [h₂]) ?_
        split
        · intro _
          refine ⟨pre₁, run ++ [x], xs, pre₂, ys, by simp [h₁], by simp [h₂], rfl, ?_, ?_⟩
          · simp only [hlen]
            omega
          · simp only [hlen]
            omega
        · exact h

theorem shift_found {str1 str2 : Bytes} (index : Fin 2) (count i : Nat)
    (h : Found str1 str2 best) : Found str1 str2 (shift str1 str2 index count i best) := by
  induction count generalizing i best with
  | zero => exact h
  | succ count ih =>
    rw [shift]
    generalize (indices index i).1 = m, (indices index i).2 = n
    split
    · exact h
    · rename_i hlong
      refine ih (i + 1) ?_
      have hscan := scan_found (str1.take m) (str2.take n) [] (str1.drop m) (str2.drop n)
        (by simp) (by simp) h
      rwa [length_take_of_le (by omega), length_take_of_le (by omega), length_nil] at hscan

/-! ## No common substring is longer -/

/-- Along one overlap: no run that begins in it is longer than what is found, nor is the run in
front of it together with what continues it. -/
theorem scan_longest (xs ys : Bytes) (m n length : Nat) (h : length ≤ best.longest) :
    best.longest ≤ (scan xs ys m n length best).longest ∧
      (∀ w, w <+: xs → w <+: ys → length + w.length ≤ (scan xs ys m n length best).longest) ∧
      ∀ k w, w <+: xs.drop k → w <+: ys.drop k →
        w.length ≤ (scan xs ys m n length best).longest := by
  induction xs generalizing ys m n length best with
  | nil =>
    refine ⟨by simp [scan], fun w hx _ => ?_, fun k w hx _ => ?_⟩
    · rw [prefix_nil.mp hx]
      simpa [scan] using h
    · rw [drop_nil, prefix_nil] at hx
      simp [hx]
  | cons x xs ih =>
    cases ys with
    | nil =>
      refine ⟨by simp [scan], fun w _ hy => ?_, fun k w _ hy => ?_⟩
      · rw [prefix_nil.mp hy]
        simpa [scan] using h
      · rw [drop_nil, prefix_nil] at hy
        simp [hy]
    | cons y ys =>
      unfold scan
      by_cases hne : x ≠ y
      · rw [if_pos hne]
        obtain ⟨hmono, -, hlater⟩ := ih ys (m + 1) (n + 1) 0 (Nat.zero_le best.longest)
        -- two different bytes begin no common run
        have hnil : ∀ w : Bytes, w <+: x :: xs → w <+: y :: ys → w = [] := by
          intro w hx hy
          cases w with
          | nil => rfl
          | cons c w =>
            exact absurd ((cons_prefix_cons.mp hx).1.symm.trans (cons_prefix_cons.mp hy).1) hne
        refine ⟨hmono, fun w hx hy => ?_, fun k w hx hy => ?_⟩
        · rw [hnil w hx hy]
          exact h.trans hmono
        · cases k with
          | zero => simp [hnil w hx hy]
          | succ k => exact hlater k w hx hy
      · obtain rfl := Decidable.not_not.mp hne
        rw [if_neg hne]
        dsimp only
        generalize hbest : (if best.longest < length + 1 then
          { longest := length + 1
            str1Pos := (m : Int) - (length + 1 : Nat) + 1
            str2Pos := (n : Int) - (length + 1 : Nat) + 1 }
          else best : Best) = best'
        have hle : length + 1 ≤ best'.longest ∧ best.longest ≤ best'.longest := by
          rw [← hbest]
          split
          · rename_i hlonger
            exact ⟨Nat.le_refl _, hlonger.le⟩
          · exact ⟨by omega, Nat.le_refl _⟩
        obtain ⟨hmono, hrun, hlater⟩ := ih ys (m + 1) (n + 1) (length + 1) hle.1
        have hfirst : ∀ w, w <+: x :: xs → w <+: x :: ys → length + w.length ≤
            (scan xs ys (m + 1) (n + 1) (length + 1) best').longest := by
          intro w hx hy
          cases w with
          | nil => exact h.trans (hle.2.trans hmono)
          | cons c w =>
            have := hrun w (cons_prefix_cons.mp hx).2 (cons_prefix_cons.mp hy).2
            rw [length_cons]
            omega
        refine ⟨hle.2.trans hmono, hfirst, fun k w hx hy => ?_⟩
        cases k with
        | zero => exact (Nat.le_add_left _ _).trans (hfirst w hx hy)
        | succ k => exact hlater k w hx hy

theorem shift_longest (str1 str2 : Bytes) (index : Fin 2) (count i : Nat) (best : Best)
    (hcount : if index = 0 then str1.length ≤ i + count else str2.length ≤ i + count) :
    best.longest ≤ (shift str1 str2 index count i best).longest ∧
      ∀ j k w, i ≤ j → w <+: str1.drop ((indices index j).1 + k) →
        w <+: str2.drop ((indices index j).2 + k) →
        w.length ≤ (shift str1 str2 index count i best).longest := by
  induction count generalizing i best with
  | zero =>
    refine ⟨Nat.le_refl _, fun j k w hj h₁ h₂ => ?_⟩
    have hlen₁ := h₁.length_le
    have hlen₂ := h₂.length_le
    unfold indices at hlen₁ hlen₂
    split at hcount <;> simp_all <;> omega
  | succ count ih =>
    rw [shift]
    by_cases hshort : str1.length - (indices index i).1 ≤ best.longest ∨
        str2.length - (indices index i).2 ≤ best.longest
    · -- this overlap is too short, and the later ones are no longer
      rw [if_pos hshort]
      refine ⟨Nat.le_refl _, fun j k w hj h₁ h₂ => ?_⟩
      have hlen₁ := h₁.length_le
      have hlen₂ := h₂.length_le
      unfold indices at hlen₁ hlen₂ hshort
      split at hshort <;> simp_all <;> omega
    · rw [if_neg hshort]
      obtain ⟨hmono, -, hhere⟩ := scan_longest (str1.drop (indices index i).1)
        (str2.drop (indices index i).2) (indices index i).1 (indices index i).2 0
        (Nat.zero_le best.longest)
      obtain ⟨hmono', hlater⟩ := ih (i + 1) (scan (str1.drop (indices index i).1)
        (str2.drop (indices index i).2) (indices index i).1 (indices index i).2 0 best)
        (by split at hcount <;> simp_all <;> omega)
      refine ⟨hmono.trans hmono', fun j k w hj h₁ h₂ => ?_⟩
      rcases Nat.eq_or_lt_of_le hj with rfl | hlt
      · rw [← drop_drop] at h₁ h₂
        exact (hhere k w h₁ h₂).trans hmono'
      · exact hlater j k w hlt h₁ h₂

end CommonSubstring

open CommonSubstring

theorem infix_iff_prefix_drop {w s : Bytes} : w <:+: s ↔ ∃ i, w <+: s.drop i := by
  constructor
  · rintro ⟨pre, post, rfl⟩
    exact ⟨pre.length, by rw [append_assoc, drop_left]; exact prefix_append _ _⟩
  · rintro ⟨i, hi⟩
    exact hi.isInfix.trans (drop_suffix i s).isInfix

theorem eq_nil_iff_of_longest {s str1 str2 : Bytes} (h₁ : s <:+: str1) (h₂ : s <:+: str2)
    (hmax : ∀ w, w <:+: str1 → w <:+: str2 → w.length ≤ s.length) :
    s = [] ↔ ∀ c ∈ str1, c ∉ str2 := by
  constructor
  · rintro rfl c hc₁ hc₂
    have hone := hmax [c] ((singleton_infix_iff _ _).mpr hc₁) ((singleton_infix_iff _ _).mpr hc₂)
    exact absurd hone (by simp)
  · intro hdisjoint
    cases s with
    | nil => rfl
    | cons c s =>
      exact absurd (h₂.subset mem_cons_self) (hdisjoint c (h₁.subset mem_cons_self))

theorem rounds_longest {str1 str2 w : Bytes} (h₁ : w <:+: str1) (h₂ : w <:+: str2) :
    w.length ≤ (shift str1 str2 1 (str2.length - 1) 1
      (shift str1 str2 0 str1.length 0 {})).longest := by
  obtain ⟨i, hi⟩ := infix_iff_prefix_drop.mp h₁
  obtain ⟨j, hj⟩ := infix_iff_prefix_drop.mp h₂
  obtain ⟨-, hfirst⟩ := shift_longest str1 str2 0 str1.length 0 {} (by simp)
  obtain ⟨hmono, hsecond⟩ := shift_longest str1 str2 1 (str2.length - 1) 1
    (shift str1 str2 0 str1.length 0 {}) (by simp; omega)
  rcases Nat.lt_or_ge i j with hlt | hge
  · refine hsecond (j - i) i w (by omega) (by simpa [indices] using hi) ?_
    simpa [indices, Nat.sub_add_cancel hlt.le] using hj
  · refine (hfirst (i - j) j w (Nat.zero_le _) ?_ (by simpa [indices] using hj)).trans hmono
    simpa [indices, Nat.sub_add_cancel hge] using hi

/-- **Longest common substring.** For strings shorter than 2^31 bytes the result stands in both of
them, and no string that does is longer; it is empty exactly if they have no byte in common. -/
theorem longestCommonSubstring_longest {str1 str2 : Bytes} (h₁ : str1.length < 2 ^ 31)
    (h₂ : str2.length < 2 ^ 31) :
    longestCommonSubstring str1 str2 <:+: str1 ∧ longestCommonSubstring str1 str2 <:+: str2 ∧
      (∀ w, w <:+: str1 → w <:+: str2 → w.length ≤ (longestCommonSubstring str1 str2).length) ∧
      (longestCommonSubstring str1 str2 = [] ↔ ∀ c ∈ str1, c ∉ str2) := by
  suffices hlongest : longestCommonSubstring str1 str2 <:+: str1 ∧
      longestCommonSubstring str1 str2 <:+: str2 ∧
      ∀ w, w <:+: str1 → w <:+: str2 → w.length ≤ (longestCommonSubstring str1 str2).length by
    obtain ⟨hin₁, hin₂, hmax⟩ := hlongest
    exact ⟨hin₁, hin₂, hmax, eq_nil_iff_of_longest hin₁ hin₂ hmax⟩
  have htake₁ : str1.take (int32 str1.length).toNat = str1 := by
    rw [int32_of_lt h₁, Int.toNat_natCast, take_length]
  have htake₂ : str2.take (int32 str2.length).toNat = str2 := by
    rw [int32_of_lt h₂, Int.toNat_natCast, take_length]
  unfold longestCommonSubstring
  rw [htake₁, htake₂]
  by_cases hempty : (str1.isEmpty || str2.isEmpty) = true
  · rw [if_pos hempty]
    refine ⟨ nil_infix, nil_infix, fun w hw₁ hw₂ => ?_⟩
    have hlen₁ := hw₁.length_le
    have hlen₂ := hw₂.length_le
    rw [Bool.or_eq_true, List.isEmpty_iff, List.isEmpty_iff] at hempty
    rcases hempty with rfl | rfl
    · exact hlen₁
    · exact hlen₂
  · rw [if_neg hempty]
    have hfound : Found str1 str2 (shift str1 str2 1 (str2.length - 1) 1
        (shift str1 str2 0 str1.length 0 {})) :=
      shift_found _ _ _ (shift_found _ _ _ fun hpos => absurd hpos (Nat.lt_irrefl 0))
    have hmax := fun w hw₁ hw₂ => @rounds_longest str1 str2 w hw₁ hw₂
    dsimp only
    generalize shift str1 str2 1 (str2.length - 1) 1 (shift str1 str2 0 str1.length 0 {}) = best
      at hfound hmax
    by_cases hzero : best.longest = 0
    · rw [if_pos hzero]
      exact ⟨ nil_infix, nil_infix, fun w hw₁ hw₂ => (hmax w hw₁ hw₂).trans_eq hzero⟩
    · obtain ⟨pre₁, run, post₁, pre₂, post₂, hsplit₁, hsplit₂, hlen, hpos, -⟩ :=
        hfound (Nat.pos_of_ne_zero hzero)
      have hrun : (str1.drop best.str1Pos.toNat).take best.longest = run := by
        rw [hpos, Int.toNat_natCast, hsplit₁, append_assoc, drop_left, ← hlen, take_left]
      rw [if_neg hzero, hrun, hlen]
      exact ⟨⟨pre₁, post₁, hsplit₁.symm⟩, ⟨pre₂, post₂, hsplit₂.symm⟩, hmax⟩

theorem longestCommonSubstring_longest_deff :
    longestCommonSubstring (ascii "abcdeff") (ascii "abcfdeff") = ascii "deff" ∧
      ∀ w, w <:+: ascii "abcdeff" → w <:+: ascii "abcfdeff" → w.length ≤ 4 := by
  have hresult : longestCommonSubstring (ascii "abcdeff") (ascii "abcfdeff") = ascii "deff" := by
    decide
  obtain ⟨-, -, hmax, -⟩ := @longestCommonSubstring_longest (ascii "abcdeff") (ascii "abcfdeff")
    (by decide) (by decide)
  exact ⟨hresult, hmax⟩

end Toft

import Mathlib.Data.List.Infix

/-!
# Backtracking matchers

A matcher looks at the input that is left, says whether it matched and moves on. It may move on
without matching; `attempt` goes back in that case. A scanner is a matcher whose whole state is the
input. A scanner advances when what it leaves is a suffix of what it got (`Advances`), and consumes
when each match leaves less (`Consumes`). A loop over a consuming scanner ends (`whileMatch_eq`). A
scanner is local when it does not look beyond a stop symbol (`Local`): what follows from there on
does not change what it does.
-/

namespace Toft.Lib

open List

variable {σ α : Type}

/-- Tries to match, and may move the state in any case. -/
abbrev Matcher (σ : Type) := σ → Bool × σ

namespace Matcher

/-- `m() && n()`. -/
def seq (m n : Matcher σ) : Matcher σ := fun s =>
  match m s with
  | (true, s) => n s
  | (false, s) => (false, s)

/-- `m() || n()`. -/
def alt (m n : Matcher σ) : Matcher σ := fun s =>
  match m s with
  | (true, s) => (true, s)
  | (false, s) => n s

theorem seq_eq_true {m n : Matcher σ} {s s' : σ} (h : seq m n s = (true, s')) :
    ∃ t, m s = (true, t) ∧ n t = (true, s') := by
  unfold seq at h
  split at h
  · rename_i t ht
    exact ⟨t, ht, h⟩
  · cases h

theorem alt_eq_true {m n : Matcher σ} {s s' : σ} (h : alt m n s = (true, s')) :
    m s = (true, s') ∨ ∃ t, m s = (false, t) ∧ n t = (true, s') := by
  unfold alt at h
  split at h
  · rename_i t ht
    exact .inl (ht.trans h)
  · rename_i t ht
    exact .inr ⟨t, ht, h⟩

end Matcher

/-- A matcher on the rest of a text. -/
abbrev Scanner (α : Type) := Matcher (List α)

namespace Scanner

open Matcher

/-- One element with the property. -/
def one (p : α → Bool) : Scanner α
  | [] => (false, [])
  | c :: cs => if p c then (true, cs) else (false, c :: cs)

/-- The given text. -/
def text [BEq α] (w : List α) : Scanner α := fun s =>
  if w.isPrefixOf s then (true, s.drop w.length) else (false, s)

/-- Goes back if there is no match. -/
def attempt (m : Scanner α) : Scanner α := fun s =>
  match m s with
  | (true, t) => (true, t)
  | (false, _) => (false, s)

/-- `while (m()) ++count;` for at most `fuel` rounds. -/
def loop (m : Scanner α) : Nat → List α → Nat × List α
  | 0, s => (0, s)
  | fuel + 1, s =>
    match m s with
    | (true, t) => ((loop m fuel t).1 + 1, (loop m fuel t).2)
    | (false, t) => (0, t)

/-- `while (m()) ++count;` on a scanner that consumes: no round is left out. -/
def whileMatch (m : Scanner α) (s : List α) : Nat × List α := loop m (s.length + 1) s

/-- What the scanner leaves is a suffix of the input. -/
def Advances (m : Scanner α) : Prop := ∀ s, (m s).2 <:+ s

/-- Every match leaves less than it got. -/
def Consumes (m : Scanner α) : Prop := ∀ s t, m s = (true, t) → t.length < s.length

/-- Without a match the scanner does not move. -/
def Restores (m : Scanner α) : Prop := ∀ s t, m s = (false, t) → t = s

variable {m : Scanner α} {s t : List α}

theorem Advances.eq (h : Advances m) {b : Bool} (hm : m s = (b, t)) : t <:+ s := by
  have := h s
  rwa [hm] at this

/-! ## The basic scanners -/

theorem advances_one (p : α → Bool) : Advances (one p) := by
  intro s
  cases s with
  | nil => exact suffix_rfl
  | cons c cs =>
    simp only [one]
    split
    · exact suffix_cons c cs
    · exact suffix_rfl

variable {p : α → Bool}

theorem one_eq_true (h : one p s = (true, t)) : ∃ c, s = c :: t ∧ p c = true := by
  cases s with
  | nil => cases h
  | cons c cs =>
    simp only [one] at h
    split at h
    · rename_i hp
      cases h
      exact ⟨c, rfl, hp⟩
    · cases h

theorem consumes_one (p : α → Bool) : Consumes (one p) := by
  intro s t h
  obtain ⟨c, rfl, -⟩ := one_eq_true h
  simp

theorem restores_one (p : α → Bool) : Restores (one p) := by
  intro s t h
  cases s with
  | nil =>
    cases h
    rfl
  | cons c cs =>
    simp only [one] at h
    split at h
    · cases h
    · cases h
      rfl

theorem text_eq_true [BEq α] [LawfulBEq α] {w s t : List α} (h : text w s = (true, t)) :
    s = w ++ t := by
  unfold text at h
  split at h
  · rename_i hpre
    cases h
    exact (prefix_iff_eq_append.mp (List.isPrefixOf_iff_prefix.mp hpre)).symm
  · cases h

/-! ## Combinations -/

variable {m n : Scanner α}

theorem Advances.seq (hm : Advances m) (hn : Advances n) : Advances (Matcher.seq m n) := by
  intro s
  unfold Matcher.seq
  split
  · rename_i t ht
    exact (hn t).trans (hm.eq ht)
  · rename_i t ht
    exact hm.eq ht

theorem Advances.alt (hm : Advances m) (hn : Advances n) : Advances (Matcher.alt m n) := by
  intro s
  unfold Matcher.alt
  split
  · rename_i t ht
    exact hm.eq ht
  · rename_i t ht
    exact (hn t).trans (hm.eq ht)

theorem Advances.attempt (hm : Advances m) : Advances (attempt m) := by
  intro s
  unfold Scanner.attempt
  split
  · rename_i t ht
    exact hm.eq ht
  · exact suffix_rfl

theorem attempt_eq_true (h : attempt m s = (true, t)) : m s = (true, t) := by
  unfold attempt at h
  split at h
  · rename_i t' ht
    exact ht.trans h
  · cases h

theorem restores_attempt (m : Scanner α) : Restores (attempt m) := by
  intro s t h
  unfold attempt at h
  split at h
  · cases h
  · cases h
    rfl

theorem Restores.alt (hm : Restores m) (hn : Restores n) : Restores (Matcher.alt m n) := by
  intro s t h
  unfold Matcher.alt at h
  split at h
  · cases h
  · rename_i u hu
    rw [hn u t h, hm s u hu]

theorem Restores.seq (hm : Restores m) (hn : ∀ s, (n s).1 = true) : Restores (Matcher.seq m n) := by
  intro s t h
  unfold Matcher.seq at h
  split at h
  · rename_i u hu
    have := hn u
    rw [h] at this
    cases this
  · rename_i hu
    cases h
    exact hm s _ hu

theorem Consumes.attempt (hm : Consumes m) : Consumes (attempt m) :=
  fun s t h => hm s t (attempt_eq_true h)

theorem Consumes.seq (hm : Consumes m) (hn : Advances n) : Consumes (Matcher.seq m n) := by
  intro s t h
  obtain ⟨u, hu, ht⟩ := seq_eq_true h
  exact Nat.lt_of_le_of_lt (hn.eq ht).length_le (hm s u hu)

theorem Consumes.alt (hm : Consumes m) (hadv : Advances m) (hn : Consumes n) :
    Consumes (Matcher.alt m n) := by
  intro s t h
  rcases alt_eq_true h with hs | ⟨u, hu, ht⟩
  · exact hm s t hs
  · exact Nat.lt_of_lt_of_le (hn u t ht) (hadv.eq hu).length_le

/-! ## Loops -/

variable {s : List α}

theorem loop_fuel (hm : Consumes m) {fuel fuel' : Nat}
    (h : s.length < fuel) (h' : s.length < fuel') : loop m fuel s = loop m fuel' s := by
  induction fuel generalizing s fuel' with
  | zero => omega
  | succ fuel ih =>
    obtain ⟨fuel', rfl⟩ : ∃ k, fuel' = k + 1 := ⟨fuel' - 1, by omega⟩
    unfold loop
    split
    · rename_i t ht
      have hlt := hm s t ht
      rw [show loop m fuel t = loop m fuel' t from ih (by omega) (by omega)]
    · rfl

/-- The loop's own equation: the bound on the rounds is never reached. -/
theorem whileMatch_eq (hm : Consumes m) (s : List α) :
    whileMatch m s = match m s with
      | (true, t) => ((whileMatch m t).1 + 1, (whileMatch m t).2)
      | (false, t) => (0, t) := by
  rw [whileMatch, loop]
  split
  · rename_i t ht
    rw [whileMatch, loop_fuel hm (hm s t ht) (Nat.lt_succ_self _)]
  · rfl

theorem Advances.whileMatch (hm : Advances m) (hc : Consumes m) (s : List α) :
    (whileMatch m s).2 <:+ s := by
  rw [whileMatch_eq hc]
  split
  · rename_i t ht
    have := hc s t ht
    exact (Advances.whileMatch hm hc t).trans (hm.eq ht)
  · rename_i t ht
    exact hm.eq ht
termination_by s.length

theorem whileMatch_pos (hc : Consumes m) (h : 0 < (whileMatch m s).1) : ∃ t, m s = (true, t) := by
  rw [whileMatch_eq hc] at h
  split at h
  · rename_i t ht
    exact ⟨t, ht⟩
  · exact absurd h (Nat.lt_irrefl 0)

theorem whileMatch_zero (hc : Consumes m) (hr : Restores m)
    (h : (whileMatch m s).1 = 0) : (whileMatch m s).2 = s := by
  rw [whileMatch_eq hc] at h ⊢
  split at h
  · cases h
  · rename_i t ht
    exact hr s t ht

theorem exists_whileMatch {P : List α → Prop} (hc : Consumes m) (hr : Restores m)
    (hnil : P []) (hround : ∀ s t, m s = (true, t) → ∃ e, s = e ++ t ∧ ∀ v, P v → P (e ++ v))
    (s : List α) : ∃ v, P v ∧ s = v ++ (whileMatch m s).2 := by
  rw [whileMatch_eq hc]
  rcases h : m s with ⟨_ | _, t⟩
  · rw [hr s t h]
    exact ⟨[], hnil, rfl⟩
  · have hlt := hc s t h
    obtain ⟨e, rfl, he⟩ := hround s t h
    obtain ⟨v, hv, ht⟩ := exists_whileMatch hc hr hnil hround t
    refine ⟨e ++ v, he v hv, ?_⟩
    rw [append_assoc]
    exact congrArg (e ++ ·) ht
termination_by s.length

theorem exists_one (s t : List α) (h : one p s = (true, t)) :
    ∃ e, s = e ++ t ∧ ∀ v, (∀ c ∈ v, p c = true) → ∀ c ∈ e ++ v, p c = true := by
  obtain ⟨c, rfl, hc⟩ := one_eq_true h
  exact ⟨[c], rfl, fun v hv => forall_mem_cons.mpr ⟨hc, hv⟩⟩

/-! ## Stop symbols -/

/-- Nothing is left, or a stop symbol comes next. -/
def Ends (stop : α → Bool) : List α → Prop
  | [] => True
  | c :: _ => stop c = true

theorem Ends.mono {stop stop' : α → Bool} (h : ∀ c, stop c = true → stop' c = true) {r : List α}
    (hr : Ends stop r) : Ends stop' r := by
  cases r with
  | nil => trivial
  | cons c r => exact h c hr

theorem whileMatch_one {v r : List α} (hv : ∀ c ∈ v, p c = true)
    (hr : Ends (fun c => !p c) r) : (whileMatch (one p) (v ++ r)).2 = r := by
  induction v with
  | nil =>
    have hstop : one p r = (false, r) := by
      cases r with
      | nil => rfl
      | cons c r => simp only [one, (Bool.not_eq_true' _).mp hr, Bool.false_eq_true, if_false]
    rw [nil_append, whileMatch_eq (consumes_one p), hstop]
  | cons c v ih =>
    obtain ⟨hc, hv⟩ := forall_mem_cons.mp hv
    have hround : one p (c :: v ++ r) = (true, v ++ r) := if_pos hc
    rw [whileMatch_eq (consumes_one p), hround]
    exact ih hv

/-- What stands behind a stop symbol does not matter. -/
def Local (stop : α → Bool) (m : Scanner α) : Prop :=
  ∀ s r, Ends stop r → m (s ++ r) = ((m s).1, (m s).2 ++ r)

variable {stop : α → Bool}

theorem Local.eq (hm : Local stop m) {s t r : List α} {b : Bool}
    (hr : Ends stop r) (h : m s = (b, t)) : m (s ++ r) = (b, t ++ r) := by
  rw [hm s r hr, h]

theorem local_one (hp : ∀ c, stop c = true → p c = false) : Local stop (one p) := by
  intro s r hr
  cases s with
  | nil =>
    cases r with
    | nil => rfl
    | cons c r => simp [one, hp c hr]
  | cons c s =>
    simp only [cons_append, one]
    split <;> rfl

theorem Local.seq (hm : Local stop m) (hn : Local stop n) : Local stop (Matcher.seq m n) := by
  intro s r hr
  unfold Matcher.seq
  rcases h : m s with ⟨_ | _, t⟩
  · rw [hm.eq hr h]
  · rw [hm.eq hr h]
    exact hn t r hr

theorem Local.alt (hm : Local stop m) (hn : Local stop n) : Local stop (Matcher.alt m n) := by
  intro s r hr
  unfold Matcher.alt
  rcases h : m s with ⟨_ | _, t⟩
  · rw [hm.eq hr h]
    exact hn t r hr
  · rw [hm.eq hr h]

theorem Local.attempt (hm : Local stop m) : Local stop (attempt m) := by
  intro s r hr
  unfold Scanner.attempt
  rcases h : m s with ⟨_ | _, t⟩ <;> rw [hm.eq hr h]

theorem Local.whileMatch (hm : Local stop m) (hc : Consumes m) (s : List α)
    {r : List α} (hr : Ends stop r) :
    whileMatch m (s ++ r) = ((whileMatch m s).1, (whileMatch m s).2 ++ r) := by
  rw [whileMatch_eq hc (s ++ r), whileMatch_eq hc s]
  rcases h : m s with ⟨_ | _, t⟩
  · rw [hm.eq hr h]
  · have hlt := hc s t h
    rw [hm.eq hr h]
    simp only [Local.whileMatch hm hc t hr]
termination_by s.length

end Scanner

end Toft.Lib

import Toft.Lib.Fuel
import Toft.Lib.Word

/-!
# Charset conversion

`CharsetConverter` calls `iconv` until all of the input is converted. `iconv` is modelled by what a
call may do (`Iconv`): it converts a part of the input and stops with `E2BIG` when the next
character does not fit into the space that it is given. The loop then gives it new space behind all
of the old one, so that the output has a gap wherever a call left space unused
(`convertAppend_appends_iff`).

A conversion by single characters (`Conversion`) is such an `iconv`. The new space depends only on
the input that is left, so that the loop never ends with a character that needs more than that
(`convertAppend_returns_iff`).
-/

namespace Toft.CharsetConverter

open Lib List

/-! ## The loop -/

/-- How a call of `iconv` ends. -/
inductive Outcome where
  | done
  | tooBig
  | failed
  deriving DecidableEq, Repr

/-- What a call of `iconv` does. -/
structure Call where
  consumed : Nat
  written : Bytes
  outcome : Outcome
  deriving DecidableEq, Repr

/-- A conversion descriptor: its state behind a reset, and what a call does with the input that is
left and the space for output. -/
structure Iconv (σ : Type) where
  initial : σ
  call : σ → Bytes → Nat → Call × σ
  consumed_le : ∀ s input space, (call s input space).1.consumed ≤ input.length
  written_le : ∀ s input space, (call s input space).1.written.length ≤ space
  done_all : ∀ s input space, (call s input space).1.outcome = .done →
    (call s input space).1.consumed = input.length

/-- What `ConvertAppend` returns, `*out` and `*converted_size`. -/
structure Result where
  ok : Bool
  out : Bytes
  convertedSize : Nat
  deriving DecidableEq, Repr

def space (input : Bytes) : Nat := 2 * input.length + 1

variable {σ : Type}

/-- The loop of `ConvertAppend` for an input of `size` bytes, of which `input` is left. -/
def convertLoop (cd : Iconv σ) (size : Nat) : Nat → σ → Bytes → Bytes → Option Result
  | 0, _, _, _ => none
  | fuel + 1, s, input, out =>
    let (call, s) := cd.call s input (space input)
    let outLeft := space input - call.written.length
    -- the string is extended with zeros, and the call writes to their front
    let out := out ++ (call.written ++ replicate outLeft 0)
    let input := input.drop call.consumed
    match call.outcome with
    | .done => some ⟨true, out.take (out.length - outLeft), size⟩
    | .tooBig => convertLoop cd size fuel s input out
    | .failed => some ⟨false, out.take (out.length - outLeft), size - input.length⟩

/-- `ConvertAppend`, with a number of calls that it may make. -/
def convertAppend (cd : Iconv σ) (input out : Bytes) (fuel : Nat) : Option Result :=
  convertLoop cd input.length fuel cd.initial input out

def convert (cd : Iconv σ) (input : Bytes) (fuel : Nat) : Option Result :=
  convertAppend cd input [] fuel

/-- The calls that the loop makes, each with the space that it is given. -/
def calls (cd : Iconv σ) : Nat → σ → Bytes → List (Nat × Call)
  | 0, _, _ => []
  | fuel + 1, s, input =>
    let (call, s) := cd.call s input (space input)
    (space input, call) ::
      if call.outcome = .tooBig then calls cd fuel s (input.drop call.consumed) else []

/-! ## Gaps -/

theorem take_gap (out written : Bytes) (outLeft : Nat) :
    (out ++ (written ++ replicate outLeft 0)).take
      ((out ++ (written ++ replicate outLeft 0)).length - outLeft) = out ++ written := by
  rw [← append_assoc]
  apply take_left'
  simp only [length_append, length_replicate]
  omega

variable {s : σ}

/-- What the loop appends: the output of all calls, with the space that is left behind those that
end with `E2BIG`. -/
theorem convertLoop_out (cd : Iconv σ) (size : Nat) {fuel : Nat} {input out : Bytes}
    {r : Result} (h : convertLoop cd size fuel s input out = some r) (hok : r.ok = true) :
    ∃ appended, r.out = out ++ appended ∧
      (appended = (calls cd fuel s input).flatMap (·.2.written) ↔
        ∀ c ∈ calls cd fuel s input, c.2.outcome = .tooBig → c.2.written.length = c.1) ∧
      ((calls cd fuel s input).flatMap (·.2.written)).length ≤ appended.length := by
  induction fuel generalizing s input out with
  | zero => cases h
  | succ fuel ih =>
    have hle := cd.written_le s input (space input)
    rw [convertLoop] at h
    rw [calls]
    revert h hle
    generalize cd.call s input (space input) = call
    obtain ⟨call, s'⟩ := call
    intro h hle
    dsimp only at h hle ⊢
    cases houtcome : call.outcome with
    | done =>
      rw [houtcome] at h
      cases h
      refine ⟨call.written, take_gap _ _ _, ?_, ?_⟩ <;> simp [houtcome]
    | failed =>
      rw [houtcome] at h
      cases h
      cases hok
    | tooBig =>
      rw [houtcome] at h
      obtain ⟨appended, hout, hiff, hlen⟩ := ih h
      refine ⟨call.written ++ replicate (space input - call.written.length) 0 ++ appended, ?_,
        ?_, ?_⟩
      · simp only [hout, append_assoc]
      · simp only [if_true, flatMap_cons, forall_mem_cons, houtcome, forall_const,
          ← hiff, append_assoc, append_cancel_left_eq]
        constructor
        · intro heq
          have hzero : space input - call.written.length = 0 := by
            have := congrArg length heq
            rw [length_append, length_replicate] at this
            omega
          rw [hzero] at heq
          exact ⟨by omega, heq⟩
        · rintro ⟨hfull, heq⟩
          rw [hfull, Nat.sub_self]
          exact heq
      · simp only [if_true, flatMap_cons, length_append]
        omega

/-- When `ConvertAppend` returns true, it has appended what the calls of `iconv` have written
exactly if every call that ended with `E2BIG` had filled its space. -/
theorem convertAppend_appends_iff (cd : Iconv σ) (input out : Bytes) {fuel : Nat} {r : Result}
    (h : convertAppend cd input out fuel = some r) (hok : r.ok = true) :
    r.out = out ++ (calls cd fuel cd.initial input).flatMap (·.2.written) ↔
      ∀ c ∈ calls cd fuel cd.initial input, c.2.outcome = .tooBig → c.2.written.length = c.1 := by
  obtain ⟨appended, hout, hiff, -⟩ := convertLoop_out cd input.length h hok
  rw [hout, append_cancel_left_eq, hiff]

/-! ## Conversion by single characters -/

/-- What stands at the front of the input: a character of `length` bytes, which becomes `written`
and leaves the descriptor in a new state, or no valid and complete one. -/
inductive Next (σ : Type) where
  | char (length : Nat) (written : Bytes) (s : σ)
  | invalid

/-- A conversion by single characters, none of which needs more than `limit` bytes of output. -/
structure Conversion (σ : Type) where
  initial : σ
  next : σ → Bytes → Next σ
  limit : Nat
  length_pos : ∀ {s input n w s'}, next s input = .char n w s' → 0 < n
  length_le : ∀ {s input n w s'}, next s input = .char n w s' → n ≤ input.length
  written_le : ∀ {s input n w s'}, next s input = .char n w s' → w.length ≤ limit

namespace Conversion

/-- A call of `iconv`: it converts characters as long as there are any and they fit. A character has
at least one byte, so that as many rounds suffice as the input has bytes. -/
def chars (conv : Conversion σ) : Nat → σ → Bytes → Nat → Call × σ
  | 0, s, input, _ => (⟨0, [], if input = [] then .done else .failed⟩, s)
  | fuel + 1, s, input, space =>
    if input = [] then (⟨0, [], .done⟩, s)
    else
      match conv.next s input with
      | .invalid => (⟨0, [], .failed⟩, s)
      | .char n w s' =>
        if w.length ≤ space then
          let (call, s'') := chars conv fuel s' (input.drop n) (space - w.length)
          (⟨n + call.consumed, w ++ call.written, call.outcome⟩, s'')
        else (⟨0, [], .tooBig⟩, s)

theorem chars_spec (conv : Conversion σ) (fuel : Nat) (s : σ) (input : Bytes) (space : Nat) :
    (conv.chars fuel s input space).1.consumed ≤ input.length ∧
      (conv.chars fuel s input space).1.written.length ≤ space ∧
      ((conv.chars fuel s input space).1.outcome = .done →
        (conv.chars fuel s input space).1.consumed = input.length) := by
  induction fuel generalizing s input space with
  | zero =>
    by_cases hnil : input = [] <;> simp [chars, hnil]
  | succ fuel ih =>
    rw [chars]
    by_cases hnil : input = []
    · simp [hnil]
    rw [if_neg hnil]
    cases hnext : conv.next s input with
    | invalid => simp
    | char n w s' =>
      have hle := conv.length_le hnext
      by_cases hfits : w.length ≤ space
      · obtain ⟨hconsumed, hwritten, hdone⟩ := ih s' (input.drop n) (space - w.length)
        rw [length_drop] at hconsumed hdone
        simp only [if_pos hfits, length_append]
        refine ⟨by omega, by omega, ?_⟩
        intro h
        have := hdone h
        omega
      · simp [if_neg hfits]

def toIconv (conv : Conversion σ) : Iconv σ where
  initial := conv.initial
  call s input space := conv.chars input.length s input space
  consumed_le s input space := (conv.chars_spec input.length s input space).1
  written_le s input space := (conv.chars_spec input.length s input space).2.1
  done_all s input space := (conv.chars_spec input.length s input space).2.2

/-- The next character needs more space than the loop gives for the input that is left. -/
def Stuck (conv : Conversion σ) (s : σ) (input : Bytes) : Prop :=
  ∃ n w s', input ≠ [] ∧ conv.next s input = .char n w s' ∧ space input < w.length

theorem call_of_stuck {conv : Conversion σ} {s : σ} {input : Bytes} (h : conv.Stuck s input) :
    conv.toIconv.call s input (space input) = (⟨0, [], .tooBig⟩, s) := by
  obtain ⟨n, w, s', hne, hnext, hbig⟩ := h
  obtain ⟨k, hk⟩ : ∃ k, input.length = k + 1 :=
    Nat.exists_eq_succ_of_ne_zero (mt length_eq_zero_iff.mp hne)
  have hbig' : ¬ w.length ≤ space input := by omega
  show conv.chars input.length s input (space input) = _
  rw [hk, chars, if_neg hne, hnext]
  exact if_neg hbig'

/-- A call that stops with `E2BIG` has converted a character, unless the loop is stuck. -/
theorem consumed_pos {conv : Conversion σ} {s : σ} {input : Bytes} (h : ¬ conv.Stuck s input)
    (hbig : (conv.toIconv.call s input (space input)).1.outcome = .tooBig) :
    0 < (conv.toIconv.call s input (space input)).1.consumed := by
  change (conv.chars input.length s input (space input)).1.outcome = .tooBig at hbig
  show 0 < (conv.chars input.length s input (space input)).1.consumed
  cases hlength : input.length with
  | zero =>
    rw [hlength, chars, if_pos (length_eq_zero_iff.mp hlength)] at hbig
    cases hbig
  | succ k =>
    have hne : input ≠ [] := by
      rintro rfl
      cases hlength
    rw [hlength, chars, if_neg hne] at hbig
    rw [chars, if_neg hne]
    cases hnext : conv.next s input with
    | invalid =>
      rw [hnext] at hbig
      cases hbig
    | char n w s' =>
      have hfits : w.length ≤ space input := by
        by_contra hnot
        exact h ⟨n, w, s', hne, hnext, by omega⟩
      have hpos := conv.length_pos hnext
      simp only [if_pos hfits]
      omega

end Conversion

/-! ## Return -/

/-- The states and the rests of the input with which the rounds of the loop begin. -/
inductive Begins (cd : Iconv σ) (input : Bytes) : σ → Bytes → Prop where
  | start : Begins cd input cd.initial input
  | next {s : σ} {rest : Bytes} (h : Begins cd input s rest)
    (hbig : (cd.call s rest (space rest)).1.outcome = .tooBig) :
    Begins cd input (cd.call s rest (space rest)).2
      (rest.drop (cd.call s rest (space rest)).1.consumed)

variable {input : Bytes}

theorem convertLoop_tooBig (cd : Iconv σ) (size : Nat)
    (hbig : (cd.call s input (space input)).1.outcome = .tooBig) (out : Bytes) :
    ∃ out', ∀ fuel, convertLoop cd size (fuel + 1) s input out =
      convertLoop cd size fuel (cd.call s input (space input)).2
        (input.drop (cd.call s input (space input)).1.consumed) out' := by
  simp only [convertLoop, hbig]
  exact ⟨_, fun _ => rfl⟩

theorem convertLoop_ends (cd : Iconv σ) (size : Nat)
    (hbig : (cd.call s input (space input)).1.outcome ≠ .tooBig) (out : Bytes) :
    ∃ r, ∀ fuel, convertLoop cd size (fuel + 1) s input out = some r := by
  cases houtcome : (cd.call s input (space input)).1.outcome with
  | tooBig => exact absurd houtcome hbig
  | done =>
    simp only [convertLoop, houtcome]
    exact ⟨_, fun _ => rfl⟩
  | failed =>
    simp only [convertLoop, houtcome]
    exact ⟨_, fun _ => rfl⟩

theorem convertAppend_begins (cd : Iconv σ) (input out : Bytes) {rest : Bytes}
    (h : Begins cd input s rest) :
    ∃ k out', ∀ fuel, convertAppend cd input out (fuel + k) =
      convertLoop cd input.length fuel s rest out' := by
  induction h with
  | start => exact ⟨0, out, fun _ => rfl⟩
  | next _ hbig ih =>
    obtain ⟨k, out', hk⟩ := ih
    obtain ⟨out'', hround⟩ := convertLoop_tooBig cd input.length hbig out'
    refine ⟨k + 1, out'', fun fuel => ?_⟩
    rw [show fuel + (k + 1) = fuel + 1 + k by omega, hk, hround]

/-- A stuck round is followed by the same one, with more zeros in the output. -/
theorem convertLoop_stuck {conv : Conversion σ} (h : conv.Stuck s input)
    (size fuel : Nat) (out : Bytes) : convertLoop conv.toIconv size fuel s input out = none := by
  induction fuel generalizing out with
  | zero => rfl
  | succ fuel ih =>
    have hcall := Conversion.call_of_stuck h
    obtain ⟨out', hround⟩ := convertLoop_tooBig conv.toIconv size (by rw [hcall]) out
    rw [hround, hcall]
    exact ih out'

/-- The input that is left shrinks with every round, as long as none is stuck. -/
theorem convertLoop_settles (conv : Conversion σ) (input : Bytes)
    (hfree : ∀ s rest, Begins conv.toIconv input s rest → ¬ conv.Stuck s rest) (size n : Nat)
    {rest : Bytes} (hn : rest.length ≤ n) (hbegins : Begins conv.toIconv input s rest)
    (out : Bytes) : ∃ r, Settles (fun fuel => convertLoop conv.toIconv size fuel s rest out) r := by
  induction n generalizing s rest out with
  | zero =>
    have hnil : rest = [] := length_eq_zero_iff.mp (by omega)
    subst hnil
    have hdone : (conv.toIconv.call s [] (space [])).1.outcome ≠ .tooBig := Outcome.noConfusion
    obtain ⟨r, hr⟩ := convertLoop_ends conv.toIconv size hdone out
    exact ⟨r, (Settles.pure r).step hr⟩
  | succ n ih =>
    by_cases hbig : (conv.toIconv.call s rest (space rest)).1.outcome = .tooBig
    · have hpos := Conversion.consumed_pos (hfree s rest hbegins) hbig
      obtain ⟨out', hround⟩ := convertLoop_tooBig conv.toIconv size hbig out
      obtain ⟨r, hr⟩ := ih (by rw [length_drop]; omega) (hbegins.next hbig) out'
      exact ⟨r, hr.step hround⟩
    · obtain ⟨r, hr⟩ := convertLoop_ends conv.toIconv size hbig out
      exact ⟨r, (Settles.pure r).step hr⟩

/-- `ConvertAppend` returns exactly if no round of its loop begins with a character that needs more
space than twice the input that is left and one byte. -/
theorem convertAppend_returns_iff (conv : Conversion σ) (input out : Bytes) :
    (∃ r, Settles (convertAppend conv.toIconv input out) r) ↔
      ∀ s rest, Begins conv.toIconv input s rest → ¬ conv.Stuck s rest := by
  constructor
  · rintro ⟨r, N, hN⟩ s rest hbegins hstuck
    obtain ⟨k, out', hk⟩ := convertAppend_begins conv.toIconv input out hbegins
    have hsome := hN (N + k) (by omega)
    rw [hk, convertLoop_stuck hstuck] at hsome
    cases hsome
  · intro hfree
    exact convertLoop_settles conv input hfree input.length input.length le_rfl .start out

theorem convertAppend_returns_of_limit (conv : Conversion σ) (hlimit : conv.limit ≤ 3)
    (input out : Bytes) :
    ∃ r, Settles (convertAppend conv.toIconv input out) r := by
  refine convertLoop_settles conv input ?_ input.length input.length le_rfl .start out
  rintro s rest - ⟨n, w, s', hne, hnext, hbig⟩
  have hw := conv.written_le hnext
  have hpos := length_pos_iff.mpr hne
  unfold space at hbig
  omega

/-! ## Two conversions -/

/-- A conversion from a charset whose characters are single bytes. -/
def Conversion.ofBytes (initial : σ) (convert : σ → UInt8 → Option (Bytes × σ)) (limit : Nat)
    (hlimit : ∀ {s c w s'}, convert s c = some (w, s') → w.length ≤ limit) : Conversion σ where
  initial := initial
  next s input := match input with
    | [] => .invalid
    | c :: _ => match convert s c with
      | some (w, s') => .char 1 w s'
      | none => .invalid
  limit := limit
  length_pos h := by
    split at h
    · cases h
    · split at h <;> cases h
      exact Nat.one_pos
  length_le h := by
    split at h
    · cases h
    · split at h <;> cases h
      exact Nat.succ_pos _
  written_le h := by
    split at h
    · cases h
    · split at h <;> cases h
      exact hlimit (by assumption)

/-- Half-width kana, of which each byte becomes three. -/
def kana : Conversion Unit :=
  .ofBytes () (fun _ c => if 0xA1 ≤ c ∧ c < 0xC0 then some ([0xEF, 0xBD, c], ()) else none) 3 <| by
    intro s c w s' h
    split at h <;> cases h
    exact le_rfl

theorem convertAppend_returns_kana :
    ∃ r, Settles (convertAppend kana.toIconv [0xB1, 0xB2, 0xB3] []) r :=
  convertAppend_returns_of_limit kana le_rfl _ _

/-- ASCII to UTF-32. The state says whether the byte order mark is still to come; it is written
with the first character. -/
def utf32 : Conversion Bool :=
  .ofBytes true
    (fun mark c =>
      if c < 0x80 then some ((if mark then [0xFF, 0xFE, 0, 0] else []) ++ [c, 0, 0, 0], false)
      else none) 8 <| by
    intro mark c w s' h
    split at h <;> cases h
    cases mark <;> simp

/-- Three kana: seven bytes of space take two of them, and the seventh stays in the output. -/
theorem convertAppend_gap :
    convertAppend kana.toIconv [0xB1, 0xB2, 0xB3] [] 2 =
        some ⟨true, [0xEF, 0xBD, 0xB1, 0xEF, 0xBD, 0xB2, 0, 0xEF, 0xBD, 0xB3], 3⟩ ∧
      (calls kana.toIconv 2 kana.initial [0xB1, 0xB2, 0xB3]).flatMap (·.2.written) =
        [0xEF, 0xBD, 0xB1, 0xEF, 0xBD, 0xB2, 0xEF, 0xBD, 0xB3] := by
  decide

/-- Four kana fill the space of nine bytes. -/
theorem convertAppend_appends_four :
    ∃ r, convertAppend kana.toIconv [0xB1, 0xB2, 0xB3, 0xB4] [0x41] 2 = some r ∧ r.ok = true ∧
      (r.out = [0x41] ++ (calls kana.toIconv 2 kana.initial
          [0xB1, 0xB2, 0xB3, 0xB4]).flatMap (·.2.written) ↔
        ∀ c ∈ calls kana.toIconv 2 kana.initial [0xB1, 0xB2, 0xB3, 0xB4],
          c.2.outcome = .tooBig → c.2.written.length = c.1) :=
  ⟨_, rfl, rfl, convertAppend_appends_iff kana.toIconv _ _ rfl rfl⟩

/-- One letter needs eight bytes with its mark, and the loop gives it three again and again. -/
theorem convertAppend_never_returns : Hangs (convertAppend utf32.toIconv [0x61] []) := by
  refine ⟨0, fun fuel _ =>
    convertLoop_stuck ⟨1, [0xFF, 0xFE, 0, 0, 0x61, 0, 0, 0], false, ?_⟩ _ _ _⟩
  exact ⟨cons_ne_nil _ _, rfl, by decide⟩

end Toft.CharsetConverter

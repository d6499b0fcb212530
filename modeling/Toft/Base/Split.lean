import Mathlib.Data.List.TakeWhile
import Toft.Base.StringAlgorithm
import Toft.Lib.Segments

/-!
# Splitting and joining strings

`SplitString` cuts a string at a delimiter and leaves the empty pieces out. For a delimiter of one
byte the pieces are the segments of the string that are not empty (`splitString_byte`).
`SplitStringKeepEmpty` leaves nothing out, and what it gives can be joined again
(`keepEmptyLoop_spec`).
-/

namespace Toft

open Lib Lib.Segments List Nat

/-- The loop of `SplitStringToIteratorUsing` for one byte; each round consumes something. -/
def splitByteLoop (c : UInt8) : Nat → Bytes → List Bytes
  | 0, _ => []
  | _, [] => []
  | fuel + 1, b :: p =>
    if b = c then splitByteLoop c fuel p
    else (b :: p.takeWhile (· ≠ c)) :: splitByteLoop c fuel (p.dropWhile (· ≠ c))

/-- The loop of `SplitUsingStringDelimiterToIterator` for a longer delimiter. -/
def splitDelimLoop (full delim : Bytes) : Nat → Nat → List Bytes
  | 0, _ => []
  | fuel + 1, beginIndex =>
    if beginIndex < full.length then
      match findFrom full delim beginIndex with
      | none => [full.drop beginIndex]
      | some endIndex =>
        if endIndex > beginIndex then
          (full.drop beginIndex).take (endIndex - beginIndex) ::
            splitDelimLoop full delim fuel (endIndex + delim.length)
        else splitDelimLoop full delim fuel (endIndex + delim.length)
    else []

/-- `SplitString` with the bytes of the C string `delim`. -/
def splitString (full delim : Bytes) : List Bytes :=
  if full.isEmpty then []
  else
    match delim with
    | [] => [full]
    | [c] => splitByteLoop c full.length full
    | delim => splitDelimLoop full delim (full.length + 1) 0

/-- `JoinStrings` to an empty target. -/
def joinStrings (delim : Bytes) : List Bytes → Bytes
  | [] => []
  | [component] => component
  | component :: components => component ++ delim ++ joinStrings delim components

theorem joinStrings_nil (components : List Bytes) :
    joinStrings [] components = components.flatten := by
  induction components with
  | nil => rfl
  | cons component components ih =>
    cases components with
    | nil => simp [joinStrings]
    | cons other components =>
      change component ++ [] ++ joinStrings [] (other :: components) = _
      rw [ih, append_nil]
      rfl

variable {s : Bytes}

theorem splitByteLoop_eq (c : UInt8) {fuel : Nat} (h : s.length ≤ fuel) :
    splitByteLoop c fuel s = ((cut c s).1 :: (cut c s).2).filter (!·.isEmpty) := by
  induction fuel generalizing s with
  | zero =>
    obtain rfl := length_eq_zero_iff.mp (by omega : s.length = 0)
    rfl
  | succ fuel ih =>
    cases s with
    | nil => rfl
    | cons b p =>
      rw [length_cons] at h
      rw [splitByteLoop]
      split
      · rename_i hb
        rw [hb, cut_sep, ih (by omega)]
        rfl
      · rename_i hb
        -- the piece ends at the next delimiter
        have hpiece : c ∉ b :: p.takeWhile (· ≠ c) := by
          intro hmem
          rcases mem_cons.mp hmem with hcb | hmem
          · exact hb hcb.symm
          · simpa using mem_takeWhile_imp hmem
        have hsplit : b :: p = (b :: p.takeWhile (· ≠ c)) ++ p.dropWhile (· ≠ c) := by
          rw [cons_append, takeWhile_append_dropWhile]
        have hlen : (p.dropWhile (· ≠ c)).length ≤ fuel :=
          (dropWhile_suffix (· ≠ c)).length_le.trans (by omega)
        rw [ih hlen]
        conv_rhs => rw [hsplit, cut_free_append hpiece]
        cases hrest : p.dropWhile (· ≠ c) with
        | nil => simp [cut]
        | cons d rest =>
          have hd : d = c := by
            have := head?_dropWhile_not (· ≠ c) p
            rw [hrest] at this
            simpa using this
          rw [hd, cut_sep, append_nil]
          rfl

theorem splitString_byte (c : UInt8) (s : Bytes) :
    splitString s [c] = ((cut c s).1 :: (cut c s).2).filter (!·.isEmpty) := by
  cases s with
  | nil => rfl
  | cons b s => exact splitByteLoop_eq c le_rfl

variable {c : UInt8}

theorem splitString_cons {first : Bytes} (hfree : c ∉ first) (hne : first ≠ [])
    (s : Bytes) : splitString (first ++ c :: s) [c] = first :: splitString s [c] := by
  have hkept : (!first.isEmpty) = true := by simpa using hne
  rw [splitString_byte, splitString_byte, cut_free_append hfree, cut_sep, append_nil]
  exact filter_cons_of_pos hkept

theorem splitString_free (hfree : c ∉ s) (hne : s ≠ []) : splitString s [c] = [s] := by
  have hkept : (!s.isEmpty) = true := by simpa using hne
  have hcut := cut_free_append hfree []
  rw [append_nil] at hcut
  rw [splitString_byte, hcut]
  simpa [cut] using hkept

/-! ## Keeping the empty pieces -/

/-- `StringPiece::find` of one byte. -/
def findCharFrom (s : Bytes) (c : UInt8) (start : Nat) : Option Nat :=
  if s.length ≤ start then none else ((s.drop start).findIdx? (· == c)).map (start + ·)

/-- The loop of both versions of `SplitStringKeepEmpty`, with what they look for and its length. -/
def keepEmptyLoop (find : Nat → Option Nat) (width : Nat) (full : Bytes) :
    Nat → Nat → Except Fault (List Bytes)
  | 0, _ => .error .unended
  | fuel + 1, prevPos =>
    match find prevPos with
    | none => .ok [full.drop prevPos]
    | some pos => do
      let tokens ← keepEmptyLoop find width full fuel (pos + width)
      return (full.drop prevPos).take (pos - prevPos) :: tokens

/-- `SplitStringKeepEmpty` at a byte. -/
def splitCharKeepEmpty (full : Bytes) (delim : UInt8) : Except Fault (List Bytes) :=
  if full.isEmpty then .ok []
  else keepEmptyLoop (findCharFrom full delim) 1 full (full.length + 1) 0

def splitStringKeepEmpty (full delim : Bytes) : Except Fault (List Bytes) :=
  match delim with
  | [c] => splitCharKeepEmpty full c
  | delim =>
    if full.isEmpty ∨ delim.isEmpty then .ok []
    else keepEmptyLoop (findFrom full delim) delim.length full (full.length + 1) 0

theorem findCharFrom_eq_none {start : Nat}
    (h : findCharFrom s c start = none) : c ∉ s.drop start := by
  unfold findCharFrom at h
  split_ifs at h with hlen
  · rw [drop_eq_nil_of_le hlen]
    exact not_mem_nil
  · rw [Option.map_eq_none_iff, findIdx?_eq_none_iff] at h
    intro hmem
    exact absurd (beq_self_eq_true c) (ne_true_of_eq_false (h c hmem))

theorem findCharFrom_eq_some {start pos : Nat} (h : findCharFrom s c start = some pos) :
    start ≤ pos ∧ c ∉ (s.drop start).take (pos - start) ∧ s.drop pos = c :: s.drop (pos + 1) := by
  unfold findCharFrom at h
  split_ifs at h with hlen
  obtain ⟨i, hfind, rfl⟩ := Option.map_eq_some_iff.mp h
  rw [findIdx?_eq_some_iff_getElem] at hfind
  obtain ⟨hi, hfound, hfirst⟩ := hfind
  rw [length_drop] at hi
  rw [Nat.add_sub_cancel_left]
  refine ⟨le_add_right start i, ?_, ?_⟩
  · intro hmem
    obtain ⟨j, hj, hget⟩ := mem_take_iff_getElem.mp hmem
    exact hfirst j (lt_of_lt_of_le hj (min_le_left _ _)) (beq_iff_eq.mpr hget)
  · rw [drop_eq_getElem_cons (by omega : start + i < s.length)]
    rw [getElem_drop, beq_iff_eq] at hfound
    rw [hfound]

def Finds (find : Nat → Option Nat) (full delim : Bytes) : Prop :=
  ∀ start pos, find start = some pos → start ≤ pos ∧ delim <+: full.drop pos

theorem finds_findFrom (full delim : Bytes) : Finds (findFrom full delim) full delim := by
  intro start pos h
  obtain ⟨hle, hfound, -⟩ := findFrom_eq_some h
  exact ⟨hle, isPrefixOf_iff_prefix.mp hfound⟩

theorem finds_findCharFrom (full : Bytes) (c : UInt8) : Finds (findCharFrom full c) full [c] := by
  intro start pos h
  obtain ⟨hle, -, hdrop⟩ := findCharFrom_eq_some h
  exact ⟨hle, ⟨full.drop (pos + 1), hdrop.symm⟩⟩

theorem joinStrings_cons (delim component : Bytes) {components : List Bytes} (h : components ≠ []) :
    joinStrings delim (component :: components) =
      component ++ delim ++ joinStrings delim components := by
  cases components with
  | nil => exact absurd rfl h
  | cons => rfl

theorem keepEmptyLoop_spec {find : Nat → Option Nat} {full delim : Bytes}
    (hfind : Finds find full delim) (hdelim : delim ≠ []) {fuel prevPos : Nat}
    (hfuel : full.length < fuel + prevPos) (hpos : prevPos ≤ full.length) :
    ∃ tokens, keepEmptyLoop find delim.length full fuel prevPos = .ok tokens ∧ tokens ≠ [] ∧
      joinStrings delim tokens = full.drop prevPos := by
  induction fuel generalizing prevPos with
  | zero => omega
  | succ fuel ih =>
    rw [keepEmptyLoop]
    cases hfound : find prevPos with
    | none => exact ⟨[full.drop prevPos], rfl, cons_ne_nil _ _, rfl⟩
    | some pos =>
      obtain ⟨hle, rest, hrest⟩ := hfind prevPos pos hfound
      have hpositive := length_pos_of_ne_nil hdelim
      have hlength : delim.length + rest.length = full.length - pos := by
        rw [← length_append, hrest, length_drop]
      obtain ⟨tokens, hloop, hne, hjoin⟩ := @ih (pos + delim.length) (by omega) (by omega)
      refine ⟨(full.drop prevPos).take (pos - prevPos) :: tokens, ?_, cons_ne_nil _ _, ?_⟩
      · dsimp only
        rw [hloop]
        rfl
      · have hbehind : full.drop (pos + delim.length) = rest := by
          rw [← drop_drop, ← hrest, drop_left]
        have hfrom : full.drop pos = (full.drop prevPos).drop (pos - prevPos) := by
          rw [drop_drop, Nat.add_sub_cancel' hle]
        rw [joinStrings_cons delim _ hne, hjoin, hbehind, append_assoc, hrest, hfrom,
          take_append_drop]

theorem keepEmptyLoop_char (full : Bytes) (c : UInt8) {fuel prevPos : Nat}
    (hfuel : full.length < fuel + prevPos) (hpos : prevPos ≤ full.length) :
    keepEmptyLoop (findCharFrom full c) 1 full fuel prevPos =
      .ok ((cut c (full.drop prevPos)).1 :: (cut c (full.drop prevPos)).2) := by
  induction fuel generalizing prevPos with
  | zero => omega
  | succ fuel ih =>
    rw [keepEmptyLoop]
    cases hfound : findCharFrom full c prevPos with
    | none =>
      have hcut := cut_free_append (findCharFrom_eq_none hfound) []
      rw [append_nil] at hcut
      rw [hcut, cut, append_nil]
    | some pos =>
      obtain ⟨hle, hfree, hdrop⟩ := findCharFrom_eq_some hfound
      have hlt : pos < full.length := by
        by_contra hge
        rw [drop_eq_nil_of_le (Nat.le_of_not_lt hge)] at hdrop
        cases hdrop
      have hsplit : full.drop prevPos =
          (full.drop prevPos).take (pos - prevPos) ++ c :: full.drop (pos + 1) := by
        rw [← hdrop, ← Nat.add_sub_cancel' hle, ← drop_drop, Nat.add_sub_cancel_left,
          take_append_drop]
      dsimp only
      rw [@ih (pos + 1) (by omega) hlt]
      conv_rhs => rw [hsplit, cut_free_append hfree, cut_sep, append_nil]
      rfl

theorem splitStringKeepEmpty_byte (c : UInt8) (h : s ≠ []) :
    splitStringKeepEmpty s [c] = .ok (segments c s) := by
  have hne : ¬ s.isEmpty = true := by simpa using h
  rw [splitStringKeepEmpty, splitCharKeepEmpty, if_neg hne,
    keepEmptyLoop_char s c (lt_succ_self _) (zero_le _), drop_zero, segments]

theorem joinStrings_segments (c : UInt8) (first : Bytes) (others : List Bytes) :
    joinStrings [c] (first :: others) = first ++ behind c others := by
  induction others generalizing first with
  | nil => exact (append_nil first).symm
  | cons other others ih =>
    rw [joinStrings_cons [c] first (cons_ne_nil _ _), ih, behind_cons, append_assoc,
      singleton_append]

theorem joinStrings_splitStringKeepEmpty (s : Bytes) {delim : Bytes} (hdelim : delim ≠ []) :
    ∃ tokens, splitStringKeepEmpty s delim = .ok tokens ∧ joinStrings delim tokens = s := by
  cases s with
  | nil =>
    refine ⟨[], ?_, rfl⟩
    unfold splitStringKeepEmpty
    split
    · rfl
    · exact if_pos (Or.inl rfl)
  | cons b s =>
    unfold splitStringKeepEmpty
    split
    · rename_i c
      obtain ⟨tokens, hloop, -, hjoin⟩ := keepEmptyLoop_spec (finds_findCharFrom (b :: s) c)
        hdelim (lt_succ_self _) (zero_le _)
      exact ⟨tokens, hloop, hjoin⟩
    · obtain ⟨tokens, hloop, -, hjoin⟩ := keepEmptyLoop_spec (finds_findFrom (b :: s) delim)
        hdelim (lt_succ_self _) (zero_le _)
      refine ⟨tokens, ?_, hjoin⟩
      rw [if_neg, hloop]
      rintro (hempty | hempty)
      · cases hempty
      · exact hdelim (isEmpty_iff.mp hempty)

theorem splitStringKeepEmpty_joinStrings {list : List Bytes} (hfree : Free c list)
    (hnil : list ≠ []) (hempty : list ≠ [[]]) :
    splitStringKeepEmpty (joinStrings [c] list) [c] = .ok list := by
  cases list with
  | nil => exact absurd rfl hnil
  | cons first others =>
    obtain ⟨hfirst, hothers⟩ := forall_mem_cons.mp hfree
    rw [joinStrings_segments]
    have hne : ¬ (first ++ behind c others).isEmpty := by
      rw [List.isEmpty_iff, append_eq_nil_iff]
      rintro ⟨rfl, hbehind⟩
      cases others with
      | nil => exact hempty rfl
      | cons => cases hbehind
    rw [splitStringKeepEmpty_byte c fun hnil => hne (isEmpty_iff.mpr hnil),
      segments_append_behind hfirst hothers]

/-- Splitting and joining undo each other. -/
theorem split_join_inverse :
    (∀ s delim : Bytes, delim ≠ [] →
      ∃ tokens, splitStringKeepEmpty s delim = .ok tokens ∧ joinStrings delim tokens = s) ∧
    ∀ (c : UInt8) (list : List Bytes), Free c list → list ≠ [] → list ≠ [[]] →
      splitStringKeepEmpty (joinStrings [c] list) [c] = .ok list := by
  refine ⟨?_, ?_⟩
  · intro s delim hdelim
    exact joinStrings_splitStringKeepEmpty s hdelim
  · intro c list hfree hnil hempty
    exact splitStringKeepEmpty_joinStrings hfree hnil hempty

/-- The empty pieces at both ends are kept. -/
theorem split_join_inverse_comma :
    splitStringKeepEmpty (joinStrings [0x2c] [[], ascii "a", []]) [0x2c] =
      .ok [[], ascii "a", []] := by
  refine split_join_inverse.2 0x2c [[], ascii "a", []] ?_ ?_ ?_
  · unfold Free
    decide
  · exact cons_ne_nil _ _
  · decide

end Toft

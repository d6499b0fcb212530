import Toft.Lib.Segments
import Toft.Lib.Word

/-!
# Removing dot segments

`remove_dot_segments` of the library and the rules of RFC 3986, section 5.2.4. Both rewrite an input
and a result buffer until the input is empty, and they differ in one place: rule C removes the last
segment of the result also if no slash stands before it, and the library then leaves the result as
it is. On the segments of the path both are one walk (`walk`); only the text before the first slash
can be lost on the way (`loop_eq`). So they agree unless `..` climbs above such a text
(`removeDotSegments_eq_rfc_iff`).
-/

namespace Toft

open Lib Lib.Segments List

namespace URI

abbrev slash : UInt8 := '/'.toUInt8

/-- `std::string::find_last_of` with a single byte. -/
def findLastOf (c : UInt8) : Bytes → Option Nat
  | [] => none
  | b :: s =>
    match findLastOf c s with
    | some pos => some (pos + 1)
    | none => if b = c then some 0 else none

def removeLastSegmentAndPrecedingSlash (path : Bytes) : Bytes :=
  match findLastOf slash path with
  | some pos => path.take pos
  | none => path

/-- One round of the loop of `remove_dot_segments` on the input that is left and the result so far;
`removeLast` is what rule C does to the result. -/
def removeDotSegmentsRound (removeLast : Bytes → Bytes) (input result : Bytes) : Bytes × Bytes :=
  -- rule A
  if (ascii "../").isPrefixOf input then (input.drop 3, result)
  else if (ascii "./").isPrefixOf input then (input.drop 2, result)
  -- rule B: the byte at the new start is overwritten with a slash
  else if (ascii "/./").isPrefixOf input then (slash :: input.drop 3, result)
  else if input = ascii "/." then (slash :: input.drop 2, result)
  -- rule C
  else if (ascii "/../").isPrefixOf input then (slash :: input.drop 4, removeLast result)
  else if input = ascii "/.." then (slash :: input.drop 3, removeLast result)
  -- rule D
  else if input = ascii "." then (input.drop 1, result)
  else if input = ascii ".." then (input.drop 2, result)
  -- rule E
  else
    match (input.drop 1).findIdx? (· == slash) with
    | some i => (input.drop (i + 1), result ++ input.take (i + 1))
    | none => ([], result ++ input)

/-- The loop; each round shortens the input. -/
def removeDotSegmentsLoop (removeLast : Bytes → Bytes) : Nat → Bytes → Bytes → Bytes
  | 0, _, result => result
  | _, [], result => result
  | fuel + 1, input, result =>
    let (input, result) := removeDotSegmentsRound removeLast input result
    removeDotSegmentsLoop removeLast fuel input result

def removeDotSegments (path : Bytes) : Bytes :=
  removeDotSegmentsLoop removeLastSegmentAndPrecedingSlash path.length path []

end URI

/-! ## The algorithm of the RFC -/

namespace Rfc3986

open URI (slash)

/-- The output without its last segment and the slash before it, if any. -/
def dropLastSegment (output : Bytes) : Bytes :=
  ((output.reverse.dropWhile (· ≠ slash)).drop 1).reverse

/-- Rules A to E. A dot or two dots behind a slash are a complete segment if the input ends there
or goes on with a slash. -/
def rewrite (input output : Bytes) : Bytes × Bytes :=
  if ascii "../" <+: input then (input.drop 3, output)
  else if ascii "./" <+: input then (input.drop 2, output)
  else if ascii "/./" <+: input ∨ input = ascii "/." then (slash :: input.drop 3, output)
  else if ascii "/../" <+: input ∨ input = ascii "/.." then
    (slash :: input.drop 4, dropLastSegment output)
  else if input = ascii "." ∨ input = ascii ".." then ([], output)
  else
    match input with
    | [] => ([], output)
    | c :: rest =>
      (rest.dropWhile (· ≠ slash), output ++ c :: rest.takeWhile (· ≠ slash))

def removeDotSegmentsLoop : Nat → Bytes → Bytes → Bytes
  | 0, _, output => output
  | _, [], output => output
  | fuel + 1, input, output =>
    let (input, output) := rewrite input output
    removeDotSegmentsLoop fuel input output

def removeDotSegments (path : Bytes) : Bytes := removeDotSegmentsLoop path.length path []

end Rfc3986

namespace URI

/-! ## One round -/

abbrev dot : Bytes := ascii "."
abbrev dots : Bytes := ascii ".."

abbrev IsDot (segment : Bytes) : Prop := segment = dot ∨ segment = dots

theorem slash_notMem_dot : slash ∉ dot := by decide
theorem slash_notMem_dots : slash ∉ dots := by decide

variable {removeLast : Bytes → Bytes}

/-- The segments that are left behind a dot segment: at the end an empty one. -/
def afterDot (segments : List Bytes) : List Bytes := if segments = [] then [[]] else segments

section Segment

variable {segment : Bytes} {segments : List Bytes}

section

variable {w : Bytes} (hw : slash ∉ w) (hfree : slash ∉ segment) (hothers : Free slash segments)
include hw hfree hothers

theorem isPrefixOf_behind_iff :
    (slash :: (w ++ [slash])).isPrefixOf (behind slash (segment :: segments)) = true ↔
      segment = w ∧ segments ≠ [] := by
  rw [behind_cons, isPrefixOf_iff_prefix, cons_prefix_cons,
    append_sep_prefix_iff hw hfree hothers]
  exact and_iff_right rfl

theorem behind_eq_iff :
    behind slash (segment :: segments) = slash :: w ↔ segment = w ∧ segments = [] := by
  rw [behind_cons, cons_inj_right, append_behind_eq_iff hw hfree hothers]

end

theorem findIdx?_slash (hfree : slash ∉ segment) (segments : List Bytes) :
    (segment ++ behind slash segments).findIdx? (· == slash) =
      if segments = [] then none else some segment.length := by
  have hnone : segment.findIdx? (· == slash) = none := by
    rw [findIdx?_eq_none_iff]
    intro b hb
    exact beq_false_of_ne fun h => hfree (h ▸ hb)
  cases segments with
  | nil => rw [behind_nil, append_nil, hnone, if_pos rfl]
  | cons next segments =>
    rw [findIdx?_append, hnone, behind_cons, findIdx?_cons]
    simp

theorem round_behind (hfree : slash ∉ segment) (hothers : Free slash segments) (result : Bytes) :
    removeDotSegmentsRound removeLast (behind slash (segment :: segments)) result =
      if segment = dot then (behind slash (afterDot segments), result)
      else if segment = dots then (behind slash (afterDot segments), removeLast result)
      else (behind slash segments, result ++ slash :: segment) := by
  have hA₁ : (ascii "../").isPrefixOf (behind slash (segment :: segments)) = false := rfl
  have hA₂ : (ascii "./").isPrefixOf (behind slash (segment :: segments)) = false := rfl
  have hB₁ : (ascii "/./").isPrefixOf _ = true ↔ _ :=
    isPrefixOf_behind_iff slash_notMem_dot hfree hothers
  have hB₂ : _ = ascii "/." ↔ segment = dot ∧ _ := behind_eq_iff slash_notMem_dot hfree hothers
  have hC₁ : (ascii "/../").isPrefixOf _ = true ↔ _ :=
    isPrefixOf_behind_iff slash_notMem_dots hfree hothers
  have hC₂ : _ = ascii "/.." ↔ segment = dots ∧ _ := behind_eq_iff slash_notMem_dots hfree hothers
  have hD₁ : behind slash (segment :: segments) ≠ ascii "." :=
    fun h => absurd (cons.inj h).1 (by decide)
  have hD₂ : behind slash (segment :: segments) ≠ ascii ".." :=
    fun h => absurd (cons.inj h).1 (by decide)
  have hE : ((behind slash (segment :: segments)).drop 1).findIdx? (· == slash) = _ :=
    findIdx?_slash hfree segments
  simp only [removeDotSegmentsRound, hA₁, hA₂, hB₁, hB₂, hC₁, hC₂, if_neg hD₁, if_neg hD₂, hE,
    Bool.false_eq_true, if_false]
  by_cases hdot : segment = dot
  · subst hdot
    cases segments with
    | nil => rfl
    | cons next segments => rfl
  by_cases hdots : segment = dots
  · subst hdots
    cases segments with
    | nil => rfl
    | cons next segments => rfl
  simp only [hdot, hdots, false_and, if_false]
  cases segments with
  | nil => simp
  | cons next segments => simp

theorem round_first (hne : segment ≠ []) (hfree : slash ∉ segment) (hothers : Free slash segments)
    (result : Bytes) :
    removeDotSegmentsRound removeLast (segment ++ behind slash segments) result =
      if segment = dot ∨ segment = dots then
        ((behind slash segments).drop 1, result)
      else (behind slash segments, result ++ segment) := by
  have hA₁ : (ascii "../").isPrefixOf _ = true ↔ _ :=
    isPrefixOf_iff_prefix.trans (append_sep_prefix_iff slash_notMem_dots hfree hothers)
  have hA₂ : (ascii "./").isPrefixOf _ = true ↔ _ :=
    isPrefixOf_iff_prefix.trans (append_sep_prefix_iff slash_notMem_dot hfree hothers)
  have hB (w : Bytes) : (slash :: w).isPrefixOf (segment ++ behind slash segments) = false := by
    obtain ⟨c, rest, rfl⟩ := exists_cons_of_ne_nil hne
    have hc : slash ≠ c := fun h => hfree (h ▸ mem_cons_self)
    rw [cons_append, isPrefixOf, beq_false_of_ne hc, Bool.false_and]
  have hC (w : Bytes) : segment ++ behind slash segments ≠ slash :: w := by
    intro h
    have hself := hB w
    rw [h, isPrefixOf_iff_prefix.mpr prefix_rfl] at hself
    cases hself
  have hD {w : Bytes} (hw : slash ∉ w) :
      segment ++ behind slash segments = w ↔ segment = w ∧ segments = [] :=
    append_behind_eq_iff hw hfree hothers
  have hB₁ : (ascii "/./").isPrefixOf _ = false := hB (ascii "./")
  have hB₂ : _ ≠ ascii "/." := hC (ascii ".")
  have hC₁ : (ascii "/../").isPrefixOf _ = false := hB (ascii "../")
  have hC₂ : _ ≠ ascii "/.." := hC (ascii "..")
  simp only [removeDotSegmentsRound, hA₁, hA₂, hB₁, hC₁, if_neg hB₂, if_neg hC₂,
    hD slash_notMem_dot, hD slash_notMem_dots, Bool.false_eq_true, if_false]
  by_cases hdot : segment = dot
  · subst hdot
    cases segments <;> rfl
  by_cases hdots : segment = dots
  · subst hdots
    cases segments <;> rfl
  obtain ⟨c, rest, rfl⟩ := exists_cons_of_ne_nil hne
  have hE := findIdx?_slash (fun h => hfree (mem_cons_of_mem c h)) segments
  simp only [hdot, hdots, false_and, or_false, if_false, cons_append, drop_one,
    tail_cons, hE]
  cases segments with
  | nil => simp
  | cons next segments => simp

end Segment

/-! ## The loop -/

section Loop

/-- What `removeLast` does to a text of segments; `climb` is what becomes of the text before the
first slash when there is no segment behind it. -/
structure RemovesLast (removeLast climb : Bytes → Bytes) : Prop where
  append_behind : ∀ {first : Bytes} {segments : List Bytes}, slash ∉ first → Free slash segments →
    removeLast (first ++ behind slash segments) =
      (if segments = [] then climb first else first) ++ behind slash segments.dropLast
  notMem_climb : ∀ {first : Bytes}, slash ∉ first → slash ∉ climb first
  climb_climb : ∀ first, climb (climb first) = climb first

/-- The segments that stay when the dot segments are walked. -/
def walk : List Bytes → List Bytes → List Bytes
  | kept, [] => kept
  | kept, segment :: segments =>
    if segment = dot then (if segments = [] then kept ++ [[]] else walk kept segments)
    else if segment = dots then
      (if segments = [] then kept.dropLast ++ [[]] else walk kept.dropLast segments)
    else walk (kept ++ [segment]) segments

/-- Whether the walk goes up from a point with nothing kept. -/
def climbs : Nat → List Bytes → Bool
  | _, [] => false
  | depth, segment :: segments =>
    if segment = dot then climbs depth segments
    else if segment = dots then depth == 0 || climbs (depth - 1) segments
    else climbs (depth + 1) segments

theorem loop_nil (fuel : Nat) (result : Bytes) :
    removeDotSegmentsLoop removeLast fuel [] result = result := by
  cases fuel <;> rfl

theorem loop_round {input : Bytes} (hne : input ≠ []) (fuel : Nat) (result : Bytes) :
    removeDotSegmentsLoop removeLast (fuel + 1) input result =
      removeDotSegmentsLoop removeLast fuel (removeDotSegmentsRound removeLast input result).1
        (removeDotSegmentsRound removeLast input result).2 := by
  obtain ⟨c, input, rfl⟩ := exists_cons_of_ne_nil hne
  rfl

theorem free_append {xs ys : List Bytes} (hxs : Free slash xs) (hys : Free slash ys) :
    Free slash (xs ++ ys) :=
  forall_mem_append.mpr ⟨hxs, hys⟩

variable {fuel : Nat}

theorem loop_afterDot (hfuel : 0 < fuel) (segments : List Bytes) (result : Bytes) :
    removeDotSegmentsLoop removeLast fuel (behind slash (afterDot segments)) result =
      if segments = [] then result ++ [slash]
      else removeDotSegmentsLoop removeLast fuel (behind slash segments) result := by
  unfold afterDot
  split
  · obtain ⟨fuel, rfl⟩ : ∃ k, fuel = k + 1 := ⟨fuel - 1, by omega⟩
    exact loop_nil fuel _
  · rfl

variable {climb : Bytes → Bytes}

theorem loop_behind (h : RemovesLast removeLast climb)
    {first : Bytes} {kept segments : List Bytes} (hfuel : (behind slash segments).length ≤ fuel)
    (hfirst : slash ∉ first) (hkept : Free slash kept) (hsegments : Free slash segments) :
    removeDotSegmentsLoop removeLast fuel (behind slash segments) (first ++ behind slash kept) =
      (if climbs kept.length segments then climb first else first) ++
        behind slash (walk kept segments) := by
  induction segments generalizing fuel first kept with
  | nil => exact loop_nil fuel _
  | cons segment segments ih =>
    obtain ⟨hsegment, hsegments⟩ := forall_mem_cons.mp hsegments
    rw [behind_cons, length_cons, length_append] at hfuel
    obtain ⟨fuel, rfl⟩ : ∃ k, fuel = k + 1 := ⟨fuel - 1, by omega⟩
    have hne : behind slash (segment :: segments) ≠ [] := cons_ne_nil _ _
    have hsingle : behind slash [[]] = [slash] := rfl
    rw [loop_round hne, round_behind hsegment hsegments, walk, climbs]
    by_cases hdot : segment = dot
    · have hpos : 0 < segment.length := by rw [hdot]; decide
      simp only [if_pos hdot, loop_afterDot (show 0 < fuel by omega)]
      split
      · rename_i hnil
        rw [hnil, behind_append, append_assoc]
        rfl
      · exact ih (by omega) hfirst hkept hsegments
    by_cases hdots : segment = dots
    · have hpos : 0 < segment.length := by rw [hdots]; decide
      simp only [if_neg hdot, if_pos hdots, loop_afterDot (show 0 < fuel by omega),
        h.append_behind hfirst hkept]
      -- what is left of the text before the first slash
      obtain ⟨first', hfirst', heq, hclimb⟩ : ∃ first', slash ∉ first' ∧
          (if kept = [] then climb first else first) = first' ∧
          (if (kept.length == 0 || climbs (kept.length - 1) segments) = true
            then climb first else first) =
            if climbs kept.dropLast.length segments = true then climb first' else first' := by
        cases kept with
        | nil => exact ⟨climb first, h.notMem_climb hfirst, rfl, by simp [h.climb_climb]⟩
        | cons segment kept => exact ⟨first, hfirst, rfl, by simp⟩
      have hkept' : Free slash kept.dropLast :=
        fun segment hmem => hkept segment (dropLast_subset kept hmem)
      rw [heq, hclimb]
      split
      · rename_i hnil
        rw [hnil, behind_append, append_assoc]
        rfl
      · exact ih (by omega) hfirst' hkept' hsegments
    · simp only [if_neg hdot, if_neg hdots]
      have hkept' : Free slash (kept ++ [segment]) :=
        free_append hkept (forall_mem_singleton.mpr hsegment)
      have hmove := @ih fuel _ _ (by omega) hfirst hkept' hsegments
      rw [behind_append] at hmove
      simpa using hmove

/-- Rule A on the text before the first slash, and rule D: dot segments are dropped. -/
def strip : Bytes → List Bytes → Bytes × List Bytes
  | first, [] => (if first = dot ∨ first = dots then [] else first, [])
  | first, segment :: segments =>
    if first = dot ∨ first = dots then strip segment segments else (first, segment :: segments)

variable {segments : List Bytes}

theorem strip_forall {P : Bytes → Prop} (hnil : P []) {first : Bytes}
    (hfirst : P first) (hsegments : ∀ segment ∈ segments, P segment) :
    P (strip first segments).1 ∧ ∀ segment ∈ (strip first segments).2, P segment := by
  induction segments generalizing first with
  | nil =>
    simp only [strip]
    split
    · exact ⟨hnil, hsegments⟩
    · exact ⟨hfirst, hsegments⟩
  | cons segment segments ih =>
    obtain ⟨hsegment, htail⟩ := forall_mem_cons.mp hsegments
    simp only [strip]
    split
    · exact ih hsegment htail
    · exact ⟨hfirst, hsegments⟩

theorem loop_first {first : Bytes}
    (hfuel : (first ++ behind slash segments).length ≤ fuel) (hfirst : slash ∉ first)
    (hsegments : Free slash segments) :
    ∃ fuel', (behind slash (strip first segments).2).length ≤ fuel' ∧
      removeDotSegmentsLoop removeLast fuel (first ++ behind slash segments) [] =
        removeDotSegmentsLoop removeLast fuel' (behind slash (strip first segments).2)
          (strip first segments).1 := by
  induction segments generalizing first fuel with
  | nil =>
    by_cases hnil : first = []
    · subst hnil
      exact ⟨fuel, Nat.zero_le _, rfl⟩
    obtain ⟨fuel, rfl⟩ : ∃ k, fuel = k + 1 :=
      ⟨fuel - 1, by have := length_pos_iff.mpr hnil; simp at hfuel; omega⟩
    refine ⟨fuel, Nat.zero_le _, ?_⟩
    rw [loop_round (by simpa using hnil), round_first hnil hfirst hsegments, strip]
    split <;> rfl
  | cons segment segments ih =>
    obtain ⟨hsegment, htail⟩ := forall_mem_cons.mp hsegments
    by_cases hnil : first = []
    · subst hnil
      exact ⟨fuel, hfuel, rfl⟩
    have hpos := length_pos_iff.mpr hnil
    rw [length_append] at hfuel
    obtain ⟨fuel, rfl⟩ : ∃ k, fuel = k + 1 := ⟨fuel - 1, by omega⟩
    rw [loop_round (by simp [hnil]), round_first hnil hfirst hsegments, strip]
    split
    · refine @ih _ segment ?_ hsegment htail
      rw [behind_cons, length_cons] at hfuel
      omega
    · exact ⟨fuel, by dsimp only; omega, rfl⟩

/-- What the loop computes: the walk over the segments, behind the text before the first slash
unless the walk climbs above it. -/
theorem loop_eq (h : RemovesLast removeLast climb) (path : Bytes) :
    removeDotSegmentsLoop removeLast path.length path [] =
      let (first, segments) := strip (cut slash path).1 (cut slash path).2
      (if climbs 0 segments then climb first else first) ++ behind slash (walk [] segments) := by
  obtain ⟨hfirst, hsegments⟩ := @cut_free _ _ slash path
  have hpath : path = (cut slash path).1 ++ behind slash (cut slash path).2 :=
    (append_behind path).symm
  obtain ⟨fuel, hfuel, hloop⟩ := @loop_first removeLast _ _ _
    (congrArg length hpath).ge hfirst hsegments
  obtain ⟨hfirst', hsegments'⟩ :=
    strip_forall (P := fun segment => slash ∉ segment) not_mem_nil hfirst hsegments
  rw [← hpath] at hloop
  rw [hloop]
  have hbehind := loop_behind h hfuel hfirst' (fun _ hmem => absurd hmem not_mem_nil)
    hsegments'
  rw [behind_nil, append_nil] at hbehind
  exact hbehind

end Loop

/-! ## The two ways of removing the last segment -/

theorem findLastOf_eq_none {c : UInt8} {s : Bytes} (h : c ∉ s) : findLastOf c s = none := by
  induction s with
  | nil => rfl
  | cons b s ih =>
    have hb : b ≠ c := fun hb => h (hb ▸ mem_cons_self)
    rw [findLastOf, ih fun hmem => h (mem_cons_of_mem b hmem)]
    exact if_neg hb

theorem findLastOf_append_cons {c : UInt8} (u : Bytes) {v : Bytes} (h : c ∉ v) :
    findLastOf c (u ++ c :: v) = some u.length := by
  induction u with
  | nil =>
    rw [nil_append, findLastOf, findLastOf_eq_none h]
    exact if_pos rfl
  | cons b u ih => rw [cons_append, findLastOf, ih]; rfl

theorem append_behind_concat (first : Bytes) (segments : List Bytes) (last : Bytes) :
    first ++ behind slash (segments ++ [last]) =
      first ++ behind slash segments ++ slash :: last := by
  simp [behind_append]

theorem removesLast_removeLastSegment : RemovesLast removeLastSegmentAndPrecedingSlash id where
  append_behind := by
    intro first segments hfirst hsegments
    rcases eq_nil_or_concat segments with rfl | ⟨segments, last, rfl⟩
    · simp [removeLastSegmentAndPrecedingSlash, findLastOf_eq_none hfirst]
    · have hlast : slash ∉ last := hsegments last (by simp)
      rw [concat_eq_append, append_behind_concat, removeLastSegmentAndPrecedingSlash,
        findLastOf_append_cons _ hlast]
      refine take_left.trans ?_
      simp
  notMem_climb := id
  climb_climb _ := rfl

theorem removesLast_dropLastSegment : RemovesLast Rfc3986.dropLastSegment (fun _ => []) where
  append_behind := by
    intro first segments hfirst hsegments
    have hpass {s : Bytes} (hs : slash ∉ s) (t : Bytes) :
        (s.reverse ++ t).dropWhile (· ≠ slash) = t.dropWhile (· ≠ slash) := by
      refine dropWhile_append_of_pos fun b hb => ?_
      exact decide_eq_true fun h => hs (h ▸ mem_reverse.mp hb)
    rcases eq_nil_or_concat segments with rfl | ⟨segments, last, rfl⟩
    · have hfirst' := hpass hfirst []
      rw [append_nil] at hfirst'
      rw [behind_nil, append_nil, Rfc3986.dropLastSegment, hfirst']
      rfl
    · have hlast : slash ∉ last := hsegments last (by simp)
      rw [concat_eq_append, append_behind_concat, Rfc3986.dropLastSegment,
        reverse_append, reverse_cons, append_assoc, hpass hlast]
      simp
  notMem_climb _ := not_mem_nil
  climb_climb _ := rfl

theorem removeDotSegments_eq (path : Bytes) :
    removeDotSegments path =
      (strip (cut slash path).1 (cut slash path).2).1 ++
        behind slash (walk [] (strip (cut slash path).1 (cut slash path).2).2) := by
  rw [removeDotSegments, loop_eq removesLast_removeLastSegment]
  simp only [id_eq, ite_self]

theorem walk_ne_nil (kept : List Bytes) {segments : List Bytes} (h : segments ≠ []) :
    walk kept segments ≠ [] := by
  induction segments generalizing kept with
  | nil => exact absurd rfl h
  | cons segment segments ih =>
    rcases eq_or_ne segments [] with rfl | hne
    · simp only [walk, if_pos]
      split_ifs <;> simp
    · simp only [walk, if_neg hne]
      split_ifs <;> exact ih _ hne

/-- `.` and `..` with a slash behind each, which the last one may lack. -/
def OnlyDots (path : Bytes) : Prop :=
  ∃ (segments : List Bytes) (last : Bytes), (∀ segment ∈ segments, IsDot segment) ∧
    (last = [] ∨ IsDot last) ∧ path = segments.flatMap (· ++ [slash]) ++ last

theorem onlyDots_of_strip {first : Bytes} {segments : List Bytes}
    (h : strip first segments = ([], [])) : OnlyDots (first ++ behind slash segments) := by
  induction segments generalizing first with
  | nil =>
    refine ⟨[], first, forall_mem_nil _, ?_, append_nil first⟩
    by_cases hdot : IsDot first
    · exact .inr hdot
    · rw [strip, if_neg hdot] at h
      exact .inl (Prod.mk.inj h).1
  | cons segment segments ih =>
    by_cases hdot : IsDot first
    · rw [strip, if_pos hdot] at h
      obtain ⟨others, last, hothers, hlast, heq⟩ := ih h
      exact ⟨first :: others, last, forall_mem_cons.mpr ⟨hdot, hothers⟩, hlast, by simp [heq]⟩
    · rw [strip, if_neg hdot] at h
      cases (Prod.mk.inj h).2

theorem strip_of_onlyDots {path : Bytes} (h : OnlyDots path) :
    strip (cut slash path).1 (cut slash path).2 = ([], []) := by
  have hfree {segment : Bytes} (hdot : IsDot segment) : slash ∉ segment := by
    rcases hdot with rfl | rfl <;> decide
  obtain ⟨segments, last, hdots, hlast, rfl⟩ := h
  induction segments with
  | nil => rcases hlast with rfl | rfl | rfl <;> decide
  | cons segment segments ih =>
    obtain ⟨hdot, hdots⟩ := forall_mem_cons.mp hdots
    rw [flatMap_cons, append_assoc, append_assoc, cut_free_append (hfree hdot),
      singleton_append, cut_sep, append_nil, strip, if_pos hdot]
    exact ih hdots

theorem removeDotSegments_eq_nil_iff (path : Bytes) :
    removeDotSegments path = [] ↔ OnlyDots path := by
  rw [removeDotSegments_eq]
  constructor
  · intro h
    obtain ⟨hfirst, hbehind⟩ := append_eq_nil_iff.mp h
    rw [← @append_behind _ _ slash path]
    refine onlyDots_of_strip (Prod.ext hfirst ?_)
    by_contra hne
    obtain ⟨segment, segments, hwalk⟩ := exists_cons_of_ne_nil (walk_ne_nil [] hne)
    rw [hwalk] at hbehind
    cases hbehind
  · intro h
    rw [strip_of_onlyDots h]
    rfl

/-- No segment comes out that was not there, the empty one apart, and no dot segment. -/
theorem walk_forall {P : Bytes → Prop} (hnil : P []) {kept segments : List Bytes}
    (hkept : ∀ segment ∈ kept, P segment)
    (hsegments : ∀ segment ∈ segments, ¬ IsDot segment → P segment) :
    ∀ segment ∈ walk kept segments, P segment := by
  have hend {xs : List Bytes} (hxs : ∀ segment ∈ xs, P segment) :
      ∀ segment ∈ xs ++ [[]], P segment :=
    forall_mem_append.mpr ⟨hxs, forall_mem_singleton.mpr hnil⟩
  induction segments generalizing kept with
  | nil => exact hkept
  | cons segment segments ih =>
    obtain ⟨hsegment, hsegments⟩ := forall_mem_cons.mp hsegments
    have hdrop : ∀ segment ∈ kept.dropLast, P segment :=
      fun segment hmem => hkept segment (dropLast_subset kept hmem)
    rw [walk]
    split
    · split
      · exact hend hkept
      · exact ih hkept hsegments
    · split
      · split
        · exact hend hdrop
        · exact ih hdrop hsegments
      · rename_i hdot hdots
        have hkept' := forall_mem_singleton.mpr (hsegment (not_or.mpr ⟨hdot, hdots⟩))
        exact ih (forall_mem_append.mpr ⟨hkept, hkept'⟩) hsegments

/-! ## Agreement -/

/-- Rule E in both spellings. -/
theorem findIdx?_cons_slash (c : UInt8) (rest output : Bytes) :
    (match rest.findIdx? (· == slash) with
      | some i => ((c :: rest).drop (i + 1), output ++ (c :: rest).take (i + 1))
      | none => ([], output ++ c :: rest)) =
      (rest.dropWhile (· ≠ slash), output ++ c :: rest.takeWhile (· ≠ slash)) := by
  have hnot : (fun b => !decide (b ≠ slash)) = (· == slash) := by
    funext b
    by_cases hb : b = slash <;> simp [hb]
  rw [takeWhile_eq_take_findIdx_not, dropWhile_eq_drop_findIdx_not, hnot,
    findIdx?_eq_guard_findIdx_lt, Option.guard_apply]
  split
  · rename_i i h
    split at h
    · cases h
      rfl
    · cases h
  · rename_i h
    split at h
    · cases h
    · rename_i hlt
      rw [decide_eq_true_eq] at hlt
      rw [take_of_length_le (by omega), drop_of_length_le (by omega)]

theorem rewrite_eq (input output : Bytes) :
    Rfc3986.rewrite input output = removeDotSegmentsRound Rfc3986.dropLastSegment input output := by
  have hE : (match input with
      | [] => (([] : Bytes), output)
      | c :: rest => (rest.dropWhile (· ≠ slash), output ++ c :: rest.takeWhile (· ≠ slash))) =
      match (input.drop 1).findIdx? (· == slash) with
      | some i => (input.drop (i + 1), output ++ input.take (i + 1))
      | none => ([], output ++ input) := by
    cases input with
    | nil => rw [append_nil]; rfl
    | cons c rest => exact (findIdx?_cons_slash c rest output).symm
  simp only [Rfc3986.rewrite, removeDotSegmentsRound, isPrefixOf_iff_prefix, hE]
  -- the rules for a complete input, and then those for a start of it
  by_cases hB : input = ascii "/."
  · subst hB
    rfl
  by_cases hC : input = ascii "/.."
  · subst hC
    rfl
  by_cases hD : input = ascii "."
  · subst hD
    rfl
  by_cases hD' : input = ascii ".."
  · subst hD'
    rfl
  simp only [hB, hC, hD, hD', or_false, if_false]

theorem rfc_eq (path : Bytes) :
    Rfc3986.removeDotSegments path =
      removeDotSegmentsLoop Rfc3986.dropLastSegment path.length path [] := by
  have hloop (fuel : Nat) (input output : Bytes) : Rfc3986.removeDotSegmentsLoop fuel input output =
        removeDotSegmentsLoop Rfc3986.dropLastSegment fuel input output := by
    induction fuel generalizing input output with
    | zero => rfl
    | succ fuel ih =>
      cases input with
      | nil => rfl
      | cons c input =>
        rw [Rfc3986.removeDotSegmentsLoop, rewrite_eq]
        exact ih _ _
        all_goals exact cons_ne_nil _ _
  exact hloop _ _ _

/-- `..` climbs above the text that the path has before its first slash, leading dot segments
apart. -/
def climbsAboveFirst (path : Bytes) : Bool :=
  let (first, segments) := strip (cut slash path).1 (cut slash path).2
  !first.isEmpty && climbs 0 segments

/-- **Dot segments.** The library follows the RFC exactly on the paths whose `..` stay below the
text before the first slash. -/
theorem removeDotSegments_eq_rfc_iff (path : Bytes) :
    removeDotSegments path = Rfc3986.removeDotSegments path ↔ climbsAboveFirst path = false := by
  rw [rfc_eq, removeDotSegments, loop_eq removesLast_removeLastSegment,
    loop_eq removesLast_dropLastSegment, climbsAboveFirst]
  generalize strip (cut slash path).1 (cut slash path).2 = stripped
  obtain ⟨first, segments⟩ := stripped
  simp only [id_eq, ite_self]
  cases climbs 0 segments with
  | false => simp
  | true => simp [append_left_eq_self]

/-- The path `a/../b`: the first segment stays. -/
theorem removeDotSegments_relative :
    removeDotSegments (ascii "a/../b") = ascii "a/b" ∧
      Rfc3986.removeDotSegments (ascii "a/../b") = ascii "/b" ∧
      removeDotSegments (ascii "a/../b") ≠ Rfc3986.removeDotSegments (ascii "a/../b") := by
  decide

/-! ## The normal form -/

/-- The loop of `remove_dot_segments` with this input and result ends, and gives `final`. -/
inductive LoopEnds : Bytes → Bytes → Bytes → Prop
  | done (result : Bytes) : LoopEnds [] result result
  | round {input result final : Bytes} : input ≠ [] →
      LoopEnds (removeDotSegmentsRound removeLastSegmentAndPrecedingSlash input result).1
        (removeDotSegmentsRound removeLastSegmentAndPrecedingSlash input result).2 final →
      LoopEnds input result final

theorem length_round_lt {input : Bytes} (hne : input ≠ []) (result : Bytes) :
    (removeDotSegmentsRound removeLast input result).1.length < input.length := by
  have hpos := length_pos_iff.mpr hne
  have hdrop (k : Nat) : (input.drop (k + 1)).length < input.length := by
    rw [length_drop]
    omega
  have hcons {w : Bytes} (h : w.isPrefixOf input = true) (hw : 2 ≤ w.length) :
      (slash :: input.drop w.length).length < input.length := by
    have hle := isPrefixOf_iff_prefix.mp h |>.length_le
    rw [length_cons, length_drop]
    omega
  unfold removeDotSegmentsRound
  split_ifs with hA hA' hB hB' hC hC' hD hD'
  · exact hdrop 2
  · exact hdrop 1
  · exact hcons hB (by decide)
  · exact hcons (w := ascii "/.") (by rw [hB']; decide) (by decide)
  · exact hcons hC (by decide)
  · exact hcons (w := ascii "/..") (by rw [hC']; decide) (by decide)
  · exact hdrop 0
  · exact hdrop 1
  · split
    · exact hdrop _
    · exact hpos

theorem ends_loop {input : Bytes} {fuel : Nat} (hfuel : input.length ≤ fuel) (result : Bytes) :
    LoopEnds input result
      (removeDotSegmentsLoop removeLastSegmentAndPrecedingSlash fuel input result) := by
  induction fuel generalizing input result with
  | zero =>
    obtain rfl := length_eq_zero_iff.mp (Nat.le_zero.mp hfuel)
    exact .done result
  | succ fuel ih =>
    by_cases hne : input = []
    · subst hne
      exact .done result
    · have hshort := @length_round_lt removeLastSegmentAndPrecedingSlash _ hne result
      rw [loop_round hne]
      exact .round hne (ih (by omega) _)

theorem strip_plain (first : Bytes) (segments : List Bytes) :
    ¬ IsDot (strip first segments).1 := by
  induction segments generalizing first with
  | nil =>
    simp only [strip]
    split
    · decide
    · assumption
  | cons segment segments ih =>
    simp only [strip]
    split
    · exact ih segment
    · assumption

theorem walk_of_plain {kept segments : List Bytes} (h : ∀ segment ∈ segments, ¬ IsDot segment) :
    walk kept segments = kept ++ segments := by
  induction segments generalizing kept with
  | nil => exact (append_nil kept).symm
  | cons segment segments ih =>
    obtain ⟨hsegment, hsegments⟩ := forall_mem_cons.mp h
    obtain ⟨hdot, hdots⟩ := not_or.mp hsegment
    rw [walk, if_neg hdot, if_neg hdots, ih hsegments, append_assoc]
    rfl

/-- **Normal form.** The loop ends, no segment of what it gives is `.` or `..`, and this stays as it
is when the dot segments are removed again. -/
theorem removeDotSegments_normal (path : Bytes) :
    LoopEnds path [] (removeDotSegments path) ∧
      (∀ segment ∈ segments slash (removeDotSegments path), segment ≠ dot ∧ segment ≠ dots) ∧
      removeDotSegments (removeDotSegments path) = removeDotSegments path := by
  refine ⟨ends_loop le_rfl [], ?_⟩
  rw [removeDotSegments_eq path]
  obtain ⟨hfirst, hrest⟩ := strip_forall (P := fun segment => slash ∉ segment) not_mem_nil
    (@cut_free _ _ slash path).1 (@cut_free _ _ slash path).2
  have hplain := strip_plain (cut slash path).1 (cut slash path).2
  generalize strip (cut slash path).1 (cut slash path).2 = stripped at *
  have hnil : ∀ segment ∈ ([] : List Bytes), ¬ IsDot segment := fun _ h => absurd h not_mem_nil
  have hfree : Free slash (walk [] stripped.2) :=
    walk_forall not_mem_nil (fun _ h => absurd h not_mem_nil) fun segment h _ => hrest segment h
  have hwalk : ∀ segment ∈ walk [] stripped.2, ¬ IsDot segment :=
    walk_forall (by decide) hnil fun _ _ h => h
  have hstrip : strip stripped.1 (walk [] stripped.2) = (stripped.1, walk [] stripped.2) := by
    cases walk [] stripped.2 <;> simp only [strip, if_neg hplain]
  constructor
  · rw [segments_append_behind hfirst hfree]
    intro segment h
    rcases mem_cons.mp h with rfl | h
    · exact not_or.mp hplain
    · exact not_or.mp (hwalk segment h)
  · rw [removeDotSegments_eq, cut_append hfirst hfree, hstrip, walk_of_plain hwalk, nil_append]

end URI

end Toft

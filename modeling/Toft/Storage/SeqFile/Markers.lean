import Toft.Storage.SeqFile.Reader

/-!
# Finding markers

A reader that is placed somewhere in a file skips to the next marker (`SkipToSync`). Where the bytes
of the marker stand only in the places that the format gives them (`Layout.OnlyMarkers`), it finds
itself in front of the items behind the first of these places (`runs_skipToSync`).
-/

namespace Toft.SeqFile

open Lib DataInputBuffer List LocalSequenceFileReader Item

/-! ## The places of the markers -/

/-- The markers in front of items that start at the given place of the file, each with the items
behind it. -/
def markersFrom (sync : Bytes) : Nat → List Item → List (Nat × List Item)
  | _, [] => []
  | start, item :: items =>
    let behind := markersFrom sync (start + (item.bytes sync).length) items
    if item.marked then (start + 4, { item with marked := false } :: items) :: behind else behind

namespace Layout

/-- The marker of the header, and those in front of items. -/
def markers (l : Layout) : List (Nat × List Item) :=
  (l.preamble.length, l.items) :: markersFrom l.sync (l.preamble.length + l.sync.length) l.items

/-- The bytes of the marker stand nowhere else. -/
def OnlyMarkers (l : Layout) : Prop :=
  ∀ pre post, l.bytes = pre ++ l.sync ++ post → pre.length ∈ l.markers.map Prod.fst

/-- The items behind the first marker from an offset on. -/
def itemsBehind (l : Layout) (offset : Int) : Option (List Item) :=
  if offset < 0 then none else (l.markers.find? fun m => offset ≤ m.1).map Prod.snd

end Layout

theorem markersFrom_spec {sync : Bytes} {start place : Nat} {items tail : List Item}
    (h : (place, tail) ∈ markersFrom sync start items) :
    start < place ∧ (tail.map record <:+ items.map record) ∧
      ∃ pre, items.flatMap (Item.bytes sync) = pre ++ sync ++ tail.flatMap (Item.bytes sync) ∧
        start + pre.length = place := by
  induction items generalizing start with
  | nil => cases h
  | cons item items ih =>
    rw [markersFrom] at h
    have hbehind : (place, tail) ∈ markersFrom sync (start + (item.bytes sync).length) items →
        start < place ∧ (tail.map record <:+ (item :: items).map record) ∧
        ∃ pre, (item :: items).flatMap (Item.bytes sync) =
          pre ++ sync ++ tail.flatMap (Item.bytes sync) ∧ start + pre.length = place := by
      intro h
      obtain ⟨hlt, hsuffix, pre, heq, hplace⟩ := ih h
      refine ⟨by omega, hsuffix.trans (suffix_cons _ _), item.bytes sync ++ pre, ?_, ?_⟩
      · rw [flatMap_cons, heq]
        simp only [append_assoc]
      · rw [length_append]
        omega
    split_ifs at h with hmarked
    · rcases mem_cons.mp h with heq | h
      · cases heq
        refine ⟨by omega, suffix_rfl, beBytes 4 (2 ^ 32 - 1), ?_, ?_⟩
        · rw [flatMap_cons, flatMap_cons, Item.bytes, if_pos hmarked]
          simp only [Item.bytes, Bool.false_eq_true, if_false, append_assoc]
          rfl
        · rw [length_beBytes]
      · exact hbehind h
    · exact hbehind h

theorem pairwise_markersFrom (sync : Bytes) (start : Nat) (items : List Item) :
    (markersFrom sync start items).Pairwise fun m m' => m.1 ≤ m'.1 := by
  induction items generalizing start with
  | nil => exact .nil
  | cons item items ih =>
    rw [markersFrom]
    split_ifs with hmarked
    · refine .cons (fun m hm => ?_) (ih _)
      obtain ⟨place, tail⟩ := m
      have hlt := (markersFrom_spec hm).1
      have hlength : 4 ≤ (item.bytes sync).length := by
        rw [Item.bytes, if_pos hmarked, length_append, length_beBytes]
        omega
      omega
    · exact ih _

namespace Layout

variable {l : Layout} {tail : List Item} {place : Nat}

theorem markers_spec (h : (place, tail) ∈ l.markers) :
    l.preamble.length ≤ place ∧ (tail.map record <:+ l.items.map record) ∧
      ∃ pre, l.bytes = pre ++ l.sync ++ tail.flatMap (Item.bytes l.sync) ∧ pre.length = place := by
  rcases mem_cons.mp h with heq | h
  · cases heq
    exact ⟨le_rfl, suffix_rfl, l.preamble, (append_assoc _ _ _).symm, rfl⟩
  · obtain ⟨hlt, hsuffix, pre, heq, hplace⟩ := markersFrom_spec h
    refine ⟨by omega, hsuffix, l.preamble ++ (l.sync ++ pre), ?_, ?_⟩
    · rw [bytes, body, heq]
      simp only [append_assoc]
    · rw [length_append, length_append]
      omega

theorem pairwise_markers (l : Layout) : l.markers.Pairwise fun m m' => m.1 ≤ m'.1 :=
  .cons (fun _ hm => (markers_spec (mem_cons_of_mem _ hm)).1) (pairwise_markersFrom _ _ _)

theorem itemsBehind_zero (l : Layout) : l.itemsBehind 0 = some l.items := by
  simp [itemsBehind, markers]

variable {offset : Int}

theorem nonneg_of_itemsBehind (h : l.itemsBehind offset = some tail) : 0 ≤ offset := by
  unfold itemsBehind at h
  split_ifs at h with hneg
  exact Int.not_lt.mp hneg

/-- The items are a rest of the file, except that the marker in front of them may be missing. -/
structure IsTail (l : Layout) (tail : List Item) : Prop where
  record_suffix : tail.map record <:+ l.items.map record
  bytes_suffix : tail.flatMap (Item.bytes l.sync) <:+ l.bytes

theorem isTail_of_itemsBehind (h : l.itemsBehind offset = some tail) : l.IsTail tail := by
  unfold itemsBehind at h
  split_ifs at h with hneg
  obtain ⟨⟨place, tail⟩, hm, rfl⟩ := Option.map_eq_some_iff.mp h
  obtain ⟨-, hsuffix, pre, heq, -⟩ := markers_spec (mem_of_find?_eq_some hm)
  exact ⟨hsuffix, pre ++ l.sync, heq.symm⟩

namespace IsTail

theorem drop (h : l.IsTail tail) (k : Nat) : l.IsTail (tail.drop k) where
  record_suffix := by
    rw [map_drop]
    exact (drop_suffix k _).trans h.record_suffix
  bytes_suffix := by
    refine List.IsSuffix.trans ?_ h.bytes_suffix
    refine ⟨(tail.take k).flatMap (Item.bytes l.sync), ?_⟩
    rw [← flatMap_append, take_append_drop]

theorem size_lt (h : l.IsTail tail) {n : Nat} (hitems : ∀ item ∈ l.items, item.size < n) :
    ∀ item ∈ tail, item.size < n := by
  intro item hitem
  obtain ⟨item', hitem', heq⟩ := mem_map.mp (h.record_suffix.subset (mem_map_of_mem hitem))
  have hsize : item'.size = item.size :=
    congrArg (fun record : Bytes × Bytes => record.1.length + record.2.length) heq
  exact hsize ▸ hitems item' hitem'

theorem length_le (h : l.IsTail tail) : tail.length ≤ l.bytes.length := by
  refine le_trans ?_ h.bytes_suffix.length_le
  clear h
  induction tail with
  | nil => exact Nat.zero_le _
  | cons item tail ih =>
    have hpos : 0 < (item.bytes l.sync).length := by
      unfold Item.bytes
      split_ifs <;> simp only [length_append, length_beBytes, length_body] <;> omega
    rw [flatMap_cons, length_append, length_cons]
    omega

end IsTail

theorem le_of_find_markers {m : Nat × List Item}
    (hm : (l.markers.find? fun m => offset ≤ m.1) = some m)
    (hplace : place ∈ l.markers.map Prod.fst)
    (hoffset : offset ≤ place) : m.1 ≤ place := by
  obtain ⟨-, before, behind, heq, hbefore⟩ := find?_eq_some_iff_append.mp hm
  obtain ⟨m', hm', rfl⟩ := mem_map.mp hplace
  have hpairwise := l.pairwise_markers
  rw [heq] at hm' hpairwise
  rcases mem_append.mp hm' with hm' | hm'
  · have hnot := hbefore m' hm'
    simp only [decide_eq_true hoffset, Bool.not_true, Bool.false_eq_true] at hnot
  · rcases mem_cons.mp hm' with rfl | hm'
    · exact le_rfl
    · exact (pairwise_cons.mp (pairwise_append.mp hpairwise).2.1).1 m' hm'

/-- The search for the bytes of the marker finds the first of the places. -/
theorem behindSync_drop (hsync : l.sync ≠ []) (honly : l.OnlyMarkers) {p : Nat}
    (hp : p ≤ l.bytes.length) :
    behindSync l.sync (l.bytes.drop p) =
      (l.itemsBehind p).map fun tail => tail.flatMap (Item.bytes l.sync) := by
  unfold itemsBehind
  cases hm : l.markers.find? fun m => (p : Int) ≤ m.1 with
  | none =>
    cases hrest : behindSync l.sync (l.bytes.drop p) with
    | none => rfl
    | some rest =>
      obtain ⟨pre, heq, hle⟩ := append_of_behindSync hp hrest
      obtain ⟨m, hmem, hplace⟩ := mem_map.mp (honly pre rest heq)
      have hnot := find?_eq_none.mp hm m hmem
      rw [hplace] at hnot
      exact absurd (decide_eq_true (Int.ofNat_le.mpr hle)) hnot
  | some m =>
    obtain ⟨place, tail⟩ := m
    obtain ⟨-, -, pre, heq, rfl⟩ := markers_spec (mem_of_find?_eq_some hm)
    have hle : p ≤ pre.length := by
      have hplace := find?_some hm
      exact Int.ofNat_le.mp (of_decide_eq_true hplace)
    obtain ⟨rest, hrest, hlength⟩ :=
      exists_behindSync hsync hle (tail.flatMap (Item.bytes l.sync))
    rw [← heq] at hrest
    obtain ⟨pre', heq', hle'⟩ := append_of_behindSync hp hrest
    have hplace : pre.length ≤ pre'.length :=
      le_of_find_markers hm (honly pre' rest heq') (Int.ofNat_le.mpr hle')
    have htotal := congrArg length (heq.symm.trans heq')
    simp only [length_append] at htotal
    have hsame : pre ++ l.sync ++ tail.flatMap (Item.bytes l.sync) = pre' ++ l.sync ++ rest :=
      heq.symm.trans heq'
    have hinj := (append_inj hsame (by simp only [length_append]; omega)).2
    rw [hrest, ← hinj]
    rfl

end Layout

/-! ## Skipping to a marker -/

section

variable {content sync : Bytes} {size : Nat}

/-- Where `SkipToSync` stops in the rest of the file. -/
def skipped (sync : Bytes) (returnedOffset : Int) (w : Window) :
    Except Fault (Option Int × Window) :=
  match behindSync sync w.rest with
  | some rest => .ok (some (returnedOffset + (w.rest.length - rest.length)), { w with rest })
  | none => .ok (none, { w with rest := w.rest.drop (w.rest.length - 15) })

variable {rest : Bytes}

theorem behindSync_short (h : rest.length < sync.length) : behindSync sync rest = none := by
  cases heq : behindSync sync rest with
  | none => rfl
  | some rest' =>
    obtain ⟨pre, rfl⟩ := behindSync_some heq
    simp only [length_append] at h
    omega

/-- The rounds in which no marker is found make no difference. -/
theorem skipped_drop {k : Nat} (returnedOffset : Int) (hk : k + 15 ≤ rest.length)
    (hagain : behindSync sync rest = behindSync sync (rest.drop k)) :
    skipped sync (returnedOffset + k) ⟨rest.drop k, size⟩ =
      skipped sync returnedOffset ⟨rest, size⟩ := by
  unfold skipped
  rw [hagain]
  cases behindSync sync (rest.drop k) with
  | some rest' =>
    have hoffset : returnedOffset + k + ((rest.drop k).length - rest'.length) =
        returnedOffset + (rest.length - rest'.length) := by
      rw [length_drop]
      omega
    dsimp only
    rw [hoffset]
  | none =>
    have hdrop : k + (rest.length - k - 15) = rest.length - 15 := by omega
    rw [length_drop, drop_drop, hdrop]

theorem skipLoop_round {d d' : DataInputBuffer} {fuel : Nat} (returnedOffset : Int)
    (h : loadAtLeast 16 d = .ok (some (), d')) :
    skipLoop sync (fuel + 1) returnedOffset d =
      (if (findSyncLoop sync d'.left).2 then pure (returnedOffset + (findSyncLoop sync d'.left).1)
        else skipLoop sync fuel (returnedOffset + (findSyncLoop sync d'.left).1) : Input Int)
        { d' with offset := d'.offset + (findSyncLoop sync d'.left).1 } := by
  have hoffset (k : Nat) : returnedOffset + (((d'.offset + k : Nat) : Int) - d'.offset) =
      returnedOffset + k := by omega
  rw [skipLoop, Prog.bind_apply, h, ← hoffset]
  rfl

theorem runs_skipLoop (hsync : sync.length = 16) {fuel : Nat} (returnedOffset : Int)
    (hfuel : rest.length < fuel) :
    Prog.Runs (Holds content) (skipLoop sync fuel returnedOffset)
      ⟨rest, size⟩ (skipped sync returnedOffset ⟨rest, size⟩) := by
  have hne : sync ≠ [] := ne_nil_of_length_pos (by omega)
  -- every round that goes on leaves less of the rest
  induction fuel generalizing rest returnedOffset with
  | zero => cases hfuel
  | succ fuel ih =>
    constructor
    intro d h
    have hsmall : 16 ≤ size := le_trans (by decide) h.le_size
    obtain ⟨d', h', ⟨-, heq, hlen⟩ | ⟨hshort, heq⟩⟩ := loadAtLeast_spec h (grow_of_le hsmall)
    · obtain ⟨hle, hfound, hnot⟩ := findSyncLoop_spec hne d'.left (content.drop d'.file.pos)
      have hrest : d'.left ++ content.drop d'.file.pos = rest := h'.rest_eq
      have hlength : rest.length = d'.left.length + (content.length - d'.file.pos) := h'.length_rest
      have hskip := h'.skip hle
      rw [skipLoop_round returnedOffset heq]
      rw [hrest] at hfound hnot
      generalize (findSyncLoop sync d'.left).1 = k at hle hfound hnot hskip
      cases hb : (findSyncLoop sync d'.left).2 with
      | true =>
        have hcount : (rest.length : Int) - (rest.drop k).length = k := by
          rw [length_drop]
          omega
        rw [skipped, hfound hb]
        dsimp only
        rw [hcount]
        exact ⟨rfl, hskip⟩
      | false =>
        obtain ⟨hskipped, hagain⟩ := hnot hb
        have hshorter : (rest.drop k).length < fuel := by
          rw [length_drop]
          omega
        rw [← skipped_drop returnedOffset (by omega) hagain]
        exact (ih (returnedOffset + k) hshorter).agrees _ hskip
    · have hdrop : rest.length - 15 = 0 := by
        dsimp only at hshort
        omega
      rw [skipLoop, Prog.bind_apply, heq, skipped, behindSync_short (by rw [hsync]; exact hshort)]
      rw [hdrop]
      exact ⟨rfl, h'⟩

namespace LocalSequenceFileReader

variable [Host] {rest : Bytes} {h : Header}

section

variable {p : Nat} (hh : h.Parsed sync) (hp : p ≤ content.length)
include hh hp

theorem runs_skipToSync_of {a : Option Int} {rest' : Bytes}
    (hskipped : skipped sync p ⟨content.drop p, size⟩ = .ok (a, ⟨rest', size⟩)) :
    Prog.Runs (Rel content) (skipToSync p) ⟨⟨rest, size⟩, h⟩ (.ok (a, ⟨⟨rest', size⟩, h⟩)) := by
  have hloop : Prog.Runs (Holds content) (skipLoop sync (content.length + 1) p)
      ⟨content.drop p, size⟩ (skipped sync p ⟨content.drop p, size⟩) := by
    apply runs_skipLoop hh.length_sync
    rw [length_drop]
    omega
  rw [hskipped] at hloop
  refine (runs_init hh.isHeadParsed).bind ((runs_onInput (runs_seek hp)).bind ?_)
  refine runs_getHeader.bind ((runs_onInput runs_fuel).bind ?_)
  rw [hh.sync_eq]
  exact runs_onInput hloop

theorem runs_skipToSync {rest' : Bytes} (hbehind : behindSync sync (content.drop p) = some rest') :
    Prog.Runs (Rel content) (skipToSync p) ⟨⟨rest, size⟩, h⟩
      (.ok (some (content.length - rest'.length : Int), ⟨⟨rest', size⟩, h⟩)) := by
  have hoffset : (p : Int) + ((content.drop p).length - rest'.length) =
      content.length - rest'.length := by
    rw [length_drop]
    omega
  apply runs_skipToSync_of hh hp
  rw [skipped, hbehind, ← hoffset]

theorem runs_skipToSync_none (hbehind : behindSync sync (content.drop p) = none) :
    ∃ rest', Prog.Runs (Rel content) (skipToSync p) ⟨⟨rest, size⟩, h⟩
      (.ok (none, ⟨⟨rest', size⟩, h⟩)) := by
  refine ⟨(content.drop p).drop ((content.drop p).length - 15), runs_skipToSync_of hh hp ?_⟩
  rw [skipped, hbehind]

end

theorem runs_skipToSync_neg (hh : h.Parsed sync) {offset : Int} (hneg : offset < 0) :
    Prog.Runs (Rel content) (skipToSync offset) ⟨⟨rest, size⟩, h⟩ (.ok (none, ⟨⟨rest, size⟩, h⟩)) :=
  (runs_init hh.isHeadParsed).bind (runs_onInput (runs_seek_neg hneg)).bind_none

end LocalSequenceFileReader

end

end Toft.SeqFile

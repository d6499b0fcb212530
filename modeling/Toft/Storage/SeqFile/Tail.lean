import Mathlib.Data.List.Induction
import Mathlib.Data.List.Infix
import Toft.Storage.SeqFile.Markers
import Toft.Storage.SeqFile.Writer

/-!
# Seeking to the last records

`SeekToTail` looks for the place of the file from which so many records follow. It tries offsets
from the end of the file backwards, each 128 KiB before the last one: from the next marker it
replays the records to the end and keeps the last offsets (`OffsetKeeper`). Every attempt that is
accepted leads to the last records (`retryLoop_spec`), provided that the buffer can grow for the
records that are replayed and that the offsets can be counted (`seekToTail_iff`).
-/

namespace Toft.SeqFile

open Lib DataInputBuffer List Item Int

/-- The members of `OffsetKeeper`. -/
structure OffsetKeeper where
  offsets : List Int := []
  count : Int := 0
  keepCount : Int
  deriving DecidableEq

namespace OffsetKeeper

def pushBack (k : OffsetKeeper) (offset : Int) : OffsetKeeper :=
  let offsets := k.offsets ++ [offset]
  if k.count = k.keepCount then { k with offsets := offsets.tail }
  else { k with offsets, count := int32 (k.count + 1) }

def first (k : OffsetKeeper) : Except Fault Int :=
  if 0 < k.count then
    match k.offsets with
    | [] => .error .overrun
    | offset :: _ => .ok offset
  else .ok (-1)

variable {xs : List Int}

/-- The keeper has the last offsets, as long as their count is an `int`. -/
theorem foldl_pushBack {n : Nat} (hn : n < 2 ^ 31) (hcount : n + 1 < 2 ^ 31 ∨ xs.length < 2 ^ 31) :
    xs.foldl pushBack { keepCount := int32 (n + 1) } =
      ⟨xs.drop (xs.length - (n + 1)), (min xs.length (n + 1) : Nat), int32 (n + 1)⟩ := by
  induction xs using reverseRecOn with
  | nil => simp
  | append_singleton xs x ih =>
    rw [length_append, length_singleton] at hcount ⊢
    rw [foldl_append, ih (by omega), foldl_cons, foldl_nil, pushBack]
    dsimp only
    by_cases hfull : n + 1 ≤ xs.length
    · have hkeep : int32 ((n : Int) + 1) = (n + 1 : Nat) := int32_of_bounds (by omega) (by omega)
      have hmin : min xs.length (n + 1) = n + 1 := by omega
      have hmin' : min (xs.length + 1) (n + 1) = n + 1 := by omega
      have hdrop : xs.length + 1 - (n + 1) = xs.length - (n + 1) + 1 := by omega
      rw [if_pos (by rw [hkeep, hmin]), hmin, hmin', hdrop, ← drop_drop, drop_one,
        drop_append_of_le_length (by omega)]
    · have hkeep : ((min xs.length (n + 1) : Nat) : Int) ≠ int32 ((n : Int) + 1) := by
        unfold int32
        rw [bmod_def]
        split_ifs <;> omega
      have hcount' : int32 (((min xs.length (n + 1) : Nat) : Int) + 1) =
          (min (xs.length + 1) (n + 1) : Nat) := by
        have hmin : ((min xs.length (n + 1) : Nat) : Int) + 1 = (xs.length + 1 : Nat) := by omega
        rw [hmin, int32_of_lt (by omega)]
        omega
      rw [if_neg hkeep, hcount', Nat.sub_eq_zero_of_le (by omega), Nat.sub_eq_zero_of_le (by omega)]
      rfl

/-- The count of 2³¹ offsets is negative, and it is what the keeper takes for full. -/
theorem count_of_overflow {n : Nat} (hn : n + 1 = 2 ^ 31) (hxs : 2 ^ 31 ≤ xs.length) :
    (xs.foldl pushBack { keepCount := int32 (n + 1) }).count = -2 ^ 31 := by
  have hkeep : int32 ((n : Int) + 1) = -2 ^ 31 := by
    unfold int32
    rw [bmod_def]
    split_ifs <;> omega
  suffices h : (xs.foldl pushBack { keepCount := int32 (n + 1) }).count = -2 ^ 31 ∧
      (xs.foldl pushBack { keepCount := int32 (n + 1) }).keepCount = -2 ^ 31 from h.1
  induction xs using reverseRecOn with
  | nil =>
    rw [length_nil] at hxs
    omega
  | append_singleton xs x ih =>
    rw [length_append, length_singleton] at hxs
    rw [foldl_append, foldl_cons]
    by_cases hxs' : 2 ^ 31 ≤ xs.length
    · obtain ⟨hcount, hkeep'⟩ := ih hxs'
      rw [pushBack, if_pos (hcount.trans hkeep'.symm)]
      exact ⟨hcount, hkeep'⟩
    · have hlength : min xs.length (n + 1) = n := by omega
      rw [foldl_pushBack (by omega) (.inr (by omega)), hlength, pushBack, if_neg]
      · dsimp only
        rw [hkeep]
        exact ⟨rfl, rfl⟩
      · dsimp only
        omega

theorem first_of_overflow {n : Nat} (hn : n + 1 = 2 ^ 31) (hxs : 2 ^ 31 ≤ xs.length) :
    (xs.foldl pushBack { keepCount := int32 (n + 1) }).first = .ok (-1) := by
  rw [first, count_of_overflow hn hxs, if_neg (by omega)]

end OffsetKeeper

namespace LocalSequenceFileReader

section

variable [Host]

def seek (offset : Int) : Reader Unit := do
  let found ← skipToSync offset
  if found = -1 then .fail

def tell : Reader Int := onInput (.gets DataInputBuffer.tell)

/-- The offset of the reader and those behind each of the records that follow are put into the
keeper. A record has at least eight bytes. -/
def keepOffsets : Nat → OffsetKeeper → Reader OffsetKeeper
  | 0, _ => .fault .unended
  | fuel + 1, keeper => do
    let offset ← tell
    match ← readRecord.optional with
    | some _ => keepOffsets fuel (keeper.pushBack offset)
    | none => return keeper.pushBack offset

/-- What `FindLastNthRecordOffset` makes of the offsets. -/
def acceptOffset (tryOffset n : Int) (keeper : OffsetKeeper) : Reader Int :=
  match keeper.first with
  | .error e => .fault e
  | .ok offset =>
    if offset = -1 then .fault .fatal
    else if tryOffset = 0 ∨ keeper.count = int32 (n + 1) then return offset
    else .fail

def findLastNthRecordOffset (tryOffset n : Int) : Reader Int := do
  seek tryOffset
  let fuel ← onInput (.gets fun d => d.file.data.length + 1)
  let keeper ← keepOffsets fuel { keepCount := int32 (n + 1) }
  acceptOffset tryOffset n keeper

def kStep : Nat := 128 * 1024

/-- The loop of `SeekToTail`. It does not end if an attempt at the start of the file fails again and
again. -/
def retryLoop (n : Int) : Nat → Int → Reader Int
  | 0, _ => .fault .unended
  | fuel + 1, retryOffset => do
    let retryOffset := if retryOffset - kStep < 0 then 0 else retryOffset - kStep
    match ← (findLastNthRecordOffset (int32 retryOffset) n).optional with
    | some offset => return offset
    | none => retryLoop n fuel retryOffset

def seekToTail (n : Int) : Reader Unit := do
  let n := if n < 0 then 0 else n
  let fileSize ← onInput getFileSize
  let offset ← retryLoop n (fileSize.toNat + 1) fileSize
  onInput (DataInputBuffer.seek offset)

end

/-! ## An attempt -/

/-- The offset from which the items are the rest of the file. -/
def offsetOf (content sync : Bytes) (items : List Item) : Int :=
  content.length - (items.flatMap (bytes sync)).length

theorem drop_tails {α : Type} {k : Nat} {xs : List α} (hk : k ≤ xs.length) :
    xs.tails.drop k = (xs.drop k).tails := by
  induction k generalizing xs with
  | zero => rfl
  | succ k ih =>
    cases xs with
    | nil => cases hk
    | cons x xs =>
      exact ih (Nat.le_of_succ_le_succ hk)

/-- The offsets behind the first items are left out. -/
theorem exists_drop_tails {α β : Type} (f : List α → β) {k : Nat} {xs : List α}
    (hk : k ≤ xs.length) : ∃ more, (xs.tails.map f).drop k = f (xs.drop k) :: more := by
  rw [← map_drop, drop_tails hk]
  cases xs.drop k with
  | nil => exact ⟨[], rfl⟩
  | cons x xs => exact ⟨xs.tails.map f, by rw [tails_cons, map_cons]⟩

theorem acceptOffset_eq {tryOffset n offset : Int} {keeper : OffsetKeeper} {more : List Int}
    (hcount : 0 < keeper.count) (hoffsets : keeper.offsets = offset :: more)
    (hoffset : 0 ≤ offset) :
    acceptOffset tryOffset n keeper =
      if tryOffset = 0 ∨ keeper.count = int32 (n + 1) then pure offset else .fail := by
  have hfirst : keeper.first = .ok offset := by rw [OffsetKeeper.first, if_pos hcount, hoffsets]
  rw [acceptOffset, hfirst]
  exact if_neg (by omega)

section

variable [Host] {content sync rest : Bytes} {h : Header} {size size' : Nat}

theorem runs_keepOffsets (hh : h.Parsed sync) {tail : List Item}
    (hitems : ∀ item ∈ tail, item.size < 2 ^ 31) {fuel : Nat} (hfuel : tail.length < fuel)
    (keeper : OffsetKeeper) :
    Prog.Runs (Rel content) (keepOffsets fuel keeper)
      ⟨⟨tail.flatMap (bytes sync), size⟩, h⟩
      (grown ((tail.tails.map (offsetOf content sync)).foldl OffsetKeeper.pushBack keeper)
        (⟨⟨[], ·⟩, h⟩) (growAll size (tail.map Item.size))) := by
  induction tail generalizing size fuel keeper with
  | nil =>
    cases fuel with
    | zero => cases hfuel
    | succ fuel =>
      exact (runs_onInput runs_tell).bind ((runs_readRecord_end hh.isHeadParsed).optional.bind
        (.pure _))
  | cons item tail ih =>
    obtain ⟨hitem, hrest⟩ := forall_mem_cons.mp hitems
    cases fuel with
    | zero => cases hfuel
    | succ fuel =>
      have hread : Prog.Runs (Rel content) readRecord
          ⟨⟨(item :: tail).flatMap (bytes sync), size⟩, h⟩
          (grown item.record (⟨⟨tail.flatMap (bytes sync), ·⟩, h⟩) (grow size item.size)) := by
        exact runs_readRecord hh hitem _
      exact (runs_onInput runs_tell).bind (grown_bind (grown_optional hread) fun _ =>
        ih hrest (Nat.lt_of_succ_lt_succ hfuel) _)

end

section

variable [Host] {l : Layout} {rest : Bytes} {h : Header} {size size' : Nat} {n p : Nat}
  {tail : List Item}

section

variable (hl : l.Valid)
include hl

theorem runs_seek_none (honly : l.OnlyMarkers) (hh : h.Parsed l.sync) {offset : Int}
    (hoffset : offset ≤ l.bytes.length) (hbehind : l.itemsBehind offset = none) :
    ∃ rest', Prog.Runs (Rel l.bytes) (seek offset) ⟨⟨rest, size⟩, h⟩
      (.ok (none, ⟨⟨rest', size⟩, h⟩)) := by
  by_cases hneg : offset < 0
  · exact ⟨rest, (runs_skipToSync_neg hh hneg).bind_none⟩
  · obtain ⟨p, rfl⟩ := eq_ofNat_of_zero_le (not_lt.mp hneg)
    have hsync : l.sync ≠ [] := ne_nil_of_length_pos (by rw [hl.length_sync]; decide)
    have hp : p ≤ l.bytes.length := ofNat_le.mp hoffset
    have hdrop := Layout.behindSync_drop hsync honly hp
    rw [hbehind] at hdrop
    obtain ⟨rest', hskip⟩ := runs_skipToSync_none hh hp hdrop
    exact ⟨rest', hskip.bind_none⟩

theorem runs_keepAll (hh : h.Parsed l.sync) (htail : l.IsTail tail) :
    Prog.Runs (Rel l.bytes) (keepOffsets (l.bytes.length + 1) { keepCount := int32 (n + 1) })
      ⟨⟨tail.flatMap (bytes l.sync), size⟩, h⟩
      (grown ((tail.tails.map (offsetOf l.bytes l.sync)).foldl OffsetKeeper.pushBack
        { keepCount := int32 (n + 1) }) (⟨⟨[], ·⟩, h⟩) (growAll size (tail.map Item.size))) :=
  runs_keepOffsets hh (htail.size_lt hl.size_item) (Nat.lt_succ_of_le htail.length_le) _

variable (honly : l.OnlyMarkers) (hh : h.Parsed l.sync) (hp : p ≤ l.bytes.length)
  (hbehind : l.itemsBehind p = some tail)
include honly hh hp hbehind

theorem runs_seek_of :
    Prog.Runs (Rel l.bytes) (seek p) ⟨⟨rest, size⟩, h⟩
      (.ok (some (), ⟨⟨tail.flatMap (bytes l.sync), size⟩, h⟩)) := by
  have hsync : l.sync ≠ [] := ne_nil_of_length_pos (by rw [hl.length_sync]; decide)
  have hdrop : behindSync l.sync (l.bytes.drop p) = some (tail.flatMap (bytes l.sync)) := by
    rw [Layout.behindSync_drop hsync honly hp, hbehind]
    rfl
  have hle := (Layout.isTail_of_itemsBehind hbehind).bytes_suffix.length_le
  refine (runs_skipToSync hh hp hdrop).bind ?_
  rw [if_neg (by omega)]
  exact .pure _

theorem runs_findLastNthRecordOffset_of {out : Except Fault (Option Int × View)}
    (hout : Prog.Runs (Rel l.bytes)
      (keepOffsets (l.bytes.length + 1) { keepCount := int32 (n + 1) } >>= acceptOffset p n)
      ⟨⟨tail.flatMap (bytes l.sync), size⟩, h⟩ out) :
    Prog.Runs (Rel l.bytes) (findLastNthRecordOffset p n) ⟨⟨rest, size⟩, h⟩ out :=
  (runs_seek_of hl honly hh hp hbehind).bind ((runs_onInput runs_fuel).bind hout)

/-- An attempt is accepted if it starts at the start of the file or at least `n` records follow. Its
offset is that of the last `n` records. -/
theorem runs_findLastNthRecordOffset (hn : n < 2 ^ 31)
    (hcount : n + 1 < 2 ^ 31 ∨ tail.length + 1 < 2 ^ 31)
    (hgrow : growAll size (tail.map Item.size) = some size') :
    Prog.Runs (Rel l.bytes) (findLastNthRecordOffset p n) ⟨⟨rest, size⟩, h⟩
      (.ok (if (p : Int) = 0 ∨ n ≤ tail.length
        then some (offsetOf l.bytes l.sync (tail.drop (tail.length - n))) else none,
        ⟨⟨[], size'⟩, h⟩)) := by
  have htail := Layout.isTail_of_itemsBehind hbehind
  refine runs_findLastNthRecordOffset_of hl honly hh hp hbehind ?_
  have hkeep := @runs_keepAll _ _ _ size n _ hl hh htail
  rw [hgrow] at hkeep
  refine hkeep.bind ?_
  have htotal : (tail.tails.map (offsetOf l.bytes l.sync)).length = tail.length + 1 := by
    rw [length_map, length_tails]
  have hsub : tail.length + 1 - (n + 1) = tail.length - n := by omega
  have hfull : ((min (tail.length + 1) (n + 1) : Nat) : Int) = int32 ((n : Int) + 1) ↔
      n ≤ tail.length := by
    unfold int32
    rw [bmod_def]
    split_ifs <;> omega
  have hoffset : 0 ≤ offsetOf l.bytes l.sync (tail.drop (tail.length - n)) := by
    have hle := (htail.drop (tail.length - n)).bytes_suffix.length_le
    unfold offsetOf
    omega
  obtain ⟨more, hmore⟩ := exists_drop_tails (offsetOf l.bytes l.sync) (Nat.sub_le tail.length n)
  rw [OffsetKeeper.foldl_pushBack hn (by rwa [htotal]), htotal, hsub, hmore,
    acceptOffset_eq (by dsimp only; omega) rfl hoffset]
  by_cases haccept : (p : Int) = 0 ∨ n ≤ tail.length
  · rw [if_pos haccept, if_pos (haccept.imp_right hfull.mpr)]
    exact .pure _
  · rw [if_neg haccept, if_neg fun h => haccept (h.imp_right hfull.mp)]
    exact .fail

/-- The buffer cannot grow for a record. -/
theorem runs_findLastNthRecordOffset_fault (hgrow : growAll size (tail.map Item.size) = none) :
    Prog.Runs (Rel l.bytes) (findLastNthRecordOffset p n) ⟨⟨rest, size⟩, h⟩
      (.error .badLength) := by
  have htail := Layout.isTail_of_itemsBehind hbehind
  refine runs_findLastNthRecordOffset_of hl honly hh hp hbehind ?_
  have hkeep := @runs_keepAll _ _ _ size n _ hl hh htail
  rw [hgrow] at hkeep
  exact hkeep.bind_error

/-- The offsets cannot be counted, and the `CHECK` of the first one fails. -/
theorem runs_findLastNthRecordOffset_fatal (hn : n + 1 = 2 ^ 31) (hcount : 2 ^ 31 ≤ tail.length + 1)
    (hgrow : growAll size (tail.map Item.size) = some size') :
    Prog.Runs (Rel l.bytes) (findLastNthRecordOffset p n) ⟨⟨rest, size⟩, h⟩ (.error .fatal) := by
  have htail := Layout.isTail_of_itemsBehind hbehind
  refine runs_findLastNthRecordOffset_of hl honly hh hp hbehind ?_
  have hkeep := @runs_keepAll _ _ _ size n _ hl hh htail
  rw [hgrow] at hkeep
  refine hkeep.bind ?_
  have hfirst := OffsetKeeper.first_of_overflow hn
    (by rwa [length_map, length_tails] :
      2 ^ 31 ≤ (tail.tails.map (offsetOf l.bytes l.sync)).length)
  rw [acceptOffset, hfirst]
  exact .fault _

end

end

/-! ## The attempts -/

end LocalSequenceFileReader

namespace Layout

/-- The items that an attempt replays, and those of the attempts that follow if it is not
accepted. -/
def replay (n : Nat) (tryOffset : Int) (next : List Item) : Option (List Item) → List Item
  | none => next
  | some tail => if tryOffset = 0 ∨ n ≤ tail.length then tail else tail ++ next

/-- The items that the attempts from an offset backwards replay. -/
def replays (l : Layout) (n : Nat) : Nat → Nat → List Item
  | 0, _ => []
  | fuel + 1, retryOffset =>
    let retryOffset := retryOffset - LocalSequenceFileReader.kStep
    replay n (int32 retryOffset) (l.replays n fuel retryOffset) (l.itemsBehind (int32 retryOffset))

def replayed (l : Layout) (n : Nat) : List Item := l.replays n (l.bytes.length + 1) l.bytes.length

/-- The offsets can be counted in an `int`. -/
def Counted (l : Layout) (n : Nat) : Prop := n + 1 < 2 ^ 31 ∨ l.items.length + 1 < 2 ^ 31

/-- A tail of the file with the last `n` records. -/
structure IsLast (l : Layout) (n : Nat) (tail : List Item) : Prop extends l.IsTail tail where
  record_eq : tail.map record = (l.items.map record).drop (l.items.length - n)

theorem IsTail.isLast {l : Layout} {n : Nat} {tail : List Item} (h : l.IsTail tail)
    (hn : tail = l.items ∨ n ≤ tail.length) : l.IsLast n (tail.drop (tail.length - n)) where
  toIsTail := h.drop _
  record_eq := by
    rw [map_drop]
    rcases hn with rfl | hn
    · rfl
    · obtain ⟨pre, heq⟩ := h.record_suffix
      have hlength := congrArg length heq
      simp only [length_append, length_map] at hlength
      have hsub : l.items.length - n = pre.length + (tail.length - n) := by omega
      rw [← heq, hsub, ← drop_drop, drop_left]

end Layout

namespace LocalSequenceFileReader

section

variable [Host] {l : Layout} {rest : Bytes} {h : Header} {size : Nat} {n : Nat}

/-- A search that replays the given items: it finds the last records, or the buffer cannot grow for
the items, or the offsets cannot be counted. -/
inductive Searches (l : Layout) (n : Nat) (m : Reader Int) (v : View) (items : List Item) : Prop
  | found {size : Nat} {tail : List Item}
      (hgrow : growAll v.window.size (items.map Item.size) = some size) (hcounted : l.Counted n)
      (hlast : l.IsLast n tail) (hle : ∀ item ∈ tail, item.size ≤ size)
      (hruns : Prog.Runs (Rel l.bytes) m v
        (.ok (some (offsetOf l.bytes l.sync tail), ⟨⟨[], size⟩, v.header⟩)))
  | fault {e : Fault}
      (hnot : ¬ (growAll v.window.size (items.map Item.size) ≠ none ∧ l.Counted n))
      (hruns : Prog.Runs (Rel l.bytes) m v (.error e))

def orRetry (next : Reader Int) : Option Int → Reader Int
  | some offset => pure offset
  | none => next

variable {v : View}

omit [Host] in
/-- An attempt that is not accepted, and the search that follows it. -/
theorem Searches.retry {attempt next : Reader Int} {items items' : List Item} {rest' : Bytes}
    {size' : Nat}
    (hattempt : Prog.Runs (Rel l.bytes) attempt v (.ok (none, ⟨⟨rest', size'⟩, v.header⟩)))
    (hgrow : growAll v.window.size (items.map Item.size) = some size')
    (hnext : Searches l n next ⟨⟨rest', size'⟩, v.header⟩ items') :
    Searches l n (attempt.optional >>= orRetry next) v (items ++ items') := by
  have hall : growAll v.window.size ((items ++ items').map Item.size) =
      growAll size' (items'.map Item.size) := by
    rw [map_append, growAll_append, hgrow, Option.bind_some]
  cases hnext with
  | found hgrow' hcounted hlast hle hruns =>
    exact .found (hall.trans hgrow') hcounted hlast hle (hattempt.optional.bind hruns)
  | fault hnot hruns => exact .fault (by rwa [hall]) (hattempt.optional.bind hruns)

theorem retryLoop_succ (n : Int) (fuel retryOffset : Nat) :
    retryLoop n (fuel + 1) retryOffset =
      (findLastNthRecordOffset (int32 (retryOffset - kStep : Nat)) n).optional >>=
        orRetry (retryLoop n fuel (retryOffset - kStep : Nat)) := by
  have hretry : (if (retryOffset : Int) - kStep < 0 then 0 else (retryOffset : Int) - kStep) =
      (retryOffset - kStep : Nat) := by
    split_ifs <;> omega
  rw [retryLoop]
  simp only [hretry]
  rfl

variable {tail : List Item}

section

variable (hl : l.Valid) (honly : l.OnlyMarkers) (hh : h.Parsed l.sync) (hn : n < 2 ^ 31)
include hl honly hh hn

/-- An attempt behind a marker, and the search that follows if it is not accepted. -/
theorem searches_behind {p : Nat} (hp : p ≤ l.bytes.length)
    (hbehind : l.itemsBehind p = some tail) {next : Reader Int} {items : List Item}
    (hnext : (p : Int) ≠ 0 → ∀ size, Searches l n next ⟨⟨[], size⟩, h⟩ items) :
    Searches l n ((findLastNthRecordOffset p n).optional >>= orRetry next) ⟨⟨rest, size⟩, h⟩
      (Layout.replay n p items (some tail)) := by
  have htail := Layout.isTail_of_itemsBehind hbehind
  rw [Layout.replay]
  cases hgrow : growAll size (tail.map Item.size) with
  | none =>
    refine .fault (fun hnot => hnot.1 ?_)
      (runs_findLastNthRecordOffset_fault hl honly hh hp hbehind hgrow).optional_error.bind_error
    split_ifs
    · exact hgrow
    · rw [map_append, growAll_append, hgrow, Option.bind_none]
  | some size' =>
    by_cases hcount : n + 1 < 2 ^ 31 ∨ tail.length + 1 < 2 ^ 31
    · have hfind :=
        @runs_findLastNthRecordOffset _ _ rest _ _ _ _ _ _ hl honly hh hp hbehind hn hcount hgrow
      split_ifs at hfind ⊢ with haccept
      · have hall : tail = l.items ∨ n ≤ tail.length := by
          refine haccept.imp_left fun hzero => ?_
          rw [hzero] at hbehind
          exact Option.some.inj (hbehind.symm.trans l.itemsBehind_zero)
        have hcounted : l.Counted n := by
          rcases hall with rfl | hn'
          · exact hcount
          · exact .inl (by omega)
        refine .found hgrow hcounted (htail.isLast hall) ?_ (hfind.optional.bind (.pure _))
        intro item hitem
        exact (le_of_growAll hgrow).2 _ (mem_map_of_mem (mem_of_mem_drop hitem))
      · have hpos : (p : Int) ≠ 0 := fun hzero => haccept (.inl hzero)
        exact .retry hfind hgrow (hnext hpos size')
    · -- the offsets behind this marker are too many, and so are those of the file
      have hlength := htail.record_suffix.length_le
      rw [length_map, length_map] at hlength
      refine .fault (fun hnot => ?_) (runs_findLastNthRecordOffset_fatal hl honly hh hp hbehind
        (by omega) (by omega) hgrow).optional_error.bind_error
      rcases hnot.2 with hcounted | hcounted <;> omega

theorem retryLoop_spec {fuel retryOffset : Nat} (hretry : retryOffset ≤ l.bytes.length)
    (hfuel : retryOffset < fuel) :
    Searches l n (retryLoop n fuel retryOffset) ⟨⟨rest, size⟩, h⟩
      (l.replays n fuel retryOffset) := by
  induction fuel generalizing retryOffset rest size with
  | zero => cases hfuel
  | succ fuel ih =>
    have hstep : 0 < kStep := by decide
    have hk : retryOffset - kStep ≤ l.bytes.length := by omega
    -- an attempt that is not at the start of the file leaves rounds for the next one
    have hnext (hpos : int32 (retryOffset - kStep : Nat) ≠ 0) (rest' : Bytes) (size' : Nat) :
        Searches l n (retryLoop n fuel (retryOffset - kStep : Nat)) ⟨⟨rest', size'⟩, h⟩
          (l.replays n fuel (retryOffset - kStep)) := by
      apply ih hk
      by_contra hfuel'
      have hzero : retryOffset - kStep = 0 := by omega
      rw [hzero] at hpos
      exact hpos rfl
    rw [retryLoop_succ, Layout.replays]
    generalize retryOffset - kStep = k at hk hnext
    have hle : int32 k ≤ l.bytes.length := by
      have hle := toNat_int32_le k
      omega
    cases hbehind : l.itemsBehind (int32 k) with
    | none =>
      have hpos : int32 k ≠ 0 := by
        intro hzero
        rw [hzero] at hbehind
        cases hbehind
      obtain ⟨rest', hseek⟩ := runs_seek_none hl honly hh hle hbehind
      exact @Searches.retry _ _ ⟨⟨rest, size⟩, h⟩ _ _ [] _ _ _ hseek.bind_none rfl
        (hnext hpos rest' size)
    | some tail =>
      obtain ⟨p, hp⟩ := eq_ofNat_of_zero_le (Layout.nonneg_of_itemsBehind hbehind)
      rw [hp] at hbehind hnext hle ⊢
      exact searches_behind hl honly hh hn (ofNat_le.mp hle) hbehind fun hpos => hnext hpos []

end

/-! ## Seeking -/

section

variable {w : Window} (hinit : Prog.Runs (Rel l.bytes) init v (.ok (some (), ⟨w, h⟩)))
  (hparsed : h.isHeadParsed = true)
include hinit hparsed

theorem runs_retryLoop_init {fuel : Nat} {retryOffset : Int}
    {out : Except Fault (Option Int × View)}
    (hout : Prog.Runs (Rel l.bytes) (retryLoop n (fuel + 1) retryOffset) ⟨w, h⟩ out) :
    Prog.Runs (Rel l.bytes) (retryLoop n (fuel + 1) retryOffset) v out := by
  constructor
  intro r hr
  obtain ⟨r', heq, hr'⟩ := hinit.exists_ok hr
  have hparsed' : r'.header.isHeadParsed = true := by rw [hr'.header_eq, hparsed]
  have hskip (offset : Int) : skipToSync offset r = skipToSync offset r' := by
    rw [skipToSync, Prog.bind_apply, Prog.bind_apply, heq, init_of_parsed hparsed']
  have hfind (offset : Int) : (findLastNthRecordOffset offset n).optional r =
        (findLastNthRecordOffset offset n).optional r' := by
    rw [Prog.optional, Prog.optional, findLastNthRecordOffset, seek, Prog.bind_apply,
      Prog.bind_apply, Prog.bind_apply, Prog.bind_apply, hskip]
  have hloop : retryLoop n (fuel + 1) retryOffset r = retryLoop n (fuel + 1) retryOffset r' := by
    rw [retryLoop, Prog.bind_apply, Prog.bind_apply, hfind]
  rw [hloop]
  exact hout.agrees r' hr'

theorem runs_seekToTail {w' : Window} (hsuffix : tail.flatMap (bytes l.sync) <:+ l.bytes)
    (hruns : Prog.Runs (Rel l.bytes) (retryLoop n (l.bytes.length + 1) l.bytes.length) ⟨w, h⟩
      (.ok (some (offsetOf l.bytes l.sync tail), ⟨w', h⟩))) :
    Prog.Runs (Rel l.bytes) (seekToTail n) v
      (.ok (some (), ⟨⟨tail.flatMap (bytes l.sync), w'.size⟩, h⟩)) := by
  have hoffset : offsetOf l.bytes l.sync tail =
      (l.bytes.length - (tail.flatMap (bytes l.sync)).length : Nat) := by
    have hlength := hsuffix.length_le
    unfold offsetOf
    omega
  have hseek : Prog.Runs (Holds l.bytes) (DataInputBuffer.seek (offsetOf l.bytes l.sync tail)) w'
      (.ok (some (), ⟨tail.flatMap (bytes l.sync), w'.size⟩)) := by
    rw [hoffset]
    nth_rewrite 2 [suffix_iff_eq_drop.mp hsuffix]
    exact runs_seek (Nat.sub_le _ _)
  exact (runs_onInput runs_getFileSize).bind
    ((runs_retryLoop_init hinit hparsed hruns).bind (runs_onInput hseek))

theorem runs_seekToTail_error {e : Fault}
    (hruns : Prog.Runs (Rel l.bytes) (retryLoop n (l.bytes.length + 1) l.bytes.length) ⟨w, h⟩
      (.error e)) :
    Prog.Runs (Rel l.bytes) (seekToTail n) v (.error e) := by
  exact (runs_onInput runs_getFileSize).bind (runs_retryLoop_init hinit hparsed hruns).bind_error

end

/-- The calls that follow `SeekToTail` give the last records, and then they return false. -/
def ReadsTail (records : List (Bytes × Bytes)) (n : Nat) (r : LocalSequenceFileReader) : Prop :=
  ∃ r', seekToTail n r = .ok (some (), r') ∧
    ∀ k, ∃ r'', readRecords (min n records.length + k) r' =
      .ok (some ((records.drop (records.length - n)).map some ++ replicate k none), r'')

variable {r : LocalSequenceFileReader}

theorem readRecords_isLast (hl : l.Valid) (hh : h.Parsed l.sync)
    (hlast : l.IsLast n tail) (hle : ∀ item ∈ tail, item.size ≤ size)
    (hr : Rel l.bytes r ⟨⟨tail.flatMap (bytes l.sync), size⟩, h⟩) (k : Nat) :
    ∃ r', readRecords (min n (l.items.map record).length + k) r =
      .ok (some (((l.items.map record).drop ((l.items.map record).length - n)).map some ++
        replicate k none), r') := by
  have hheld : growAll size (tail.map Item.size) = some size :=
    growAll_of_le (forall_mem_map.mpr hle)
  have hruns := @runs_readRecords _ l.bytes _ _ size hh _ (hlast.size_lt hl.size_item) k
  rw [hheld] at hruns
  obtain ⟨r', hrecords, -⟩ := hruns.exists_ok hr
  have hlength := congrArg length hlast.record_eq
  rw [length_drop, length_map, length_map] at hlength
  have hcount : min n (l.items.map record).length = tail.length := by
    rw [length_map]
    omega
  rw [hcount, length_map, ← hlast.record_eq, map_map]
  exact ⟨r', hrecords⟩

theorem readsTail_iff (hl : l.Valid) (honly : l.OnlyMarkers) (hn : n < 2 ^ 31)
    (hh : h.Parsed l.sync) (hr : Rel l.bytes r v)
    (hinit : Prog.Runs (Rel l.bytes) init v (.ok (some (), ⟨⟨rest, size⟩, h⟩))) :
    ReadsTail (l.items.map record) n r ↔
      growAll size ((l.replayed n).map Item.size) ≠ none ∧ l.Counted n := by
  have hspec : Searches l n (retryLoop n (l.bytes.length + 1) l.bytes.length)
      ⟨⟨rest, size⟩, h⟩ (l.replayed n) :=
    retryLoop_spec hl honly hh hn le_rfl (Nat.lt_succ_self _)
  cases hspec with
  | found hgrow hcounted hlast hle hruns =>
    refine iff_of_true ?_ ⟨ne_of_eq_of_ne hgrow (Option.some_ne_none _), hcounted⟩
    obtain ⟨r', heq, hr'⟩ :=
      (runs_seekToTail hinit hh.isHeadParsed hlast.bytes_suffix hruns).exists_ok hr
    exact ⟨r', heq, readRecords_isLast hl hh hlast hle hr'⟩
  | fault hnot hruns =>
    refine iff_of_false ?_ hnot
    rintro ⟨r', heq, -⟩
    rw [(runs_seekToTail_error hinit hh.isHeadParsed hruns).eq_error hr] at heq
    cases heq

end

/-! ## Files of this library -/

section

variable {l : Layout} {n : Nat}

/-- Everything that is replayed is behind a marker. -/
theorem isTail_of_mem_replays {item : Item} {fuel retryOffset : Nat}
    (h : item ∈ l.replays n fuel retryOffset) : ∃ tail, l.IsTail tail ∧ item ∈ tail := by
  induction fuel generalizing retryOffset with
  | zero => cases h
  | succ fuel ih =>
    rw [Layout.replays] at h
    cases hbehind : l.itemsBehind (int32 (retryOffset - kStep : Nat)) with
    | none =>
      rw [hbehind] at h
      exact ih h
    | some tail =>
      have htail := Layout.isTail_of_itemsBehind hbehind
      rw [hbehind, Layout.replay] at h
      split_ifs at h
      · exact ⟨tail, htail, h⟩
      · rcases mem_append.mp h with h | h
        · exact ⟨tail, htail, h⟩
        · exact ih h

theorem growAll_replayed {size : Nat} (hitems : ∀ item ∈ l.items, item.size < 2 ^ 30)
    (hsize : size < 2 ^ 31) : growAll size ((l.replayed n).map Item.size) ≠ none := by
  have hall : ∀ k ∈ (l.replayed n).map Item.size, k < 2 ^ 30 := by
    intro k hk
    obtain ⟨item, hitem, rfl⟩ := mem_map.mp hk
    obtain ⟨tail, htail, hmem⟩ := isTail_of_mem_replays hitem
    exact htail.size_lt hitems item hmem
  obtain ⟨size', hgrow⟩ := growAll_of_lt hall hsize
  rw [hgrow]
  exact Option.some_ne_none _

end

end LocalSequenceFileReader

open LocalSequenceFileReader

/-- A reader on the file, with a buffer of the given size: a new one, or one that has parsed the
header. -/
def Layout.Opened (l : Layout) (size : Nat) (r : LocalSequenceFileReader) : Prop :=
  (∃ io : Schedule, (∀ t, (io t).Moves) ∧ r = .new { data := l.bytes, io } ∧ size = 65536) ∨
    ∃ rest, Rel l.bytes r ⟨⟨rest, size⟩, l.header⟩

/-- The file that sessions leave, the first of which makes it. -/
def sessionsLayout (first : Session) (later : List Session) : Layout :=
  writtenLayout first.generated (sessionsItems (first :: later))

/-- `SeekToTail` leads to the last records of a file that this library has written exactly if the
buffer can grow for the records that are replayed, and the offsets can be counted in an `int`. -/
theorem seekToTail_iff [Host] {first : Session} {later : List Session} (hfirst : first.Sound)
    (hlater : ∀ s ∈ later, s.Sound ∧ s.append = true) {content : Bytes}
    (hwritten : runSessions [] (first :: later) = .ok (some content))
    (honly : (sessionsLayout first later).OnlyMarkers) {n : Nat} (hn : n < 2 ^ 31)
    {size : Nat} {r : LocalSequenceFileReader} (hr : (sessionsLayout first later).Opened size r) :
    content = (sessionsLayout first later).bytes ∧
    (ReadsTail ((first :: later).flatMap Session.records) n r ↔
      growAll size (((sessionsLayout first later).replayed n).map Item.size) ≠ none ∧
        (n + 1 < 2 ^ 31 ∨ ((first :: later).flatMap Session.records).length + 1 < 2 ^ 31)) := by
  obtain ⟨hfits, hcontent⟩ := fits_of_runSessions hfirst hlater hwritten
  have hsync := hfirst.length_generated
  have hl : (sessionsLayout first later).Valid :=
    writtenLayout_valid hsync fun item hitem => (hfits item hitem).size_lt hsync
  refine ⟨hcontent, ?_⟩
  rw [← map_record_sessionsItems, length_map]
  rcases hr with ⟨io, hmoves, rfl, rfl⟩ | ⟨rest, hrel⟩
  · exact readsTail_iff hl honly hn hl.parsed (rel_new rfl rfl hmoves)
      (LocalSequenceFileWriter.runs_init_written hl)
  · exact readsTail_iff hl honly hn hl.parsed hrel (runs_init hl.parsed.isHeadParsed)

/-! ## Two records of zeros -/

/-- A marker of one byte over and over that occurs nowhere else in the file. -/
theorem onlyMarkers_of_notMem {l : Layout} {b : UInt8} (hsync : l.sync = replicate 16 b)
    (hpreamble : b ∉ l.preamble) (hbody : b ∉ l.body) : l.OnlyMarkers := by
  intro pre post heq
  have hcount := congrArg (count b) heq
  simp only [Layout.bytes, count_append, count_eq_zero.mpr hpreamble,
    count_eq_zero.mpr hbody] at hcount
  have hpre : b ∉ pre := count_eq_zero.mp (by omega)
  have hfirst (xs : Bytes) : (l.sync ++ xs).idxOf b = 0 := by
    rw [hsync]
    exact idxOf_cons_self
  have hplace := congrArg (idxOf b) heq
  rw [Layout.bytes, idxOf_append_of_notMem hpreamble, hfirst, append_assoc,
    idxOf_append_of_notMem hpre, hfirst] at hplace
  rw [show pre.length = l.preamble.length by omega]
  exact mem_cons_self

def twoRecords (m k : Nat) : Session where
  append := false
  generated := replicate 16 170
  io := fun _ => .full
  records := [([], replicate m 0), ([], replicate k 0)]

theorem twoRecords_sound (m k : Nat) : (twoRecords m k).Sound := ⟨rfl, fun _ => trivial⟩

theorem twoRecords_onlyMarkers {m k : Nat} (hm : 170 ∉ beBytes 4 m) (hk : 170 ∉ beBytes 4 k) :
    (sessionsLayout (twoRecords m k) []).OnlyMarkers := by
  have hzero : (170 : UInt8) ∉ beBytes 4 0 := by decide
  refine onlyMarkers_of_notMem rfl
    (show (170 : UInt8) ∉ (writtenLayout [] []).preamble by decide) ?_
  simp [Layout.body, sessionsLayout, sessionsItems, sessionItems, writtenLayout, twoRecords,
    bytes, body, Item.size, hm, hk, hzero]

theorem sessionsItems_twoRecords (m k : Nat) : sessionsItems [twoRecords m k] =
    [⟨false, [], replicate m 0⟩, ⟨false, [], replicate k 0⟩] := rfl

theorem runSessions_twoRecords [Host] {m k : Nat} (hm : m + 8 < 2 ^ 31) (hk : k + 8 < 2 ^ 31) :
    runSessions [] [twoRecords m k] = .ok (some (sessionsLayout (twoRecords m k) []).bytes) := by
  have hfits {j : Nat} (hj : j + 8 < 2 ^ 31) :
      Item.Fits (replicate 16 170) ⟨false, [], replicate j 0⟩ := by
    unfold Item.Fits
    rw [length_bytes rfl, Item.size, length_replicate, length_nil, if_neg Bool.false_ne_true]
    omega
  have hspec := runSessions_spec (twoRecords_sound m k) fun s hs => absurd hs not_mem_nil
  rcases hspec with ⟨-, hok⟩ | ⟨hnot, -⟩
  · exact hok
  · refine absurd ?_ hnot
    rw [sessionsItems_twoRecords, forall_mem_cons, forall_mem_singleton]
    exact ⟨hfits hm, hfits hk⟩

/-- Without markers between the records every attempt that finds one replays them all. -/
theorem replays_of_unmarked {l : Layout}
    (hmarkers : markersFrom l.sync (l.preamble.length + l.sync.length) l.items = []) (n : Nat)
    {fuel retryOffset : Nat} (hfuel : retryOffset < fuel) :
    ∃ more, l.replays n fuel retryOffset = l.items ++ more := by
  induction fuel generalizing retryOffset with
  | zero => cases hfuel
  | succ fuel ih =>
    have hstep : 0 < kStep := by decide
    rw [Layout.replays]
    cases hbehind : l.itemsBehind (int32 (retryOffset - kStep : Nat)) with
    | none =>
      apply ih
      by_contra hfuel'
      have hzero : retryOffset - kStep = 0 := by omega
      rw [hzero] at hbehind
      cases l.itemsBehind_zero.symm.trans hbehind
    | some tail =>
      have htail : tail = l.items := by
        unfold Layout.itemsBehind at hbehind
        split_ifs at hbehind
        obtain ⟨m, hm, rfl⟩ := Option.map_eq_some_iff.mp hbehind
        have hmem := mem_of_find?_eq_some hm
        rw [Layout.markers, hmarkers, mem_singleton] at hmem
        rw [hmem]
      rw [Layout.replay, htail]
      split_ifs
      · exact ⟨[], (append_nil _).symm⟩
      · exact ⟨_, rfl⟩

theorem not_readsTail_twoRecords [Host] {m k : Nat} (hm : m + 8 < 2 ^ 31) (hk : k + 8 < 2 ^ 31)
    (hm' : 170 ∉ beBytes 4 m) (hk' : 170 ∉ beBytes 4 k) (hgrow : growAll 65536 [m, k] = none) :
    ¬ ReadsTail [([], replicate m 0), ([], replicate k 0)] 2
      (.new { data := (sessionsLayout (twoRecords m k) []).bytes }) := by
  have hl : (sessionsLayout (twoRecords m k) []).Valid := by
    refine writtenLayout_valid rfl ?_
    rw [sessionsItems_twoRecords, forall_mem_cons, forall_mem_singleton]
    simp only [Item.size, length_nil, length_replicate]
    omega
  have hiff := readsTail_iff hl (twoRecords_onlyMarkers hm' hk') (show 2 < 2 ^ 31 by norm_num)
    hl.parsed (@rel_new { data := (sessionsLayout (twoRecords m k) []).bytes } _ rfl rfl
      fun _ => trivial) (LocalSequenceFileWriter.runs_init_written hl)
  obtain ⟨more, hmore⟩ := @replays_of_unmarked (sessionsLayout (twoRecords m k) []) rfl 2 _ _
    (Nat.lt_succ_self (sessionsLayout (twoRecords m k) []).bytes.length)
  intro h
  refine (hiff.mp h).1 ?_
  rw [Layout.replayed, hmore, map_append, growAll_append]
  have hsizes : (sessionsLayout (twoRecords m k) []).items.map Item.size = [m, k] := by
    show [_, _] = _
    simp [Item.size]
  rw [hsizes, hgrow, Option.bind_none]

/-- A file with records of 1 GiB and one byte more, for the second of which the buffer cannot
grow. -/
theorem not_readsTail :
    @runSessions Host.little [] [twoRecords (2 ^ 30) (2 ^ 30 + 1)] =
        .ok (some (sessionsLayout (twoRecords (2 ^ 30) (2 ^ 30 + 1)) []).bytes) ∧
      (sessionsLayout (twoRecords (2 ^ 30) (2 ^ 30 + 1)) []).OnlyMarkers ∧
      ¬ @ReadsTail Host.little
        [([], replicate (2 ^ 30) 0), ([], replicate (2 ^ 30 + 1) 0)] 2
        (.new { data := (sessionsLayout (twoRecords (2 ^ 30) (2 ^ 30 + 1)) []).bytes }) :=
  ⟨@runSessions_twoRecords Host.little _ _ (by norm_num) (by norm_num),
    twoRecords_onlyMarkers (by decide) (by decide),
    @not_readsTail_twoRecords Host.little _ _ (by norm_num) (by norm_num) (by decide) (by decide)
      (by decide)⟩

/-- The last of two records, read byte by byte. -/
theorem readsTail_one :
    @ReadsTail Host.little [([], [0]), ([], [0, 0])] 1
      (.new { data := (sessionsLayout (twoRecords 1 2) []).bytes, io := fun _ => .short 1 }) := by
  have hitems : ∀ item ∈ (sessionsLayout (twoRecords 1 2) []).items, item.size < 2 ^ 30 := by
    decide
  have hopened : (sessionsLayout (twoRecords 1 2) []).Opened 65536
      (.new { data := (sessionsLayout (twoRecords 1 2) []).bytes, io := fun _ => .short 1 }) :=
    .inl ⟨fun _ => .short 1, fun _ => Nat.one_pos, rfl, rfl⟩
  exact (@seekToTail_iff Host.little _ _ (twoRecords_sound 1 2)
    (fun s hs => absurd hs not_mem_nil) _
    (@runSessions_twoRecords Host.little 1 2 (by norm_num) (by norm_num))
    (twoRecords_onlyMarkers (by decide) (by decide)) 1 (by norm_num) _ _ hopened).2.mpr
    ⟨growAll_replayed hitems (by norm_num), .inl (by norm_num)⟩

end Toft.SeqFile

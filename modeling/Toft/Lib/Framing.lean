import Mathlib.Data.List.Infix

/-!
# Streams of frames

A stream consists of frames, one behind the other, and comes in pieces. A reader keeps what it has
of the next frame, and at each piece takes all frames that are there as a whole (`feed`). However
the stream is cut, it reads the items that were framed and keeps nothing (`IsFraming.feed_eq`).
-/

namespace Toft.Lib

open List

variable {α β : Type}

/-- `next` reads the item at the front of a stream of frames, and waits until its frame is there. -/
structure IsFraming (valid : α → Prop) (frame : α → List β)
    (next : List β → Option (α × List β)) : Prop where
  frame_ne_nil : ∀ {a}, valid a → frame a ≠ []
  nil : next [] = none
  part : ∀ {a}, valid a → ∀ {u}, u <+: frame a → u.length < (frame a).length → next u = none
  whole : ∀ {a}, valid a → ∀ rest, next (frame a ++ rest) = some (a, rest)

/-- The items at the front of a buffer, and what is left of it; `none` if there are still items when
the rounds are used up. -/
def drain (next : List β → Option (α × List β)) : Nat → List β → Option (List α × List β)
  | 0, _ => none
  | fuel + 1, buffer =>
    match next buffer with
    | none => some ([], buffer)
    | some (a, rest) => (drain next fuel rest).map fun (items, left) => (a :: items, left)

/-- The items that are read while the pieces come, and what is left in the buffer. -/
def feed (next : List β → Option (α × List β)) :
    List β → List (List β) → Option (List α × List β)
  | buffer, [] => some ([], buffer)
  | buffer, piece :: pieces => do
    let (items, left) ← drain next ((buffer ++ piece).length + 1) (buffer ++ piece)
    let (items', left) ← feed next left pieces
    return (items ++ items', left)

variable {next : List β → Option (α × List β)}

/-- A reader that takes nothing leaves the buffer as it is. -/
theorem eq_of_drain_nil {fuel : Nat} {buffer left : List β}
    (h : drain next fuel buffer = some ([], left)) : left = buffer := by
  cases fuel with
  | zero => cases h
  | succ fuel =>
    rw [drain] at h
    cases hnext : next buffer with
    | none =>
      rw [hnext] at h
      cases h
      rfl
    | some item =>
      rw [hnext] at h
      obtain ⟨taken, -, heq⟩ := Option.map_eq_some_iff.mp h
      cases congrArg Prod.fst heq

namespace IsFraming

variable {valid : α → Prop} {frame : α → List β} {next : List β → Option (α × List β)}

/-- Of a stream that has come in part the items are read whose frames are there. -/
theorem drain_eq (h : IsFraming valid frame next) {items : List α} (hvalid : ∀ a ∈ items, valid a)
    {buffer rest : List β} (hstream : buffer ++ rest = items.flatMap frame) {fuel : Nat}
    (hfuel : buffer.length < fuel) :
    ∃ front later left, items = front ++ later ∧ drain next fuel buffer = some (front, left) ∧
      left ++ rest = later.flatMap frame ∧ (rest = [] → later = []) := by
  obtain ⟨fuel, rfl⟩ : ∃ k, fuel = k + 1 := ⟨fuel - 1, by omega⟩
  induction items generalizing buffer fuel with
  | nil =>
    obtain ⟨rfl, rfl⟩ := append_eq_nil_iff.mp hstream
    exact ⟨[], [], [], rfl, by rw [drain, h.nil], rfl, fun _ => rfl⟩
  | cons a items ih =>
    obtain ⟨ha, hitems⟩ := forall_mem_cons.mp hvalid
    rw [flatMap_cons] at hstream
    rcases Nat.lt_or_ge buffer.length (frame a).length with hpart | hwhole
    · have hpre : buffer <+: frame a :=
        prefix_of_prefix_length_le ⟨rest, hstream⟩ (prefix_append _ _) hpart.le
      refine ⟨[], a :: items, buffer, rfl, by rw [drain, h.part ha hpre hpart], hstream, ?_⟩
      rintro rfl
      have hlen := congrArg List.length hstream
      rw [append_nil, length_append] at hlen
      omega
    · obtain ⟨got, rfl⟩ := prefix_of_prefix_length_le (prefix_append (frame a) _)
        ⟨rest, hstream⟩ hwhole
      rw [append_assoc] at hstream
      have hpos := length_pos_iff.mpr (h.frame_ne_nil ha)
      rw [length_append] at hfuel
      obtain ⟨fuel, rfl⟩ : ∃ k, fuel = k + 1 := ⟨fuel - 1, by omega⟩
      obtain ⟨front, later, left, rfl, hdrain, hleft, hend⟩ :=
        ih hitems (append_cancel_left hstream) fuel (by omega)
      refine ⟨a :: front, later, left, rfl, ?_, hleft, hend⟩
      rw [drain, h.whole ha]
      dsimp only
      rw [hdrain]
      rfl

theorem feed_eq (h : IsFraming valid frame next) {items : List α} (hvalid : ∀ a ∈ items, valid a)
    {buffer : List β} {pieces : List (List β)}
    (hstream : buffer ++ pieces.flatten = items.flatMap frame) (hend : pieces = [] → items = []) :
    feed next buffer pieces = some (items, []) := by
  induction pieces generalizing buffer items with
  | nil =>
    obtain rfl := hend rfl
    rw [flatten_nil, append_nil, flatMap_nil] at hstream
    rw [feed, hstream]
  | cons piece pieces ih =>
    rw [flatten_cons, ← append_assoc] at hstream
    obtain ⟨front, later, left, rfl, hdrain, hleft, hlater⟩ :=
      h.drain_eq hvalid hstream (Nat.lt_succ_self _)
    have hnext := ih (fun a ha => hvalid a (mem_append_right _ ha)) hleft
      fun hnil => hlater (by rw [hnil, flatten_nil])
    simp only [feed, hdrain, hnext, Option.bind_eq_bind, Option.bind_some, Option.pure_def]

end IsFraming

end Toft.Lib

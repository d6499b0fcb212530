import Toft.Base.Split
import Toft.Lib.Framing
import Toft.Storage.SSTable.Types

/-!
# Stream compression

`StreamCompression` collects bytes in a buffer. `Compress` cuts the buffer into segments and writes
each as a block: its length, the length of its compressed text, and that text. `Uncompress` takes
the blocks from the front of the buffer that are there as a whole. The blocks are frames
(`isFraming_block`), so what was compressed is read back however the stream is cut
(`uncompress_compress`).
-/

namespace Toft

open Lib List Host

def segmentSize : Nat := 128 * 1024

/-- The codec never fails on a segment and loses nothing. A segment of 128 KiB is short enough for
every codec of the library that the length of a block has 32 bits. -/
def BlockCompression.LosslessOnSegments (c : BlockCompression) : Prop :=
  ∀ s : Bytes, s.length ≤ segmentSize →
    ∃ t, c.compress s = some t ∧ c.uncompress t = some s ∧ t.length + 8 < 2 ^ 32

/-- A `StreamCompression`, with the codec and the name that it gives. Every call holds the mutex. -/
structure StreamCompression where
  name : String
  compression : BlockCompression
  buffer : Bytes := []
  err : String := ""

namespace StreamCompression

def addBuffer (s : StreamCompression) (buffer : Bytes) : StreamCompression :=
  if s.name = "none" then s else { s with buffer := s.buffer ++ buffer }

section

variable [Host]

/-- `PutFixed32`, the bytes of the low 32 bits. -/
def putFixed32 (value : Nat) : Bytes := bytes 4 value

@[simp] theorem length_putFixed32 (value : Nat) : (putFixed32 value).length = 4 :=
  length_bytes 4 value

def getFixed32 (pos : Bytes) : Nat := nat (pos.take 4)

/-- The loop of `Compress` over the rest of the buffer; `none` if the codec fails. Each round
consumes something. -/
def compressLoop (c : BlockCompression) : Nat → Bytes → Option (List Bytes)
  | 0, _ => some []
  | fuel + 1, data =>
    if data.isEmpty then some []
    else do
      let rawLen := if data.length < segmentSize then data.length else segmentSize
      let compressed ← c.compress (data.take rawLen)
      let segments ← compressLoop c fuel (data.drop rawLen)
      return putFixed32 rawLen :: putFixed32 compressed.length :: compressed :: segments

/-- `Compress`: what it returns, `*output` and the object after the call. -/
def compress (s : StreamCompression) (output : Bytes) : Bool × Bytes × StreamCompression :=
  if s.name = "none" then (true, s.buffer, { s with buffer := [] })
  else
    match compressLoop s.compression s.buffer.length s.buffer with
    | none => (false, output, s)
    | some segments => (true, output ++ joinStrings [] segments, { s with buffer := [] })

/-- `UncompressPrefix`: the text of the first block and the length of the block, which is added up
as a `uint32_t`, or `m_err`. -/
def uncompressPrefix (c : BlockCompression) (buffer : Bytes) : Except String (Bytes × Nat) :=
  if buffer.length < 8 then .error "string too small"
  else
    let uncompressedLen := getFixed32 buffer
    let rawLen := getFixed32 (buffer.drop 4)
    if 8 + rawLen > buffer.length then .error "parse header fail"
    else
      match c.uncompress ((buffer.drop 8).take rawLen) with
      | none => .error "uncompress fail"
      | some output =>
        if uncompressedLen ≠ output.length then .error "uncompress len not matched"
        else .ok (output, (rawLen + 8) % 2 ^ 32)

/-- The loop of `Uncompress` from `pos` on: the texts, what is left, and `m_err`. -/
def uncompressLoop (c : BlockCompression) :
    Nat → String → Bytes → Except Fault (List Bytes × Bytes × String)
  | 0, _, _ => .error .unended
  | fuel + 1, err, pos =>
    if pos.isEmpty then .ok ([], pos, err)
    else
      match uncompressPrefix c pos with
      | .error err => .ok ([], pos, err)
      | .ok (decompressed, consumed) => do
        let (segments, left, err) ← uncompressLoop c fuel "" (pos.drop consumed)
        return (decompressed :: segments, left, err)

/-- `Uncompress`: what it returns, `*output` and the object after the call. A round that does not
consume anything is made again and again. -/
def uncompress (s : StreamCompression) (output : Bytes) :
    Except Fault (Bool × Bytes × StreamCompression) :=
  if s.name = "none" then .ok (true, s.buffer, { s with buffer := [] })
  else do
    let (segments, left, err) ← uncompressLoop s.compression (s.buffer.length + 1) s.err s.buffer
    if segments.isEmpty then return (false, output, { s with err := err })
    else return (true, output ++ joinStrings [] segments, { s with buffer := left, err := err })

theorem buffer_of_uncompress_false {s s' : StreamCompression} {output output' : Bytes}
    (h : s.uncompress output = .ok (false, output', s')) : s'.buffer = s.buffer := by
  unfold uncompress at h
  split at h
  · cases h
  · obtain ⟨⟨segments, left, err⟩, -, h⟩ := bind_eq_ok_iff.mp h
    dsimp only at h
    split at h
    · cases h
      rfl
    · cases h

/-! ## Blocks -/

def block (c : BlockCompression) (segment : Bytes) : Bytes :=
  let compressed := (c.compress segment).getD []
  putFixed32 segment.length ++ (putFixed32 compressed.length ++ compressed)

/-- The text of the first block, and what follows the block. -/
def nextBlock (c : BlockCompression) (buffer : Bytes) : Option (Bytes × Bytes) :=
  match uncompressPrefix c buffer with
  | .error _ => none
  | .ok (output, consumed) => some (output, buffer.drop consumed)

theorem getFixed32_block {m n : Nat} (hm : m < 2 ^ 32) (hn : n < 2 ^ 32) (rest : Bytes) :
    getFixed32 (putFixed32 m ++ (putFixed32 n ++ rest)) = m ∧
      getFixed32 ((putFixed32 m ++ (putFixed32 n ++ rest)).drop 4) = n := by
  have hread : ∀ {k : Nat} (t : Bytes), k < 2 ^ 32 → getFixed32 (putFixed32 k ++ t) = k := by
    intro k t hk
    rw [getFixed32, putFixed32, take_left' (length_bytes 4 k), nat_bytes_of_lt hk]
  rw [drop_left' (length_putFixed32 m)]
  exact ⟨hread _ hm, hread _ hn⟩

variable {c : BlockCompression} {s t : Bytes}

theorem block_eq (h : c.compress s = some t) :
    block c s = putFixed32 s.length ++ (putFixed32 t.length ++ t) := by
  rw [block, h]
  rfl

theorem length_block (h : c.compress s = some t) : (block c s).length = 8 + t.length := by
  rw [block_eq h]
  simp only [length_append, length_putFixed32]
  omega

theorem uncompressPrefix_block (hs : s.length < 2 ^ 32) (ht : t.length + 8 < 2 ^ 32)
    (rest : Bytes) :
    uncompressPrefix c (putFixed32 s.length ++ (putFixed32 t.length ++ rest)) =
      if t.length > rest.length then .error "parse header fail"
      else
        match c.uncompress (rest.take t.length) with
        | none => .error "uncompress fail"
        | some output =>
          if s.length ≠ output.length then .error "uncompress len not matched"
          else .ok (output, t.length + 8) := by
  obtain ⟨hfirst, hsecond⟩ := getFixed32_block hs (by omega : t.length < 2 ^ 32) rest
  have hlen : (putFixed32 s.length ++ (putFixed32 t.length ++ rest)).length = 8 + rest.length := by
    simp only [length_append, length_putFixed32]
    omega
  have hdrop : (putFixed32 s.length ++ (putFixed32 t.length ++ rest)).drop 8 = rest := by
    rw [← append_assoc]
    exact drop_left' (by simp)
  rw [uncompressPrefix, if_neg (by omega), hfirst, hsecond, hdrop]
  dsimp only
  rw [Nat.mod_eq_of_lt ht]
  exact if_congr (by omega) rfl rfl

theorem isFraming_block (hc : c.LosslessOnSegments) :
    IsFraming (fun s : Bytes => s.length ≤ segmentSize) (block c) (nextBlock c) where
  frame_ne_nil := by
    intro s _ h
    have := congrArg length h
    simp [block] at this
  nil := rfl
  part := by
    intro s hs u hu hlt
    obtain ⟨t, hcompress, -, ht⟩ := hc s hs
    have hsmall : s.length < 2 ^ 32 := by unfold segmentSize at hs; omega
    rw [length_block hcompress] at hlt
    rw [block_eq hcompress] at hu
    rcases Nat.lt_or_ge u.length 8 with hshort | hlong
    · rw [nextBlock, uncompressPrefix, if_pos hshort]
    · -- the two numbers are there, but not all of the text
      obtain ⟨got, rfl⟩ : putFixed32 s.length ++ putFixed32 t.length <+: u := by
        rw [← append_assoc] at hu
        exact prefix_of_prefix_length_le (prefix_append _ _) hu (by simpa)
      rw [append_assoc] at hlt ⊢
      have hgot : t.length > got.length := by
        simp only [length_append, length_putFixed32] at hlt
        omega
      rw [nextBlock, uncompressPrefix_block hsmall ht, if_pos hgot]
  whole := by
    intro s hs rest
    obtain ⟨t, hcompress, huncompress, ht⟩ := hc s hs
    have hsmall : s.length < 2 ^ 32 := by unfold segmentSize at hs; omega
    have hlen : ¬ t.length > (t ++ rest).length := by
      rw [length_append]
      omega
    have hdrop : (putFixed32 s.length ++ (putFixed32 t.length ++ (t ++ rest))).drop (t.length + 8) =
        rest := by
      rw [← append_assoc, ← append_assoc]
      exact drop_left' (by simp; omega)
    rw [block_eq hcompress, append_assoc, append_assoc, nextBlock,
      uncompressPrefix_block hsmall ht, if_neg hlen, take_left, huncompress]
    dsimp only
    rw [if_neg (not_not_intro rfl)]
    dsimp only
    rw [hdrop]

/-! ## The calls -/

/-- The calls of a writer. -/
inductive Write where
  | addBuffer (buffer : Bytes)
  | compress

/-- The results of the calls of `Compress`, each with an empty output string, and the object
after the calls. -/
def run (s : StreamCompression) : List Write → List (Bool × Bytes) × StreamCompression
  | [] => ([], s)
  | .addBuffer buffer :: writes => (s.addBuffer buffer).run writes
  | .compress :: writes =>
    let (ok, output, s) := s.compress []
    ((ok, output) :: (s.run writes).1, (s.run writes).2)

/-- The results of `Uncompress` with an empty output string behind each piece, and the object after
the calls. -/
def read (s : StreamCompression) :
    List Bytes → Except Fault (List (Bool × Bytes) × StreamCompression)
  | [] => .ok ([], s)
  | piece :: pieces => do
    let (ok, output, s) ← (s.addBuffer piece).uncompress []
    let (results, s) ← s.read pieces
    return ((ok, output) :: results, s)

def outputs (results : List (Bool × Bytes)) : Bytes :=
  (results.filter Prod.fst).flatMap Prod.snd

def added : List Write → Bytes
  | [] => []
  | .addBuffer buffer :: writes => buffer ++ added writes
  | .compress :: writes => added writes

omit [Host] in
theorem added_compress (writes : List Write) : added (writes ++ [.compress]) = added writes := by
  induction writes with
  | nil => rfl
  | cons write writes ih =>
    cases write with
    | addBuffer buffer => rw [cons_append, added, ih, added]
    | compress => rw [cons_append, added, ih, added]

theorem compressLoop_eq (hc : c.LosslessOnSegments) {fuel : Nat}
    {data : Bytes} (hfuel : data.length ≤ fuel) :
    ∃ pieces, ∃ segments : List Bytes, compressLoop c fuel data = some pieces ∧
      pieces.flatten = segments.flatMap (block c) ∧ segments.flatten = data ∧
      ∀ segment ∈ segments, segment.length ≤ segmentSize := by
  induction fuel generalizing data with
  | zero =>
    obtain rfl := length_eq_zero_iff.mp (Nat.le_zero.mp hfuel)
    exact ⟨[], [], rfl, rfl, rfl, fun _ h => absurd h not_mem_nil⟩
  | succ fuel ih =>
    rw [compressLoop]
    split
    · rename_i hempty
      exact ⟨[], [], rfl, rfl, (isEmpty_iff.mp hempty).symm, fun _ h => absurd h not_mem_nil⟩
    · rename_i hempty
      have hpos : 0 < data.length := by
        rw [length_pos_iff]
        exact fun hnil => hempty (by rw [hnil]; rfl)
      obtain ⟨rawLen, hrawLen, hlow, hhigh, hle⟩ : ∃ rawLen,
          (if data.length < segmentSize then data.length else segmentSize) = rawLen ∧ 0 < rawLen ∧
            rawLen ≤ segmentSize ∧ rawLen ≤ data.length := by
        refine ⟨_, rfl, ?_⟩
        unfold segmentSize
        split <;> omega
      have htake : (data.take rawLen).length = rawLen := length_take_of_le hle
      obtain ⟨t, hcompress, -, -⟩ := hc (data.take rawLen) (htake.trans_le hhigh)
      obtain ⟨pieces, segments, hloop, hpieces, hsegments, hall⟩ :=
        @ih (data.drop rawLen) (by rw [length_drop]; omega)
      refine ⟨putFixed32 rawLen :: putFixed32 t.length :: t :: pieces,
        data.take rawLen :: segments, ?_, ?_, ?_, forall_mem_cons.mpr ⟨?_, hall⟩⟩
      · rw [hrawLen]
        simp only [hcompress, hloop, Option.bind_eq_bind, Option.bind_some, Option.pure_def]
      · rw [flatMap_cons, block_eq hcompress, htake]
        simp only [flatten_cons, hpieces, append_assoc]
      · rw [flatten_cons, hsegments, take_append_drop]
      · exact htake.trans_le hhigh

section

variable {s : StreamCompression} (hname : s.name ≠ "none")

include hname

omit [Host] in
theorem addBuffer_eq (buffer : Bytes) :
    s.addBuffer buffer = { s with buffer := s.buffer ++ buffer } := if_neg hname

section

variable (hc : s.compression.LosslessOnSegments)
include hc

theorem compress_eq :
    ∃ segments : List Bytes,
      s.compress [] = (true, segments.flatMap (block s.compression), { s with buffer := [] }) ∧
      segments.flatten = s.buffer ∧ ∀ segment ∈ segments, segment.length ≤ segmentSize := by
  obtain ⟨pieces, segments, hloop, hpieces, hsegments, hall⟩ :=
    compressLoop_eq hc (le_refl s.buffer.length)
  refine ⟨segments, ?_, hsegments, hall⟩
  rw [compress, if_neg hname, hloop]
  dsimp only
  rw [joinStrings_nil, hpieces, nil_append]

theorem run_eq (writes : List Write) :
    ∃ segments : List Bytes, ∃ left,
      (s.run writes).2 = { s with buffer := left } ∧
      (∀ result ∈ (s.run writes).1, result.1 = true) ∧
      outputs (s.run writes).1 = segments.flatMap (block s.compression) ∧
      segments.flatten ++ left = s.buffer ++ added writes ∧
      ∀ segment ∈ segments, segment.length ≤ segmentSize := by
  induction writes generalizing s with
  | nil =>
    exact ⟨[], s.buffer, rfl, fun _ h => absurd h not_mem_nil, rfl,
      (append_nil _).symm, fun _ h => absurd h not_mem_nil⟩
  | cons write writes ih =>
    cases write with
    | addBuffer buffer =>
      obtain ⟨segments, left, hrun, htrue, houtputs, hflatten, hall⟩ :=
        @ih { s with buffer := s.buffer ++ buffer } hname hc
      rw [run, addBuffer_eq hname]
      exact ⟨segments, left, hrun, htrue, houtputs, hflatten.trans (append_assoc _ _ _), hall⟩
    | compress =>
      obtain ⟨first, hcompress, hfirst, hallFirst⟩ := compress_eq hname hc
      obtain ⟨segments, left, hrun, htrue, houtputs, hflatten, hall⟩ :=
        @ih { s with buffer := [] } hname hc
      rw [run, hcompress]
      refine ⟨first ++ segments, left, hrun, forall_mem_cons.mpr ⟨rfl, htrue⟩, ?_, ?_, ?_⟩
      · rw [flatMap_append, ← houtputs]
        rfl
      · rw [flatten_append, hfirst, append_assoc, hflatten]
        rfl
      · intro segment hmem
        rcases mem_append.mp hmem with h | h
        · exact hallFirst segment h
        · exact hall segment h

theorem run_compress (writes : List Write) : (s.run (writes ++ [.compress])).2.buffer = [] := by
  induction writes generalizing s with
  | nil =>
    obtain ⟨segments, hcompress, -⟩ := compress_eq hname hc
    rw [nil_append, run, hcompress]
    rfl
  | cons write writes ih =>
    cases write with
    | addBuffer buffer =>
      rw [cons_append, run, addBuffer_eq hname]
      exact @ih { s with buffer := s.buffer ++ buffer } hname hc
    | compress =>
      obtain ⟨segments, hcompress, -⟩ := compress_eq hname hc
      rw [cons_append, run, hcompress]
      exact @ih { s with buffer := [] } hname hc

end

omit hname in
theorem uncompressLoop_eq {c : BlockCompression} {fuel : Nat} {pos left : Bytes}
    {segments : List Bytes} (h : drain (nextBlock c) fuel pos = some (segments, left))
    (err : String) : ∃ err', uncompressLoop c fuel err pos = .ok (segments, left, err') := by
  induction fuel generalizing err pos segments with
  | zero => cases h
  | succ fuel ih =>
    rw [drain, nextBlock] at h
    rw [uncompressLoop]
    cases hblock : uncompressPrefix c pos with
    | error err' =>
      rw [hblock] at h
      cases h
      split
      · exact ⟨err, rfl⟩
      · exact ⟨err', rfl⟩
    | ok block =>
      rw [hblock] at h
      obtain ⟨⟨later, left'⟩, hdrain, heq⟩ := Option.map_eq_some_iff.mp h
      cases heq
      have hne : ¬ pos.isEmpty := by
        intro hempty
        rw [isEmpty_iff.mp hempty] at hblock
        cases hblock
      obtain ⟨err', hloop⟩ := ih hdrain ""
      exact ⟨err', by rw [if_neg hne]; dsimp only; rw [hloop]; rfl⟩

theorem uncompress_eq {segments : List Bytes} {left : Bytes} (output : Bytes)
    (h : drain (nextBlock s.compression) (s.buffer.length + 1) s.buffer = some (segments, left)) :
    ∃ err, s.uncompress output =
      .ok (!segments.isEmpty, output ++ segments.flatten,
        { s with buffer := left, err := err }) := by
  obtain ⟨err, hloop⟩ := uncompressLoop_eq h s.err
  refine ⟨err, ?_⟩
  rw [uncompress, if_neg hname, hloop, ok_bind]
  dsimp only
  rw [joinStrings_nil]
  cases segments with
  | nil =>
    obtain rfl := eq_of_drain_nil h
    simp
  | cons => rfl

theorem read_eq {pieces segments : List Bytes} {left : Bytes}
    (h : feed (nextBlock s.compression) s.buffer pieces = some (segments, left)) :
    ∃ results s', s.read pieces = .ok (results, s') ∧ outputs results = segments.flatten ∧
      s'.buffer = left := by
  induction pieces generalizing s segments with
  | nil =>
    cases h
    exact ⟨[], s, rfl, rfl, rfl⟩
  | cons piece pieces ih =>
    obtain ⟨⟨items, left₁⟩, hdrain, h⟩ := Option.bind_eq_some_iff.mp h
    obtain ⟨⟨later, left₂⟩, hfeed, h⟩ := Option.bind_eq_some_iff.mp h
    cases h
    obtain ⟨err, huncompress⟩ :=
      @uncompress_eq _ { s with buffer := s.buffer ++ piece } hname _ _ [] hdrain
    obtain ⟨results, s', hread, houtputs, hbuffer⟩ :=
      @ih { s with buffer := left₁, err := err } hname _ hfeed
    refine ⟨(!items.isEmpty, items.flatten) :: results, s', ?_, ?_, hbuffer⟩
    · rw [read, addBuffer_eq hname, huncompress, ok_bind]
      dsimp only
      rw [hread]
      rfl
    · rw [flatten_append, ← houtputs]
      cases items with
      | nil => rfl
      | cons => rfl

end

/-- What is compressed by any calls is uncompressed from any pieces. A call that returns false
leaves its buffer as it is. -/
theorem uncompress_compress {c : BlockCompression} (hc : c.LosslessOnSegments) {name : String}
    (hname : name ≠ "none") (writes : List Write) (pieces : List Bytes)
    (hpieces : pieces.flatten = outputs (run ⟨name, c, [], ""⟩ (writes ++ [.compress])).1) :
    (∀ result ∈ (run ⟨name, c, [], ""⟩ (writes ++ [.compress])).1, result.1 = true) ∧
      (∃ results s, read ⟨name, c, [], ""⟩ pieces = .ok (results, s) ∧
        outputs results = added writes ∧ s.buffer = []) ∧
      ∀ (s s' : StreamCompression) (output output' : Bytes),
        s.uncompress output = .ok (false, output', s') → s'.buffer = s.buffer := by
  obtain ⟨segments, left, hrun, htrue, houtputs, hflatten, hall⟩ :=
    @run_eq _ ⟨name, c, [], ""⟩ hname hc (writes ++ [.compress])
  have hleft : left = [] := by
    have hbuffer := @run_compress _ ⟨name, c, [], ""⟩ hname hc writes
    rwa [hrun] at hbuffer
  have hadded : segments.flatten = added writes := by
    rwa [hleft, append_nil, added_compress] at hflatten
  have hnone : pieces = [] → segments = [] := by
    rintro rfl
    cases segments with
    | nil => rfl
    | cons segment segments =>
      have hblock := hpieces.trans houtputs
      exact absurd (append_eq_nil_iff.mp hblock.symm).1
        ((isFraming_block hc).frame_ne_nil (hall segment mem_cons_self))
  have hfeed := (isFraming_block hc).feed_eq hall
    ((nil_append _).trans (hpieces.trans houtputs)) hnone
  obtain ⟨results, s', hread, hresults, hbuffer⟩ := @read_eq _ ⟨name, c, [], ""⟩ hname _ _ _ hfeed
  exact ⟨htrue, ⟨results, s', hread, hresults.trans hadded, hbuffer⟩,
    fun _ _ _ _ => buffer_of_uncompress_false⟩

end

theorem losslessOnSegments_inverting : BlockCompression.inverting.LosslessOnSegments := by
  intro s hs
  refine ⟨_, rfl, BlockCompression.uncompress_inverting s, ?_⟩
  unfold segmentSize at hs
  rw [length_cons, length_map]
  omega

/-- Two blocks, cut inside the first length and inside the second header. -/
theorem uncompress_compress_inverting :
    ∃ results s, @read little ⟨"invert", .inverting, [], ""⟩
      [[2, 0, 0], [0, 3, 0, 0, 0, 0, 158, 157, 1, 0, 0, 0, 2], [0, 0, 0, 0, 156]] =
        .ok (results, s) ∧
      outputs results = ascii "abc" ∧ s.buffer = [] :=
  (@uncompress_compress little _ losslessOnSegments_inverting _ (by decide)
    [.addBuffer (ascii "a"), .addBuffer (ascii "b"), .compress, .addBuffer (ascii "c")] _
    (by decide)).2.1

end StreamCompression

end Toft

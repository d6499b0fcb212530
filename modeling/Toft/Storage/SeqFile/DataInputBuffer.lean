import Toft.Base.Fault
import Toft.Lib.Prog
import Toft.Storage.File
import Toft.Storage.SeqFile.Coding

/-!
# The input buffer of sequence files

`DataInputBuffer` reads a file in parts into a buffer, which slides over the file and grows when a
piece does not fit. To its users it is the rest of the file (`Holds`): reading a piece takes it from
the front (`runs_readBytes`), and when the rest is too short nothing is taken
(`runs_readBytes_end`). Only the size of the buffer is left of its inner life: it is kept in an
`int`, and a buffer that has to grow to 2 GiB is a fault (`grow`).
-/

namespace Toft.SeqFile

open Lib List Nat

/-- A `DataInputBuffer`; `buffer` are the first `m_size` bytes of the array. -/
structure DataInputBuffer where
  file : File
  bufferSize : Nat := 65536
  buffer : Bytes := []
  offset : Nat := 0
  isFinished : Bool := false

/-- A method of the buffer; without a value it returns false. -/
abbrev Input := Prog Fault DataInputBuffer

namespace DataInputBuffer

/-- The bytes from `Data()` to the end of the buffered data. -/
def left (d : DataInputBuffer) : Bytes := d.buffer.drop d.offset

def tell (d : DataInputBuffer) : Int := d.file.tell - (d.buffer.length - d.offset)

theorem length_left (d : DataInputBuffer) : d.left.length = d.buffer.length - d.offset :=
  length_drop

/-! ## Loading -/

/-- The data is moved to the start of the buffer. -/
def adjust (d : DataInputBuffer) : DataInputBuffer :=
  if d.offset ≠ 0 then { d with buffer := d.left, offset := 0 } else d

theorem adjust_eq (d : DataInputBuffer) : d.adjust = { d with buffer := d.left, offset := 0 } := by
  unfold adjust
  split_ifs with hoffset
  · rfl
  · have hzero : d.offset = 0 := not_not.mp hoffset
    have hleft : d.left = d.buffer := by rw [left, hzero, drop_zero]
    rw [hleft, ← hzero]

def loadMoreContent : Input Unit := fun d =>
  let d := d.adjust
  let emptyBufferSize := d.bufferSize - d.buffer.length
  let (ret, got, file) := d.file.read emptyBufferSize
  if ret ≤ 0 then .ok (none, { d with file, isFinished := true })
  else .ok (some (), { d with file, buffer := d.buffer ++ got })

/-- The first part of `LoadAtLeast`. The new size is an `int`. -/
def enlarge (n : Nat) : Input Unit := fun d =>
  if d.bufferSize < n then
    let newBufferSize := int32 (max n (d.bufferSize * 2) : Nat)
    if newBufferSize < 0 then .error .badLength
    else .ok (some (),
      { d with buffer := d.left, offset := 0, bufferSize := newBufferSize.toNat })
  else .ok (some (), d)

/-- The loop of `LoadAtLeast`. A round that goes on has loaded at least one byte. -/
def loadLoop (n : Nat) : Nat → Input Unit
  | 0 => .fault .unended
  | fuel + 1 => do
    let size ← .gets fun d => d.left.length
    if size < n then
      loadMoreContent
      loadLoop n fuel

/-- `LoadAtLeast`. A negative number asks for nothing, as zero does. -/
def loadAtLeast (n : Nat) : Input Unit := do
  enlarge n
  loadLoop n (n + 1)

/-! ## Reading -/

/-- The common body of the `Read` methods: `n` bytes are loaded and skipped. -/
def readBytes (n : Nat) : Input Bytes := do
  loadAtLeast n
  let bytes ← .gets fun d => d.left.take n
  .modify fun d => { d with offset := d.offset + n }
  return bytes

/-- `ReadVersion`, which gives the first bytes of the buffer wherever the offset is. -/
def readVersion : Input Bytes := do
  loadAtLeast 4
  let version ← .gets fun d => d.buffer.take 4
  .modify fun d => { d with offset := d.offset + 4 }
  return version

def readByte : Input UInt8 := do
  let bytes ← readBytes 1
  return bytes.headD 0

section

variable [Host]

def readShort : Input Int := do
  let bytes ← readBytes 2
  return shortOf bytes

def readInt : Input Int := do
  let bytes ← readBytes 4
  return intOf bytes

end

def readBuffer (size : Nat) : Input Bytes := readBytes size

def readString (size : Int) : Input Bytes :=
  if size < 0 then .fault .badLength else readBytes size.toNat

/-- `ReadKeyValue`. A piece with a negative length does not lie in the buffer. -/
def readKeyValue (keyLen valueLen : Int) : Input (Bytes × Bytes) := do
  let bytes ← readBytes (int32 (keyLen + valueLen)).toNat
  if keyLen < 0 ∨ valueLen < 0 then .fault .overrun
  else return (bytes.take keyLen.toNat, bytes.drop keyLen.toNat)

def readVInt : Input Int := do
  let first ← readByte
  let len := decodeVIntSize (charValue first)
  if len = 1 then return charValue first
  else
    let bytes ← readBytes (len - 1).toNat
    return vintOf (charValue first) bytes

/-! ## Seeking -/

def seek (offset : Int) : Input Unit := fun d =>
  match d.file.seek offset .set with
  | none => .ok (none, d)
  | some file => .ok (some (), { d with file, buffer := [], offset := 0 })

/-- The loop of `FindSync` over the bytes that are left: how many it skips, and whether they end
with the marker. -/
def findSyncLoop (sync : Bytes) : Bytes → Nat × Bool
  | [] => (0, sync.isEmpty)
  | b :: left =>
    if sync.length ≤ left.length + 1 then
      if sync.isPrefixOf (b :: left) then (sync.length, true)
      else ((findSyncLoop sync left).1 + 1, (findSyncLoop sync left).2)
    else (0, false)

def findSync (sync : Bytes) : Input Bool := fun d =>
  .ok (some (findSyncLoop sync d.left).2,
    { d with offset := d.offset + (findSyncLoop sync d.left).1 })

/-- `GetFileSize`; without a value it returns -1. -/
def getFileSize : Input Int := fun d =>
  let offset := d.file.tell
  match d.file.seek 0 .end_ with
  | none => .ok (none, d)
  | some file =>
    match file.seek offset .set with
    | none => .ok (none, { d with file })
    | some file' => .ok (some file.tell, { d with file := file' })

/-! ## The rest of the file -/

/-- What the buffer is for its users: the bytes that are still to be read, and its size. -/
structure Window where
  rest : Bytes
  size : Nat

/-- The buffer on a file with the given content. Every `Read` of the file gives at least one byte,
unless the file is at its end. As long as nothing is read the data stands at the start of the
buffer. -/
structure Holds (content : Bytes) (d : DataInputBuffer) (w : Window) : Prop where
  data_eq : d.file.data = content
  moves : ∀ t, (d.file.io t).Moves
  pos_le : d.file.pos ≤ content.length
  offset_le : d.offset ≤ d.buffer.length
  length_le : d.buffer.length ≤ d.bufferSize
  rest_eq : d.left ++ content.drop d.file.pos = w.rest
  size_eq : d.bufferSize = w.size
  le_size : 65536 ≤ w.size
  size_lt : w.size < 2 ^ 31
  suffix : w.rest <:+ content
  start : w.rest = content → d.offset = 0

/-- The size of the buffer that holds a piece of `n` bytes, if it can grow so far. -/
def grow (size n : Nat) : Option Nat :=
  if size < n then if max n (size * 2) < 2 ^ 31 then some (max n (size * 2)) else none
  else some size

/-- The size of the buffer behind pieces of the given lengths. -/
def growAll (size : Nat) (lengths : List Nat) : Option Nat := lengths.foldlM grow size

theorem growAll_cons (size n : Nat) (lengths : List Nat) :
    growAll size (n :: lengths) = (grow size n).bind fun size => growAll size lengths :=
  foldlM_cons

theorem growAll_append (size : Nat) (lengths lengths' : List Nat) :
    growAll size (lengths ++ lengths') =
      (growAll size lengths).bind fun size => growAll size lengths' :=
  foldlM_append

theorem grow_of_le {size n : Nat} (h : n ≤ size) : grow size n = some size := if_neg (not_lt.mpr h)

theorem grow_spec {size size' n : Nat} (h : grow size n = some size') (hlt : size < 2 ^ 31) :
    n ≤ size' ∧ size ≤ size' ∧ size' < 2 ^ 31 := by
  unfold grow at h
  split_ifs at h <;> cases h <;> omega

/-- The outcome of a program for which the buffer grows to the given size, or cannot grow. -/
def grown {α τ : Type} (a : α) (view : Nat → τ) : Option Nat → Except Fault (Option α × τ)
  | some size => .ok (some a, view size)
  | none => .error .badLength

section

variable {σ τ α β : Type} {R : σ → τ → Prop} {m : Prog Fault σ α} {t : τ} {a : α} {b : β}
  {view view' : Nat → τ} {size? : Option Nat}

section

variable (hm : Prog.Runs R m t (grown a view size?))
include hm

variable {f : α → Prog Fault σ β}

theorem grown_bind {grow' : Nat → Option Nat}
    (hf : ∀ size, Prog.Runs R (f a) (view size) (grown b view' (grow' size))) :
    Prog.Runs R (m >>= f) t (grown b view' (size?.bind grow')) := by
  cases size? with
  | none => exact hm.bind_error
  | some size => exact hm.bind (hf size)

theorem grown_map (hf : ∀ size, Prog.Runs R (f a) (view size) (.ok (some b, view' size))) :
    Prog.Runs R (m >>= f) t (grown b view' size?) := by
  cases size? with
  | none => exact hm.bind_error
  | some size => exact hm.bind (hf size)

theorem grown_optional : Prog.Runs R m.optional t (grown (some a) view size?) := by
  cases size? with
  | none => exact hm.optional_error
  | some size => exact hm.optional

end

end

namespace Holds

variable {content : Bytes} {d : DataInputBuffer} {w : Window}

section

variable (h : Holds content d w)
include h

theorem length_rest : w.rest.length = d.left.length + (content.length - d.file.pos) := by
  rw [← h.rest_eq, length_append, length_drop]

theorem tell_eq : d.tell = content.length - w.rest.length := by
  have hleft := d.length_left
  have hrest := h.length_rest
  have hoffset := h.offset_le
  have hpos := h.pos_le
  unfold tell File.tell
  omega

theorem take_left {n : Nat} (hn : n ≤ d.left.length) : d.left.take n = w.rest.take n := by
  rw [← h.rest_eq, take_append_of_le_length hn]

theorem skip {n : Nat} (hn : n ≤ d.left.length) :
    Holds content { d with offset := d.offset + n } { w with rest := w.rest.drop n } where
  data_eq := h.data_eq
  moves := h.moves
  pos_le := h.pos_le
  offset_le := by
    have := d.length_left
    have := h.offset_le
    dsimp only
    omega
  length_le := h.length_le
  rest_eq := by
    show d.buffer.drop (d.offset + n) ++ _ = w.rest.drop n
    rw [← h.rest_eq, drop_append_of_le_length hn, left, drop_drop]
  size_eq := h.size_eq
  le_size := h.le_size
  size_lt := h.size_lt
  suffix := (drop_suffix n w.rest).trans h.suffix
  start hrest := by
    have hlength := h.length_rest
    have hle := h.suffix.length_le
    have hdrop := congrArg length hrest
    rw [length_drop] at hdrop
    obtain rfl : n = 0 := by omega
    exact h.start hrest

theorem adjust :
    Holds content { d with buffer := d.left, offset := 0 } w where
  data_eq := h.data_eq
  moves := h.moves
  pos_le := h.pos_le
  offset_le := zero_le _
  length_le := by
    have hleft := d.length_left
    have hlength := h.length_le
    dsimp only
    omega
  rest_eq := h.rest_eq
  size_eq := h.size_eq
  le_size := h.le_size
  size_lt := h.size_lt
  suffix := h.suffix
  start _ := rfl

theorem load (isFinished : Bool) {got : Bytes}
    (hgot : got ++ d.file.data.drop (d.file.pos + got.length) = d.file.data.drop d.file.pos)
    (hpos : d.file.pos + got.length ≤ d.file.data.length)
    (hroom : d.buffer.length + got.length ≤ d.bufferSize) :
    Holds content
      { d with
        file := { d.file with pos := d.file.pos + got.length, io := d.file.io.tail }
        buffer := d.buffer ++ got
        isFinished } w where
  data_eq := h.data_eq
  moves t := h.moves (t + 1)
  pos_le := h.data_eq ▸ hpos
  offset_le := by
    have hoffset := h.offset_le
    rw [length_append]
    dsimp only
    omega
  length_le := by rwa [length_append]
  rest_eq := by
    show (d.buffer ++ got).drop d.offset ++ content.drop (d.file.pos + got.length) = w.rest
    rw [drop_append_of_le_length h.offset_le, append_assoc, ← h.data_eq, hgot, h.data_eq]
    exact h.rest_eq
  size_eq := h.size_eq
  le_size := h.le_size
  size_lt := h.size_lt
  suffix := h.suffix
  start := h.start

end

end Holds

variable {lengths : List Nat}

/-- A buffer below 2 GiB can grow to pieces below 1 GiB. -/
theorem growAll_of_lt (h : ∀ n ∈ lengths, n < 2 ^ 30) {size : Nat}
    (hsize : size < 2 ^ 31) : ∃ size', growAll size lengths = some size' := by
  induction lengths generalizing size with
  | nil => exact ⟨size, rfl⟩
  | cons n lengths ih =>
    obtain ⟨hn, hrest⟩ := forall_mem_cons.mp h
    obtain ⟨size₁, hgrow⟩ : ∃ size₁, grow size n = some size₁ := by
      unfold grow
      split_ifs
      · exact ⟨_, rfl⟩
      · omega
      · exact ⟨_, rfl⟩
    obtain ⟨size', hgrow'⟩ := ih hrest (grow_spec hgrow hsize).2.2
    refine ⟨size', ?_⟩
    rw [growAll_cons, hgrow]
    exact hgrow'

theorem grow_of_lt {size size' n : Nat} (h : grow size n = some size') (hn : size < n) :
    size' = max n (size * 2) := by
  unfold grow at h
  split_ifs at h
  exact (Option.some.inj h).symm

theorem le_of_growAll {size size' : Nat}
    (h : growAll size lengths = some size') : size ≤ size' ∧ ∀ n ∈ lengths, n ≤ size' := by
  induction lengths generalizing size with
  | nil =>
    cases h
    exact ⟨le_rfl, fun _ hn => absurd hn not_mem_nil⟩
  | cons n lengths ih =>
    rw [growAll_cons, Option.bind_eq_some_iff] at h
    obtain ⟨size₁, hgrow, hrest⟩ := h
    obtain ⟨hle, hall⟩ := ih hrest
    have hn : n ≤ size₁ ∧ size ≤ size₁ := by
      unfold grow at hgrow
      split_ifs at hgrow <;> cases hgrow <;> omega
    exact ⟨hn.2.trans hle, forall_mem_cons.mpr ⟨hn.1.trans hle, hall⟩⟩

theorem growAll_of_le {size : Nat} (h : ∀ n ∈ lengths, n ≤ size) :
    growAll size lengths = some size := by
  induction lengths with
  | nil => rfl
  | cons n lengths ih =>
    obtain ⟨hn, hrest⟩ := forall_mem_cons.mp h
    rw [growAll_cons, grow_of_le hn]
    exact ih hrest

/-! ## Loading keeps the rest -/

section

variable {content : Bytes} {d : DataInputBuffer} {w : Window}

section

variable (h : Holds content d w)
include h

/-- A round of loading gets more of the rest, or all of it was there. -/
theorem loadMoreContent_spec (hroom : d.left.length < d.bufferSize) :
    (d.left.length < w.rest.length ∧ ∃ d', loadMoreContent d = .ok (some (), d') ∧
      Holds content d' w ∧ d.left.length < d'.left.length) ∨
    (d.left.length = w.rest.length ∧ ∃ d', loadMoreContent d = .ok (none, d') ∧
      Holds content d' w) := by
  have hrest := h.length_rest
  have hpos := h.pos_le
  obtain ⟨got, hread, hgot, hpos', hle, hmore⟩ := File.read_moves (h.moves 0)
    (h.data_eq ▸ hpos) (Nat.sub_pos_of_lt hroom)
  have hload := fun b => h.adjust.load b hgot hpos' (by dsimp only; omega)
  rw [h.data_eq] at hmore hpos'
  unfold loadMoreContent
  simp only [adjust_eq, hread]
  by_cases hnil : got = []
  · right
    subst hnil
    rw [length_nil] at hmore
    refine ⟨by omega, _, rfl, ?_⟩
    simpa only [append_nil] using hload true
  · left
    have hlen := length_pos_iff.mpr hnil
    have hlen' : ¬ (got.length : Int) ≤ 0 := by omega
    rw [if_neg hlen']
    refine ⟨by omega, _, rfl, hload d.isFinished, ?_⟩
    show d.left.length < (d.left ++ got).length
    rw [length_append]
    omega

/-- The loop ends with enough data, or with all of the rest. -/
theorem loadLoop_spec {n fuel : Nat} (hn : n ≤ d.bufferSize) (hfuel : n - d.left.length < fuel) :
    ∃ d', Holds content d' w ∧
      (n ≤ w.rest.length ∧ loadLoop n fuel d = .ok (some (), d') ∧ n ≤ d'.left.length ∨
        w.rest.length < n ∧ loadLoop n fuel d = .ok (none, d')) := by
  induction fuel generalizing d with
  | zero => cases hfuel
  | succ fuel ih =>
    have hrest := h.length_rest
    by_cases hless : d.left.length < n
    · have hloop : loadLoop n (fuel + 1) d = (loadMoreContent >>= fun _ => loadLoop n fuel) d :=
        congrFun (if_pos hless) d
      rw [hloop, Prog.bind_apply]
      rcases loadMoreContent_spec h (by omega) with ⟨hmore, d₁, heq, h₁, hlt⟩ |
        ⟨hall, d₁, heq, h₁⟩
      · have hsize : n ≤ d₁.bufferSize := by rwa [h₁.size_eq, ← h.size_eq]
        rw [heq]
        exact ih h₁ hsize (by omega)
      · rw [heq]
        exact ⟨d₁, h₁, .inr ⟨by omega, rfl⟩⟩
    · have hloop : loadLoop n (fuel + 1) d = .ok (some (), d) := congrFun (if_neg hless) d
      exact ⟨d, h, .inl ⟨by omega, hloop, by omega⟩⟩

theorem enlarge_spec {n size : Nat} (hgrow : grow w.size n = some size) :
    ∃ d', enlarge n d = .ok (some (), d') ∧ Holds content d' { w with size } := by
  obtain ⟨hn, hle, hlt⟩ := grow_spec hgrow h.size_lt
  have hsize := h.size_eq
  unfold enlarge
  by_cases hsmall : d.bufferSize < n
  · have hnew : size = max n (d.bufferSize * 2) := by
      rw [hsize] at hsmall ⊢
      exact grow_of_lt hgrow hsmall
    rw [if_pos hsmall, ← hnew, int32_of_lt hlt]
    have hadjust := h.adjust
    refine ⟨_, if_neg (by omega), ?_⟩
    exact { hadjust with
      length_le := by
        have hlength := hadjust.length_le
        show d.left.length ≤ (size : Int).toNat
        dsimp only at hlength
        omega
      size_eq := Int.toNat_natCast size
      le_size := h.le_size.trans hle
      size_lt := hlt }
  · have hkeep : size = w.size := by
      rw [grow_of_le (by omega)] at hgrow
      exact (Option.some.inj hgrow).symm
    subst hkeep
    exact ⟨d, if_neg hsmall, h⟩

theorem enlarge_fault {n : Nat} (hn : n < 2 ^ 31)
    (hgrow : grow w.size n = none) : enlarge n d = .error .badLength := by
  have hsize := h.size_eq
  unfold grow at hgrow
  split_ifs at hgrow with hsmall hmax
  unfold enlarge
  rw [if_pos (by omega)]
  apply if_pos
  have hmax' : max n (d.bufferSize * 2) = d.bufferSize * 2 := by omega
  rw [int32, Int.bmod_def]
  split_ifs <;> omega

theorem loadAtLeast_spec {n size : Nat} (hgrow : grow w.size n = some size) :
    ∃ d', Holds content d' { w with size } ∧
      (n ≤ w.rest.length ∧ loadAtLeast n d = .ok (some (), d') ∧ n ≤ d'.left.length ∨
        w.rest.length < n ∧ loadAtLeast n d = .ok (none, d')) := by
  obtain ⟨d₁, heq, h₁⟩ := enlarge_spec h hgrow
  have hn : n ≤ d₁.bufferSize := by
    rw [h₁.size_eq]
    exact (grow_spec hgrow h.size_lt).1
  rw [loadAtLeast, Prog.bind_apply, heq]
  exact loadLoop_spec h₁ hn (by omega : n - d₁.left.length < n + 1)

end

end

/-! ## Reading takes from the front -/

section

variable {content : Bytes} {size : Nat}

theorem runs_readBytes (x rest : Bytes) (hx : x.length < 2 ^ 31) :
    Prog.Runs (Holds content) (readBytes x.length) ⟨x ++ rest, size⟩
      (grown x (⟨rest, ·⟩) (grow size x.length)) := by
  cases hgrow : grow size x.length with
  | none =>
    refine Prog.Runs.bind_error (Prog.Runs.bind_error (.of_error ?_))
    exact fun d h => enlarge_fault h hx hgrow
  | some size' =>
    apply Prog.Runs.of_ok
    intro d h
    obtain ⟨d', h', ⟨-, heq, hlen⟩ | ⟨hshort, -⟩⟩ := loadAtLeast_spec h hgrow
    · have htake : d'.left.take x.length = x := by
        rw [h'.take_left hlen]
        exact take_left
      have hskip := h'.skip hlen
      rw [drop_left] at hskip
      refine ⟨_, ?_, hskip⟩
      rw [readBytes, Prog.bind_apply, heq]
      show Except.ok (some (d'.left.take x.length), _) = _
      rw [htake]
    · rw [length_append] at hshort
      omega

variable {rest : Bytes} {size n : Nat}

theorem runs_readBytes_small (x rest : Bytes) (hx : x.length = n) (hsmall : n ≤ 65536) :
    Prog.Runs (Holds content) (readBytes n) ⟨x ++ rest, size⟩ (.ok (some x, ⟨rest, size⟩)) := by
  subst hx
  constructor
  intro d h
  have hread := @runs_readBytes content size x rest (by omega)
  rw [grow_of_le (hsmall.trans h.le_size)] at hread
  exact hread.agrees d h

theorem runs_readBytes_end (hsmall : n ≤ 65536) (hshort : rest.length < n) :
    Prog.Runs (Holds content) (readBytes n) ⟨rest, size⟩ (.ok (none, ⟨rest, size⟩)) := by
  apply Prog.Runs.bind_none
  apply Prog.Runs.of_ok
  intro d h
  obtain ⟨d', h', ⟨hlong, -⟩ | ⟨-, heq⟩⟩ := loadAtLeast_spec h (grow_of_le (hsmall.trans h.le_size))
  · exact absurd hlong (not_le.mpr hshort)
  · exact ⟨d', heq, h'⟩

variable {size : Nat}

theorem runs_readVersion {version rest : Bytes} (hcontent : content = version ++ rest)
    (hlength : version.length = 4) :
    Prog.Runs (Holds content) readVersion ⟨content, size⟩ (.ok (some version, ⟨rest, size⟩)) := by
  apply Prog.Runs.of_ok
  intro d h
  have hsmall : 4 ≤ size := le_trans (by decide) h.le_size
  obtain ⟨d', h', ⟨-, heq, hlen⟩ | ⟨hshort, -⟩⟩ := loadAtLeast_spec h (grow_of_le hsmall)
  · have hleft : d'.buffer = d'.left := by rw [left, h'.start rfl, drop_zero]
    have htake : d'.buffer.take 4 = version := by
      rw [hleft, h'.take_left hlen, ← hlength, hcontent]
      exact take_left
    have hskip := h'.skip hlen
    have hdrop : content.drop 4 = rest := by
      rw [hcontent, ← hlength, drop_left]
    rw [hdrop] at hskip
    refine ⟨_, ?_, hskip⟩
    rw [readVersion, Prog.bind_apply, heq]
    show Except.ok (some (d'.buffer.take 4), _) = _
    rw [htake]
  · rw [hcontent, length_append] at hshort
    omega

theorem runs_readVersion_end (hshort : rest.length < 4) :
    Prog.Runs (Holds content) readVersion ⟨rest, size⟩ (.ok (none, ⟨rest, size⟩)) := by
  apply Prog.Runs.bind_none
  apply Prog.Runs.of_ok
  intro d h
  have hsmall : 4 ≤ size := le_trans (by decide) h.le_size
  obtain ⟨d', h', ⟨hlong, -⟩ | ⟨-, heq⟩⟩ := loadAtLeast_spec h (grow_of_le hsmall)
  · exact absurd hlong (not_le.mpr hshort)
  · exact ⟨d', heq, h'⟩

theorem runs_readByte (b : UInt8) (rest : Bytes) :
    Prog.Runs (Holds content) readByte ⟨b :: rest, size⟩ (.ok (some b, ⟨rest, size⟩)) :=
  (runs_readBytes_small (n := 1) [b] rest rfl (by decide)).bind (.pure b)

theorem runs_readBuffer (x rest : Bytes) (hx : x.length = n) (hsmall : n ≤ 65536) :
    Prog.Runs (Holds content) (readBuffer n) ⟨x ++ rest, size⟩ (.ok (some x, ⟨rest, size⟩)) :=
  runs_readBytes_small x rest hx hsmall

section

variable [Host]

theorem runs_readShort {size : Nat} (x rest : Bytes) (hx : x.length = 2) :
    Prog.Runs (Holds content) readShort ⟨x ++ rest, size⟩ (.ok (some (shortOf x), ⟨rest, size⟩)) :=
  (runs_readBytes_small x rest hx (by decide)).bind (.pure _)

theorem runs_readInt {size n : Nat} (rest : Bytes) (hn : n < 2 ^ 32) :
    Prog.Runs (Holds content) readInt ⟨beBytes 4 n ++ rest, size⟩
      (.ok (some (int32 n), ⟨rest, size⟩)) := by
  refine (runs_readBytes_small _ rest (length_beBytes 4 n) (by decide)).bind ?_
  rw [intOf_beBytes hn]
  exact .pure _

theorem runs_readInt_end {size : Nat} {rest : Bytes} (hshort : rest.length < 4) :
    Prog.Runs (Holds content) readInt ⟨rest, size⟩ (.ok (none, ⟨rest, size⟩)) :=
  (runs_readBytes_end (by decide) hshort).bind_none

end

theorem runs_readString (x rest : Bytes) (hx : x.length < 2 ^ 31) :
    Prog.Runs (Holds content) (readString x.length) ⟨x ++ rest, size⟩
      (grown x (⟨rest, ·⟩) (grow size x.length)) := by
  exact runs_readBytes x rest hx

theorem readKeyValue_eq {key value : Bytes} (h : key.length + value.length < 2 ^ 31) :
    readKeyValue key.length value.length = readBytes (key ++ value).length >>= fun bytes =>
      pure (bytes.take key.length, bytes.drop key.length) := by
  have hneg : ¬ ((key.length : Int) < 0 ∨ (value.length : Int) < 0) := by omega
  have hsum : (int32 ((key.length : Int) + value.length)).toNat = (key ++ value).length := by
    rw [length_append, ← cast_add, int32_of_lt h, Int.toNat_natCast]
  simp only [readKeyValue, hsum, if_neg hneg, Int.toNat_natCast]

theorem runs_readKeyValue (key value rest : Bytes) (h : key.length + value.length < 2 ^ 31) :
    Prog.Runs (Holds content) (readKeyValue key.length value.length) ⟨key ++ value ++ rest, size⟩
      (grown (key, value) (⟨rest, ·⟩) (grow size (key.length + value.length))) := by
  rw [readKeyValue_eq h]
  rw [← length_append] at h ⊢
  refine grown_map (runs_readBytes (key ++ value) rest h) fun size' => ?_
  rw [take_left, drop_left]
  exact .pure _

theorem runs_readVInt {i : Int} (rest : Bytes) (hlow : -2 ^ 31 ≤ i) (hhigh : i < 2 ^ 31) :
    Prog.Runs (Holds content) readVInt ⟨writeVLong i ++ rest, size⟩
      (.ok (some i, ⟨rest, size⟩)) := by
  by_cases hshort : -112 ≤ i ∧ i ≤ 127
  · have hvalue : charValue (toChar i) = i := charValue_toChar (by omega) hshort.2
    rw [writeVLong, if_pos hshort]
    refine (runs_readByte (toChar i) rest).bind ?_
    rw [hvalue, if_pos (by rw [decodeVIntSize, if_pos hshort.1])]
    exact .pure _
  · obtain ⟨first, bytes, hwrite, hsize, hne, hvalue⟩ := writeVLong_long hshort hlow hhigh
    have hpos := length_pos_iff.mpr hne
    have hlen : bytes.length = (decodeVIntSize (charValue first) - 1).toNat := by omega
    have hsmall : (decodeVIntSize (charValue first) - 1).toNat ≤ 65536 := by
      have hbound := le_charValue first
      unfold decodeVIntSize
      split_ifs <;> omega
    rw [hwrite]
    refine (runs_readByte first (bytes ++ rest)).bind ?_
    rw [if_neg (by omega)]
    refine (runs_readBytes_small bytes rest hlen hsmall).bind ?_
    rw [hvalue]
    exact .pure _

/-! ## Seeking changes the rest -/

theorem runs_seek {size p : Nat} (hp : p ≤ content.length) :
    Prog.Runs (Holds content) (seek p) ⟨rest, size⟩ (.ok (some (), ⟨content.drop p, size⟩)) := by
  apply Prog.Runs.of_ok
  intro d h
  refine ⟨_, by rw [seek, File.seek_set], ?_⟩
  exact { h with
    pos_le := hp
    offset_le := le_rfl
    length_le := zero_le _
    rest_eq := rfl
    suffix := drop_suffix p content
    start := fun _ => rfl }

variable {w : Window}

theorem runs_seek_neg {offset : Int} (hneg : offset < 0) :
    Prog.Runs (Holds content) (seek offset) w (.ok (none, w)) := by
  apply Prog.Runs.of_ok
  intro d h
  exact ⟨d, by rw [seek, File.seek_neg hneg], h⟩

theorem runs_fuel : Prog.Runs (Holds content) (.gets fun d => d.file.data.length + 1 : Input Nat) w
    (.ok (some (content.length + 1), w)) :=
  .gets fun _ h => by rw [h.data_eq]

theorem runs_getFileSize :
    Prog.Runs (Holds content) getFileSize w (.ok (some content.length, w)) := by
  apply Prog.Runs.of_ok
  intro d h
  refine ⟨_, ?_, h⟩
  rw [getFileSize, File.seek_end]
  simp only [File.tell, File.seek_set]
  rw [← h.data_eq]

theorem runs_tell :
    Prog.Runs (Holds content) (.gets tell : Input Int) w
      (.ok (some ((content.length : Int) - w.rest.length), w)) :=
  .gets fun _ h => h.tell_eq

/-! ## Markers -/

/-- What follows the first marker. -/
def behindSync (sync : Bytes) : Bytes → Option Bytes
  | [] => none
  | b :: rest =>
    if sync.isPrefixOf (b :: rest) then some ((b :: rest).drop sync.length)
    else behindSync sync rest

theorem findSyncLoop_spec {sync : Bytes} (hsync : sync ≠ []) (front more : Bytes) :
    (findSyncLoop sync front).1 ≤ front.length ∧
      ((findSyncLoop sync front).2 = true →
        behindSync sync (front ++ more) = some ((front ++ more).drop (findSyncLoop sync front).1)) ∧
      ((findSyncLoop sync front).2 = false →
        (findSyncLoop sync front).1 = front.length + 1 - sync.length ∧
        behindSync sync (front ++ more) =
          behindSync sync ((front ++ more).drop (findSyncLoop sync front).1)) := by
  have hpos := length_pos_iff.mpr hsync
  induction front with
  | nil =>
    have hfalse : sync.isEmpty = false := isEmpty_eq_false_iff.mpr hsync
    simp only [findSyncLoop, hfalse]
    refine ⟨le_rfl, Bool.noConfusion, fun _ => ⟨?_, rfl⟩⟩
    rw [length_nil]
    omega
  | cons b front ih =>
    obtain ⟨hle, hfound, hnot⟩ := ih
    rw [findSyncLoop, length_cons]
    by_cases hfits : sync.length ≤ front.length + 1
    · rw [if_pos hfits]
      by_cases hfront : sync.isPrefixOf (b :: front) = true
      · have hpre := isPrefixOf_iff_prefix.mp hfront
        have hmore : sync.isPrefixOf (b :: front ++ more) = true :=
          isPrefixOf_iff_prefix.mpr (hpre.trans (prefix_append _ _))
        rw [if_pos hfront]
        refine ⟨hfits, fun _ => ?_, Bool.noConfusion⟩
        rw [cons_append] at hmore ⊢
        rw [behindSync, if_pos hmore]
      · have hmore : ¬ sync.isPrefixOf (b :: front ++ more) = true := by
          refine mt (fun h => ?_) hfront
          have hpre := isPrefixOf_iff_prefix.mp h
          exact isPrefixOf_iff_prefix.mpr
            (prefix_of_prefix_length_le hpre (prefix_append _ _) hfits)
        have hstep : behindSync sync (b :: front ++ more) = behindSync sync (front ++ more) := by
          rw [cons_append] at hmore ⊢
          rw [behindSync, if_neg hmore]
        rw [if_neg hfront, hstep]
        refine ⟨by omega, hfound, fun h => ?_⟩
        obtain ⟨hskip, heq⟩ := hnot h
        exact ⟨by omega, heq⟩
    · rw [if_neg hfits]
      exact ⟨zero_le _, Bool.noConfusion, fun _ => ⟨by omega, rfl⟩⟩

theorem behindSync_some {sync rest rest' : Bytes} (h : behindSync sync rest = some rest') :
    ∃ pre, rest = pre ++ sync ++ rest' := by
  induction rest with
  | nil => cases h
  | cons b rest ih =>
    rw [behindSync] at h
    split_ifs at h with hfront
    · obtain ⟨post, hpost⟩ := isPrefixOf_iff_prefix.mp hfront
      rw [← hpost, drop_left] at h
      cases h
      exact ⟨[], hpost.symm⟩
    · obtain ⟨pre, rfl⟩ := ih h
      exact ⟨b :: pre, rfl⟩

/-- The first marker is found at or before any other. -/
theorem behindSync_append {sync : Bytes} (hsync : sync ≠ []) (pre post : Bytes) :
    ∃ rest', behindSync sync (pre ++ sync ++ post) = some rest' ∧ post.length ≤ rest'.length := by
  induction pre with
  | nil =>
    obtain ⟨c, sync', rfl⟩ := exists_cons_of_ne_nil hsync
    have hfront : (c :: sync').isPrefixOf (c :: (sync' ++ post)) = true :=
      isPrefixOf_iff_prefix.mpr (prefix_append (c :: sync') post)
    refine ⟨post, ?_, le_rfl⟩
    rw [nil_append, cons_append, behindSync, if_pos hfront, ← cons_append, drop_left]
  | cons b pre ih =>
    rw [cons_append, cons_append, behindSync]
    split_ifs with hfront
    · refine ⟨_, rfl, ?_⟩
      rw [← cons_append, length_drop]
      simp only [length_append, length_cons]
      omega
    · exact ih

/-- A marker at or behind the place `p` is found. -/
theorem exists_behindSync {sync pre : Bytes} (hsync : sync ≠ []) {p : Nat} (hp : p ≤ pre.length)
    (post : Bytes) : ∃ rest, behindSync sync ((pre ++ sync ++ post).drop p) = some rest ∧
      post.length ≤ rest.length := by
  rw [append_assoc, drop_append_of_le_length hp, ← append_assoc]
  exact behindSync_append hsync _ post

theorem append_of_behindSync {sync rest : Bytes} {p : Nat} (hp : p ≤ content.length)
    (h : behindSync sync (content.drop p) = some rest) :
    ∃ pre, content = pre ++ sync ++ rest ∧ p ≤ pre.length := by
  obtain ⟨pre, heq⟩ := behindSync_some h
  refine ⟨content.take p ++ pre, ?_, ?_⟩
  · rw [append_assoc, append_assoc, ← append_assoc pre, ← heq, take_append_drop]
  · rw [length_append, length_take]
    omega

end

end DataInputBuffer

end Toft.SeqFile

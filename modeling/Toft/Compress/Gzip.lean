import Mathlib.Data.List.Basic
import Toft.Lib.Word

/-!
# Gzip compression

A `GzipCompression` opens a deflate and an inflate stream with its first calls and keeps them. Both
calls do the same with their stream: they make a buffer that is large enough for a multiple of the
input, run the stream to its end with one call, and fail if it does not end (`Coder.code`). zlib is
known by its contract (`ZStream.Contract`).

A stream is never reset. The calls of an object therefore round trip only if there is at most one of
each kind and the buffer is large enough for it (`round_trip_iff`).
-/

namespace Toft

open Lib Nat List

namespace GzipCompression

/-! ## Streams of zlib -/

/-- A kind of streams of zlib: a new one, if there is memory for it, and what a call with `Z_FINISH`
does with the input and the space for output. It gives whether it returns `Z_STREAM_END`, what it
has written, and the stream behind it. -/
structure ZStream (σ : Type) where
  init : Option σ
  finish : σ → Bytes → Nat → Bool × Bytes × σ
  /-- The stream has come to its end and is not reset. -/
  Finished : σ → Prop

/-- The contract of zlib. `R input output` says that `output` is the whole output for `input`. -/
structure ZStream.Contract {σ : Type} (z : ZStream σ) (R : Bytes → Bytes → Prop) : Prop where
  opens : z.init.isSome
  /-- The call ends a new stream if the whole output fits. -/
  ends : ∀ {s input output space}, z.init = some s → R input output → output.length ≤ space →
    ∃ s', z.Finished s' ∧ z.finish s input space = (true, output, s')
  /-- It does not end it otherwise. -/
  short : ∀ {s input output space}, z.init = some s → R input output → space < output.length →
    (z.finish s input space).1 = false
  /-- A finished stream takes no new data, so that it writes nothing. -/
  closed : ∀ {s}, z.Finished s → ∀ input space, (z.finish s input space).2.1 = []

/-- zlib: `zip text` is the compressed text, which has a header of ten bytes and a trailer of
eight. Behind its end `deflate` returns an error for new data; `inflate` may return `Z_STREAM_END`
again. -/
structure Zlib (δ ι : Type) where
  deflate : ZStream δ
  inflate : ZStream ι
  zip : Bytes → Bytes
  zip_length : ∀ text, 18 ≤ (zip text).length
  deflates : deflate.Contract fun text zipped => zipped = zip text
  inflates : inflate.Contract fun zipped text => zipped = zip text
  deflate_refuses : ∀ {s}, deflate.Finished s → ∀ input space, input ≠ [] →
    (deflate.finish s input space).1 = false

/-! ## One stream and its buffer -/

def maxBufferSize : Nat := 256 * 1024

/-- A stream of the object, which is opened by the first call that needs it, and the size of its
buffer. -/
structure Coder (σ : Type) where
  stream : Option σ := none
  bufferSize : Nat := 0

variable {σ δ ι : Type}

namespace Coder

/-- `CheckDeflateStream` and `CheckInflateStream`. -/
def check (z : ZStream σ) (c : Coder σ) : Option σ :=
  match c.stream with
  | some s => some s
  | none => z.init

def grow (c : Coder σ) (size : Nat) : Nat :=
  if c.bufferSize < size then size else c.bufferSize

/-- The common body of `DoCompress` and `DoUncompress`, with `factor` for the size of the buffer:
`*out`, or `none` if it returns false and `*out` stays. -/
def code (z : ZStream σ) (factor : Nat) (c : Coder σ) (str : Bytes) : Option Bytes × Coder σ :=
  if str.length = 0 then (some [], c)
  else if maxBufferSize < str.length then (none, c)
  else
    match c.check z with
    | none => (none, c)
    | some s =>
      let bufferSize := c.grow (str.length * factor)
      let (streamEnd, written, s') := z.finish s str bufferSize
      (if streamEnd then some written else none, ⟨some s', bufferSize⟩)

section

variable {z : ZStream σ} {R : Bytes → Bytes → Prop} {str output : Bytes} (factor : Nat)

theorem code_of_check {c : Coder σ} {s : σ} (hcheck : c.check z = some s) (hne : str ≠ [])
    (hmax : str.length ≤ maxBufferSize) :
    c.code z factor str =
      (if (z.finish s str (c.grow (str.length * factor))).1
          then some (z.finish s str (c.grow (str.length * factor))).2.1 else none,
        ⟨some (z.finish s str (c.grow (str.length * factor))).2.2,
          c.grow (str.length * factor)⟩) := by
  have hlength : ¬ str.length = 0 := mt length_eq_zero_iff.mp hne
  rw [code, if_neg hlength, if_neg (not_lt.mpr hmax), hcheck]

theorem grow_new (size : Nat) : ({} : Coder σ).grow size = size := by
  show (if 0 < size then size else 0) = size
  split <;> omega

section

variable (hz : z.Contract R) (hR : R str output) (hne : str ≠ [])
  (hmax : str.length ≤ maxBufferSize)
include hz hR hne hmax

theorem code_new (hfits : output.length ≤ str.length * factor) :
    ∃ s, z.Finished s ∧
      ({} : Coder σ).code z factor str = (some output, ⟨some s, str.length * factor⟩) := by
  obtain ⟨s₀, hinit⟩ := Option.isSome_iff_exists.mp hz.opens
  obtain ⟨s, hfinished, hfinish⟩ := hz.ends hinit hR hfits
  refine ⟨s, hfinished, ?_⟩
  rw [code_of_check factor (c := {}) hinit hne hmax, grow_new, hfinish]
  rfl

theorem code_new_short (hshort : str.length * factor < output.length) :
    (({} : Coder σ).code z factor str).1 = none := by
  obtain ⟨s₀, hinit⟩ := Option.isSome_iff_exists.mp hz.opens
  rw [code_of_check factor (c := {}) hinit hne hmax, grow_new, hz.short hinit hR hshort]
  rfl

end

/-- Behind the end of the stream no call gives any output. -/
theorem code_finished (hz : z.Contract R) {s : σ} (hfinished : z.Finished s) (hne : str ≠ [])
    (hmax : str.length ≤ maxBufferSize) (size : Nat) (houtput : output ≠ []) :
    ((⟨some s, size⟩ : Coder σ).code z factor str).1 ≠ some output := by
  rw [code_of_check factor (c := ⟨some s, size⟩) rfl hne hmax, hz.closed hfinished]
  intro h
  split at h
  · exact houtput (Option.some.inj h).symm
  · cases h

end

end Coder

end GzipCompression

/-! ## The object -/

/-- The states of the two directions. -/
structure GzipCompression (δ ι : Type) where
  deflate : GzipCompression.Coder δ := {}
  inflate : GzipCompression.Coder ι := {}

namespace GzipCompression

variable {δ ι : Type}

def compress (lib : Zlib δ ι) (g : GzipCompression δ ι) (str : Bytes) :
    Option Bytes × GzipCompression δ ι :=
  let (out, deflate) := g.deflate.code lib.deflate 1 str
  (out, { g with deflate })

def uncompress (lib : Zlib δ ι) (g : GzipCompression δ ι) (str : Bytes) :
    Option Bytes × GzipCompression δ ι :=
  let (out, inflate) := g.inflate.code lib.inflate 3 str
  (out, { g with inflate })

/-- A call: `Compress` of a text, or `Uncompress` of what the `i`-th `Compress` gave. -/
inductive Op where
  | compress (text : Bytes)
  | uncompress (i : Nat)

/-- The calls make sense behind `n` calls of `Compress`: the texts have 1 to 256 KiB, and only what
was compressed is uncompressed. -/
def Valid : Nat → List Op → Prop
  | _, [] => True
  | n, .compress text :: ops => text ≠ [] ∧ text.length ≤ maxBufferSize ∧ Valid (n + 1) ops
  | n, .uncompress i :: ops => i < n ∧ Valid n ops

/-- Every `Compress` of the calls returns true and every `Uncompress` returns true with the text;
`pairs` are the texts that were compressed before, each with what `Compress` gave. -/
def RoundTrips (lib : Zlib δ ι) : GzipCompression δ ι → List (Bytes × Bytes) → List Op → Prop
  | _, _, [] => True
  | g, pairs, .compress text :: ops =>
    ∃ out, (g.compress lib text).1 = some out ∧
      RoundTrips lib (g.compress lib text).2 (pairs ++ [(text, out)]) ops
  | g, pairs, .uncompress i :: ops =>
    ∀ pair ∈ pairs[i]?, (g.uncompress lib pair.2).1 = some pair.1 ∧
      RoundTrips lib (g.uncompress lib pair.2).2 pairs ops

section

variable (lib : Zlib δ ι) {text : Bytes}

theorem zip_ne_nil (text : Bytes) : lib.zip text ≠ [] := by
  have := lib.zip_length text
  rintro hnil
  rw [hnil] at this
  cases this

theorem compress_new (hne : text ≠ []) (hmax : text.length ≤ maxBufferSize)
    (hfits : (lib.zip text).length ≤ text.length) (inflate : Coder ι) :
    ∃ s, lib.deflate.Finished s ∧
      compress lib ⟨{}, inflate⟩ text =
        (some (lib.zip text), ⟨⟨some s, text.length⟩, inflate⟩) := by
  obtain ⟨s, hfinished, hcode⟩ := Coder.code_new 1 lib.deflates rfl hne hmax (by omega)
  rw [mul_one] at hcode
  refine ⟨s, hfinished, ?_⟩
  rw [compress, hcode]

theorem compress_new_short (hne : text ≠ []) (hmax : text.length ≤ maxBufferSize)
    (hshort : text.length < (lib.zip text).length) (inflate : Coder ι) :
    (compress lib ⟨{}, inflate⟩ text).1 = none :=
  Coder.code_new_short 1 lib.deflates rfl hne hmax (by omega)

theorem compress_finished {s : δ} (hfinished : lib.deflate.Finished s) (hne : text ≠ [])
    (hmax : text.length ≤ maxBufferSize) (size : Nat) (inflate : Coder ι) :
    (compress lib ⟨⟨some s, size⟩, inflate⟩ text).1 = none := by
  show ((⟨some s, size⟩ : Coder δ).code lib.deflate 1 text).1 = none
  rw [Coder.code_of_check 1 rfl hne hmax, lib.deflate_refuses hfinished _ _ hne]
  rfl

theorem uncompress_new (hmax : (lib.zip text).length ≤ maxBufferSize)
    (hfits : text.length ≤ (lib.zip text).length * 3) (deflate : Coder δ) :
    ∃ s size, lib.inflate.Finished s ∧
      uncompress lib ⟨deflate, {}⟩ (lib.zip text) = (some text, ⟨deflate, ⟨some s, size⟩⟩) := by
  obtain ⟨s, hfinished, hcode⟩ := Coder.code_new 3 lib.inflates rfl (zip_ne_nil lib text) hmax hfits
  refine ⟨s, (lib.zip text).length * 3, hfinished, ?_⟩
  rw [uncompress, hcode]

theorem uncompress_new_short (hmax : (lib.zip text).length ≤ maxBufferSize)
    (hshort : (lib.zip text).length * 3 < text.length) (deflate : Coder δ) :
    (uncompress lib ⟨deflate, {}⟩ (lib.zip text)).1 = none :=
  Coder.code_new_short 3 lib.inflates rfl (zip_ne_nil lib text) hmax hshort

/-- A second `Uncompress` behind one that returned true does not give the text. -/
theorem uncompress_finished {s : ι} (hfinished : lib.inflate.Finished s) (hne : text ≠ [])
    (hmax : (lib.zip text).length ≤ maxBufferSize) (size : Nat) (deflate : Coder δ) :
    (uncompress lib ⟨deflate, ⟨some s, size⟩⟩ (lib.zip text)).1 ≠ some text :=
  Coder.code_finished 3 lib.inflates hfinished (zip_ne_nil lib text) hmax size hne

end

/-! ## Round trips -/

/-- The calls that round trip: none, or one `Compress` of a text that does not grow, and behind it
at most one `Uncompress`, of a text that does not shrink to less than a third. -/
inductive Fits (lib : Zlib δ ι) : List Op → Prop where
  | none : Fits lib []
  | compress {text : Bytes} (hfits : (lib.zip text).length ≤ text.length) :
    Fits lib [.compress text]
  | both {text : Bytes} (hfits : (lib.zip text).length ≤ text.length)
    (hthird : text.length ≤ (lib.zip text).length * 3) :
    Fits lib [.compress text, .uncompress 0]

variable {text : Bytes}

/-- Behind one call of each kind no further call round trips. -/
theorem eq_nil_of_roundTrips_finished (lib : Zlib δ ι) {s : δ} {t : ι}
    {size size' : Nat} (hs : lib.deflate.Finished s) (ht : lib.inflate.Finished t)
    (hne : text ≠ []) (hmax : (lib.zip text).length ≤ maxBufferSize) {ops : List Op}
    (hvalid : Valid 1 ops)
    (h : RoundTrips lib ⟨⟨some s, size⟩, ⟨some t, size'⟩⟩ [(text, lib.zip text)] ops) :
    ops = [] := by
  cases ops with
  | nil => rfl
  | cons op ops =>
    cases op with
    | compress text' =>
      obtain ⟨out, hout, -⟩ := h
      rw [compress_finished lib hs hvalid.1 hvalid.2.1] at hout
      cases hout
    | uncompress i =>
      obtain rfl : i = 0 := lt_one_iff.mp hvalid.1
      exact absurd (h _ rfl).1 (uncompress_finished lib ht hne hmax _ _)

theorem roundTrips_compressed_iff (lib : Zlib δ ι) {s : δ} (size : Nat)
    (hs : lib.deflate.Finished s) (hne : text ≠ [])
    (hmax : (lib.zip text).length ≤ maxBufferSize) {ops : List Op} (hvalid : Valid 1 ops) :
    RoundTrips lib ⟨⟨some s, size⟩, {}⟩ [(text, lib.zip text)] ops ↔
      ops = [] ∨ ops = [.uncompress 0] ∧ text.length ≤ (lib.zip text).length * 3 := by
  constructor
  · intro h
    cases ops with
    | nil => exact .inl rfl
    | cons op ops =>
      cases op with
      | compress text' =>
        obtain ⟨out, hout, -⟩ := h
        rw [compress_finished lib hs hvalid.1 hvalid.2.1] at hout
        cases hout
      | uncompress i =>
        obtain rfl : i = 0 := lt_one_iff.mp hvalid.1
        obtain ⟨hout, hrest⟩ := h _ rfl
        have hthird : text.length ≤ (lib.zip text).length * 3 := by
          by_contra hnot
          rw [uncompress_new_short lib hmax (by omega)] at hout
          cases hout
        obtain ⟨t, size', ht, heq⟩ := uncompress_new lib hmax hthird ⟨some s, size⟩
        rw [heq] at hrest
        rw [eq_nil_of_roundTrips_finished lib hs ht hne hmax hvalid.2 hrest]
        exact .inr ⟨rfl, hthird⟩
  · rintro (rfl | ⟨rfl, hthird⟩)
    · trivial
    · rintro pair ⟨⟩
      obtain ⟨t, size', -, heq⟩ := uncompress_new lib hmax hthird ⟨some s, size⟩
      rw [heq]
      exact ⟨rfl, trivial⟩

/-- The calls of a new object round trip exactly if there is at most one of each kind and its output
fits into the buffer that the object makes for it. -/
theorem round_trip_iff (lib : Zlib δ ι) {ops : List Op} (hvalid : Valid 0 ops) :
    RoundTrips lib {} [] ops ↔ Fits lib ops := by
  cases ops with
  | nil => exact iff_of_true trivial .none
  | cons op ops =>
    cases op with
    | uncompress i => exact absurd hvalid.1 (not_lt_zero i)
    | compress text =>
      obtain ⟨hne, hmax, hrest⟩ := hvalid
      by_cases hfits : (lib.zip text).length ≤ text.length
      · obtain ⟨s, hs, heq⟩ := compress_new lib hne hmax hfits {}
        have hiff := roundTrips_compressed_iff lib text.length hs hne (hfits.trans hmax) hrest
        constructor
        · rintro ⟨out, hout, h⟩
          rw [heq] at hout h
          cases hout
          rcases hiff.mp h with rfl | ⟨rfl, hthird⟩
          · exact .compress hfits
          · exact .both hfits hthird
        · intro h
          refine ⟨lib.zip text, by rw [heq], ?_⟩
          rw [heq]
          apply hiff.mpr
          cases h with
          | compress => exact .inl rfl
          | both _ hthird => exact .inr ⟨rfl, hthird⟩
      · constructor
        · rintro ⟨out, hout, -⟩
          rw [compress_new_short lib hne hmax (by omega)] at hout
          cases hout
        · intro h
          cases h <;> contradiction

/-! ## An instance of zlib -/

/-- The streams of a function that gives the whole output at once. `again` is what a call returns
behind the end of the stream. -/
def ZStream.ofCodec (f : Bytes → Option Bytes) (again : Bool) : ZStream Bool where
  init := some false
  finish ended input space :=
    if ended then (again, [], true)
    else
      match f input with
      | none => (false, [], false)
      | some out =>
        if out.length ≤ space then (true, out, true) else (false, out.take space, false)
  Finished ended := ended = true

theorem ZStream.ofCodec_contract {f : Bytes → Option Bytes} {again : Bool}
    {R : Bytes → Bytes → Prop} (hR : ∀ {input output}, R input output → f input = some output) :
    (ZStream.ofCodec f again).Contract R where
  opens := rfl
  ends := by
    rintro s input output space ⟨⟩ h hfits
    refine ⟨true, rfl, ?_⟩
    simp only [ofCodec, hR h, if_pos hfits, Bool.false_eq_true, if_false]
  short := by
    rintro s input output space ⟨⟩ h hshort
    simp only [ofCodec, hR h, if_neg (not_le.mpr hshort), Bool.false_eq_true, if_false]
  closed := by
    rintro s rfl input space
    rfl

/-- A text of one byte that is repeated is written as that byte and its number, any other one as it
is. The header and the trailer are left empty. -/
def zipRuns (text : Bytes) : Bytes :=
  replicate 18 0 ++
    if text.length < 256 ^ 4 ∧ text = replicate text.length (text.headD 0) then
      1 :: text.headD 0 :: leBytes 4 text.length
    else 0 :: text

def unzipRuns (zipped : Bytes) : Option Bytes :=
  match zipped.drop 18 with
  | 0 :: text => some text
  | 1 :: byte :: number => some (replicate (leNat number) byte)
  | _ => none

theorem unzipRuns_zipRuns (text : Bytes) : unzipRuns (zipRuns text) = some text := by
  unfold unzipRuns zipRuns
  split_ifs with hrun
  · show some (replicate (leNat (leBytes 4 text.length)) (text.headD 0)) = some text
    rw [leNat_leBytes_of_lt hrun.1, ← hrun.2]
  · rfl

def runs : Zlib Bool Bool where
  deflate := .ofCodec (fun text => some (zipRuns text)) false
  inflate := .ofCodec unzipRuns true
  zip := zipRuns
  zip_length text := by
    rw [zipRuns, length_append]
    exact le_add_right 18 _
  deflates := ZStream.ofCodec_contract fun h => by rw [h]
  inflates := ZStream.ofCodec_contract fun h => by rw [h, unzipRuns_zipRuns]
  deflate_refuses := by
    rintro s rfl input space -
    rfl

/-- One letter: the buffer has one byte. A run of a hundred letters: it is compressed to a fourth
of its length, and the buffer of `Uncompress` has 72 bytes. A run of thirty letters that is
compressed twice: the stream has come to its end. -/
theorem not_round_trip :
    ¬ RoundTrips runs {} [] [.compress (replicate 1 97)] ∧
      ¬ RoundTrips runs {} [] [.compress (replicate 100 97), .uncompress 0] ∧
      ¬ RoundTrips runs {} []
        [.compress (replicate 30 97), .compress (replicate 30 97)] := by
  refine ⟨?_, ?_, ?_⟩
  · rintro ⟨out, hout, -⟩
    cases hout
  · rintro ⟨out, hout, h⟩
    cases hout
    exact absurd (h _ rfl).1 (by decide)
  · rintro ⟨out, -, out', hout', -⟩
    cases hout'

/-- A run of thirty letters is compressed to 24 bytes. -/
theorem round_trip_thirty :
    Valid 0 [.compress (replicate 30 97), .uncompress 0] ∧
      RoundTrips runs {} [] [.compress (replicate 30 97), .uncompress 0] := by
  have hvalid : Valid 0 [.compress (replicate 30 97), .uncompress 0] :=
    ⟨by decide, by decide, by decide, trivial⟩
  exact ⟨hvalid, (round_trip_iff runs hvalid).mpr (.both (by decide) (by decide))⟩

end GzipCompression

end Toft

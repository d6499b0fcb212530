import Toft.Storage.SeqFile.Header

/-!
# The versions of sequence files

A file of the format is read back exactly if the reader can read the lengths of its class names and
the buffer can grow to its texts and records (`readBack_iff`). On a little-endian host `ReadShort`
reads no length but zero (`parseUTF8_little`), so that the versions up to 4 are read only if both
class names are empty.
-/

namespace Toft.SeqFile

open Lib DataInputBuffer LocalSequenceFileReader Prog Host List

theorem length_readBytes {n : Nat} {d d' : DataInputBuffer} {x : Bytes}
    (h : readBytes n d = .ok (some x, d')) : x.length ≤ n := by
  obtain ⟨_, d₁, -, h⟩ := exists_of_bind h
  cases h
  exact length_take_le n d₁.left

/-! ## The names stay as they were loaded -/

theorem eq_of_onInput {α : Type} {m : Input α} {r r' : LocalSequenceFileReader} {a : Option α}
    (h : onInput m r = .ok (a, r')) : ∃ d, m r.input = .ok (a, d) ∧ r' = { r with input := d } := by
  unfold onInput zoom at h
  split at h
  · cases h
  · cases h
    exact ⟨_, by assumption, rfl⟩

def classNames (r : LocalSequenceFileReader) : Bytes × Bytes :=
  (r.header.keyClassName, r.header.valueClassName)

theorem keeps_onInput {α : Type} (m : Input α) : Keeps classNames (onInput m) := by
  apply Keeps.zoom
  intro input r
  rfl

theorem keeps_update {f : Header → Header}
    (hf : ∀ h, (f h).keyClassName = h.keyClassName ∧ (f h).valueClassName = h.valueClassName) :
    Keeps classNames (update f) :=
  .modify fun r => Prod.ext (hf r.header).1 (hf r.header).2

theorem keeps_loadFlag (last : Int) : Keeps classNames (loadFlag last) := by
  refine (Keeps.gets _).bind fun h => ?_
  split_ifs
  · exact (keeps_onInput _).bind fun _ => .pure _
  · exact .pure _

theorem keeps_loadCompressInfo : Keeps classNames loadCompressInfo := by
  refine (keeps_loadFlag 2).bind fun decompress => ?_
  refine Keeps.bind (keeps_update fun _ => ⟨rfl, rfl⟩) fun _ => ?_
  refine (keeps_loadFlag 4).bind fun blockDecompress => ?_
  refine Keeps.bind (keeps_update fun _ => ⟨rfl, rfl⟩) fun _ => ?_
  split_ifs
  · exact .fail
  · exact .fail
  · exact .pure _

theorem keeps_loadSync : Keeps classNames loadSync := by
  refine (Keeps.gets _).bind fun h => ?_
  split_ifs
  · exact .pure _
  · exact (keeps_onInput _).bind fun _ => keeps_update fun _ => ⟨rfl, rfl⟩

section

variable [Host]

/-- A new reader on the file loads the header with the class names of the layout, and its calls then
return the records of the layout, in order, and false behind them. -/
def Layout.ReadBack (l : Layout) (file : File) : Prop :=
  ∃ r, init (new file) = .ok (some (), r) ∧
    r.header.keyClassName = l.keyClassName ∧ r.header.valueClassName = l.valueClassName ∧
    ∀ n, ∃ r', readRecords (l.items.length + n) r =
      .ok (some (l.items.map (some ·.record) ++ replicate n none), r')

/-! ## Short lengths on a little-endian host -/

/-- A string whose length `ReadShort` has read is empty. -/
theorem readString_short_little (hlittle : isBigEndian = false) {d d₁ d₂ : DataInputBuffer}
    {n : Int} {x : Bytes} (hshort : readShort d = .ok (some n, d₁))
    (hstring : readString n d₁ = .ok (some x, d₂)) : x = [] := by
  obtain ⟨bytes, _, -, hvalue⟩ := exists_of_bind hshort
  rw [(eq_of_pure hvalue).1] at hstring
  rcases shortOf_little hlittle bytes with hzero | hneg
  · have hread : readString 0 = readBytes 0 := if_neg (by decide)
    rw [hzero] at hstring
    exact length_eq_zero_iff.mp (Nat.le_zero.mp (length_readBytes hstring))
  · have hfault : readString (-1) = .fault .badLength := if_pos (by decide)
    rw [hneg] at hstring
    cases hstring

theorem parseUTF8_little (hlittle : isBigEndian = false) {d d' : DataInputBuffer}
    {names : Bytes × Bytes} (h : parseUTF8KeyValueClassName d = .ok (some names, d')) :
    names = ([], []) := by
  obtain ⟨n, d₁, hshort, h⟩ := exists_of_bind h
  obtain ⟨key, d₂, hkey, h⟩ := exists_of_bind h
  obtain ⟨m, d₃, hshort', h⟩ := exists_of_bind h
  obtain ⟨value, d₄, hvalue, h⟩ := exists_of_bind h
  cases h
  rw [readString_short_little hlittle hshort hkey, readString_short_little hlittle hshort' hvalue]

theorem keeps_loadMetadata : Keeps classNames loadMetadata := by
  refine (Keeps.gets _).bind fun h => ?_
  split_ifs
  · exact .pure _
  · exact keeps_onInput _

end

/-! ## Reading back -/

section

variable [Host] {l : Layout} {file : File}

/-- A header of an old version on a little-endian host: both names are read as empty. -/
theorem classNames_little (hl : l.Valid) (hlittle : isBigEndian = false)
    (hold : l.version ≤ 4) (hfile : Rel l.bytes (new file) ⟨⟨l.bytes, 65536⟩, {}⟩)
    {r : LocalSequenceFileReader} (h : init (new file) = .ok (some (), r)) :
    classNames r = ([], []) := by
  obtain ⟨_, _, hheader, hinit⟩ := exists_of_bind h
  cases hheader
  obtain ⟨_, r₅, hload, hparsed⟩ := exists_of_bind hinit
  obtain ⟨_, r₁, hcheck, hload⟩ := exists_of_bind hload
  obtain ⟨_, r₂, hnames, hload⟩ := exists_of_bind hload
  obtain ⟨_, r₃, hcompress, hload⟩ := exists_of_bind hload
  obtain ⟨_, r₄, hmetadata, hsync⟩ := exists_of_bind hload
  have hkept : classNames r = classNames r₂ := by
    have hkeeps : Keeps classNames (update fun h => { h with isHeadParsed := true }) :=
      keeps_update fun _ => ⟨rfl, rfl⟩
    rw [hkeeps r₅ _ r hparsed, keeps_loadSync r₄ _ r₅ hsync, keeps_loadMetadata r₃ _ r₄ hmetadata,
      keeps_loadCompressInfo r₂ _ r₃ hcompress]
  rw [hkept]
  -- the reader has the version of the file, so that it reads the names with `ReadShort`
  obtain ⟨r₁', hcheck', hrel⟩ := (runs_checkSequenceFileVersion hl l.body).exists_ok hfile
  obtain rfl : r₁' = r₁ := by
    rw [hcheck] at hcheck'
    cases hcheck'
    rfl
  have hversion : r₁'.header.version ≤ 4 := by
    rw [hrel.header_eq]
    show (l.version : Int) ≤ 4
    omega
  obtain ⟨_, _, hheader, hnames⟩ := exists_of_bind hnames
  cases hheader
  obtain ⟨names, r₆, hparse, hupdate⟩ := exists_of_bind hnames
  rw [if_pos hversion] at hparse
  obtain ⟨d, hread, rfl⟩ := eq_of_onInput hparse
  cases hupdate
  exact parseUTF8_little hlittle hread

theorem namesReadable_of_readBack (hl : l.Valid)
    (hfile : Rel l.bytes (new file) ⟨⟨l.bytes, 65536⟩, {}⟩) (h : l.ReadBack file) :
    l.NamesReadable := by
  obtain ⟨r, hinit, hkey, hvalue, -⟩ := h
  cases hbig : isBigEndian with
  | true => exact .inl hbig
  | false =>
    by_cases hold : l.version ≤ 4
    · have hnames := classNames_little hl hbig hold hfile hinit
      rw [classNames, hkey, hvalue, Prod.mk.injEq] at hnames
      exact .inr (.inr hnames)
    · exact .inr (.inl (by omega))

theorem readBack_iff_growAll (hl : l.Valid) (hnames : l.NamesReadable)
    (hfile : Rel l.bytes (new file) ⟨⟨l.bytes, 65536⟩, {}⟩) :
    l.ReadBack file ↔ growAll 65536 (l.textLengths ++ l.items.map Item.size) ≠ none := by
  have hruns := runs_init_new hl hnames l.body
  rw [growAll_append]
  cases htexts : growAll 65536 l.textLengths with
  | none =>
    rw [htexts] at hruns
    have hfault := hruns.eq_error hfile
    refine iff_of_false ?_ (not_not.mpr rfl)
    rintro ⟨r, hinit, -⟩
    rw [hfault] at hinit
    cases hinit
  | some size =>
    rw [htexts] at hruns
    obtain ⟨r, hinit, hrel⟩ := hruns.exists_ok hfile
    have hread := fun n => @runs_readRecords _ l.bytes _ _ size hl.parsed _ hl.size_item n
    rw [Option.bind_some]
    cases hitems : growAll size (l.items.map Item.size) with
    | none =>
      refine iff_of_false ?_ (not_not.mpr rfl)
      rintro ⟨r', hinit', -, -, hrecords⟩
      rw [hinit] at hinit'
      cases hinit'
      obtain ⟨r'', heq⟩ := hrecords 0
      rw [hitems] at hread
      rw [(hread 0).eq_error hrel] at heq
      cases heq
    | some size' =>
      refine iff_of_true ⟨r, hinit, ?_, ?_, fun n => ?_⟩ (Option.some_ne_none _)
      · rw [hrel.header_eq]
        rfl
      · rw [hrel.header_eq]
        rfl
      · rw [hitems] at hread
        obtain ⟨r', heq, -⟩ := (hread n).exists_ok hrel
        exact ⟨r', heq⟩

/-- A file of the format is read back exactly if `ReadShort` is not used for a length that it cannot
read, and the buffer can grow to every piece. -/
theorem readBack_iff (hl : l.Valid) (hdata : file.data = l.bytes) (hpos : file.pos = 0)
    (hmoves : ∀ t, (file.io t).Moves) :
    l.ReadBack file ↔ l.NamesReadable ∧
      growAll 65536 (l.textLengths ++ l.items.map Item.size) ≠ none := by
  have hfile := rel_new hdata hpos hmoves
  constructor
  · intro h
    have hnames := namesReadable_of_readBack hl hfile h
    exact ⟨hnames, (readBack_iff_growAll hl hnames hfile).mp h⟩
  · rintro ⟨hnames, hgrow⟩
    exact (readBack_iff_growAll hl hnames hfile).mpr hgrow

end

/-! ## Files that are read and files that are not -/

def smallLayout (version : Nat) : Layout where
  version := version
  keyClassName := [75]
  valueClassName := [86]
  sync := replicate 16 170
  items := [⟨true, [1], [2]⟩]

def twoValues (m n : Nat) : Layout where
  version := 6
  keyClassName := []
  valueClassName := []
  sync := replicate 16 170
  items := [⟨false, [], replicate m 0⟩, ⟨false, [], replicate n 0⟩]

theorem smallLayout_valid {version : Nat} (htwo : 2 ≤ version) (hsix : version ≤ 6) :
    (smallLayout version).Valid where
  two_le_version := htwo
  version_le := hsix
  length_keyClassName := by simp [smallLayout]
  length_valueClassName := by simp [smallLayout]
  length_metadata := by simp [smallLayout]
  length_text := by simp [smallLayout]
  length_sync := by simp [smallLayout]
  size_item := by simp [smallLayout, Item.size]

theorem twoValues_valid {m n : Nat} (hm : m < 2 ^ 31) (hn : n < 2 ^ 31) :
    (twoValues m n).Valid where
  two_le_version := by simp [twoValues]
  version_le := by simp [twoValues]
  length_keyClassName := by simp [twoValues]
  length_valueClassName := by simp [twoValues]
  length_metadata := by simp [twoValues]
  length_text := by simp [twoValues]
  length_sync := by simp [twoValues]
  size_item := by simpa [twoValues, Item.size] using ⟨hm, hn⟩

/-- Values for which the buffer cannot grow. -/
theorem not_readBack_twoValues [Host] {m n : Nat} (hm : m < 2 ^ 31) (hn : n < 2 ^ 31)
    (hgrow : growAll 65536 [m, n] = none) :
    ¬ (twoValues m n).ReadBack { data := (twoValues m n).bytes } := by
  have hversion : 5 ≤ (twoValues m n).version := by simp [twoValues]
  have hlengths : (twoValues m n).textLengths ++ (twoValues m n).items.map Item.size = [m, n] := by
    simp [twoValues, Layout.textLengths, Item.size]
  have hiff := readBack_iff_growAll (twoValues_valid hm hn) (.inr (.inl hversion))
    (@rel_new { data := (twoValues m n).bytes } _ rfl rfl fun _ => trivial)
  rw [hiff, hlengths]
  exact not_not.mpr hgrow

/-- A file of version 4 with class names, on a little-endian host; and a file of version 6 for whose
second record the buffer has to grow from 1 GiB. -/
theorem not_readBack :
    ¬ @Layout.ReadBack little (smallLayout 4) { data := (smallLayout 4).bytes } ∧
      ¬ @Layout.ReadBack little (twoValues (2 ^ 30) (2 ^ 30 + 1))
        { data := (twoValues (2 ^ 30) (2 ^ 30 + 1)).bytes } := by
  refine ⟨fun h => ?_, @not_readBack_twoValues little _ _ (by norm_num) (by norm_num) ?_⟩
  · have hfile := @rel_new { data := (smallLayout 4).bytes } _ rfl rfl fun _ => trivial
    have hnames := @namesReadable_of_readBack little _ _
      (smallLayout_valid (by decide) (by decide)) hfile h
    rcases hnames with hbig | hnew | ⟨hkey, -⟩
    · cases hbig
    · exact absurd hnew (by decide)
    · cases hkey
  · decide

/-- A file of version 5, read byte by byte. -/
theorem readBack_five : (smallLayout 5).Valid ∧ @Layout.ReadBack little (smallLayout 5)
      { data := (smallLayout 5).bytes, io := fun _ => .short 1 } := by
  have hvalid := @smallLayout_valid 5 (by decide) (by decide)
  have hiff := @readBack_iff little _
    { data := (smallLayout 5).bytes, io := fun _ => .short 1 } hvalid rfl rfl fun _ => Nat.one_pos
  exact ⟨hvalid, hiff.mpr ⟨.inr (.inl (by decide)), by decide⟩⟩

end Toft.SeqFile

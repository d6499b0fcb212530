import Toft.Storage.SSTable.ReadModes
import Toft.Storage.SSTable.Reader.View

/-!
# Opening table files

Both read modes open a table file with a reader that serves the table of the file. They differ in
where `Seek` starts: on disk never at a smaller key, in memory exactly if the bisection ends at the
right place.
-/

namespace Toft

open Lib Hfile SSTableReader List Schedule TableFile

/-- The file loads as `impl`, which holds the table. The blocks are so few that the search in the
index does not leave the range of an `int`. -/
structure LoadsTable [SSTableEnv] (fs : FileSystem) (path : Bytes) (impl : Impl) (t : Table) :
    Prop where
  loads : Impl.loadFile fs path allFull = .ok (some impl)
  holds : impl.Holds t.blocks
  indexCount : impl.fileTrailer.dataIndexCount = t.blocks.length
  entryCount : impl.entryCount = t.records.length
  blocks : t.blocks.length ≤ 2 ^ 30
  records : t.records.length < 2 ^ 31

/-- What opening a path gives: no reader, or a table. -/
def Opens [SSTableEnv] (fs : FileSystem) (path : Bytes) : Option (Impl × Table) → Prop
  | none => Impl.loadFile fs path allFull = .ok none
  | some (impl, t) => LoadsTable fs path impl t

/-- The bisection of the in-memory reader does not end at a smaller key. -/
def Table.BisectsTo (t : Table) (k : Bytes) : Prop :=
  k ∈ t.keySet ∨ (∀ x ∈ t.keySet, x < k) ∨
    endsLeft (t.keySet.card + 1) (t.keySet.filter (· < k)).card = true

/-- The reader has the records of the table, and `starts` says whether `Seek` starts at no smaller
key. -/
def Matches {ρ : Type} [SSTableReader ρ] (starts : Table → Bytes → Prop) (v : TableView ρ)
    (t : Table) : Prop :=
  v.records = t.records ∧ ∀ k, (∀ x ∈ (v.recordsFrom k).head?, k ≤ x.1) ↔ starts t k

/-- A read mode opens each table file with a reader that serves the table. -/
def Serving [SSTableEnv] (ρ : Type) [OfFile ρ] (starts : Table → Bytes → Prop) : Prop :=
  ∀ ⦃fs path impl t⦄, LoadsTable fs path impl t →
    ∃ (reader : ρ) (v : TableView ρ) (pos : Nat),
      openFile ρ fs path allFull = .ok (some reader) ∧
      OfFile.impl reader = impl.atPos pos ∧ v.serves reader ∧ Matches starts v t

section Modes

variable [SSTableEnv] {fs : FileSystem} {path : Bytes} {impl : Impl} {t : Table}

theorem LoadsTable.openFile_onDisk (h : LoadsTable fs path impl t) :
    ∃ r, openFile OnDiskSSTableReader fs path allFull = .ok (some r) ∧ r.impl = impl ∧
      r.Reads t.blocks := by
  refine ⟨{ impl := impl }, ?_, rfl, .init h.holds⟩
  rw [openFile, h.loads]
  rfl

theorem LoadsTable.openFile_inMemory (h : LoadsTable fs path impl t) :
    ∃ r pos, openFile InMemorySSTableReader fs path allFull = .ok (some r) ∧
      r.impl = impl.atPos pos ∧ r.Reads t.records := by
  obtain ⟨r, pos, hinit, himpl, hreads⟩ := InMemorySSTableReader.init_spec h.holds h.indexCount
  have hinit : OfFile.init impl = .ok r := hinit
  refine ⟨r, pos, ?_, himpl, hreads⟩
  rw [openFile, h.loads, ok_bind]
  simp only [hinit]
  rfl

theorem OnDiskSSTableReader.serving : Serving OnDiskSSTableReader fun _ _ => True := by
  intro fs path impl t h
  obtain ⟨r, hopen, rfl, hreads⟩ := h.openFile_onDisk
  refine ⟨r, view t h.blocks h.records, r.impl.fileBase.pos, hopen, rfl, hreads, rfl,
    fun k => iff_of_true (fun x hx => ?_) trivial⟩
  have hmem : x ∈ t.records.dropWhile (·.1 < k) := mem_of_mem_head? hx
  have hsorted : SortedBy Prod.fst t.records := t.sorted
  rw [hsorted.dropWhile_eq_filter] at hmem
  simpa using (mem_filter.mp hmem).2

omit [SSTableEnv] in
theorem InMemorySSTableReader.Reads.starts_iff {r : InMemorySSTableReader} {records : List Record}
    (h : r.Reads records) (k : Bytes) :
    (∀ x ∈ (ungroup (r.data.drop (r.place k))).head?, k ≤ x.1) ↔ r.place k = r.rank k := by
  have hrank := r.rank_le k
  have hcases := h.place_cases k
  rcases Nat.lt_or_ge (r.place k) r.data.length with hlt | hge
  · obtain ⟨v, vs, hvs⟩ := exists_cons_of_ne_nil (h.grouped.ne_nil _ (getElem_mem hlt))
    have hhead : (ungroup (r.data.drop (r.place k))).head? = some (r.data[r.place k].1, v) := by
      rw [drop_eq_getElem_cons hlt, ungroup_cons, hvs]
      rfl
    have hle : k ≤ r.data[r.place k].1 ↔ ¬ r.place k < r.rank k := by
      rw [← h.key_lt_iff hlt, Std.not_lt]
    simp only [hhead, Option.mem_some_iff, forall_eq', hle]
    omega
  · rw [drop_eq_nil_of_le hge]
    exact iff_of_true (by simp [ungroup_nil]) (by omega)

theorem InMemorySSTableReader.serving : Serving InMemorySSTableReader Table.BisectsTo := by
  intro fs path impl t h
  obtain ⟨reader, pos, hopen, himpl, hreads⟩ := h.openFile_inMemory
  refine ⟨reader, view t hreads h.records, pos, hopen, himpl, rfl, rfl, fun k => ?_⟩
  exact (hreads.starts_iff k).trans (hreads.place_eq_rank_iff_keySet k)

theorem TableFile.loadsTable (hsnappy : SSTableEnv.snappy.Lossless) {f : TableFile}
    {metas : List Record} (hfits : f.Fits metas) {fs : FileSystem} {path : Bytes}
    (hfile : fs.files path = some f.bytes) {t : Table} (hblocks : f.blocks = t.blocks)
    (hcount : t.blocks.length ≤ 2 ^ 30) :
    ∃ impl, LoadsTable fs path impl t ∧ impl.fileInfo.metaItems = metas := by
  obtain ⟨impl, hload, hholds, htrailer, hmetas⟩ := loadFile_bytes hsnappy hfits hfile
  have hentries := hfits.entries
  rw [hblocks] at hentries
  refine ⟨impl, ⟨hload, hblocks ▸ hholds, ?_, ?_, hcount, hentries⟩, hmetas⟩
  · rw [htrailer, trailer, hblocks]
  · rw [Impl.entryCount, htrailer, trailer, hblocks]
    rfl

end Modes

/-! ## Files with one block -/

def Table.single (first : Record) (rest : List Record) (h : SortedBy Prod.fst (first :: rest)) :
    Table where
  blocks := [⟨first.1, first :: rest⟩]
  ne_nil := cons_ne_nil _ _
  keyed b hb := by
    rw [mem_singleton.mp hb]
    rfl
  sorted := by simpa using h

/-- The file of a table, with the meta data. -/
def Table.file (t : Table) (metas : List Record) : TableFile where
  type := .unCompress
  blocks := t.blocks
  info := { buffer := metas.flatMap fun item => FileInfo.itemBytes item.1 item.2 }
  totalBytes := 0

def twoFiles [SSTableEnv] (f₁ f₂ : TableFile) : FileSystem where
  files path :=
    if path = ascii "1" then some f₁.bytes else if path = ascii "2" then some f₂.bytes else none
  writable _ := true

theorem loadsTable_twoFiles [SSTableEnv] (hsnappy : SSTableEnv.snappy.Lossless) {t₁ t₂ : Table}
    {metas₁ metas₂ : List Record} (h₁ : (t₁.file metas₁).Fits metas₁)
    (h₂ : (t₂.file metas₂).Fits metas₂) (hcount₁ : t₁.blocks.length ≤ 2 ^ 30)
    (hcount₂ : t₂.blocks.length ≤ 2 ^ 30) :
    ∃ impl₁ impl₂,
      LoadsTable (twoFiles (t₁.file metas₁) (t₂.file metas₂)) (ascii "1") impl₁ t₁ ∧
      LoadsTable (twoFiles (t₁.file metas₁) (t₂.file metas₂)) (ascii "2") impl₂ t₂ ∧
      impl₁.fileInfo.metaItems = metas₁ ∧ impl₂.fileInfo.metaItems = metas₂ := by
  let fs := twoFiles (t₁.file metas₁) (t₂.file metas₂)
  have hfile₁ : fs.files (ascii "1") = some (t₁.file metas₁).bytes := rfl
  have hfile₂ : fs.files (ascii "2") = some (t₂.file metas₂).bytes := rfl
  obtain ⟨impl₁, hload₁, hmetas₁⟩ := loadsTable hsnappy h₁ hfile₁ rfl hcount₁
  obtain ⟨impl₂, hload₂, hmetas₂⟩ := loadsTable hsnappy h₂ hfile₂ rfl hcount₂
  exact ⟨impl₁, impl₂, hload₁, hload₂, hmetas₁, hmetas₂⟩

end Toft

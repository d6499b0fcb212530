import Mathlib.Algebra.Order.BigOperators.Group.List
import Mathlib.Data.List.Permutation
import Toft.Storage.SSTable.Writer.Sharding

/-!
# Writing a sharded table and looking up its keys

The shards of a table open as one merged reader, which finds exactly the added keys, if each shard
has an open batch when the writer is flushed (`roundTrips_iff`). A shard that receives no key, or
whose last pair completed a batch, makes `Flush` fail.
-/

namespace Toft

open Lib Hfile SSTableReader UnsortedSSTableWriter CompositedSSTableWriter List Schedule
  ShardingPolicy Nat Option Except

namespace ShardingSSTableWriter

section Run

variable [SSTableEnv]

/-- A run of the writer: `Add` of all pairs, `AddMetaData` of all meta data, and `Flush`. -/
def write (n : Nat) (option : SSTableWriteOption) (pairs metas : List Record) (time : Int64)
    (clock : Nat → Nat → Int64) (fs : FileSystem) (io : Schedule) :
    Except Fault (Bool × FileSystem) := do
  let w ← create n option time clock
  match ← addAll clock io pairs w fs with
  | (false, _, fs) => return (false, fs)
  | (true, w, fs) =>
    let w := metas.foldl (fun w item => w.addMetaData item.1 item.2) w
    let (result, _, fs) ← w.flush fs io
    return (result, fs)

omit [SSTableEnv] in
theorem foldl_addMetaData (w : ShardingSSTableWriter) (metas : List Record) :
    metas.foldl (fun w item => w.addMetaData item.1 item.2) w =
      { w with fileInfoMeta := assignAll w.fileInfoMeta metas } := by
  induction metas generalizing w with
  | nil => rfl
  | cons item metas ih =>
    rw [foldl_cons, ih]
    rfl

def batchesOf (n : Nat) (pairs : List Record) (i : Nat) : Batches :=
  Batches.addAll defaultBatchWriteSize {} (shardPairs n pairs i)

/-- What is assumed of a run: the constructor's checks, the working codec and file system, and sizes
that fit. -/
structure Runs (n : Nat) (option : SSTableWriteOption) (pairs metas : List Record) (time : Int64)
    (fs : FileSystem) : Prop where
  lossless : SSTableEnv.snappy.Lossless
  supported : option.compressType.Supported
  policy : option.shardingPolicy = ascii "FingerprintSharding"
  positive : 1 ≤ n
  shards : n < 2 ^ 31
  notBlank : ∀ p ∈ pairs, p ≠ ([], [])
  notReserved : ∀ item ∈ metas, item.1 ∉ FileInfo.reserved
  size : byteSize pairs < 2 ^ 63
  batches : ∀ i < n, ∀ batch ∈ (batchesOf n pairs i).all,
    TableFits tmpCompressType (tmpBlocks batch) []
  fits : ∀ i < n, ∀ records, records.Perm (shardPairs n pairs i) → SortedBy Prod.fst records →
    TableFits option.compressType (tableBlocks option records)
      (shardItems option n time (assignAll ∅ metas) i).toList
  blocks : ∀ i < n, ∀ records, records.Perm (shardPairs n pairs i) → SortedBy Prod.fst records →
    (tableBlocks option records).length ≤ 2 ^ 30
  writable : fs.AllWritable

/-- The clock shows another time for each temporary table of a shard. -/
def DistinctTimes (n : Nat) (pairs : List Record) (clock : Nat → Nat → Int64) : Prop :=
  ∀ i < n, Set.InjOn (clock i) (Set.Iic (batchesOf n pairs i).closed.length)

/-- `Flush` returns true, the merged reader opens all shards, and `Lookup` succeeds for exactly the
added keys. -/
def RoundTrips (n : Nat) (option : SSTableWriteOption) (pairs metas : List Record) (time : Int64)
    (clock : Nat → Nat → Int64) (fs : FileSystem) : Prop :=
  ∃ (fs' : FileSystem) (r : MergedSSTableReader OnDiskSSTableReader),
    write n option pairs metas time clock fs allFull = .ok (true, fs') ∧
    MergedSSTableReader.openPaths fs'
      ((range n).map fun i : Nat => getShardingPath option.path i n) allFull =
        .ok (true, r) ∧
    ∀ k, ∃ value r', r.lookup k = .ok (value, r') ∧ (value.isSome ↔ ∃ p ∈ pairs, p.1 = k)

variable {n : Nat} {option : SSTableWriteOption} {pairs metas : List Record} {time : Int64}
  {clock : Nat → Nat → Int64} {fs : FileSystem}

variable {i : Nat}

theorem mem_shardPairs {r : Record} : r ∈ shardPairs n pairs i ↔ r ∈ pairs ∧ shardOf n r.1 = i := by
  simp [shardPairs]

variable {m : Std.TreeMap Bytes Bytes}

theorem mem_of_mem_shardItems {item : Record} (h : item ∈ (shardItems option n time m i).toList) :
    item ∈ m.toList ∨ item.1 ∈ [kShardID, kShardTotalNum, kShardPolicy, kSSTableSetID] := by
  rcases mem_of_mem_assignAll h with hempty | hmem
  · exact absurd hempty not_mem_nil
  · rcases mem_append.mp hmem with huser | hshard
    · exact .inl huser
    · refine .inr ?_
      simp only [mem_cons, not_mem_nil, or_false] at hshard ⊢
      rcases hshard with rfl | rfl | rfl | rfl <;> simp

theorem Runs.mergeFits (h : Runs n option pairs metas time fs) (hi : i < n) :
    MergeFits (shardOption option n i) (batchesOf n pairs i).all
      (shardItems option n time (assignAll ∅ metas) i).toList where
  supported := h.supported
  path := by simp [shardOption_path]
  notReserved item hitem := by
    rcases mem_of_mem_shardItems hitem with huser | hshard
    · rcases mem_of_mem_assignAll huser with hempty | hmem
      · exact absurd hempty not_mem_nil
      · exact h.notReserved item hmem
    · revert hshard
      generalize item.1 = key
      revert key
      decide
  batchFits batch hbatch hne := by
    refine ⟨hne, fun r hr => h.notBlank r ?_, h.batches i hi batch hbatch⟩
    refine (mem_shardPairs (n := n) (i := i)).mp ?_ |>.1
    rw [← Batches.flatten_of_start defaultBatchWriteSize (shardPairs n pairs i)]
    exact mem_flatten.mpr ⟨batch, hbatch, hr⟩
  fits records hperm hsorted := by
    rw [batchesOf, Batches.flatten_of_start] at hperm
    exact h.fits i hi records hperm hsorted

theorem write_spec (h : Runs n option pairs metas time fs) (hclock : DistinctTimes n pairs clock) :
    ∃ result fs', write n option pairs metas time clock fs allFull = .ok (result, fs') ∧
      (result = true ↔ ∀ i < n, (batchesOf n pairs i).openBatch ≠ []) ∧
      ∀ i < n, (batchesOf n pairs i).openBatch ≠ [] →
        CompositedSSTableWriter.HoldsTable (shardOption option n i) (shardPairs n pairs i)
          (shardItems option n time (assignAll ∅ metas) i).toList fs' := by
  have hclosed : ∀ i, ∀ batch ∈ (batchesOf n pairs i).closed, batch ≠ [] := fun i =>
    Batches.ne_nil_of_mem_closed_addAll (by simp)
  have hsize : ∀ i, byteSize (shardPairs n pairs i) ≤ byteSize pairs := fun i =>
    (List.Sublist.map _ filter_sublist).sum_le_sum fun _ _ => zero_le _
  have hadds : ∀ i < n, AddsFit defaultBatchWriteSize (clock i) {} (shardPairs n pairs i) :=
    fun i hi => ⟨fun batch hbatch => (h.mergeFits hi).batchFits batch
      (mem_append_left _ hbatch) (hclosed i batch hbatch), hclock i hi,
      (hsize i).trans_lt h.size⟩
  obtain ⟨w₀, hcreate, hmeta₀, hw₀⟩ := @create_spec _ _ n time clock _ h.policy h.writable
  obtain ⟨w₁, fs₁, hadd, hmeta₁, hw₁⟩ := addAll_spec h.lossless h.positive h.shards hw₀ hadds
  rw [hmeta₀] at hmeta₁
  have hw₂ : Distributes option n time clock
      { w₁ with fileInfoMeta := assignAll ∅ metas } fs₁ (batchesOf n pairs) :=
    ⟨hw₁.1, hw₁.2, hw₁.3, hw₁.4, hw₁.5, hw₁.6, hw₁.7⟩
  obtain ⟨w₃, hset, hlength, hbuilders⟩ := setMetaData_eq h.shards hw₂
  have hlt : ∀ i builder, w₃.builders[i]? = some builder → i < n := fun i builder hb =>
    hlength ▸ (List.getElem?_eq_some_iff.mp hb).1
  obtain ⟨result, builders', fs', hloop, hresult, -, htables, -⟩ := @flushLoop_spec _ option n
    clock fs₁ (batchesOf n pairs) h.lossless w₃.builders 0
    (by rw [hlength]; have := h.shards; omega) hw₂.writable (fun i builder hb => by
      rw [zero_add]
      obtain ⟨hmeta, hcollects⟩ := hbuilders i builder hb
      exact ⟨hcollects, hclock i (hlt i builder hb), hclosed i,
        hmeta ▸ h.mergeFits (hlt i builder hb)⟩)
  simp only [zero_add, hlength] at hresult htables
  refine ⟨result, fs', ?_, hresult, fun i hi hopen => ?_⟩
  · simp only [write, hcreate, hadd, ok_bind, foldl_addMetaData, hmeta₁, flush, hset, hloop,
      pure_eq_ok]
  · have hb := getElem?_eq_getElem (l := w₃.builders) (i := i) (by omega)
    have htable := htables i _ hb hopen
    rwa [(hbuilders i _ hb).1, batchesOf, Batches.flatten_of_start] at htable

/-! ## Opening the shards -/

theorem getElem?_shardItems (m : Std.TreeMap Bytes Bytes) (i : Nat) :
    (shardItems option n time m i)[kShardID]? = some (decimal i) ∧
    (shardItems option n time m i)[kShardTotalNum]? = some (decimal n) ∧
    (shardItems option n time m i)[kShardPolicy]? = some option.shardingPolicy ∧
    (shardItems option n time m i)[kSSTableSetID]? = some (decimalInt (setIdOf option time)) := by
  simp only [shardItems, assignAll, foldl_append, foldl_cons, foldl_nil,
    Std.TreeMap.getElem?_insert]
  have hset : compare kSSTableSetID kSSTableSetID = .eq := by decide
  have hpolicy : compare kShardPolicy kShardPolicy = .eq := by decide
  have htotal : compare kShardTotalNum kShardTotalNum = .eq := by decide
  have hid : compare kShardID kShardID = .eq := by decide
  have h₁ : ¬ compare kSSTableSetID kShardPolicy = .eq := by decide
  have h₂ : ¬ compare kSSTableSetID kShardTotalNum = .eq := by decide
  have h₃ : ¬ compare kSSTableSetID kShardID = .eq := by decide
  have h₄ : ¬ compare kShardPolicy kShardTotalNum = .eq := by decide
  have h₅ : ¬ compare kShardPolicy kShardID = .eq := by decide
  have h₆ : ¬ compare kShardTotalNum kShardID = .eq := by decide
  simp only [hset, hpolicy, htotal, hid, h₁, h₂, h₃, h₄, h₅, h₆, ite_true, ite_false, and_self]

variable {reader : OnDiskSSTableReader}

theorem isShard (hcount : entryCount reader ≠ 0)
    (hmetas : reader.impl.fileInfo.metaItems = (shardItems option n time m i).toList) :
    MergedSSTableReader.IsShard (decimalInt (setIdOf option time)) option.shardingPolicy n
      reader i := by
  have hget : ∀ key, getMetaData reader key = (shardItems option n time m i)[key]?.getD [] := by
    intro key
    rw [← find?_toList, ← hmetas]
    exact Impl.getMetaData_eq ..
  obtain ⟨hid, htotal, hpolicy, hset⟩ := @getElem?_shardItems _ n option time m i
  exact ⟨hcount, by rw [hget, hset, getD_some], by rw [hget, hpolicy, getD_some],
    by rw [hget, htotal, getD_some], by rw [hget, hid, getD_some]⟩

/-- `Lookup(k)` succeeds in a table that is written with the block size. -/
def Shows (size : Int) (t : Table) (k : Bytes) : Prop :=
  if size ≤ 0 ∧ ¬ t.firstKey < k then k = [] else ∃ x ∈ t.records, x.1 = k

theorem lookup_shows {t : Table} (hreads : reader.Reads (tableBlocks option t.records))
    (hblocks : tableBlocks option t.records =
      if option.blockSize.toInt ≤ 0 then ⟨t.firstKey, []⟩ :: t.blocks else t.blocks)
    (hsize : (tableBlocks option t.records).length ≤ 2 ^ 30)
    (hentries : t.records.length < 2 ^ 31) (k : Bytes) :
    ∃ value reader', lookup reader k = .ok (value, reader') ∧
      (value.isSome ↔ Shows option.blockSize.toInt t k) := by
  rw [hblocks] at hreads hsize
  unfold Shows
  split at hreads
  · rename_i hle
    rw [if_pos hle] at hsize
    obtain ⟨value, reader', hlookup, hsome⟩ :=
      OnDiskSSTableReader.lookup_padded (k := k) hreads hsize hentries
    refine ⟨value, reader', hlookup, hsome.trans ?_⟩
    by_cases hlt : t.firstKey < k
    · simp [hlt]
    · simp [hlt, hle]
  · rename_i hnot
    rw [if_neg hnot] at hsize
    simp only [hnot, false_and, ite_false]
    exact OnDiskSSTableReader.lookup_table hreads hsize hentries

theorem shardPairs_ne_nil (h : (batchesOf n pairs i).openBatch ≠ []) :
    shardPairs n pairs i ≠ [] := by
  intro hnil
  rw [batchesOf, hnil] at h
  exact h rfl

section

variable {fs' : FileSystem} (h : Runs n option pairs metas time fs)
  (htables : ∀ i < n, CompositedSSTableWriter.HoldsTable (shardOption option n i)
    (shardPairs n pairs i) (shardItems option n time (assignAll ∅ metas) i).toList fs')
  (hne : ∀ i < n, shardPairs n pairs i ≠ [])
include h htables hne

theorem exists_readers :
    ∃ (reader : Nat → OnDiskSSTableReader) (t : Nat → Table), ∀ i < n,
      (openFile OnDiskSSTableReader fs' (getShardingPath option.path i n) allFull =
          .ok (some (reader i)) ∧
        MergedSSTableReader.IsShard (decimalInt (setIdOf option time)) option.shardingPolicy n
          (reader i) i) ∧
      (t i).records.Perm (shardPairs n pairs i) ∧
      ∀ k, ∃ value reader', lookup (reader i) k = .ok (value, reader') ∧
        (value.isSome ↔ Shows option.blockSize.toInt (t i) k) := by
  have hshard : ∀ i : Fin n, ∃ (reader : OnDiskSSTableReader) (t : Table),
      (openFile OnDiskSSTableReader fs' (getShardingPath option.path i n) allFull =
          .ok (some reader) ∧
        MergedSSTableReader.IsShard (decimalInt (setIdOf option time)) option.shardingPolicy n
          reader i) ∧
      t.records.Perm (shardPairs n pairs i) ∧
      ∀ k, ∃ value reader', lookup reader k = .ok (value, reader') ∧
        (value.isSome ↔ Shows option.blockSize.toInt t k) := by
    intro ⟨i, hi⟩
    obtain ⟨reader, t, hopen, hcount, hmetas, hperm, hentries, -, hreads, hblocks⟩ :=
      (htables i hi).opens h.lossless (hne i hi)
    have hsize := h.blocks i hi t.records hperm t.sorted
    refine ⟨reader, t, ⟨hopen, isShard hcount hmetas⟩, hperm,
      @lookup_shows _ (shardOption option n i) _ _ hreads hblocks hsize hentries⟩
  choose reader t hreader using hshard
  have hpos : 0 < n := h.positive
  refine ⟨fun i => reader ⟨i % n, mod_lt i hpos⟩, fun i => t ⟨i % n, mod_lt i hpos⟩,
    fun i hi => ?_⟩
  have hmod : (⟨i % n, mod_lt i hpos⟩ : Fin n) = ⟨i, hi⟩ := Fin.ext (mod_eq_of_lt hi)
  simp only [hmod]
  exact hreader ⟨i, hi⟩

/-- The merged reader of the shards looks each key up in the table of its shard. -/
theorem exists_merged :
    ∃ (r : MergedSSTableReader OnDiskSSTableReader) (t : Nat → Table),
      MergedSSTableReader.openPaths fs'
        ((range n).map fun i : Nat => getShardingPath option.path i n) allFull =
          .ok (true, r) ∧
      (∀ i < n, (t i).records.Perm (shardPairs n pairs i)) ∧
      ∀ k, ∃ value r', r.lookup k = .ok (value, r') ∧
        (value.isSome ↔ Shows option.blockSize.toInt (t (shardOf n k)) k) := by
  obtain ⟨reader, t, hreader⟩ := exists_readers h htables hne
  have hset : decimalInt (setIdOf option time) ≠ [] := by
    unfold decimalInt
    split
    · exact cons_ne_nil _ _
    · exact decimal_ne_nil _
  have hman : ShardingPolicy.create option.shardingPolicy =
      some { policyClass := .fingerprintSharding } := by
    rw [h.policy]
    rfl
  obtain ⟨r, hopen, hloaded⟩ := MergedSSTableReader.openAll_shards hset hman h.positive h.shards
    tolerateSSTableOpenFailure fun i hi => (hreader i hi).1
  refine ⟨r, t, hopen, fun i hi => (hreader i hi).2.1, fun k => ?_⟩
  have hlt : shardOf n k < n := mod_lt _ h.positive
  obtain ⟨value, reader', hlookup, hsome⟩ := (hreader _ hlt).2.2 k
  obtain ⟨r', hr'⟩ := hloaded.lookup_eq (shard_eq h.positive h.shards _ k) hlt hlookup
  exact ⟨value, r', hr', hsome⟩

end

/-- The tables show exactly the added keys. With an empty block in front, the first key of a table
is only shown if it is empty, and that can be so for one shard only. -/
theorem shows_iff {t : Nat → Table} (hpos : 0 < n) (size : Int)
    (hperm : ∀ i < n, (t i).records.Perm (shardPairs n pairs i)) :
    (∀ k, Shows size (t (shardOf n k)) k ↔ ∃ p ∈ pairs, p.1 = k) ↔
      1 ≤ size ∨ n = 1 ∧ ∃ p ∈ pairs, p.1 = [] := by
  have hmem : ∀ i < n, ∀ x, x ∈ (t i).records ↔ x ∈ pairs ∧ shardOf n x.1 = i :=
    fun i hi x => by rw [(hperm i hi).mem_iff, mem_shardPairs]
  have hkeys : ∀ k, (∃ x ∈ (t (shardOf n k)).records, x.1 = k) ↔ ∃ p ∈ pairs, p.1 = k := by
    intro k
    constructor
    · rintro ⟨x, hx, rfl⟩
      exact ⟨x, ((hmem _ (mod_lt _ hpos) x).mp hx).1, rfl⟩
    · rintro ⟨p, hp, rfl⟩
      exact ⟨p, (hmem _ (mod_lt _ hpos) p).mpr ⟨hp, rfl⟩, rfl⟩
  by_cases hsize : size ≤ 0
  · constructor
    · intro hall
      have hfirst : ∀ i < n, shardOf n [] = i ∧ ∃ p ∈ pairs, p.1 = [] := by
        intro i hi
        obtain ⟨value, rest, hrecords⟩ := (t i).exists_records
        obtain ⟨hpair, hshard⟩ := (hmem i hi ((t i).firstKey, value)).mp
          (by rw [hrecords]; exact mem_cons_self)
        have hshows := (hall (t i).firstKey).mpr ⟨_, hpair, rfl⟩
        have hshard : shardOf n (t i).firstKey = i := hshard
        rw [hshard, Shows, if_pos ⟨hsize, Std.lt_irrefl⟩] at hshows
        rw [hshows] at hshard hpair
        exact ⟨hshard, _, hpair, rfl⟩
      refine .inr ⟨?_, (hfirst 0 hpos).2⟩
      by_contra hn
      have h₀ := (hfirst 0 hpos).1
      have h₁ := (hfirst 1 (by omega)).1
      omega
    · rintro (hpositive | ⟨rfl, p, hp, hempty⟩) k
      · omega
      · have hnil : ¬ (t (shardOf 1 k)).firstKey < k → k = [] := by
          intro hnot
          have hzero : ∀ key, shardOf 1 key = 0 := fun key => mod_one _
          rw [hzero] at hnot
          have hle := (t 0).firstKey_le ((hmem 0 hpos p).mpr ⟨hp, hzero _⟩)
          rw [hempty] at hle
          exact Std.le_antisymm (Std.le_trans (Std.not_lt.mp hnot) hle) (nil_le _)
        unfold Shows
        split
        · rename_i hcond
          exact iff_of_true (hnil hcond.2) ⟨p, hp, hempty.trans (hnil hcond.2).symm⟩
        · exact hkeys k
  · refine iff_of_true (fun k => ?_) (.inl (by omega))
    rw [Shows, if_neg fun hcond => hsize hcond.1]
    exact hkeys k

/-- **Round trip.** With distinct times of the temporary tables of a shard, the shards give back the
added keys exactly if each has a batch open at the end, and the block size is positive or there is
only one shard and it has the empty key. -/
theorem roundTrips_iff (h : Runs n option pairs metas time fs)
    (hclock : DistinctTimes n pairs clock) :
    RoundTrips n option pairs metas time clock fs ↔
      (∀ i < n, (batchesOf n pairs i).openBatch ≠ []) ∧
        (1 ≤ option.blockSize.toInt ∨ n = 1 ∧ ∃ p ∈ pairs, p.1 = []) := by
  obtain ⟨result, fs', hwrite, hresult, htables⟩ := write_spec h hclock
  by_cases hopen : ∀ i < n, (batchesOf n pairs i).openBatch ≠ []
  · rw [hresult.mpr hopen] at hwrite
    obtain ⟨r, t, hreader, hperm, hlookup⟩ := exists_merged h
      (fun i hi => htables i hi (hopen i hi)) fun i hi => shardPairs_ne_nil (hopen i hi)
    rw [← shows_iff h.positive _ hperm]
    constructor
    · rintro ⟨fs'', r', hwrite', hreader', hall⟩
      refine ⟨hopen, fun k => ?_⟩
      cases hwrite.symm.trans hwrite'
      cases hreader.symm.trans hreader'
      obtain ⟨value, r₁, hvalue, hsome⟩ := hlookup k
      obtain ⟨value', r₂, hvalue', hsome'⟩ := hall k
      cases hvalue.symm.trans hvalue'
      exact hsome.symm.trans hsome'
    · rintro ⟨-, hshows⟩
      refine ⟨fs', r, hwrite, hreader, fun k => ?_⟩
      obtain ⟨value, r', hvalue, hsome⟩ := hlookup k
      exact ⟨value, r', hvalue, hsome.trans (hshows k)⟩
  · refine iff_of_false ?_ fun hcond => hopen hcond.1
    rintro ⟨fs'', r, hwrite', -⟩
    rw [hwrite] at hwrite'
    have htrue : result = true := congrArg Prod.fst (ok.inj hwrite')
    exact hopen (hresult.mp htrue)

end Run

/-- A little-endian machine with a codec that inverts, on which only `a` has an odd fingerprint. -/
@[reducible] def oddEnv : SSTableEnv :=
  { SSTableEnv.inverting with fingerprint64 := fun key => if key = ascii "a" then 1 else 0 }

def twoOption : SSTableWriteOption where
  path := ascii "t"
  shardingPolicy := ascii "FingerprintSharding"

theorem runs_two (pairs : List Record)
    (h : pairs = [(ascii "a", ascii "1"), (ascii "b", ascii "2")] ∨
      pairs = [(ascii "b", ascii "2")]) :
    @Runs oddEnv 2 twoOption pairs [] 0 ⟨fun _ => none, fun _ => true⟩ := by
  -- a shard has one pair at most, which leaves only one order of it
  have hperm (i : Nat) (hi : i < 2) (records : List Record)
      (hrecords : records.Perm (@shardPairs oddEnv 2 pairs i)) :
      records = @shardPairs oddEnv 2 pairs i := by
    have hone : ∀ i < 2, (@shardPairs oddEnv 2 pairs i).permutations' =
        [@shardPairs oddEnv 2 pairs i] := by
      rcases h with rfl | rfl <;> decide
    rwa [← mem_permutations', hone i hi, mem_singleton] at hrecords
  have hblocks : ∀ i < 2,
      (@tableBlocks oddEnv twoOption (@shardPairs oddEnv 2 pairs i)).length ≤ 2 ^ 30 := by
    rcases h with rfl | rfl <;> decide
  refine @Runs.mk oddEnv _ _ _ _ _ _ BlockCompression.lossless_inverting trivial rfl (by omega)
    (by omega) ?_ (by simp) ?_ ?_ ?_ ?_ fun _ => rfl
  · rcases h with rfl | rfl <;> decide
  · rcases h with rfl | rfl <;> decide
  · rcases h with rfl | rfl <;> decide +kernel
  · intro i hi records hrecords _
    rw [hperm i hi records hrecords]
    obtain rfl | rfl : i = 0 ∨ i = 1 := by omega
    all_goals rcases h with rfl | rfl <;> decide +kernel
  · intro i hi records hrecords _
    rw [hperm i hi records hrecords]
    exact hblocks i hi

/-- A shard has one temporary table only. -/
theorem distinctTimes_two (pairs : List Record)
    (h : pairs = [(ascii "a", ascii "1"), (ascii "b", ascii "2")] ∨
      pairs = [(ascii "b", ascii "2")]) :
    @DistinctTimes oddEnv 2 pairs fun _ n => Int64.ofNat n := by
  have hclosed : ∀ i < 2, (@batchesOf oddEnv 2 pairs i).closed = [] := by
    rcases h with rfl | rfl <;> decide
  intro i hi m hm n hn _
  rw [Set.mem_Iic, hclosed i hi, length_nil] at hm hn
  omega

theorem roundTrips_two :
    letI := oddEnv
    RoundTrips 2 twoOption [(ascii "a", ascii "1"), (ascii "b", ascii "2")] [] 0
      (fun _ n => Int64.ofNat n) ⟨fun _ => none, fun _ => true⟩ := by
  let _ := oddEnv
  exact (roundTrips_iff (runs_two _ (.inl rfl)) (distinctTimes_two _ (.inl rfl))).mpr
    ⟨by decide, .inl (by decide)⟩

/-- The second of the two shards receives no key. -/
theorem flush_fails_one_shard :
    letI := oddEnv
    (∃ fs', write 2 twoOption [(ascii "b", ascii "2")] [] 0 (fun _ n => Int64.ofNat n)
      ⟨fun _ => none, fun _ => true⟩ allFull = .ok (false, fs')) ∧
    ¬ RoundTrips 2 twoOption [(ascii "b", ascii "2")] [] 0 (fun _ n => Int64.ofNat n)
      ⟨fun _ => none, fun _ => true⟩ := by
  let _ := oddEnv
  obtain ⟨result, fs', hwrite, hresult, -⟩ := write_spec (runs_two _ (.inr rfl))
    (distinctTimes_two _ (.inr rfl))
  have hempty : (batchesOf 2 [(ascii "b", ascii "2")] 1).openBatch = [] := by decide
  have hfalse : result = false := by
    rw [← Bool.not_eq_true, hresult]
    exact fun hall => hall 1 (by omega) hempty
  subst hfalse
  refine ⟨⟨fs', hwrite⟩, ?_⟩
  rintro ⟨fs'', r, hwrite', -⟩
  rw [hwrite] at hwrite'
  cases hwrite'

end ShardingSSTableWriter

end Toft

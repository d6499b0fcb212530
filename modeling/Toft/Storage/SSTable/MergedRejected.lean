import Mathlib.Algebra.Order.BigOperators.Group.List
import Toft.Storage.SSTable.MergedLookup

/-!
# Tables that their set refuses

`LoadSSTableReader` puts a table into `tables_` before it asks the set of the table. If the set
refuses the table, because of another sharding policy or number or because of its index, the table
stays in `tables_`: iteration and `EntryCount` use it, and `Lookup` does not.
-/

namespace Toft

open Lib SSTableReader OnDiskSSTableReader MergedIterator List SSTableEnv SSTableReaderSet Schedule
  Nat Except Std.TreeMap Std.LawfulEqOrd

variable {ρ : Type}

/-! ## The meta data of a table -/

/-- What the meta data of a file say about its set. -/
structure ShardInfo where
  setId : Bytes
  policy : Bytes
  numShard : Int
  index : Int

namespace ShardInfo

def of (impl : Impl) : ShardInfo where
  setId := impl.getMetaData kSSTableSetID
  policy := impl.getMetaData kShardPolicy
  numShard := (stringToNumber (impl.getMetaData kShardTotalNum) 0).2
  index := (stringToNumber (impl.getMetaData kShardID) (-1)).2

/-- The sharding policy of the set that the table would make. -/
def sharding (a : ShardInfo) : Option ShardingPolicy :=
  if a.setId = [] ∨ a.policy = [] then none
  else (ShardingPolicy.create a.policy).map (·.setShardingNumber a.numShard)

/-- If they are in one set, the tables have the same sharding policy and number of shards, and
different indices. -/
def Agree (a b : ShardInfo) : Prop :=
  a.setId = b.setId → a.setId ≠ [] →
    a.policy = b.policy ∧ a.numShard = b.numShard ∧ a.index ≠ b.index

def InRange (a : ShardInfo) : Prop := a.setId ≠ [] → 0 ≤ a.index ∧ a.index < a.numShard

/-- `Lookup` asks the table for the key: it is not sharded, or it is the shard of the key. -/
def Asked [SSTableEnv] (a : ShardInfo) (key : Bytes) : Prop :=
  ∀ man ∈ a.sharding, man.shard key = .ok a.index

theorem sharding_congr {a b : ShardInfo} (hid : a.setId = b.setId)
    (h : a.setId ≠ [] → a.policy = b.policy ∧ a.numShard = b.numShard) :
    a.sharding = b.sharding := by
  by_cases hnil : a.setId = []
  · rw [sharding, sharding, if_pos (.inl hnil), if_pos (.inl (hid ▸ hnil))]
  · rw [sharding, sharding, hid, (h hnil).1, (h hnil).2]

theorem of_mem_sharding {a : ShardInfo} {man : ShardingPolicy} (h : man ∈ a.sharding) :
    a.setId ≠ [] ∧ man.shardNum = a.numShard := by
  rw [sharding] at h
  split at h
  · cases h
  · rename_i hne
    obtain ⟨man, -, rfl⟩ := Option.mem_map.mp h
    exact ⟨(not_or.mp hne).1, rfl⟩

end ShardInfo

/-- No set refuses one of the tables. -/
structure Consistent (infos : List ShardInfo) : Prop where
  range : ∀ a ∈ infos, a.InRange
  agree : infos.Pairwise ShardInfo.Agree

theorem consistent_append_iff {infos : List ShardInfo} {a : ShardInfo} :
    Consistent (infos ++ [a]) ↔
      Consistent infos ∧ a.InRange ∧ ∀ b ∈ infos, b.Agree a := by
  constructor
  · rintro ⟨hrange, hagree⟩
    rw [forall_mem_append, forall_mem_singleton] at hrange
    obtain ⟨hagree, -, hlast⟩ := pairwise_append.mp hagree
    exact ⟨⟨hrange.1, hagree⟩, hrange.2, fun b hb => hlast b hb a (mem_singleton.mpr rfl)⟩
  · rintro ⟨⟨hrange, hagree⟩, hin, hlast⟩
    refine ⟨forall_mem_append.mpr ⟨hrange, forall_mem_singleton.mpr hin⟩,
      pairwise_append.mpr ⟨hagree, pairwise_singleton _ _, fun b hb c hc => ?_⟩⟩
    rw [mem_singleton.mp hc]
    exact hlast b hb

/-! ## One set -/

namespace SSTableReaderSet

/-- The set is made of those of the tables `infos` that have its id. -/
structure Holds (infos : List ShardInfo) (id : Bytes) (set : SSTableReaderSet) : Prop where
  setId : set.setId = id
  made : ∀ a ∈ infos, a.setId = id → set.shardingMan = a.sharding ∧
    (id ≠ [] → set.shardingPolicy = a.policy ∧ set.numShard = a.numShard)
  source : ∀ (index : Int) (i : Nat), set.tables[index]? = some i →
    ∃ a, infos[i]? = some a ∧ a.setId = id ∧ (id ≠ [] → a.index = index)
  complete : ∀ (i : Nat) (a : ShardInfo), infos[i]? = some a → a.setId = id →
    ∃ index : Int, set.tables[index]? = some i ∧ (id ≠ [] → index = a.index)
  dense : id = [] → ∀ index ∈ set.tables, index < set.tables.size

variable {infos : List ShardInfo} {a : ShardInfo} {set set' : SSTableReaderSet} {id : Bytes}

theorem getElem?_concat_iff {α : Type} {xs : List α} {x y : α} {i : Nat} :
    (xs ++ [x])[i]? = some y ↔ xs[i]? = some y ∨ i = xs.length ∧ y = x := by
  grind

theorem Holds.other (h : Holds infos id set) (hne : a.setId ≠ id) :
    Holds (infos ++ [a]) id set where
  setId := h.setId
  made b hb hid := by
    rcases mem_append.mp hb with hb | hb
    · exact h.made b hb hid
    · exact absurd (mem_singleton.mp hb ▸ hid) hne
  source index i hi := by
    obtain ⟨b, hb, hrest⟩ := h.source index i hi
    exact ⟨b, getElem?_concat_iff.mpr (.inl hb), hrest⟩
  complete i b hb hid := by
    rcases getElem?_concat_iff.mp hb with hb | ⟨-, rfl⟩
    · exact h.complete i b hb hid
    · exact absurd hid hne
  dense := h.dense

/-- The next table comes into the set. -/
theorem Holds.insert (h : Holds infos a.setId set) {place : Int} (hplace : place ∉ set.tables)
    (hindex : a.setId ≠ [] → place = a.index) (hdense : a.setId = [] → place = set.tables.size)
    (hmade : set.shardingMan = a.sharding ∧
      (a.setId ≠ [] → set.shardingPolicy = a.policy ∧ set.numShard = a.numShard)) :
    Holds (infos ++ [a]) a.setId
      { set with tables := set.tables.insert place infos.length } where
  setId := h.setId
  made b hb hid := by
    rcases mem_append.mp hb with hb | hb
    · exact h.made b hb hid
    · rw [mem_singleton.mp hb]
      exact hmade
  source index i hi := by
    rw [Std.TreeMap.getElem?_insert] at hi
    split at hi
    · rename_i heq
      cases hi
      exact ⟨a, getElem?_concat_iff.mpr (.inr ⟨rfl, rfl⟩), rfl,
        fun hne => (hindex hne).symm.trans (eq_of_compare heq)⟩
    · obtain ⟨b, hb, hrest⟩ := h.source index i hi
      exact ⟨b, getElem?_concat_iff.mpr (.inl hb), hrest⟩
  complete i b hb hid := by
    rcases getElem?_concat_iff.mp hb with hb | ⟨rfl, rfl⟩
    · obtain ⟨index, hi, hrest⟩ := h.complete i b hb hid
      refine ⟨index, ?_, hrest⟩
      rw [Std.TreeMap.getElem?_insert, if_neg, hi]
      intro heq
      rw [eq_of_compare heq, mem_iff_isSome_getElem?, hi] at hplace
      exact hplace rfl
    · exact ⟨place, getElem?_insert_self, hindex⟩
  dense hnil index hmem := by
    have hsize := h.dense hnil index
    rw [size_insert, if_neg (mt mem_iff_contains.mpr hplace)]
    rcases mem_insert.mp hmem with heq | hmem
    · rw [← eq_of_compare heq, hdense hnil]
      omega
    · have := hsize hmem
      omega

/-- The set takes the next table exactly if its meta data agree with those of the others. -/
theorem Holds.add (h : Holds infos a.setId set)
    (hfresh : (∀ b ∈ infos, b.setId ≠ a.setId) → set.shardingMan = a.sharding ∧
      (a.setId ≠ [] → set.shardingPolicy = a.policy ∧ set.numShard = a.numShard))
    {accepted : Bool} (hadd : set.addSSTableReader infos.length a.setId a.policy a.numShard
      a.index = .ok (accepted, set')) :
    (accepted = true ↔ a.InRange ∧ ∀ b ∈ infos, b.Agree a) ∧
      (accepted = true → Holds (infos ++ [a]) a.setId set') := by
  have hsame (hnil : a.setId ≠ []) (hagree : ∀ b ∈ infos, b.Agree a) :
      set.shardingPolicy = a.policy ∧ set.numShard = a.numShard := by
    by_cases hother : ∃ b ∈ infos, b.setId = a.setId
    · obtain ⟨b, hb, hid⟩ := hother
      obtain ⟨hpolicy, hnum, -⟩ := hagree b hb hid (hid ▸ hnil)
      exact hpolicy ▸ hnum ▸ (h.made b hb hid).2 hnil
    · exact (hfresh (by simpa using hother)).2 hnil
  have hman (hsame : a.setId ≠ [] → set.shardingPolicy = a.policy ∧ set.numShard = a.numShard) :
      set.shardingMan = a.sharding := by
    by_cases hother : ∃ b ∈ infos, b.setId = a.setId
    · obtain ⟨b, hb, hid⟩ := hother
      obtain ⟨hman, hmade⟩ := h.made b hb hid
      rw [hman]
      refine ShardInfo.sharding_congr hid fun hnil => ?_
      rw [hid] at hnil
      exact ⟨(hmade hnil).1.symm.trans (hsame hnil).1, (hmade hnil).2.symm.trans (hsame hnil).2⟩
    · exact (hfresh (by simpa using hother)).1
  have hrefused (hnot : ¬ (a.InRange ∧ ∀ b ∈ infos, b.Agree a)) (hfalse : accepted = false) :
      (accepted = true ↔ a.InRange ∧ ∀ b ∈ infos, b.Agree a) ∧
        (accepted = true → Holds (infos ++ [a]) a.setId set') := by
    rw [hfalse]
    exact ⟨iff_of_false nofun hnot, nofun⟩
  unfold addSSTableReader at hadd
  split_ifs at hadd with hset hnil hpolicy hnum hmem hindex
  · cases hadd
    have hnil : a.setId = [] := by simpa using hnil
    refine ⟨iff_of_true rfl ⟨absurd hnil, fun b _ hid hne => absurd (hid.trans hnil) hne⟩,
      fun _ => h.insert (fun hmem => ?_) (absurd hnil) (fun _ => rfl)
        ⟨hman (absurd hnil), absurd hnil⟩⟩
    exact absurd (h.dense hnil _ hmem) (by omega)
  all_goals
    have hnil : a.setId ≠ [] := by simpa using hnil
    cases hadd
  · exact hrefused (fun hall => hpolicy (hsame hnil hall.2).1.symm) rfl
  · exact hrefused (fun hall => hnum (hsame hnil hall.2).2.symm) rfl
  · refine hrefused (fun hall => ?_) rfl
    obtain ⟨i, hi⟩ := Option.isSome_iff_exists.mp (mem_iff_isSome_getElem?.mp hmem)
    obtain ⟨b, hb, hid, hindex⟩ := h.source _ i hi
    exact (hall.2 b (mem_of_getElem? hb) hid (hid ▸ hnil)).2.2 (hindex hnil)
  · exact hrefused (fun hall => by have := hall.1 hnil; omega) rfl
  · have hsame := (⟨(not_not.mp hpolicy).symm, (not_not.mp hnum).symm⟩ :
      set.shardingPolicy = a.policy ∧ set.numShard = a.numShard)
    refine ⟨iff_of_true rfl ⟨fun _ => by omega, fun b hb hid hne => ?_⟩,
      fun _ => h.insert hmem (fun _ => rfl) (fun h => absurd h hnil)
        ⟨hman fun _ => hsame, fun _ => hsame⟩⟩
    obtain ⟨hpolicy', hnum'⟩ := (h.made b hb hid).2 hnil
    refine ⟨hpolicy'.symm.trans hsame.1, hnum'.symm.trans hsame.2, fun hindex => hmem ?_⟩
    obtain ⟨i, hi⟩ := mem_iff_getElem?.mp hb
    obtain ⟨index, hget, hplace⟩ := h.complete i b hi hid
    rw [← hindex, ← hplace hnil, mem_iff_isSome_getElem?, hget]
    rfl

end SSTableReaderSet

namespace MergedSSTableReader

/-- What `LoadSSTableReader` returns for each path, when bad files are ignored. -/
def loadAll [OfFile ρ] [Host] (fs : FileSystem) (io : Schedule) :
    List Bytes → MergedSSTableReader ρ → Except Fault (List Bool × MergedSSTableReader ρ)
  | [], r => .ok ([], r)
  | path :: paths, r => do
    let (loaded, r) ← r.loadSSTableReader fs path io
    let (results, r) ← loadAll fs io paths r
    return (loaded :: results, r)

theorem openLoop_eq_loadAll [OfFile ρ] [Host] (fs : FileSystem) (io : Schedule)
    (paths : List Bytes) (r : MergedSSTableReader ρ) :
    openLoop fs true io paths r =
      (loadAll fs io paths r >>= fun s => .ok (!s.2.tables.isEmpty, s.2)) := by
  induction paths generalizing r with
  | nil => rfl
  | cons path paths ih =>
    rw [openLoop, loadAll]
    cases r.loadSSTableReader fs path io with
    | error e => rfl
    | ok s =>
      simp only [ok_bind, Bool.not_true, Bool.and_false, Bool.false_eq_true, ite_false, ih]
      cases loadAll fs io paths s.2 <;> rfl

/-! ## The sets of a reader -/

/-- The checks of `LoadSSTableReader` in front of `tables_.push_back`. -/
def registers (impl : Impl) : Bool :=
  impl.entryCount ≠ 0 &&
    !((!(stringToNumber (impl.getMetaData kShardTotalNum) 0).1 ||
      !(stringToNumber (impl.getMetaData kShardID) (-1)).1) &&
        !(impl.getMetaData kSSTableSetID).isEmpty)

/-- The sets are made of the tables `infos`, and each set has one. -/
structure Grouped (infos : List ShardInfo) (sets : Std.TreeMap Bytes SSTableReaderSet) : Prop where
  holds : ∀ id set, sets[id]? = some set → set.Holds infos id ∧ ∃ a ∈ infos, a.setId = id
  covers : ∀ a ∈ infos, ∃ set, sets[a.setId]? = some set

variable {infos : List ShardInfo} {a : ShardInfo} {set : SSTableReaderSet}
  {sets : Std.TreeMap Bytes SSTableReaderSet} {r r' : MergedSSTableReader ρ}

theorem Grouped.findSet (h : Grouped infos r.sets)
    (hfind : r.findSet a.setId a.policy a.numShard = .ok set) :
    set.Holds infos a.setId ∧ ((∀ b ∈ infos, b.setId ≠ a.setId) → set.shardingMan = a.sharding ∧
      (a.setId ≠ [] → set.shardingPolicy = a.policy ∧ set.numShard = a.numShard)) := by
  have hnew (hget : r.sets[a.setId]? = none) {set : SSTableReaderSet} (hid : set.setId = a.setId)
      (htables : set.tables = ∅) : set.Holds infos a.setId := by
    have hnone {b : ShardInfo} (hb : b ∈ infos) (hid : b.setId = a.setId) : False := by
      obtain ⟨set, hset⟩ := h.covers b hb
      rw [hid, hget] at hset
      cases hset
    refine ⟨hid, fun b hb hid => (hnone hb hid).elim, fun index i hi => ?_,
      fun i b hb hid => (hnone (mem_of_getElem? hb) hid).elim, fun _ index hmem => ?_⟩
    · rw [htables] at hi
      cases hi
    · rw [htables] at hmem
      exact absurd hmem not_mem_emptyc
  unfold MergedSSTableReader.findSet at hfind
  split at hfind
  · rename_i hget
    cases hfind
    obtain ⟨hholds, b, hb, hid⟩ := h.holds _ _ hget
    exact ⟨hholds, fun hnone => absurd hid (hnone b hb)⟩
  · rename_i hget
    split at hfind
    · rename_i hnil
      have hnil : a.setId = [] := by simpa using hnil
      cases hfind
      exact ⟨hnew hget hnil.symm rfl, fun _ => ⟨(if_pos (.inl hnil)).symm, absurd hnil⟩⟩
    · rename_i hnil
      have hnil : a.setId ≠ [] := by simpa using hnil
      unfold SSTableReaderSet.create at hfind
      split at hfind
      · rename_i hpolicy
        have hpolicy : a.policy = [] := by simpa using hpolicy
        cases hfind
        exact ⟨hnew hget rfl rfl, fun _ => ⟨(if_pos (.inr hpolicy)).symm, fun _ => ⟨rfl, rfl⟩⟩⟩
      · rename_i hpolicy
        have hpolicy : a.policy ≠ [] := by simpa using hpolicy
        split at hfind
        · cases hfind
        · rename_i man hman
          cases hfind
          refine ⟨hnew hget rfl rfl, fun _ => ⟨?_, fun _ => ⟨rfl, rfl⟩⟩⟩
          rw [ShardInfo.sharding, if_neg (by simp [hnil, hpolicy]), hman]
          rfl

theorem Grouped.insert (h : Grouped infos sets) (hset : set.Holds (infos ++ [a]) a.setId) :
    Grouped (infos ++ [a]) (sets.insert a.setId set) where
  holds id s hs := by
    rw [Std.TreeMap.getElem?_insert] at hs
    split at hs
    · rename_i heq
      obtain rfl := eq_of_compare heq
      cases hs
      exact ⟨hset, a, by simp, rfl⟩
    · rename_i hne
      obtain ⟨hholds, b, hb, hid⟩ := h.holds id s hs
      refine ⟨hholds.other fun heq => hne ?_, b, mem_append_left _ hb, hid⟩
      rw [heq]
      exact Std.ReflCmp.compare_self
  covers b hb := by
    rw [Std.TreeMap.getElem?_insert]
    split
    · exact ⟨set, rfl⟩
    · rename_i hne
      rcases mem_append.mp hb with hb | hb
      · exact h.covers b hb
      · rw [mem_singleton.mp hb] at hne
        exact absurd Std.ReflCmp.compare_self hne

/-- What `LoadSSTableReader` does with a table. -/
theorem addTable_eq_ok [OfFile ρ] {sstable : ρ} {accepted : Bool}
    (h : r.addTable sstable = .ok (accepted, r')) :
    if registers (OfFile.impl sstable) then
      r'.tables = r.tables ++ [sstable] ∧ ∀ infos, infos.length = r.tables.length →
        Grouped infos r.sets →
        letI a := ShardInfo.of (OfFile.impl sstable)
        (accepted = true ↔ a.InRange ∧ ∀ b ∈ infos, b.Agree a) ∧
          (accepted = true → Grouped (infos ++ [a]) r'.sets)
    else accepted = false ∧ r' = r := by
  rw [addTable] at h
  split at h
  · rename_i hcount
    cases h
    have hcount : (OfFile.impl sstable).entryCount = 0 := hcount
    rw [if_neg (by simp [registers, hcount])]
    exact ⟨rfl, rfl⟩
  · rename_i hcount
    have hcount : (OfFile.impl sstable).entryCount ≠ 0 := hcount
    simp only at h
    split at h
    · rename_i hbad
      cases h
      have hregisters : registers (OfFile.impl sstable) = false := by
        rw [getMetaData, getMetaData, getMetaData] at hbad
        rw [registers, hbad, Bool.not_true, Bool.and_false]
      rw [if_neg (by simp [hregisters])]
      exact ⟨rfl, rfl⟩
    · rename_i hgood
      have hregisters : registers (OfFile.impl sstable) = true := by
        rw [getMetaData, getMetaData, getMetaData, Bool.not_eq_true] at hgood
        rw [registers, hgood, decide_eq_true hcount]
        rfl
      obtain ⟨set, hfind, h⟩ := bind_eq_ok_iff.mp h
      obtain ⟨⟨b, set'⟩, hadd, h⟩ := bind_eq_ok_iff.mp h
      cases h
      rw [if_pos hregisters]
      refine ⟨rfl, fun infos hlength hgrouped => ?_⟩
      rw [← hlength] at hadd
      obtain ⟨hholds, hfresh⟩ :=
        @Grouped.findSet ρ infos (.of (OfFile.impl sstable)) _ r hgrouped hfind
      obtain ⟨hiff, hset⟩ := hholds.add hfresh hadd
      exact ⟨hiff, fun haccepted => hgrouped.insert (hset haccepted)⟩

/-! ## A run of `Open` -/

/-- The files whose tables come into `tables_`. -/
def registered (opened : List (Option (Impl × Table))) : List (Impl × Table) :=
  opened.filterMap fun o => o.filter fun file => registers file.1

def shardInfos (files : List (Impl × Table)) : List ShardInfo := files.map fun file => .of file.1

/-- The tables of the paths for which `LoadSSTableReader` returned true. -/
def acceptedTables (opened : List (Option (Impl × Table))) (results : List Bool) : List Table :=
  (opened.zip results).filterMap fun x => if x.2 then x.1.map Prod.snd else none

theorem registered_cons (o : Option (Impl × Table)) (opened : List (Option (Impl × Table))) :
    registered (o :: opened) =
      (o.filter fun file => registers file.1).toList ++ registered opened := by
  rw [registered, filterMap_cons]
  cases o.filter fun file => registers file.1 <;> rfl

theorem acceptedTables_cons (o : Option (Impl × Table)) (opened : List (Option (Impl × Table)))
    (b : Bool) (results : List Bool) :
    acceptedTables (o :: opened) (b :: results) =
      acceptedTables [o] [b] ++ acceptedTables opened results := by
  rw [acceptedTables, zip_cons_cons, ← singleton_append, filterMap_append]
  rfl

section Run

variable [SSTableEnv] [OfFile ρ] {starts : Table → Bytes → Prop}

/-- The reader has the tables of the files `used`, each with what its set answered. -/
structure Tracks (starts : Table → Bytes → Prop) (r : MergedSSTableReader ρ)
    (used : List ((Impl × Table) × Bool)) : Prop where
  serve : ∃ views, Serve views r.tables ∧
    List.Forall₂ (Matches starts) views (used.map fun u => u.1.2)
  counts : r.tables.map SSTableReader.entryCount = used.map fun u => (u.1.2.records.length : Int)
  consistent : (∀ u ∈ used, u.2 = true) ↔ Consistent (shardInfos (used.map Prod.fst))
  grouped : (∀ u ∈ used, u.2 = true) → Grouped (shardInfos (used.map Prod.fst)) r.sets

variable {used : List ((Impl × Table) × Bool)}

omit [SSTableEnv] in
theorem Tracks.length_eq (h : Tracks starts r used) :
    (shardInfos (used.map Prod.fst)).length = r.tables.length := by
  have := congrArg length h.counts
  simpa [shardInfos] using this.symm

theorem Tracks.load (hserving : Serving ρ starts) {fs : FileSystem} {path : Bytes}
    {opened : Option (Impl × Table)} (hopens : Opens fs path opened) (h : Tracks starts r used)
    {loaded : Bool} (hload : r.loadSSTableReader fs path allFull = .ok (loaded, r')) :
    ∃ used', Tracks starts r' (used ++ used') ∧
      used'.map Prod.fst = (opened.filter fun file => registers file.1).toList ∧
      acceptedTables [opened] [loaded] = (used'.filter Prod.snd).map fun u => u.1.2 := by
  rw [loadSSTableReader] at hload
  cases opened with
  | none =>
    rw [openFile_of_opens_none hopens] at hload
    cases hload
    exact ⟨[], by rwa [append_nil], rfl, rfl⟩
  | some file =>
    rcases file with ⟨impl, t⟩
    obtain ⟨reader, v, pos, hopen, himpl, hserves, hmatches⟩ := hserving hopens
    rw [hopen] at hload
    have hadd : r.addTable reader = .ok (loaded, r') := hload
    have hstep := addTable_eq_ok hadd
    have hregisters : registers (OfFile.impl reader) = registers impl := by rw [himpl]; rfl
    have hinfo : ShardInfo.of (OfFile.impl reader) = .of impl := by rw [himpl]; rfl
    rw [hregisters, hinfo] at hstep
    cases hcase : registers impl with
    | false =>
      rw [hcase] at hstep
      obtain ⟨rfl, rfl⟩ := hstep
      exact ⟨[], by rwa [append_nil], by simp [Option.filter, hcase], rfl⟩
    | true =>
      rw [hcase] at hstep
      obtain ⟨htables, hgrouped⟩ := hstep
      obtain ⟨views, hserve, hviews⟩ := h.serve
      have happend : shardInfos ((used ++ [((impl, t), loaded)]).map Prod.fst) =
          shardInfos (used.map Prod.fst) ++ [.of impl] := by simp [shardInfos]
      refine ⟨[((impl, t), loaded)], ⟨⟨views ++ [v], ?_, ?_⟩, ?_, ?_, ?_⟩,
        by simp [Option.filter, hcase], by cases loaded <;> rfl⟩
      · rw [htables]
        exact rel_append hserve (.cons hserves .nil)
      · rw [map_append]
        exact rel_append hviews (.cons hmatches .nil)
      · have hcount : SSTableReader.entryCount reader = t.records.length := by
          have himplCount : impl.entryCount = t.records.length := LoadsTable.entryCount hopens
          rw [SSTableReader.entryCount, himpl]
          exact himplCount
        rw [htables, map_append, h.counts, map_append, map_singleton, hcount]
        rfl
      · rw [happend, consistent_append_iff, forall_mem_append, forall_mem_singleton, ← h.consistent]
        exact and_congr_right fun hall => (hgrouped _ h.length_eq (h.grouped hall)).1
      · rw [happend, forall_mem_append, forall_mem_singleton]
        exact fun hall => (hgrouped _ h.length_eq (h.grouped hall.1)).2 hall.2

theorem Tracks.loadAll (hserving : Serving ρ starts) {fs : FileSystem} {paths : List Bytes}
    {opened : List (Option (Impl × Table))} (hopens : List.Forall₂ (Opens fs) paths opened)
    (h : Tracks starts r used) {results : List Bool}
    (hload : MergedSSTableReader.loadAll fs allFull paths r = .ok (results, r')) :
    ∃ used', Tracks starts r' (used ++ used') ∧ used'.map Prod.fst = registered opened ∧
      acceptedTables opened results = (used'.filter Prod.snd).map fun u => u.1.2 := by
  induction hopens generalizing r used results with
  | nil =>
    cases hload
    exact ⟨[], by rwa [append_nil], rfl, rfl⟩
  | cons hopens _ ih =>
    obtain ⟨⟨b, r₁⟩, hfirst, hload⟩ := bind_eq_ok_iff.mp hload
    obtain ⟨⟨bs, r₂⟩, hrest, hload⟩ := bind_eq_ok_iff.mp hload
    cases hload
    obtain ⟨used₁, h₁, hused₁, haccepted₁⟩ := h.load hserving hopens hfirst
    obtain ⟨used₂, h₂, hused₂, haccepted₂⟩ := ih h₁ hrest
    refine ⟨used₁ ++ used₂, by rwa [← append_assoc], ?_, ?_⟩
    · rw [map_append, hused₁, hused₂, registered_cons]
    · rw [acceptedTables_cons, haccepted₁, haccepted₂, filter_append, map_append]

end Run

end MergedSSTableReader

/-! ## Looking up -/

section Lookup

variable [SSTableEnv]

/-- The tables of the set that `Lookup` asks for the key. -/
def SSTableReaderSet.consults (set : SSTableReaderSet) (key : Bytes) : List Nat :=
  match set.shardingMan with
  | none => set.tables.toList.map Prod.snd
  | some man =>
    match man.shard key with
    | .ok index => set.tables[index]?.toList
    | .error _ => []

/-- `Lookup` asks a table that has the key. -/
def SSTableReaderSet.Finds (set : SSTableReaderSet) (key : Bytes) (ts : List Table) : Prop :=
  ∃ i ∈ set.consults key, ∃ t, ts[i]? = some t ∧ key ∈ t.keySet

variable [SSTableReader ρ] {starts : Table → Bytes → Prop} {views : List (TableView ρ)}
  {ts : List Table} {tables : List ρ}

omit [SSTableEnv] in
theorem isSome_firstValue_iff {records : List Record} {key : Bytes} :
    (firstValue records key).isSome ↔ key ∈ (records.map Prod.fst).toFinset := by
  rw [firstValue, Option.isSome_map]
  simp

omit [SSTableEnv] in
theorem isSome_firstValue_iff_keySet (hviews : List.Forall₂ (Matches starts) views ts) {i : Nat}
    {v : TableView ρ} (hv : views[i]? = some v) {key : Bytes} :
    (firstValue v.records key).isSome ↔ ∃ t, ts[i]? = some t ∧ key ∈ t.keySet := by
  obtain ⟨t, ht, hmatches⟩ := forall₂_getElem? hviews hv
  rw [hmatches.1, isSome_firstValue_iff, ht]
  simp only [Option.some.injEq, exists_eq_left', Table.keySet]

theorem SSTableReaderSet.lookup_isSome {set : SSTableReaderSet} (key : Bytes)
    (hserve : Serve views tables) (hviews : List.Forall₂ (Matches starts) views ts)
    (hvalid : ∀ (index : Int) (i : Nat), set.tables[index]? = some i → i < tables.length)
    (hshards : ∀ man ∈ set.shardingMan, man.shardNum ≠ 0) :
    ∃ value tables', set.lookup key tables = .ok (value, tables') ∧ Serve views tables' ∧
      (value.isSome ↔ set.Finds key ts) := by
  have hview {index : Int} {i : Nat} (hi : set.tables[index]? = some i) :
      ∃ v, views[i]? = some v := by
    have hlt := hvalid index i hi
    rw [← List.Forall₂.length_eq hserve] at hlt
    exact ⟨views[i], List.getElem?_eq_getElem hlt⟩
  unfold lookup SSTableReaderSet.Finds consults
  cases hman : set.shardingMan with
  | none =>
    -- all tables are asked
    have hplaces : ∀ i ∈ set.tables.toList.map Prod.snd, ∃ v, views[i]? = some v := by
      intro i hi
      obtain ⟨⟨index, i⟩, hmem, rfl⟩ := mem_map.mp hi
      exact hview (mem_toList_iff_getElem?_eq_some.mp hmem)
    obtain ⟨vs, hvs⟩ := exists_forall₂ hplaces
    obtain ⟨tables', hloop, hserve'⟩ := lookupLoop_spec hserve key hvs none
    refine ⟨_, tables', hloop, hserve', ?_⟩
    have hsome : ((vs.filterMap fun v => firstValue v.records key).foldl offer none).isSome ↔
        ∃ v ∈ vs, (firstValue v.records key).isSome := by
      by_cases hnil : (vs.filterMap fun v => firstValue v.records key) = []
      · rw [hnil]
        refine iff_of_false (by simp) ?_
        rintro ⟨v, hv, hvalue⟩
        rw [filterMap_eq_nil_iff.mp hnil v hv] at hvalue
        cases hvalue
      · obtain ⟨value, -, hfold⟩ := foldl_offer_mem none hnil
        obtain ⟨value', hvalue'⟩ := exists_mem_of_ne_nil _ hnil
        obtain ⟨v, hv, hvalue⟩ := mem_filterMap.mp hvalue'
        exact iff_of_true (by rw [hfold]; rfl) ⟨v, hv, by rw [hvalue]; rfl⟩
    rw [hsome]
    constructor
    · rintro ⟨v, hv, hvalue⟩
      obtain ⟨i, hi, hvi⟩ := forall₂_mem_right hvs hv
      exact ⟨i, hi, (isSome_firstValue_iff_keySet hviews hvi).mp hvalue⟩
    · rintro ⟨i, hi, hfound⟩
      obtain ⟨v, hv, hvi⟩ := forall₂_mem_right hvs.flip hi
      exact ⟨v, hv, (isSome_firstValue_iff_keySet hviews hvi).mpr hfound⟩
  | some man =>
    have hnum := hshards man hman
    obtain ⟨index, hindex⟩ : ∃ index, man.shard key = .ok index := by
      rcases man with ⟨policyClass, num⟩
      cases policyClass
      exact ⟨_, if_neg hnum⟩
    simp only [hindex, ok_bind]
    cases hget : set.tables[index]? with
    | none => exact ⟨none, tables, rfl, hserve, by simp⟩
    | some i =>
      obtain ⟨v, hv⟩ := hview hget
      obtain ⟨tables', hlookup, hserve'⟩ := lookupIn_spec hserve hv key
      refine ⟨_, tables', hlookup, hserve', ?_⟩
      rw [isSome_firstValue_iff_keySet hviews hv]
      simp

namespace MergedSSTableReader

theorem lookupLoop_isSome {sets : List SSTableReaderSet} {key : Bytes}
    (hserve : Serve views tables) (hviews : List.Forall₂ (Matches starts) views ts)
    (hvalid : ∀ set ∈ sets, ∀ (index : Int) (i : Nat), set.tables[index]? = some i →
      i < views.length)
    (hshards : ∀ set ∈ sets, ∀ man ∈ set.shardingMan, man.shardNum ≠ 0) :
    ∃ value tables', lookupLoop key sets tables = .ok (value, tables') ∧
      (value.isSome ↔ ∃ set ∈ sets, set.Finds key ts) := by
  induction sets generalizing tables with
  | nil => exact ⟨none, tables, rfl, by simp⟩
  | cons set sets ih =>
    have hset := hvalid set mem_cons_self
    rw [List.Forall₂.length_eq hserve] at hset
    obtain ⟨value, tables₁, hlookup, hserve₁, hvalue⟩ := lookup_isSome key hserve
      hviews hset (hshards set mem_cons_self)
    rw [lookupLoop, hlookup]
    cases value with
    | some value =>
      exact ⟨some value, tables₁, rfl, iff_of_true rfl ⟨set, mem_cons_self, hvalue.mp rfl⟩⟩
    | none =>
      obtain ⟨value', tables', hrest, hvalue'⟩ := ih hserve₁
        (fun s hs => hvalid s (mem_cons_of_mem _ hs))
        (fun s hs => hshards s (mem_cons_of_mem _ hs))
      refine ⟨value', tables', hrest, ?_⟩
      rw [hvalue', exists_mem_cons_iff]
      tauto

variable {infos : List ShardInfo}

/-- A key is found exactly if one of the sets asks a table that has it. -/
theorem lookup_isSome {r : MergedSSTableReader ρ} (hserve : Serve views r.tables)
    (hviews : List.Forall₂ (Matches starts) views ts) (hgrouped : Grouped infos r.sets)
    (hconsistent : Consistent infos) (hlength : infos.length = r.tables.length) (key : Bytes) :
    ∃ value r', r.lookup key = .ok (value, r') ∧
      (value.isSome ↔ ∃ set ∈ r.sets.toList.map Prod.snd, set.Finds key ts) := by
  have hget {set : SSTableReaderSet} (hset : set ∈ r.sets.toList.map Prod.snd) :
      ∃ id, set.Holds infos id ∧ ∃ a ∈ infos, a.setId = id := by
    obtain ⟨⟨id, _⟩, hmem, rfl⟩ := mem_map.mp hset
    exact ⟨id, hgrouped.holds id _ (mem_toList_iff_getElem?_eq_some.mp hmem)⟩
  obtain ⟨value, tables', hloop, hvalue⟩ := @lookupLoop_isSome _ _ _ _ _ _ _
    (r.sets.toList.map Prod.snd) key hserve hviews
    (fun set hset index i hi => by
      obtain ⟨id, hholds, -⟩ := hget hset
      obtain ⟨a, ha, -⟩ := hholds.source index i hi
      rw [List.Forall₂.length_eq hserve, ← hlength]
      exact (List.getElem?_eq_some_iff.mp ha).1)
    (fun set hset man hman => by
      obtain ⟨id, hholds, a, ha, hid⟩ := hget hset
      rw [(hholds.made a ha hid).1] at hman
      obtain ⟨hne, hnum⟩ := ShardInfo.of_mem_sharding hman
      have hrange := hconsistent.range a ha hne
      omega)
  exact ⟨value, { r with tables := tables' }, by rw [lookup, hloop]; rfl, hvalue⟩

omit [SSTableReader ρ] in
/-- A set asks the tables that are not sharded, and those that are the shard of the key. -/
theorem mem_consults_iff {set : SSTableReaderSet} {id : Bytes} (h : set.Holds infos id)
    {key : Bytes} {i : Nat} :
    i ∈ set.consults key ↔ ∃ a : ShardInfo, infos[i]? = some a ∧ a.setId = id ∧ a.Asked key := by
  have hman {a : ShardInfo} (ha : infos[i]? = some a) (hid : a.setId = id) :
      set.shardingMan = a.sharding := (h.made a (mem_of_getElem? ha) hid).1
  unfold consults
  cases hcase : set.shardingMan with
  | none =>
    constructor
    · intro hi
      obtain ⟨⟨index, i⟩, hmem, rfl⟩ := mem_map.mp hi
      obtain ⟨a, ha, hid, -⟩ := h.source index i (mem_toList_iff_getElem?_eq_some.mp hmem)
      refine ⟨a, ha, hid, fun man hmem => ?_⟩
      rw [← hman ha hid, hcase] at hmem
      cases hmem
    · rintro ⟨a, ha, hid, -⟩
      obtain ⟨index, hi, -⟩ := h.complete i a ha hid
      exact mem_map.mpr ⟨(index, i), mem_toList_iff_getElem?_eq_some.mpr hi, rfl⟩
  | some man =>
    constructor
    · intro hi
      dsimp only at hi
      split at hi
      · rename_i index hshard
        obtain ⟨a, ha, hid, hindex⟩ := h.source index i (Option.mem_toList.mp hi)
        refine ⟨a, ha, hid, fun man' hmem => ?_⟩
        obtain ⟨hne, -⟩ := ShardInfo.of_mem_sharding hmem
        rw [← hman ha hid, hcase] at hmem
        rw [← Option.some.inj hmem, hindex (hid ▸ hne)]
        exact hshard
      · cases hi
    · rintro ⟨a, ha, hid, hasked⟩
      have hmem : man ∈ a.sharding := (hman ha hid).symm.trans hcase
      obtain ⟨index, hi, hindex⟩ := h.complete i a ha hid
      obtain ⟨hne, -⟩ := ShardInfo.of_mem_sharding hmem
      rw [hindex (hid ▸ hne)] at hi
      simp only [hasked man hmem]
      exact Option.mem_toList.mpr hi

omit [SSTableReader ρ] in
theorem Grouped.finds_iff {sets : Std.TreeMap Bytes SSTableReaderSet} (h : Grouped infos sets)
    (key : Bytes) :
    (∃ set ∈ sets.toList.map Prod.snd, set.Finds key ts) ↔
      ∃ (i : Nat) (a : ShardInfo) (t : Table), infos[i]? = some a ∧ ts[i]? = some t ∧
        a.Asked key ∧ key ∈ t.keySet := by
  constructor
  · rintro ⟨set, hset, i, hi, t, ht, hkey⟩
    obtain ⟨⟨id, _⟩, hmem, rfl⟩ := mem_map.mp hset
    obtain ⟨hholds, -⟩ := h.holds id _ (mem_toList_iff_getElem?_eq_some.mp hmem)
    obtain ⟨a, ha, -, hasked⟩ := (mem_consults_iff hholds).mp hi
    exact ⟨i, a, t, ha, ht, hasked, hkey⟩
  · rintro ⟨i, a, t, ha, ht, hasked, hkey⟩
    obtain ⟨set, hset⟩ := h.covers a (mem_of_getElem? ha)
    obtain ⟨hholds, -⟩ := h.holds _ set hset
    exact ⟨set, mem_map.mpr ⟨(_, set), mem_toList_iff_getElem?_eq_some.mpr hset, rfl⟩, i,
      (mem_consults_iff hholds).mpr ⟨a, ha, rfl, hasked⟩, t, ht, hkey⟩

end MergedSSTableReader

end Lookup

/-! ## What is used of an opened reader -/

namespace MergedSSTableReader

section Used

variable [SSTableEnv] [OfFile ρ] {starts : Table → Bytes → Prop} {r : MergedSSTableReader ρ}
  {used : List ((Impl × Table) × Bool)}

/-- A walk gives only keys of the accepted tables, and each of them is found by `Lookup`.
`EntryCount` is the number of entries of the accepted tables. -/
def UsesAccepted (r : MergedSSTableReader ρ) (accepted : List Table) : Prop :=
  (∃ xs, Lists r [] xs ∧ ∀ x ∈ xs, (∃ t ∈ accepted, x.1 ∈ t.keySet) ∧
    ∃ value r', r.lookup x.1 = .ok (some value, r')) ∧
  r.entryCount = int32 ((accepted.map fun t => t.records.length).sum : Nat)

/-- For each key of the tables, `Lookup` asks a table that has it. -/
def Placed (files : List (Impl × Table)) : Prop :=
  ∀ file ∈ files, ∀ key ∈ file.2.keySet,
    ∃ file' ∈ files, (ShardInfo.of file'.1).Asked key ∧ key ∈ file'.2.keySet

omit [SSTableEnv] in
theorem foldl_int32 (counts : List Nat) (n : Nat) :
    counts.foldl (fun (count : Int) (k : Nat) => int32 (count + k)) (int32 n) =
      int32 (n + counts.sum : Nat) := by
  induction counts generalizing n with
  | nil => rw [foldl_nil, sum_nil, add_zero]
  | cons k counts ih =>
    rw [foldl_cons, int32_int32_add, ← cast_add, ih, sum_cons, add_assoc]

omit [SSTableEnv] in
/-- All tables in `tables_` are counted. -/
theorem Tracks.entryCount_eq (h : Tracks starts r used) :
    r.entryCount = int32 ((used.map fun u => u.1.2.records.length).sum : Nat) := by
  have hfold : r.entryCount =
      (r.tables.map SSTableReader.entryCount).foldl (fun count k => int32 (count + k)) 0 := by
    rw [foldl_map]
    rfl
  have hsum := foldl_int32 (used.map fun u => u.1.2.records.length) 0
  rw [foldl_map, zero_add] at hsum
  rw [hfold, h.counts, foldl_map, ← hsum]
  rfl

omit [SSTableEnv] in
theorem Tracks.lists (h : Tracks starts r used) :
    ∃ xs, Lists r [] xs ∧ ∀ x, x ∈ xs ↔ ∃ u ∈ used, x ∈ u.1.2.records := by
  obtain ⟨views, hserve, hviews⟩ := h.serve
  have hlists : List.Forall₂ (fun t xs => Lists t [] xs) r.tables
      (views.map fun v => v.recordsFrom []) := by
    rw [forall₂_map_right_iff]
    exact hserve.flip.imp fun t v hserves => v.lists hserves []
  obtain ⟨xs, hxs, hinter, -⟩ := lists_tables hlists (by
    intro xs hxs
    obtain ⟨v, -, rfl⟩ := mem_map.mp hxs
    exact v.sorted_recordsFrom [])
  refine ⟨xs, hxs, fun x => ?_⟩
  rw [hinter.perm.mem_iff, mem_flatten]
  constructor
  · rintro ⟨ys, hys, hx⟩
    obtain ⟨v, hv, rfl⟩ := mem_map.mp hys
    obtain ⟨t, ht, hmatches⟩ := forall₂_mem_right hviews.flip hv
    obtain ⟨u, hu, rfl⟩ := mem_map.mp ht
    rw [v.recordsFrom_nil, hmatches.1] at hx
    exact ⟨u, hu, hx⟩
  · rintro ⟨u, hu, hx⟩
    obtain ⟨v, hv, hmatches⟩ := forall₂_mem_right hviews (mem_map_of_mem hu)
    refine ⟨_, mem_map_of_mem hv, ?_⟩
    rwa [v.recordsFrom_nil, hmatches.1]

omit [SSTableEnv] in
theorem mem_keySet {t : Table} {x : Record} (hx : x ∈ t.records) : x.1 ∈ t.keySet :=
  mem_toFinset.mpr (mem_map_of_mem hx)

/-- If no table is refused, what is left is that `Lookup` finds the keys. -/
theorem Tracks.usesAccepted_iff (h : Tracks starts r used) (haccepted : ∀ u ∈ used, u.2 = true) :
    r.UsesAccepted (used.map fun u => u.1.2) ↔ Placed (used.map Prod.fst) := by
  obtain ⟨xs, hxs, hmem⟩ := h.lists
  obtain ⟨views, hserve, hviews⟩ := h.serve
  have hgrouped := h.grouped haccepted
  have hlookup := lookup_isSome hserve hviews hgrouped (h.consistent.mp haccepted)
    h.length_eq
  have hfinds (key : Bytes) : (∃ set ∈ r.sets.toList.map Prod.snd,
      set.Finds key (used.map fun u => u.1.2)) ↔ ∃ file ∈ used.map Prod.fst,
        (ShardInfo.of file.1).Asked key ∧ key ∈ file.2.keySet := by
    rw [hgrouped.finds_iff]
    constructor
    · rintro ⟨i, a, t, ha, ht, hfound⟩
      obtain ⟨u, hu, rfl⟩ := Option.map_eq_some_iff.mp (getElem?_map.symm.trans ht)
      simp only [shardInfos, getElem?_map, hu, Option.map_some, Option.some.injEq] at ha
      exact ⟨u.1, mem_map_of_mem (mem_of_getElem? hu), ha ▸ hfound⟩
    · rintro ⟨file, hfile, hfound⟩
      obtain ⟨i, hi⟩ := mem_iff_getElem?.mp hfile
      obtain ⟨u, hu, rfl⟩ := Option.map_eq_some_iff.mp (getElem?_map.symm.trans hi)
      exact ⟨i, _, _, by simp [shardInfos, hu], by simp [hu], hfound⟩
  constructor
  · rintro ⟨⟨ys, hys, hkeys⟩, -⟩ file hfile key hkey
    obtain rfl := hys.unique hxs
    obtain ⟨x, hx, rfl⟩ := mem_map.mp (mem_toFinset.mp hkey)
    obtain ⟨u, hu, rfl⟩ := mem_map.mp hfile
    obtain ⟨-, value, r', hfound⟩ := hkeys x ((hmem x).mpr ⟨u, hu, hx⟩)
    obtain ⟨value', r'', hfound', hiff⟩ := hlookup x.1
    rw [hfound] at hfound'
    cases hfound'
    exact (hfinds x.1).mp (hiff.mp rfl)
  · intro hplaced
    refine ⟨⟨xs, hxs, fun x hx => ?_⟩, ?_⟩
    · obtain ⟨u, hu, hx⟩ := (hmem x).mp hx
      obtain ⟨value, r', hfound, hiff⟩ := hlookup x.1
      obtain ⟨value, rfl⟩ := Option.isSome_iff_exists.mp
        (hiff.mpr ((hfinds x.1).mpr (hplaced u.1 (mem_map_of_mem hu) x.1 (mem_keySet hx))))
      exact ⟨⟨u.1.2, mem_map_of_mem hu, mem_keySet hx⟩, value, r', hfound⟩
    · rw [h.entryCount_eq, map_map]
      rfl

/-- A refused table is counted. -/
theorem Tracks.all_accepted (h : Tracks starts r used)
    (htotal : (used.map fun u => u.1.2.records.length).sum < 2 ^ 32)
    (huses : r.UsesAccepted ((used.filter Prod.snd).map fun u => u.1.2)) :
    ∀ u ∈ used, u.2 = true := by
  have hcount := huses.2
  rw [h.entryCount_eq, map_map] at hcount
  have hmod := sub_emod_of_int32_eq hcount
  intro u hu
  by_contra hrefused
  have hperm := ((filter_append_perm Prod.snd used).map fun u => u.1.2.records.length).sum_nat
  rw [map_append, List.sum_append] at hperm
  have hmem : u ∈ used.filter fun u => !u.2 := mem_filter.mpr ⟨hu, by simpa using hrefused⟩
  have hle := le_sum_of_mem (mem_map_of_mem (f := fun u => u.1.2.records.length) hmem)
  obtain ⟨x, xs, hrecords⟩ := u.1.2.exists_records
  rw [hrecords, length_cons] at hle
  simp only [Function.comp_def] at hmod
  omega

omit [SSTableEnv] in
theorem Tracks.empty : Tracks starts ({} : MergedSSTableReader ρ) [] where
  serve := ⟨[], .nil, .nil⟩
  counts := rfl
  consistent := iff_of_true (forall_mem_nil _) ⟨forall_mem_nil _, .nil⟩
  grouped _ := ⟨fun id set hset => by simp at hset, forall_mem_nil _⟩

/-- When an opened reader uses only the accepted tables: the meta data of the files in `tables_` let
no set refuse one, and each key is where `Lookup` looks for it. The number of entries in `tables_`
must not wrap around to that of the accepted tables. -/
def UsesAcceptedIff (ρ : Type) [OfFile ρ] (fs : FileSystem) (paths : List Bytes)
    (opened : List (Option (Impl × Table))) : Prop :=
  ∀ (results : List Bool) (r : MergedSSTableReader ρ),
    loadAll fs allFull paths {} = .ok (results, r) →
    openAll fs paths true allFull = .ok (!r.tables.isEmpty, r) ∧
    (((registered opened).map fun file => file.2.records.length).sum < 2 ^ 32 ∨
        Consistent (shardInfos (registered opened)) →
      (r.UsesAccepted (acceptedTables opened results) ↔
        Consistent (shardInfos (registered opened)) ∧ Placed (registered opened)))

theorem usesAcceptedIff (hserving : Serving ρ starts) {fs : FileSystem} {paths : List Bytes}
    {opened : List (Option (Impl × Table))} (hopens : List.Forall₂ (Opens fs) paths opened) :
    UsesAcceptedIff ρ fs paths opened := by
  intro results r hload
  obtain ⟨used, htracks, hused, haccepted⟩ := Tracks.empty.loadAll hserving hopens hload
  rw [nil_append] at htracks
  have hconsistent := htracks.consistent
  rw [hused] at hconsistent
  have hall (hall : ∀ u ∈ used, u.2 = true) :
      acceptedTables opened results = used.map fun u => u.1.2 := by
    rw [haccepted, filter_eq_self.mpr hall]
  refine ⟨by rw [openAll, openLoop_eq_loadAll, hload]; rfl, fun htotal => ⟨fun huses => ?_, ?_⟩⟩
  · have hall' : ∀ u ∈ used, u.2 = true := by
      refine htotal.elim (fun hlt => htracks.all_accepted ?_ (haccepted ▸ huses)) hconsistent.mpr
      rw [← hused, map_map] at hlt
      exact hlt
    refine ⟨hconsistent.mp hall', ?_⟩
    rw [hall hall'] at huses
    exact hused ▸ (htracks.usesAccepted_iff hall').mp huses
  · rintro ⟨hconsistent', hplaced⟩
    have hall' := hconsistent.mpr hconsistent'
    rw [hall hall', htracks.usesAccepted_iff hall', hused]
    exact hplaced

end Used

/-- **Rejected tables.** In both read modes, an opened reader uses only the accepted tables exactly
if the meta data let no set refuse a table, and `Lookup` asks a table with the key for each key of a
table. -/
theorem rejected_unused_iff [SSTableEnv] {fs : FileSystem} {paths : List Bytes}
    {opened : List (Option (Impl × Table))} (hopens : List.Forall₂ (Opens fs) paths opened) :
    UsesAcceptedIff OnDiskSSTableReader fs paths opened ∧
      UsesAcceptedIff InMemorySSTableReader fs paths opened :=
  ⟨usesAcceptedIff serving hopens, usesAcceptedIff InMemorySSTableReader.serving hopens⟩

/-! ### Two tables in one set -/

/-- The meta data of one of two shards without a sharding policy. -/
def halfShard (index : Nat) : List Record :=
  [(kSSTableSetID, ascii "s"), (kShardTotalNum, decimal 2), (kShardID, decimal index)]

/-- A table with one entry and that meta data. -/
structure IsHalf (index : Nat) (impl : Impl) : Prop where
  entries : impl.entryCount = 1
  metas : impl.fileInfo.metaItems = halfShard index

/-- The set of the first table. -/
def firstHalf : SSTableReaderSet where
  setId := ascii "s"
  shardingPolicy := []
  numShard := 2
  tables := (∅ : Std.TreeMap Int Nat).insert 0 0

section Example

variable {index : Nat}

theorem IsHalf.getMetaData_eq {impl : Impl} (h : IsHalf index impl) :
    impl.getMetaData kSSTableSetID = ascii "s" ∧ impl.getMetaData kShardPolicy = [] ∧
      impl.getMetaData kShardTotalNum = decimal 2 ∧ impl.getMetaData kShardID = decimal index := by
  simp only [Impl.getMetaData_eq, h.metas]
  exact ⟨rfl, rfl, rfl, rfl⟩

theorem IsHalf.info {impl : Impl} (h : IsHalf index impl) (hindex : index < 2 ^ 31) :
    registers impl = true ∧ ShardInfo.of impl = ⟨ascii "s", [], 2, index⟩ := by
  obtain ⟨hid, hpolicy, hnum, hshard⟩ := h.getMetaData_eq
  rw [registers, ShardInfo.of, h.entries, hid, hpolicy, hnum, hshard,
    stringToNumber_decimal (by decide), stringToNumber_decimal hindex]
  exact ⟨rfl, rfl⟩

variable [OfFile ρ] {sstable : ρ} (h : IsHalf index (OfFile.impl sstable))
  (hindex : index < 2 ^ 31)
include h hindex

theorem addTable_half (r : MergedSSTableReader ρ) :
    r.addTable sstable = do
      let set ← r.findSet (ascii "s") [] 2
      let (result, set) ← set.addSSTableReader r.tables.length (ascii "s") [] 2 index
      return (result,
        { tables := r.tables ++ [sstable], sets := r.sets.insert (ascii "s") set }) := by
  obtain ⟨hid, hpolicy, hnum, hshard⟩ := h.getMetaData_eq
  rw [addTable, if_neg (by rw [SSTableReader.entryCount, h.entries]; decide)]
  simp only [getMetaData, hid, hpolicy, hnum, hshard, stringToNumber_decimal hindex,
    stringToNumber_decimal (show 2 < 2 ^ 31 by decide), Bool.not_true, Bool.or_self,
    Bool.false_and, Bool.false_eq_true, ite_false]
  rfl

theorem addTable_second {r : MergedSSTableReader ρ} (hset : r.sets[ascii "s"]? = some firstHalf)
    {accepted : Bool} {set' : SSTableReaderSet}
    (hadd : firstHalf.addSSTableReader r.tables.length (ascii "s") [] 2 index =
      .ok (accepted, set')) :
    r.addTable sstable = .ok (accepted,
      { tables := r.tables ++ [sstable], sets := r.sets.insert (ascii "s") set' }) := by
  have hfind : r.findSet (ascii "s") [] 2 = .ok firstHalf := by rw [findSet, hset]
  rw [addTable_half h hindex, hfind, ok_bind, hadd]
  rfl

end Example

theorem fits_half {key : Bytes} {index : Nat}
    (h : (key, index) ∈ [(ascii "a", 0), (ascii "b", 0), (ascii "b", 1)]) :
    letI := inverting
    ((oneRecord key (ascii "x")).file (halfShard index)).Fits (halfShard index) := by
  let _ := inverting
  simp only [mem_cons, Prod.mk.injEq, not_mem_nil, or_false] at h
  rcases h with ⟨rfl, rfl⟩ | ⟨rfl, rfl⟩ | ⟨rfl, rfl⟩
  all_goals exact ⟨trivial, cons_ne_nil _ _,
    ⟨by decide, by decide, by decide, by decide, by decide⟩,
    by decide, by decide +kernel, rfl, by decide +kernel, by decide, by decide⟩

/-- Files with the first shard and with a table of the given index, and a path without a file. The
second table is refused if its index is that of the first. -/
theorem exists_half {index : Nat} (hindex : index = 0 ∨ index = 1) :
    letI := inverting
    ∃ (fs : FileSystem) (impl₁ impl₂ : Impl) (r : MergedSSTableReader OnDiskSSTableReader),
      Opens fs (ascii "1") (some (impl₁, oneRecord (ascii "a") (ascii "x"))) ∧
      Opens fs (ascii "2") (some (impl₂, oneRecord (ascii "b") (ascii "x"))) ∧
      Opens fs (ascii "3") none ∧ IsHalf 0 impl₁ ∧ IsHalf index impl₂ ∧
      loadAll fs allFull [ascii "1", ascii "2"] {} = .ok ([true, index == 1], r) ∧
      r.tables.isEmpty = false ∧ r.entryCount = 2 := by
  let _ := inverting
  obtain ⟨impl₁, impl₂, hload₁, hload₂, hmetas₁, hmetas₂⟩ := loadsTable_twoFiles
    BlockCompression.lossless_inverting (@fits_half (ascii "a") 0 (by simp))
    (@fits_half (ascii "b") index (by rcases hindex with rfl | rfl <;> simp)) (by decide)
    (by decide)
  obtain ⟨t₁, -, pos₁, hopen₁, himpl₁, -⟩ := serving hload₁
  obtain ⟨t₂, -, pos₂, hopen₂, himpl₂, -⟩ := serving hload₂
  have hhalf₁ : IsHalf 0 impl₁ := ⟨hload₁.entryCount, hmetas₁⟩
  have hhalf₂ : IsHalf index impl₂ := ⟨hload₂.entryCount, hmetas₂⟩
  have hone : IsHalf 0 (OfFile.impl t₁) := by
    rw [himpl₁]
    exact ⟨hhalf₁.entries, hhalf₁.metas⟩
  have htwo : IsHalf index (OfFile.impl t₂) := by
    rw [himpl₂]
    exact ⟨hhalf₂.entries, hhalf₂.metas⟩
  let sets := (∅ : Std.TreeMap Bytes SSTableReaderSet).insert (ascii "s") firstHalf
  have hfirst : addTable {} t₁ = .ok (true, { tables := [t₁], sets }) := by
    rw [@addTable_half _ _ _ t₁ hone (by decide)]
    rfl
  obtain ⟨set, hadd⟩ : ∃ set, firstHalf.addSSTableReader 1 (ascii "s") [] 2 index =
      .ok (index == 1, set) := by
    rcases hindex with rfl | rfl <;> exact ⟨_, rfl⟩
  have hsecond := @addTable_second _ _ _ t₂ htwo (by omega) { tables := [t₁], sets }
    getElem?_insert_self _ _ hadd
  refine ⟨_, impl₁, impl₂, { tables := [t₁, t₂], sets := sets.insert (ascii "s") set }, hload₁,
    hload₂, rfl, hhalf₁, hhalf₂, ?_, rfl, ?_⟩
  · simp only [loadAll, loadSSTableReader, hopen₁, hopen₂, ok_bind, pure_eq_ok, hfirst, hsecond]
    rfl
  · simp only [entryCount, foldl_cons, foldl_nil, SSTableReader.entryCount, hone.entries,
      htwo.entries]
    decide

/-- A path that does not open is ignored, and both shards are used. -/
theorem rejected_unused_missing :
    letI := inverting
    ∃ (fs : FileSystem) (r : MergedSSTableReader OnDiskSSTableReader),
      openAll fs [ascii "3", ascii "1", ascii "2"] true allFull = .ok (true, r) ∧
      r.UsesAccepted [oneRecord (ascii "a") (ascii "x"), oneRecord (ascii "b") (ascii "x")] := by
  let _ := inverting
  obtain ⟨fs, impl₁, impl₂, r, hopens₁, hopens₂, hopens₃, hhalf₁, hhalf₂, hload, htables, -⟩ :=
    exists_half (.inr rfl)
  let opened := [none, some (impl₁, oneRecord (ascii "a") (ascii "x")),
    some (impl₂, oneRecord (ascii "b") (ascii "x"))]
  have hopens : List.Forall₂ (Opens fs) [ascii "3", ascii "1", ascii "2"] opened :=
    .cons hopens₃ (.cons hopens₁ (.cons hopens₂ .nil))
  have hload : loadAll fs allFull [ascii "3", ascii "1", ascii "2"] {} =
      .ok ([false, true, true], r) := by
    rw [loadAll, loadSSTableReader, openFile_of_opens_none hopens₃, ok_bind, pure_eq_ok, ok_bind]
    simp only [hload]
    rfl
  obtain ⟨hopen, hiff⟩ := (rejected_unused_iff hopens).1 _ _ hload
  obtain ⟨hregisters₁, hinfo₁⟩ := hhalf₁.info (by decide)
  obtain ⟨hregisters₂, hinfo₂⟩ := hhalf₂.info (by decide)
  have hfiles : registered opened = [(impl₁, oneRecord (ascii "a") (ascii "x")),
      (impl₂, oneRecord (ascii "b") (ascii "x"))] := by
    simp [registered, opened, Option.filter, hregisters₁, hregisters₂]
  have hinfos : shardInfos (registered opened) =
      [⟨ascii "s", [], 2, 0⟩, ⟨ascii "s", [], 2, 1⟩] := by
    rw [hfiles, shardInfos, map_cons, map_cons, hinfo₁, hinfo₂]
    rfl
  have hconsistent : Consistent (shardInfos (registered opened)) := by
    rw [hinfos]
    exact ⟨by simp [ShardInfo.InRange], by simp [ShardInfo.Agree]⟩
  rw [htables] at hopen
  refine ⟨fs, r, hopen, (hiff (.inr hconsistent)).mpr ⟨hconsistent, ?_⟩⟩
  rw [hfiles]
  intro file hfile key hkey
  refine ⟨file, hfile, ?_, hkey⟩
  rcases mem_cons.mp hfile with rfl | hfile
  · rw [hinfo₁]
    rintro man ⟨⟩
  · rw [mem_singleton.mp hfile, hinfo₂]
    rintro man ⟨⟩

/-- The second table has the index of the first one: its set refuses it, and its entry is counted
all the same. -/
theorem rejected_used :
    letI := inverting
    ∃ (fs : FileSystem) (impl₁ impl₂ : Impl) (r : MergedSSTableReader OnDiskSSTableReader),
      List.Forall₂ (Opens fs) [ascii "1", ascii "2"]
        [some (impl₁, oneRecord (ascii "a") (ascii "x")),
          some (impl₂, oneRecord (ascii "b") (ascii "x"))] ∧
      loadAll fs allFull [ascii "1", ascii "2"] {} = .ok ([true, false], r) ∧
      openAll fs [ascii "1", ascii "2"] true allFull = .ok (true, r) ∧
      r.entryCount = 2 ∧ ¬ r.UsesAccepted [oneRecord (ascii "a") (ascii "x")] := by
  let _ := inverting
  obtain ⟨fs, impl₁, impl₂, r, hopens₁, hopens₂, -, -, -, hload, htables, hcount⟩ :=
    exists_half (.inl rfl)
  refine ⟨fs, impl₁, impl₂, r, .cons hopens₁ (.cons hopens₂ .nil), hload, ?_, hcount, ?_⟩
  · rw [openAll, openLoop_eq_loadAll, hload, ok_bind, htables]
    rfl
  · rintro ⟨-, hcount'⟩
    rw [hcount] at hcount'
    exact absurd hcount' (by decide)

end MergedSSTableReader

end Toft

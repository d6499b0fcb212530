import Toft.Base.Number
import Toft.Storage.SSTable.Reader.Merged

/-!
# Opening several tables, and looking up a key in them

`MergedSSTableReader::Open` sorts the tables into sets by the set id in their meta data. In a set
with a sharding policy a key is looked up in the table of its shard only.
-/

namespace Toft

open Lib SSTableReader Std.TreeMap Std.LawfulEqOrd SSTableReaderSet

def kShardID : Bytes := ascii "shard_id"
def kShardTotalNum : Bytes := ascii "shard_total_num"
def kShardPolicy : Bytes := ascii "shard_policy"
def kSSTableSetID : Bytes := ascii "shard_set_id"

def ignoreSSTableSetid : Bool := false

def tolerateSSTableOpenFailure : Bool := false

namespace SSTableReaderSet

def create (setId shardingPolicy : Bytes) (numShard : Int) : Except Fault SSTableReaderSet :=
  let set : SSTableReaderSet :=
    { setId := setId, shardingPolicy := shardingPolicy, numShard := numShard }
  if shardingPolicy.isEmpty then .ok set
  else match ShardingPolicy.create shardingPolicy with
  | none => .error .fatal
  | some man => .ok { set with shardingMan := some (man.setShardingNumber numShard) }

def addSSTableReader (set : SSTableReaderSet) (sstable : Nat) (setId shardingPolicy : Bytes)
    (numShard index : Int) : Except Fault (Bool × SSTableReaderSet) :=
  if setId ≠ set.setId then .error .fatal
  else if setId.isEmpty then
    .ok (true, { set with tables := set.tables.insert set.tables.size sstable })
  else if shardingPolicy ≠ set.shardingPolicy then .ok (false, set)
  else if numShard ≠ set.numShard then .ok (false, set)
  else if index ∈ set.tables then .ok (false, set)
  else if index < 0 ∨ numShard ≤ index then .ok (false, set)
  else .ok (true, { set with tables := set.tables.insert index sstable })

variable {ρ : Type} [SSTableReader ρ]

/-- `Lookup` in one table of the set. -/
def lookupIn (tables : List ρ) (sstable : Nat) (key : Bytes) :
    Except Fault (Option Bytes × List ρ) :=
  match tables[sstable]? with
  | none => .error .nullPointer
  | some table => do
    let (value, table) ← SSTableReader.lookup table key
    return (value, tables.set sstable table)

/-- The loop of `Lookup` without a sharding policy; `best` is the value found so far. -/
def lookupLoop (key : Bytes) : List Nat → List ρ → Option Bytes →
    Except Fault (Option Bytes × List ρ)
  | [], tables, best => .ok (best, tables)
  | sstable :: rest, tables, best => do
    let (value, tables) ← lookupIn tables sstable key
    match value with
    | none => lookupLoop key rest tables best
    | some value =>
      -- `value->empty() || *value > tmp_value`, where `value` is empty as long as nothing is found
      if best.getD [] = [] ∨ value < best.getD [] then lookupLoop key rest tables (some value)
      else lookupLoop key rest tables best

/-- `Lookup`: the value, if it returns true. -/
def lookup [SSTableEnv] (set : SSTableReaderSet) (key : Bytes) (tables : List ρ) :
    Except Fault (Option Bytes × List ρ) :=
  match set.shardingMan with
  | none => lookupLoop key (set.tables.toList.map Prod.snd) tables none
  | some man => do
    match set.tables[← man.shard key]? with
    | none => return (none, tables)
    | some sstable => lookupIn tables sstable key

end SSTableReaderSet

namespace MergedSSTableReader

variable {ρ : Type}

section Model

variable [OfFile ρ]

/-- The set that `LoadSSTableReader` puts a table into. -/
def findSet (r : MergedSSTableReader ρ) (setId policy : Bytes) (numShard : Int) :
    Except Fault SSTableReaderSet :=
  match r.sets[setId]? with
  | some set => .ok set
  | none =>
    if setId.isEmpty then
      if ignoreSSTableSetid then create [] policy numShard
      else create [] [] 0
    else create setId policy numShard

/-- `LoadSSTableReader`, once the file is open. A table that its set refuses stays in `tables_`. -/
def addTable (r : MergedSSTableReader ρ) (sstable : ρ) :
    Except Fault (Bool × MergedSSTableReader ρ) :=
  if entryCount sstable = 0 then .ok (false, r)
  else
    let setId := getMetaData sstable kSSTableSetID
    let policy := getMetaData sstable kShardPolicy
    let (numOk, numShard) := stringToNumber (getMetaData sstable kShardTotalNum) 0
    let (idOk, shardId) := stringToNumber (getMetaData sstable kShardID) (-1)
    if (!numOk || !idOk) && !setId.isEmpty then .ok (false, r)
    else do
      let set ← r.findSet setId policy numShard
      let (result, set) ← set.addSSTableReader r.tables.length setId policy numShard shardId
      return (result, { tables := r.tables ++ [sstable], sets := r.sets.insert setId set })

variable [Host]

def loadSSTableReader (r : MergedSSTableReader ρ) (fs : FileSystem) (path : Bytes)
    (io : Schedule) : Except Fault (Bool × MergedSSTableReader ρ) := do
  match ← openFile ρ fs path io with
  | none => return (false, r)
  | some sstable => r.addTable sstable

def openLoop (fs : FileSystem) (ignoreBadFiles : Bool) (io : Schedule) :
    List Bytes → MergedSSTableReader ρ → Except Fault (Bool × MergedSSTableReader ρ)
  | [], r => .ok (!r.tables.isEmpty, r)
  | path :: paths, r => do
    let (loaded, r) ← r.loadSSTableReader fs path io
    if !loaded && !ignoreBadFiles then return (false, r)
    else openLoop fs ignoreBadFiles io paths r

/-- `Open` with all arguments, which forgets what was open before. -/
def openAll (fs : FileSystem) (paths : List Bytes) (ignoreBadFiles : Bool) (io : Schedule) :
    Except Fault (Bool × MergedSSTableReader ρ) :=
  openLoop fs ignoreBadFiles io paths {}

def openPaths (fs : FileSystem) (paths : List Bytes) (io : Schedule) :
    Except Fault (Bool × MergedSSTableReader ρ) :=
  openAll fs paths tolerateSSTableOpenFailure io

end Model

def lookupLoop [SSTableEnv] [SSTableReader ρ] (key : Bytes) : List SSTableReaderSet → List ρ →
    Except Fault (Option Bytes × List ρ)
  | [], tables => .ok (none, tables)
  | set :: rest, tables => do
    let (value, tables) ← set.lookup key tables
    match value with
    | some value => return (some value, tables)
    | none => lookupLoop key rest tables

/-- `Lookup`: the value, if it returns true. -/
def lookup [SSTableEnv] [SSTableReader ρ] (r : MergedSSTableReader ρ) (key : Bytes) :
    Except Fault (Option Bytes × MergedSSTableReader ρ) := do
  let (value, tables) ← lookupLoop key (r.sets.toList.map Prod.snd) r.tables
  return (value, { r with tables := tables })

/-! ## Sets that are filled in order -/

/-- The first `n` tables, each at its place. -/
def placed (n : Nat) : Std.TreeMap Int Nat :=
  (List.range n).foldl (fun tables (i : Nat) => tables.insert i i) ∅

theorem placed_succ (n : Nat) : placed (n + 1) = (placed n).insert n n := by
  simp only [placed, List.range_succ, List.foldl_append, List.foldl_cons, List.foldl_nil]

theorem getElem?_placed (n : Nat) (i : Int) :
    (placed n)[i]? = if 0 ≤ i ∧ i < n then some i.toNat else none := by
  induction n with
  | zero =>
    rw [if_neg (by omega)]
    rfl
  | succ n ih =>
    rw [placed_succ, getElem?_insert, ih]
    by_cases hi : (n : Int) = i
    · simp [← hi]
    · have hne : ¬ compare (n : Int) i = .eq := fun h => hi (eq_of_compare h)
      rw [if_neg hne]
      split <;> split <;> first | rfl | omega

theorem notMem_placed (n : Nat) : (n : Int) ∉ placed n := by
  rw [mem_iff_isSome_getElem?, getElem?_placed, if_neg (by omega)]
  exact Bool.false_ne_true

theorem size_placed (n : Nat) : (placed n).size = n := by
  induction n with
  | zero => rfl
  | succ n ih =>
    rw [placed_succ, size_insert, ih, if_neg]
    exact notMem_placed n

/-! ## Tables without a set id -/

section Plain

variable [OfFile ρ] {r : MergedSSTableReader ρ} {sstable : ρ}

/-- The set of `n` tables without a set id. -/
def plainSet (n : Nat) : SSTableReaderSet where
  setId := []
  shardingPolicy := []
  numShard := 0
  tables := placed n

/-- All tables are in the set without a set id. -/
def Plain (r : MergedSSTableReader ρ) : Prop :=
  ∀ s : Bytes, r.sets[s]? = if s = [] ∧ r.tables ≠ [] then some (plainSet r.tables.length) else none

omit [OfFile ρ] in
theorem findSet_nil (h : r.Plain) (policy : Bytes) (numShard : Int) :
    r.findSet [] policy numShard = .ok (plainSet r.tables.length) := by
  unfold findSet
  rw [h]
  by_cases hnil : r.tables = []
  · rw [hnil]
    rfl
  · rw [if_pos ⟨rfl, hnil⟩]

theorem addTable_plain (h : r.Plain) (hcount : entryCount sstable ≠ 0)
    (hset : getMetaData sstable kSSTableSetID = []) :
    ∃ r', r.addTable sstable = .ok (true, r') ∧ r'.tables = r.tables ++ [sstable] ∧ r'.Plain := by
  have hadd : (plainSet r.tables.length).addSSTableReader r.tables.length []
      (getMetaData sstable kShardPolicy)
      (stringToNumber (getMetaData sstable kShardTotalNum) 0).2
      (stringToNumber (getMetaData sstable kShardID) (-1)).2 =
        .ok (true, plainSet (r.tables.length + 1)) := by
    simp only [addSSTableReader, plainSet, ne_eq, not_true_eq_false, ite_false,
      List.isEmpty_nil, ite_true, size_placed, placed_succ]
  unfold addTable
  rw [if_neg hcount]
  simp only [hset, List.isEmpty_nil, Bool.not_true, Bool.and_false, Bool.false_eq_true, ite_false,
    findSet_nil h, ok_bind, hadd, pure_eq_ok]
  refine ⟨_, rfl, rfl, fun s => ?_⟩
  rw [getElem?_insert, h]
  by_cases hs : s = []
  · subst hs
    simp
  · have hne : ¬ compare ([] : Bytes) s = .eq := fun h => hs (eq_of_compare h).symm
    simp [hs, hne]

/-- Tables that open, have entries and no set id are the tables of the merged reader. Paths that do
not open are left out, if bad files are ignored. -/
theorem openAll_plain [Host] {fs : FileSystem} {io : Schedule} {paths : List Bytes}
    {opened : List (Option ρ)} {ignoreBadFiles : Bool}
    (h : List.Forall₂ (fun path t => openFile ρ fs path io = .ok t ∧
      ∀ sstable ∈ t, entryCount sstable ≠ 0 ∧ getMetaData sstable kSSTableSetID = []) paths opened)
    (hignore : ignoreBadFiles = true ∨ none ∉ opened) :
    ∃ r : MergedSSTableReader ρ,
      openAll fs paths ignoreBadFiles io = .ok (!(opened.filterMap id).isEmpty, r) ∧
      r.tables = opened.filterMap id ∧ r.Plain := by
  suffices hloop : ∀ r : MergedSSTableReader ρ, r.Plain → ∃ r' : MergedSSTableReader ρ,
      openLoop fs ignoreBadFiles io paths r = .ok (!(r.tables ++ opened.filterMap id).isEmpty, r') ∧
      r'.tables = r.tables ++ opened.filterMap id ∧ r'.Plain by
    exact hloop {} fun s => by simp
  intro r hr
  induction h generalizing r with
  | nil =>
    rw [List.filterMap_nil, List.append_nil]
    exact ⟨r, rfl, rfl, hr⟩
  | @cons path t paths opened ht _ ih =>
    have hignore' : ignoreBadFiles = true ∨ none ∉ opened :=
      hignore.imp_right fun hmem hmem' => hmem (List.mem_cons_of_mem _ hmem')
    obtain ⟨hopen, hplain⟩ := ht
    rw [openLoop, loadSSTableReader, hopen]
    cases t with
    | none =>
      obtain rfl : ignoreBadFiles = true :=
        hignore.resolve_right fun hmem => hmem List.mem_cons_self
      obtain ⟨r', hloop, htables, hr'⟩ := ih hignore' r hr
      refine ⟨r', ?_, by simpa using htables, hr'⟩
      simpa using hloop
    | some sstable =>
      obtain ⟨hcount, hset⟩ := hplain sstable rfl
      obtain ⟨r₁, hadd, htables, hr₁⟩ := addTable_plain hr hcount hset
      obtain ⟨r', hloop, htables', hr'⟩ := ih hignore' r₁ hr₁
      rw [htables, List.append_assoc] at hloop htables'
      refine ⟨r', ?_, htables', hr'⟩
      simp only [ok_bind, hadd, Bool.not_true, Bool.false_and, Bool.false_eq_true, ite_false, hloop]
      rfl

end Plain

/-! ## The shards of one table -/

section Sharded

variable (setId policy : Bytes) (n : Nat) (man : ShardingPolicy)

/-- The set with the first `k` shards. -/
def shardSet (k : Nat) : SSTableReaderSet where
  setId := setId
  shardingPolicy := policy
  numShard := n
  tables := (List.range k).foldl (fun tables (i : Nat) => tables.insert i i) ∅
  shardingMan := some (man.setShardingNumber n)

theorem getElem?_shardSet_tables (k : Nat) (j : Nat) :
    (shardSet setId policy n man k).tables[(j : Int)]? = if j < k then some j else none := by
  rw [show (shardSet setId policy n man k).tables = placed k from rfl, getElem?_placed]
  simp

/-- The reader of shard `i`. -/
structure IsShard [OfFile ρ] (t : ρ) (i : Nat) : Prop where
  entries : entryCount t ≠ 0
  setId_eq : getMetaData t kSSTableSetID = setId
  policy_eq : getMetaData t kShardPolicy = policy
  total : getMetaData t kShardTotalNum = decimal n
  shard : getMetaData t kShardID = decimal i

/-- The first `k` shards are loaded. -/
structure Loaded (t : Nat → ρ) (k : Nat) (r : MergedSSTableReader ρ) : Prop where
  tables : r.tables = (List.range k).map t
  sets : ∀ s, r.sets[s]? =
    if s = setId ∧ 0 < k then some (shardSet setId policy n man k) else none

variable {setId policy n man} [OfFile ρ] {t : Nat → ρ} {k : Nat} {r : MergedSSTableReader ρ}

section

variable (hset : setId ≠ []) (hman : ShardingPolicy.create policy = some man)
include hset hman

theorem addTable_shard (hn : n < 2 ^ 31) (hk : k < n) (h : Loaded setId policy n man t k r)
    (hshard : IsShard setId policy n (t k) k) :
    ∃ r', r.addTable (t k) = .ok (true, r') ∧ Loaded setId policy n man t (k + 1) r' := by
  have hpolicy : policy.isEmpty = false := by
    rw [List.isEmpty_eq_false_iff]
    rintro rfl
    cases hman
  have hempty : setId.isEmpty = false := List.isEmpty_eq_false_iff.mpr hset
  have hfind : r.findSet setId policy n = .ok (shardSet setId policy n man k) := by
    rw [findSet, h.sets]
    rcases Nat.eq_zero_or_pos k with rfl | hpos
    · simp only [Nat.lt_irrefl, and_false, ite_false, hempty, Bool.false_eq_true,
        create, hpolicy, hman]
      rfl
    · rw [if_pos ⟨rfl, hpos⟩]
  have hnew : ((k : Nat) : Int) ∉ (shardSet setId policy n man k).tables := notMem_placed k
  have hadded : (shardSet setId policy n man k).addSSTableReader k setId policy n k =
      .ok (true, shardSet setId policy n man (k + 1)) := by
    have hsucc : (shardSet setId policy n man (k + 1)).tables =
        (shardSet setId policy n man k).tables.insert k k := placed_succ k
    have hrange : ¬ ((k : Int) < 0 ∨ (n : Int) ≤ k) := by omega
    rw [addSSTableReader, if_neg (fun hne => hne rfl), hempty,
      if_neg Bool.false_ne_true, if_neg (fun hne => hne rfl), if_neg (fun hne => hne rfl),
      if_neg hnew, if_neg hrange, ← hsucc]
    rfl
  have hlength : r.tables.length = k := by simp [h.tables]
  refine ⟨{ tables := r.tables ++ [t k]
            sets := r.sets.insert setId (shardSet setId policy n man (k + 1)) }, ?_, ?_, ?_⟩
  · simp only [addTable, if_neg hshard.entries, hshard.setId_eq, hshard.policy_eq, hshard.total,
      hshard.shard, stringToNumber_decimal hn, stringToNumber_decimal (hk.trans hn), hfind, ok_bind,
      hlength, hadded, pure_eq_ok, Bool.not_true, Bool.or_self, Bool.false_and, Bool.false_eq_true,
      ite_false]
  · rw [h.tables, List.range_succ, List.map_append]
    rfl
  · intro s
    rw [getElem?_insert, h.sets]
    by_cases hs : s = setId
    · simp [hs]
    · have hne : ¬ compare setId s = .eq := fun h => hs (eq_of_compare h).symm
      simp [hs, hne]

theorem openLoop_shards [Host] (hn : n < 2 ^ 31) {fs : FileSystem}
    {io : Schedule} {path : Nat → Bytes} (ignoreBadFiles : Bool)
    (hopen : ∀ i < n, openFile ρ fs (path i) io = .ok (some (t i)) ∧
      IsShard setId policy n (t i) i) (m : Nat) (hm : k + m = n)
    (h : Loaded setId policy n man t k r) :
    ∃ r', openLoop fs ignoreBadFiles io ((List.range' k m).map path) r =
        .ok (!r'.tables.isEmpty, r') ∧ Loaded setId policy n man t n r' := by
  induction m generalizing k r with
  | zero =>
    obtain rfl : k = n := hm
    exact ⟨r, rfl, h⟩
  | succ m ih =>
    obtain ⟨hfile, hshard⟩ := hopen k (by omega)
    obtain ⟨r₁, hadd, h₁⟩ := addTable_shard hset hman hn (by omega) h hshard
    obtain ⟨r', hloop, h'⟩ := ih (by omega) h₁
    refine ⟨r', ?_, h'⟩
    rw [List.range'_succ, List.map_cons, openLoop, loadSSTableReader, hfile]
    simp only [ok_bind, hadd, Bool.not_true, Bool.false_and, Bool.false_eq_true, ite_false, hloop]

/-- The shards of a table make up the merged reader. -/
theorem openAll_shards [Host] (hpos : 0 < n) (hn : n < 2 ^ 31)
    {fs : FileSystem} {io : Schedule} {path : Nat → Bytes} (ignoreBadFiles : Bool)
    (hopen : ∀ i < n, openFile ρ fs (path i) io = .ok (some (t i)) ∧
      IsShard setId policy n (t i) i) :
    ∃ r, openAll fs ((List.range n).map path) ignoreBadFiles io = .ok (true, r) ∧
      Loaded setId policy n man t n r := by
  obtain ⟨r, hloop, h⟩ := openLoop_shards (k := 0) hset hman hn ignoreBadFiles hopen n
    (Nat.zero_add n) (r := {}) ⟨rfl, fun s => by simp⟩
  refine ⟨r, ?_, h⟩
  have hne : ((List.range n).map t).isEmpty = false := by
    rw [List.isEmpty_eq_false_iff, ← List.length_pos_iff]
    simpa using hpos
  rw [openAll, List.range_eq_range', hloop, h.tables, hne]
  rfl

end

omit [OfFile ρ] in
theorem Loaded.toList_sets (h : Loaded setId policy n man t n r) (hpos : 0 < n) :
    r.sets.toList = [(setId, shardSet setId policy n man n)] := by
  have hequiv : r.sets.Equiv
      ((∅ : Std.TreeMap Bytes SSTableReaderSet).insert setId (shardSet setId policy n man n)) := by
    refine Std.TreeMap.Equiv.of_forall_constGet?_eq fun s => ?_
    rw [h.sets]
    by_cases hs : s = setId
    · simp [hs, hpos]
    · have hne : ¬ compare setId s = .eq := fun h => hs (eq_of_compare h).symm
      simp [hs, hne]
  rw [hequiv.toList_eq]
  rfl

/-- A key is looked up in the table of its shard. -/
theorem Loaded.lookup_eq [SSTableEnv] (h : Loaded setId policy n man t n r) {key : Bytes} {i : Nat}
    (hshard : (man.setShardingNumber n).shard key = .ok (i : Int)) (hi : i < n)
    {value : Option Bytes} {t' : ρ} (hlookup : SSTableReader.lookup (t i) key = .ok (value, t')) :
    ∃ r', r.lookup key = .ok (value, r') := by
  have htable : r.tables[i]? = some (t i) := by
    rw [h.tables, List.getElem?_map, List.getElem?_range hi, Option.map_some]
  have hplace : (shardSet setId policy n man n).tables[(i : Int)]? = some i := by
    rw [getElem?_shardSet_tables, if_pos hi]
  have hset : (shardSet setId policy n man n).lookup key r.tables =
      .ok (value, r.tables.set i t') := by
    simp only [SSTableReaderSet.lookup, shardSet] at hplace ⊢
    simp only [hshard, ok_bind, hplace, SSTableReaderSet.lookupIn, htable, hlookup, pure_eq_ok]
  refine ⟨{ r with tables := r.tables.set i t' }, ?_⟩
  rw [lookup, h.toList_sets (by omega)]
  simp only [List.map_cons, List.map_nil, lookupLoop, hset, ok_bind]
  cases value <;> rfl

end Sharded

def entryCount [OfFile ρ] (r : MergedSSTableReader ρ) : Int :=
  r.tables.foldl (fun count sstable => int32 (count + SSTableReader.entryCount sstable)) 0

end MergedSSTableReader

end Toft

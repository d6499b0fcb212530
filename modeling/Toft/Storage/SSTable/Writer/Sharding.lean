import Toft.Storage.SSTable.Writer.CompositedFlush

/-!
# The writer of a sharded table

`ShardingSSTableWriter` has a `CompositedSSTableWriter` for each shard, and adds a pair to the one
that the policy gives for its key. The files of the shards and their temporary tables are all at
different paths, so the shards do not disturb each other.
-/

namespace Toft

open Lib Hfile SSTableReader ShardingPolicy List Nat SSTableEnv Option Schedule

/-- What `c_str()` shows of a string. -/
def cStr (s : Bytes) : Bytes := s.takeWhile (· ≠ 0)

/-- `StringPrint("%05d", n)`. -/
def print05d (n : Int) : Bytes :=
  let sign : Bytes := if n < 0 then ascii "-" else []
  let digits := decimal n.natAbs
  sign ++ replicate (5 - (sign.length + digits.length)) 0x30 ++ digits

/-- The members of `ShardingSSTableWriter`. -/
structure ShardingSSTableWriter where
  option : SSTableWriteOption
  shardNum : Int
  setId : Int
  shardingPolicy : ShardingPolicy
  builders : List CompositedSSTableWriter
  fileInfoMeta : Std.TreeMap Bytes Bytes := ∅

namespace ShardingSSTableWriter

def getShardingPath (path : Bytes) (shardIndex shardNum : Int) : Bytes :=
  cStr path ++ ascii "-" ++ print05d shardIndex ++ ascii "-of-" ++ print05d shardNum

section Model

variable [SSTableEnv]

/-- The id of the set that the shards of a table form. -/
def setIdOf (option : SSTableWriteOption) (time : Int64) : Int :=
  int32 (fingerprint64 (cStr option.path ++ ascii "/" ++ decimalInt time.toInt)).toNat

/-- The constructor, at the given time. `clock i n` is what the clock shows when shard `i` begins
its `n`th temporary table. -/
def create (shardNum : Int) (option : SSTableWriteOption) (time : Int64)
    (clock : Nat → Nat → Int64) : Except Fault ShardingSSTableWriter :=
  match ShardingPolicy.create option.shardingPolicy with
  | none => .error .fatal
  | some policy => do
    let builders ← (range shardNum.toNat).mapM fun i : Nat =>
      CompositedSSTableWriter.create
        { option with path := getShardingPath option.path i shardNum }
        CompositedSSTableWriter.defaultBatchWriteSize (clock i)
    return {
      option := option
      shardNum := shardNum
      setId := setIdOf option time
      shardingPolicy := policy.setShardingNumber shardNum
      builders := builders }

def add (w : ShardingSSTableWriter) (key value : Bytes) (clock : Nat → Nat → Int64)
    (fs : FileSystem) (io : Schedule) :
    Except Fault (Bool × ShardingSSTableWriter × FileSystem) := do
  let index ← w.shardingPolicy.shard key
  if index < 0 then throw .fatal
  match w.builders[index.toNat]? with
  | none => throw .overrun
  | some builder =>
    let (added, builder, fs) ← builder.add key value (clock index.toNat) fs io
    return (added, { w with builders := w.builders.set index.toNat builder }, fs)

/-- `Add` of all pairs, as long as it returns true. -/
def addAll (clock : Nat → Nat → Int64) (io : Schedule) : List Record → ShardingSSTableWriter →
    FileSystem → Except Fault (Bool × ShardingSSTableWriter × FileSystem)
  | [], w, fs => .ok (true, w, fs)
  | r :: rs, w, fs => do
    match ← w.add r.1 r.2 clock fs io with
    | (true, w, fs) => addAll clock io rs w fs
    | (false, w, fs) => return (false, w, fs)

/-- `AddMetaData`: the last value of a key counts. -/
def addMetaData (w : ShardingSSTableWriter) (key value : Bytes) : ShardingSSTableWriter :=
  { w with fileInfoMeta := w.fileInfoMeta.insert key value }

/-- The meta data that `SetMetaData` gives to the builder of shard `i`. -/
def shardMetas (w : ShardingSSTableWriter) (i : Nat) : Except Fault (List Record) := do
  return w.fileInfoMeta.toList ++
    [(kShardID, ← numberToString i),
     (kShardTotalNum, ← numberToString w.shardNum),
     (kShardPolicy, w.option.shardingPolicy),
     (kSSTableSetID, ← numberToString w.setId)]

/-- A round of `SetMetaData`. -/
def setShardMetaData (w : ShardingSSTableWriter) (builder : CompositedSSTableWriter) (i : Nat) :
    Except Fault CompositedSSTableWriter := do
  return (← w.shardMetas i).foldl (fun b item => b.addMetaData item.1 item.2) builder

def setMetaData (w : ShardingSSTableWriter) : Except Fault ShardingSSTableWriter := do
  let builders ← w.builders.zipIdx.mapM fun x => w.setShardMetaData x.1 x.2
  return { w with builders := builders }

/-- The loop of `Flush`: all builders are flushed, also if one fails. -/
def flushLoop (io : Schedule) : List CompositedSSTableWriter → FileSystem →
    Except Fault (Bool × List CompositedSSTableWriter × FileSystem)
  | [], fs => .ok (true, [], fs)
  | builder :: builders, fs => do
    let (flushed, builder, fs) ← builder.flush fs io
    let (result, builders, fs) ← flushLoop io builders fs
    return (flushed && result, builder :: builders, fs)

def flush (w : ShardingSSTableWriter) (fs : FileSystem) (io : Schedule) :
    Except Fault (Bool × ShardingSSTableWriter × FileSystem) := do
  let w ← w.setMetaData
  let (result, builders, fs) ← flushLoop io w.builders fs
  return (result, { w with builders := builders }, fs)

end Model

end ShardingSSTableWriter

/-! ## Paths -/

theorem print05d_natCast (n : Nat) :
    print05d n = replicate (5 - (decimal n).length) 0x30 ++ decimal n := by
  have hneg : ¬ (n : Int) < 0 := by omega
  simp only [print05d, if_neg hneg, length_nil, zero_add, nil_append, Int.natAbs_natCast]

theorem exists_digit_of_mem_print05d {n : Nat} {c : UInt8} (h : c ∈ print05d n) :
    ∃ d < 10, c = digit d := by
  rcases mem_append.mp h with hzero | hdigit
  · exact ⟨0, by omega, (mem_replicate.mp hzero).2⟩
  · exact exists_digit_of_mem_decimal hdigit

theorem notMem_print05d {c : UInt8} (hc : c.toNat < 48) (n : Nat) : c ∉ print05d n := by
  intro hmem
  obtain ⟨d, hd, rfl⟩ := exists_digit_of_mem_print05d hmem
  rw [toNat_digit hd] at hc
  omega

theorem print05d_inj {m n : Nat} : print05d m = print05d n ↔ m = n := by
  refine ⟨fun h => ?_, fun h => h ▸ rfl⟩
  have hvalue : ∀ n : Nat, digitsValue 0 (print05d n) = n := by
    intro n
    rw [print05d_natCast, digitsValue, foldl_append]
    have hzeros : ∀ k, (replicate k 0x30).foldl
        (fun v (c : UInt8) => 10 * v + (c.toNat - 48)) 0 = 0 := by
      intro k
      induction k with
      | zero => rfl
      | succ k ih => rw [replicate_succ]; exact ih
    rw [hzeros]
    exact digitsValue_decimal n
  rw [← hvalue m, h, hvalue]

theorem length_print05d_le {n : Nat} (h : n < 2 ^ 31) : (print05d n).length ≤ 10 := by
  have hdecimal : (decimal n).length ≤ 9 + 1 := length_decimal_le (by omega)
  rw [print05d_natCast, length_append, length_replicate]
  omega

/-- A number that is followed by a minus is determined by the text. -/
theorem eq_of_print05d_append {pre rest rest' : Bytes} {i j : Nat}
    (h : pre ++ (print05d i ++ 0x2d :: rest) = pre ++ (print05d j ++ 0x2d :: rest')) : i = j := by
  have htake : ∀ (n : Nat) (rest : Bytes),
      (print05d n ++ 0x2d :: rest).takeWhile (· ≠ 0x2d) = print05d n := by
    intro n rest
    rw [takeWhile_append_of_pos, takeWhile_cons_of_neg (by simp), append_nil]
    intro c hc
    have hne : c ≠ 0x2d := fun heq => notMem_print05d (by decide) n (heq ▸ hc)
    simpa using hne
  have htext := congrArg (takeWhile (· ≠ 0x2d)) (append_cancel_left h)
  rw [htake, htake] at htext
  exact print05d_inj.mp htext

namespace ShardingSSTableWriter

open CompositedSSTableWriter

/-- The options of the builder of shard `i`. -/
def shardOption (option : SSTableWriteOption) (n i : Nat) : SSTableWriteOption :=
  { option with path := getShardingPath option.path i n }

section Paths

variable (option : SSTableWriteOption) (n : Nat)

theorem shardOption_path (i : Nat) : (shardOption option n i).path =
    (cStr option.path ++ ascii "-") ++ (print05d i ++ 0x2d :: (ascii "of-" ++ print05d n)) := by
  rw [shardOption, getShardingPath, show ascii "-of-" = 0x2d :: ascii "of-" from rfl]
  simp only [append_assoc, cons_append]

theorem tmpPath_shardOption (i : Nat) (m : Int64) : tmpPath (shardOption option n i) m =
    (tmpDirAndPrefix ++ replaceByte 0x2f 0x5f (cStr option.path) ++ ascii "-") ++
      (print05d i ++ 0x2d :: (ascii "of-" ++ print05d n ++ decimalInt m.toInt)) := by
  have hslash : (0x2f : UInt8).toNat < 48 := by decide
  rw [tmpPath, shardOption_path, show 0x2d :: (ascii "of-" ++ print05d n) =
    ascii "-of-" ++ print05d n from rfl]
  simp only [replaceByte_append, replaceByte_of_notMem (notMem_print05d hslash _)]
  rw [show replaceByte 0x2f 0x5f (ascii "-") = ascii "-" from rfl,
    show replaceByte 0x2f 0x5f (ascii "-of-") = 0x2d :: ascii "of-" from rfl]
  simp only [append_assoc, cons_append]

theorem endsInDigit_shardOption_path (i : Nat) : EndsInDigit (shardOption option n i).path := by
  rw [shardOption_path, print05d_natCast n, show ∀ s t u v : Bytes, s ++ (t ++ 0x2d :: (u ++ v)) =
    (s ++ (t ++ 0x2d :: u)) ++ v by simp, ← append_assoc]
  exact EndsInDigit.append_decimal ..

variable {option n} {i j : Nat}

theorem path_ne_path (h : i ≠ j) :
    (shardOption option n i).path ≠ (shardOption option n j).path := by
  rw [shardOption_path, shardOption_path]
  exact fun heq => h (eq_of_print05d_append heq)

theorem tmpPath_ne_tmpPath (h : i ≠ j) (m m' : Int64) :
    tmpPath (shardOption option n i) m ≠ tmpPath (shardOption option n j) m' := by
  rw [tmpPath_shardOption, tmpPath_shardOption]
  exact fun heq => h (eq_of_print05d_append heq)

theorem path_ne_tmpPath (hi : i < 2 ^ 31) (m : Int64) :
    (shardOption option n i).path ≠ tmpPath (shardOption option n j) m := by
  intro heq
  have hlength := congrArg length heq
  have hpre : tmpDirAndPrefix.length = 16 := by decide
  have hle := length_print05d_le hi
  rw [shardOption_path, tmpPath_shardOption] at hlength
  simp only [replaceByte, length_append, length_cons, length_map, hpre] at hlength
  omega

end Paths

/-! ## Adding -/

section Adding

variable [SSTableEnv] (option : SSTableWriteOption) (n : Nat) (time : Int64)
  (clock : Nat → Nat → Int64)

def shardPairs (rs : List Record) (i : Nat) : List Record := rs.filter fun r => shardOf n r.1 = i

/-- Each builder has taken the pairs of its shard. -/
structure Distributes (w : ShardingSSTableWriter) (fs : FileSystem) (bs : Nat → Batches) :
    Prop where
  option_eq : w.option = option
  shardNum_eq : w.shardNum = n
  setId_eq : w.setId = setIdOf option time
  policy : w.shardingPolicy = ⟨.fingerprintSharding, n⟩
  length : w.builders.length = n
  writable : fs.AllWritable
  builders : ∀ i builder, w.builders[i]? = some builder → builder.fileInfoMeta = ∅ ∧
    Collects (shardOption option n i) defaultBatchWriteSize (clock i) builder fs (bs i)

variable {option n time clock} {w : ShardingSSTableWriter} {fs : FileSystem} {bs : Nat → Batches}

theorem create_spec (hpolicy : option.shardingPolicy = ascii "FingerprintSharding")
    (hfs : fs.AllWritable) :
    ∃ w, create n option time clock = .ok w ∧ w.fileInfoMeta = ∅ ∧
      Distributes option n time clock w fs fun _ => {} := by
  have hcreate : ShardingPolicy.create option.shardingPolicy =
      some { policyClass := .fingerprintSharding } := by
    rw [hpolicy]
    rfl
  have hbuilders : ((range n).mapM fun i : Nat => CompositedSSTableWriter.create
      { option with path := getShardingPath option.path i n } defaultBatchWriteSize (clock i)) =
      .ok ((range n).map fun i =>
        fresh (shardOption option n i) defaultBatchWriteSize (clock i)) :=
    mapM_eq_ok fun _ _ => CompositedSSTableWriter.create_eq
  refine ⟨{
      option := option
      shardNum := n
      setId := setIdOf option time
      shardingPolicy := ⟨.fingerprintSharding, n⟩
      builders := (range n).map fun i =>
        fresh (shardOption option n i) defaultBatchWriteSize (clock i) },
    ?_, rfl, ⟨rfl, rfl, by dsimp only, rfl, by simp, hfs, fun i builder hb => ?_⟩⟩
  · simp only [create, hcreate, Int.toNat_natCast, hbuilders, ok_bind, pure_eq_ok]
    rfl
  · rw [getElem?_map, map_eq_some_iff] at hb
    obtain ⟨j, hj, rfl⟩ := hb
    rw [List.getElem?_range (by simpa using (List.getElem?_eq_some_iff.mp hj).1),
      some.injEq] at hj
    subst hj
    exact ⟨rfl, collects_fresh hfs⟩

theorem add_spec (hsnappy : snappy.Lossless) (h : Distributes option n time clock w fs bs)
    (hpos : 0 < n) (hn : n < 2 ^ 31) {r : Record}
    (hfit : AddsFit defaultBatchWriteSize (clock (shardOf n r.1)) (bs (shardOf n r.1)) [r]) :
    ∃ w' fs', w.add r.1 r.2 clock fs allFull = .ok (true, w', fs') ∧
      w'.fileInfoMeta = w.fileInfoMeta ∧ Distributes option n time clock w' fs' fun i =>
        if shardOf n r.1 = i then (bs i).add defaultBatchWriteSize r else bs i := by
  have hlt : shardOf n r.1 < w.builders.length := by
    rw [h.length]
    exact mod_lt _ hpos
  obtain ⟨builder, hbuilder⟩ : ∃ builder, w.builders[shardOf n r.1]? = some builder :=
    ⟨_, getElem?_eq_getElem hlt⟩
  obtain ⟨hmeta, hcollects⟩ := h.builders _ builder hbuilder
  obtain ⟨builder', fs', hadd, hcollects', hmeta', hother⟩ :=
    CompositedSSTableWriter.add_spec hsnappy hcollects hfit
  refine ⟨{ w with builders := w.builders.set (shardOf n r.1) builder' }, fs', ?_, rfl,
    ⟨h.option_eq, h.shardNum_eq, h.setId_eq, h.policy, ?_, hcollects'.writable, fun i b hb => ?_⟩⟩
  · simp only [add, h.policy, shard_eq hpos hn, ok_bind, Int.toNat_natCast, hbuilder, hadd,
      pure_eq_ok]
    rw [if_neg (by omega)]
  · rw [length_set, h.length]
  · by_cases hi : shardOf n r.1 = i
    · subst hi
      rw [getElem?_set_self hlt, some.injEq] at hb
      subst hb
      rw [if_pos rfl]
      exact ⟨hmeta'.trans hmeta, hcollects'⟩
    · rw [getElem?_set_ne hi] at hb
      obtain ⟨hbmeta, hbcollects⟩ := h.builders i b hb
      rw [if_neg hi]
      refine ⟨hbmeta, hbcollects.frame hcollects'.writable fun m => ?_⟩
      exact hother _ (endsInDigit_tmpPath ..) fun m' => tmpPath_ne_tmpPath (Ne.symm hi) m m'

/-- **Adding.** -/
theorem addAll_spec (hsnappy : snappy.Lossless) (hpos : 0 < n) (hn : n < 2 ^ 31)
    {rs : List Record} (h : Distributes option n time clock w fs bs)
    (hfit : ∀ i < n, AddsFit defaultBatchWriteSize (clock i) (bs i) (shardPairs n rs i)) :
    ∃ w' fs', addAll clock allFull rs w fs = .ok (true, w', fs') ∧
      w'.fileInfoMeta = w.fileInfoMeta ∧ Distributes option n time clock w' fs' fun i =>
        (bs i).addAll defaultBatchWriteSize (shardPairs n rs i) := by
  induction rs generalizing w fs bs with
  | nil => exact ⟨w, fs, rfl, rfl, h⟩
  | cons r rs ih =>
    have hcons : ∀ i, shardPairs n (r :: rs) i =
        if shardOf n r.1 = i then r :: shardPairs n rs i else shardPairs n rs i := by
      intro i
      simp only [shardPairs, filter_cons, decide_eq_true_eq]
    have hhead := hfit (shardOf n r.1) (mod_lt _ hpos)
    rw [hcons, if_pos rfl] at hhead
    obtain ⟨w₁, fs₁, hadd, hmeta₁, h₁⟩ := add_spec hsnappy h hpos hn hhead.head
    obtain ⟨w', fs', hall, hmeta', h'⟩ := ih h₁ fun i hi => by
      have hfit := hfit i hi
      rw [hcons] at hfit
      split
      · rename_i heq
        rw [if_pos heq] at hfit
        exact hfit.tail
      · rename_i hne
        rwa [if_neg hne] at hfit
    have hbs : (fun i => (bs i).addAll defaultBatchWriteSize (shardPairs n (r :: rs) i)) =
        fun i => Batches.addAll defaultBatchWriteSize
          (if shardOf n r.1 = i then (bs i).add defaultBatchWriteSize r else bs i)
          (shardPairs n rs i) := by
      funext i
      rw [hcons]
      split <;> rfl
    exact ⟨w', fs', by rw [addAll, hadd]; exact hall, hmeta'.trans hmeta₁, hbs ▸ h'⟩

end Adding

/-! ## Flush -/

section Flush

variable [SSTableEnv] (option : SSTableWriteOption) (n : Nat) (time : Int64)
  (clock : Nat → Nat → Int64)

/-- The meta data of shard `i`, with the meta data `metas` of the table. -/
def shardItems (metas : Std.TreeMap Bytes Bytes) (i : Nat) : Std.TreeMap Bytes Bytes :=
  assignAll ∅ (metas.toList ++
    [(kShardID, decimal i), (kShardTotalNum, decimal n), (kShardPolicy, option.shardingPolicy),
     (kSSTableSetID, decimalInt (setIdOf option time))])

/-- The builder of shard `i` can be flushed. -/
structure ShardReady (i : Nat) (builder : CompositedSSTableWriter) (fs : FileSystem)
    (b : Batches) : Prop where
  collects : Collects (shardOption option n i) defaultBatchWriteSize (clock i) builder fs b
  clock_inj : Set.InjOn (clock i) (Set.Iic b.closed.length)
  closed : ∀ batch ∈ b.closed, batch ≠ []
  fits : MergeFits (shardOption option n i) b.all builder.fileInfoMeta.toList

variable {option n time clock} {w : ShardingSSTableWriter} {fs : FileSystem} {bs : Nat → Batches}

theorem setMetaData_eq (hn : n < 2 ^ 31) (h : Distributes option n time clock w fs bs) :
    ∃ w', w.setMetaData = .ok w' ∧ w'.builders.length = n ∧
      ∀ i builder, w'.builders[i]? = some builder →
        builder.fileInfoMeta = shardItems option n time w.fileInfoMeta i ∧
        Collects (shardOption option n i) defaultBatchWriteSize (clock i) builder fs (bs i) := by
  have hmetas : ∀ i < n, w.shardMetas i = .ok (w.fileInfoMeta.toList ++
      [(kShardID, decimal i), (kShardTotalNum, decimal n), (kShardPolicy, option.shardingPolicy),
       (kSSTableSetID, decimalInt (setIdOf option time))]) := by
    intro i hi
    have hid := int32_bounds (fingerprint64
      (cStr option.path ++ ascii "/" ++ decimalInt time.toInt)).toNat
    rw [shardMetas, h.shardNum_eq, h.option_eq, h.setId_eq, setIdOf,
      numberToString_eq (n := i) (by omega) (by omega),
      numberToString_eq (n := n) (by omega) (by omega), numberToString_eq hid.1 hid.2]
    rfl
  have hmap : (w.builders.zipIdx.mapM fun x => w.setShardMetaData x.1 x.2) =
      .ok (w.builders.zipIdx.map fun x : CompositedSSTableWriter × Nat =>
        { x.1 with fileInfoMeta := shardItems option n time w.fileInfoMeta x.2 }) := by
    refine mapM_eq_ok fun x hx => ?_
    have hget := mem_zipIdx_iff_getElem?.mp hx
    have hlt := (List.getElem?_eq_some_iff.mp hget).1
    rw [h.length] at hlt
    simp only [setShardMetaData, hmetas x.2 hlt, ok_bind, pure_eq_ok, foldl_addMetaData,
      (h.builders _ _ hget).1]
    rfl
  refine ⟨_, by rw [setMetaData, hmap]; rfl, by simp [h.length], fun i builder hb => ?_⟩
  rw [getElem?_map, map_eq_some_iff] at hb
  obtain ⟨x, hx, rfl⟩ := hb
  rw [getElem?_zipIdx, map_eq_some_iff] at hx
  obtain ⟨builder, hget, rfl⟩ := hx
  have hcollects := (h.builders i builder hget).2
  rw [zero_add]
  exact ⟨rfl, ⟨hcollects.1, hcollects.2, hcollects.3, hcollects.4, hcollects.5, hcollects.6,
    hcollects.7⟩⟩

theorem flushLoop_spec (hsnappy : snappy.Lossless)
    {builders : List CompositedSSTableWriter} {k : Nat} (hk : k + builders.length ≤ 2 ^ 31)
    (hfs : fs.AllWritable)
    (h : ∀ i builder, builders[i]? = some builder →
      ShardReady option n clock (k + i) builder fs (bs (k + i))) :
    ∃ result builders' fs',
      flushLoop allFull builders fs = .ok (result, builders', fs') ∧
      (result = true ↔ ∀ i < builders.length, (bs (k + i)).openBatch ≠ []) ∧
      fs'.AllWritable ∧
      (∀ i builder, builders[i]? = some builder → (bs (k + i)).openBatch ≠ [] →
        CompositedSSTableWriter.HoldsTable (shardOption option n (k + i)) (bs (k + i)).all.flatten
          builder.fileInfoMeta.toList fs') ∧
      ∀ p, EndsInDigit p → (∀ i, k ≤ i → p ≠ (shardOption option n i).path) →
        (∀ i m, k ≤ i → p ≠ tmpPath (shardOption option n i) m) → fs'.files p = fs.files p := by
  induction builders generalizing k fs with
  | nil => exact ⟨true, [], fs, rfl, by simp, hfs, by simp, fun _ _ _ _ => rfl⟩
  | cons builder builders ih =>
    have hready := h 0 builder rfl
    rw [add_zero] at hready
    obtain ⟨builder', fs₁, hflush, hwritable₁, htable, hother⟩ := flush_spec hsnappy
      hready.collects hready.clock_inj hready.closed hready.fits
    rw [length_cons] at hk
    -- the other builders find their temporary tables unchanged
    have hready' : ∀ i b, builders[i]? = some b →
        ShardReady option n clock (k + 1 + i) b fs₁ (bs (k + 1 + i)) := by
      intro i b hb
      have hb' := h (i + 1) b hb
      rw [add_comm i 1, ← add_assoc] at hb'
      refine ⟨hb'.collects.frame hwritable₁ fun m => ?_, hb'.clock_inj, hb'.closed, hb'.fits⟩
      exact hother _ (endsInDigit_tmpPath ..) (path_ne_tmpPath (by omega) m).symm
        fun m' => tmpPath_ne_tmpPath (by omega) m m'
    obtain ⟨result, builders', fs', hloop, hresult, hwritable', htables, hother'⟩ :=
      ih (by omega) hwritable₁ hready'
    refine ⟨!(bs k).openBatch.isEmpty && result, builder' :: builders', fs', ?_, ?_, hwritable',
      fun i b hb hopen => ?_, fun p hp hpath htmp => ?_⟩
    · simp only [flushLoop, hflush, hloop, ok_bind, pure_eq_ok]
    · rw [Bool.and_eq_true, hresult, Bool.not_eq_true', isEmpty_eq_false_iff,
        length_cons, forall_lt_succ_left]
      simp only [add_zero, add_right_comm, add_assoc]
    · cases i with
      | zero =>
        cases hb
        refine (htable hopen).frame (hother' _ (endsInDigit_shardOption_path ..) (fun i hi => ?_)
          fun i m _ => path_ne_tmpPath (by omega) m)
        exact path_ne_path (by omega)
      | succ i =>
        have hb' := htables i b hb
        rw [add_right_comm] at hb'
        exact hb' hopen
    · rw [hother' p hp (fun i hi => hpath i (by omega)) fun i m hi => htmp i m (by omega),
        hother p hp (hpath k le_rfl) fun m => htmp k m le_rfl]

end Flush

end ShardingSSTableWriter

end Toft

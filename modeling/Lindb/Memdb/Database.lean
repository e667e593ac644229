import Lindb.Memdb.MetricStore

/-! The memory database of part_003 (`memoryDatabase`, §4.5): buckets of metric stores by metric hash, the
    metric-id lookup, the size counter and the family times written since their last flush. Each method
    runs to its end, as in a sequential run; an evictor pass is an operation of its own. A pass over a
    bucket walks its entries in map order and changes each store where it stands. -/

namespace Lindb.Memdb

/-- What the memory database takes from its configuration and from code that is not under src/. -/
structure Config where
  /-- `xxhash.Sum64String`. -/
  hash : String → UInt64
  /-- `md.interval.Calculator()`: the family start time and the slot of a timestamp. -/
  intervalCalc : Int → Int × Nat
  /-- `md.interval.Int64()`. -/
  interval : Int
  generator : IDGenerator
  /-- `shardingCountMask`, the bucket count less one (the constant is not under src/). -/
  shardingCountMask : UInt64
  /-- How long a series store may go unwritten before it expires (not under src/). -/
  tStoreExpiredDuration : Int

/-- A bucket's `hash2MStore`. -/
abbrev Bucket (B : Type) := List (UInt64 × MStore B)

/-- `memoryDatabase`. `mStoresList` holds the buckets. -/
structure MemDB (B : Type) where
  mStoresList : List (Bucket B)
  metricID2Hash : List (Nat × UInt64)
  size : Int
  lastWroteFamilyTime : Int
  familyTimes : List Int

variable {B : Type}

/-- `NewMemoryDatabase(ctx, cfg)`, without the evictor goroutine. -/
def newMemoryDatabase (cfg : Config) : MemDB B :=
  ⟨List.replicate (cfg.shardingCountMask.toNat + 1) [], [], 0, 0, []⟩

/-- The bucket index of `getBucket`: `shardingCountMask & metricHash`. -/
def getBucketIndex (cfg : Config) (hash : UInt64) : Nat := (cfg.shardingCountMask &&& hash).toNat

namespace MemDB

/-- `getBucket(metricHash)`. -/
def getBucket (md : MemDB B) (cfg : Config) (hash : UInt64) : Bucket B := md.mStoresList.getD (getBucketIndex cfg hash) []

/-- `getMStoreByMetricHash(hash)`. -/
def getMStoreByMetricHash (md : MemDB B) (cfg : Config) (hash : UInt64) : Option (MStore B) :=
  mapLoad (md.getBucket cfg hash) hash

/-- `getMStore(metricName)`. -/
def getMStore (md : MemDB B) (cfg : Config) (metricName : String) : Option (MStore B) :=
  md.getMStoreByMetricHash cfg (cfg.hash metricName)

/-- `getMStoreByMetricID(metricID)`. -/
def getMStoreByMetricID (md : MemDB B) (cfg : Config) (metricID : Nat) : Option (MStore B) :=
  (mapLoad md.metricID2Hash metricID).bind (md.getMStoreByMetricHash cfg)

/-- The metric store `getMStoreByMetricHash(hash)` gave becomes `ms`. -/
def setMStore (md : MemDB B) (cfg : Config) (hash : UInt64) (ms : MStore B) : MemDB B :=
  { md with mStoresList := md.mStoresList.modify (setFirst (·.1 = hash) (hash, ms)) (getBucketIndex cfg hash) }

/-- `addFamilyTime(familyTime)`: `lastWroteFamilyTime.Swap(familyTime)` returned `familyTime`, or the family
    is stored. -/
def addFamilyTime (md : MemDB B) (familyTime : Int) : MemDB B :=
  if md.lastWroteFamilyTime = familyTime then md
  else { md with lastWroteFamilyTime := familyTime,
                 familyTimes := if familyTime ∈ md.familyTimes then md.familyTimes else md.familyTimes ++ [familyTime] }

/-- `Families()`. -/
def families (md : MemDB B) : List Int := md.familyTimes.insertionSort (· ≤ ·)

/-- `CountMetrics()`. -/
def countMetrics (md : MemDB B) : Nat := (md.mStoresList.map List.length).sum

/-- `CountTags(metricName)`. -/
def countTags (md : MemDB B) (cfg : Config) (metricName : String) : Int :=
  match md.getMStore cfg metricName with
  | some ms => ms.getTagsUsed
  | none => -1

/-- `MemSize()`. -/
def memSize (md : MemDB B) : Int := md.size

/-- `setLimitations(limitations)`. -/
def setLimitations (md : MemDB B) (cfg : Config) (limitations : List (String × Nat)) : MemDB B :=
  limitations.foldl (fun md l => match md.getMStore cfg l.1 with
    | some ms => md.setMStore cfg (cfg.hash l.1) (ms.setMaxTagsLimit l.2)
    | none => md) md

/-- `FindSeriesIDsByExpr(metricID, expr, timeRange)`. -/
def findSeriesIDsByExpr (md : MemDB B) (cfg : Config) (metricID : Nat) (find : TagIndex B → Option (List Nat)) :
    Except Err MultiVerSeriesIDSet :=
  match md.getMStoreByMetricID cfg metricID with
  | some ms => .ok (ms.findSeriesIDsByExpr find)
  | none => .error .notFound

/-- `GetSeriesIDsForTag(metricID, tagKey, timeRange)`. -/
def getSeriesIDsForTag (md : MemDB B) (cfg : Config) (metricID : Nat) (tagKey : String) :
    Except Err MultiVerSeriesIDSet :=
  match md.getMStoreByMetricID cfg metricID with
  | some ms => .ok (ms.getSeriesIDsForTag tagKey)
  | none => .error .notFound

/-- `GetTagValues(metricID, tagKeys, version, seriesIDs)`. -/
def getTagValues (md : MemDB B) (cfg : Config) (metricID : Nat) (tagKeys : List String) (version : Int)
    (seriesIDs : List Nat) : Except Err (List (Nat × List String)) :=
  match md.getMStoreByMetricID cfg metricID with
  | some ms => ms.getTagValues tagKeys version seriesIDs
  | none => .error .notFound

/-- `SuggestTagKeys(metricName, tagKeyPrefix, limit)`. -/
def suggestTagKeys (md : MemDB B) (cfg : Config) (metricName tagKeyPrefix : String) (limit : Int) : List String :=
  match md.getMStore cfg metricName with
  | some ms => ms.suggestTagKeys tagKeyPrefix limit
  | none => []

/-- `SuggestTagValues(metricName, tagKey, tagValuePrefix, limit)`. -/
def suggestTagValues (md : MemDB B) (cfg : Config) (metricName tagKey tagValuePrefix : String) (limit : Int) :
    List String :=
  match md.getMStore cfg metricName with
  | some ms => ms.suggestTagValues tagKey tagValuePrefix limit
  | none => []

/-- `FlushInvertedIndexTo(flusher)`: every metric store of every bucket; the first error ends it. -/
def flushInvertedIndexTo (md : MemDB B) (cfg : Config) (fl : InvertedFlusher) : List InvertedCall × Option Err :=
  (md.mStoresList.flatten).foldl (fun acc x => match acc.2 with
    | some _ => acc
    | none => let r := x.2.flushInvertedIndexTo fl cfg.generator acc.1; (acc.1 ++ r.1, r.2)) ([], none)

/-- `FlushForwardIndexTo(flusher)`: every metric store of every bucket; the first error ends it. -/
def flushForwardIndexTo (md : MemDB B) (fl : ForwardFlusher) : List ForwardCall × Option Err :=
  (md.mStoresList.flatten).foldl (fun acc x => match acc.2 with
    | some _ => acc
    | none => let r := x.2.flushForwardIndexTo fl acc.1; (acc.1 ++ r.1, r.2)) ([], none)

end MemDB

section Block
variable [Block B]

namespace MemDB

/-- `getOrCreateMStore(metricName, hash)`: a store missing from the bucket is created, checked again under
    the bucket lock, with an id from the generator; its size is added. -/
def getOrCreateMStore (md : MemDB B) (cfg : Config) (metricName : String) (hash : UInt64) (now : Int) :
    MemDB B × MStore B :=
  match md.getMStoreByMetricHash cfg hash with
  | some ms => (md, ms)
  | none =>
    let metricID := cfg.generator.genMetricID metricName
    match md.getMStoreByMetricHash cfg hash with
    | some ms => (md, ms)
    | none =>
      let ms : MStore B := newMetricStore metricID now
      let add (b : Bucket B) : Bucket B := b ++ [(hash, ms)]
      ({ md with mStoresList := md.mStoresList.modify add (getBucketIndex cfg hash)
                 size := toInt32 (md.size + toInt32 ms.memSize)
                 metricID2Hash := mapStore md.metricID2Hash metricID hash }, ms)

/-- `Write(metric)`: the family and slot of the timestamp, the metric store of its name, the store's
    `Write`; the family is recorded when that write succeeds, and its size is added either way. -/
def write (md : MemDB B) (cfg : Config) (metric : PbMetric) (now : Int) : MemDB B × Option Err :=
  let slot := cfg.intervalCalc metric.timestamp
  let hash := cfg.hash metric.name
  let got := md.getOrCreateMStore cfg metric.name hash now
  let w := got.2.write cfg.generator metric ⟨got.2.metricID, slot.1, slot.2, cfg.interval⟩ now
  let md₁ := got.1.setMStore cfg hash w.1
  let md₂ := if w.2.2.isNone then md₁.addFamilyTime slot.1 else md₁
  ({ md₂ with size := toInt32 (md₂.size + toInt32 w.2.1) }, w.2.2)

/-- `ResetMetricStore(metricName)`. -/
def resetMetricStore (md : MemDB B) (cfg : Config) (metricName : String) (now : Int) : MemDB B × Option Err :=
  match md.getMStore cfg metricName with
  | none => (md, some (.metricNotExist metricName))
  | some ms =>
    let r := ms.resetVersion now
    ({ md.setMStore cfg (cfg.hash metricName) r.1 with size := toInt32 (md.size + toInt32 r.2.1) }, r.2.2)

end MemDB

/-- `evict(bucket)` over the bucket's entries: each store evicts its expired series; a store left empty,
    checked again under the bucket lock, leaves the bucket and the id map, and its size is subtracted.
    The entries kept, the size counter and the id map. -/
def evictBucket (cfg : Config) (now : Int) :
    Bucket B → Int → List (Nat × UInt64) → Bucket B × Int × List (Nat × UInt64)
  | [], size, ids => ([], size, ids)
  | (hash, ms) :: rest, size, ids =>
    let e := ms.evict now cfg.tStoreExpiredDuration
    let size₁ := toInt32 (size - toInt32 e.2)
    if e.1.isEmpty then
      let size₂ := toInt32 (size₁ - toInt32 e.1.memSize)
      if e.1.isEmpty then evictBucket cfg now rest size₂ (mapDelete ids e.1.metricID)
      else
        let r := evictBucket cfg now rest size₂ ids
        ((hash, e.1) :: r.1, r.2)
    else
      let r := evictBucket cfg now rest size₁ ids
      ((hash, e.1) :: r.1, r.2)

/-- The evictor's pass: `evict` on every bucket, in order. -/
def evictBuckets (cfg : Config) (now : Int) :
    List (Bucket B) → Int → List (Nat × UInt64) → List (Bucket B) × Int × List (Nat × UInt64)
  | [], size, ids => ([], size, ids)
  | b :: rest, size, ids =>
    let r := evictBucket cfg now b size ids
    let r' := evictBuckets cfg now rest r.2.1 r.2.2
    (r.1 :: r'.1, r'.2)

/-- The loop of `FlushFamilyTo` over a bucket's entries: each store flushes the family and its size is
    subtracted; the first error ends the loop. The entries, the size counter, the calls and the error. -/
def flushBucket (fl : DataFlusher) (familyTime : Int) :
    Bucket B → Int → List FlushCall → Bucket B × Int × List FlushCall × Option Err
  | [], size, calls => ([], size, calls, none)
  | (hash, ms) :: rest, size, calls =>
    let r := ms.flushMetricsDataTo fl calls familyTime
    let size₁ := toInt32 (size - toInt32 r.2.1)
    match r.2.2.2 with
    | some e => ((hash, r.1) :: rest, size₁, calls ++ r.2.2.1, some e)
    | none =>
      let r' := flushBucket fl familyTime rest size₁ (calls ++ r.2.2.1)
      ((hash, r.1) :: r'.1, r'.2)

/-- The loop of `FlushFamilyTo` over the buckets. -/
def flushBuckets (fl : DataFlusher) (familyTime : Int) :
    List (Bucket B) → Int → List FlushCall → List (Bucket B) × Int × List FlushCall × Option Err
  | [], size, calls => ([], size, calls, none)
  | b :: rest, size, calls =>
    let r := flushBucket fl familyTime b size calls
    match r.2.2.2 with
    | some e => (r.1 :: rest, r.2.1, r.2.2.1, some e)
    | none =>
      let r' := flushBuckets fl familyTime rest r.2.1 r.2.2.1
      (r.1 :: r'.1, r'.2)

namespace MemDB

/-- The evictor's pass over all buckets (`evictor`, on a notification). -/
def evict (md : MemDB B) (cfg : Config) (now : Int) : MemDB B :=
  let r := evictBuckets cfg now md.mStoresList md.size md.metricID2Hash
  { md with mStoresList := r.1, size := r.2.1, metricID2Hash := r.2.2 }

/-- `FlushFamilyTo(flusher, familyTime)`: the family leaves the set and `lastWroteFamilyTime` is reset
    before the stores flush; the evictor notification is not modelled. The calls the flusher received. -/
def flushFamilyTo (md : MemDB B) (fl : DataFlusher) (familyTime : Int) : MemDB B × List FlushCall × Option Err :=
  let r := flushBuckets fl familyTime md.mStoresList md.size []
  ({ md with familyTimes := md.familyTimes.filter (· ≠ familyTime), lastWroteFamilyTime := 0,
             mStoresList := r.1, size := r.2.1 }, r.2.2)

end MemDB

/-! ### Sequential runs -/

/-- An operation of a sequential run. A tag index takes its version from the clock reading `now`. -/
inductive Op
  | write (metric : PbMetric) (now : Int)
  | resetMetricStore (metricName : String) (now : Int)
  | evict (now : Int)
  | flushFamilyTo (flusher : DataFlusher) (familyTime : Int)

/-- The clock reads epoch milliseconds, so a new tag index never has the placeholder's version `0`. -/
def Op.clockOk : Op → Prop
  | .write _ now => 0 < now
  | .resetMetricStore _ now => 0 < now
  | _ => True

instance (op : Op) : Decidable op.clockOk :=
  match op with
  | .write _ now => inferInstanceAs (Decidable (0 < now))
  | .resetMetricStore _ now => inferInstanceAs (Decidable (0 < now))
  | .evict _ => inferInstanceAs (Decidable True)
  | .flushFamilyTo _ _ => inferInstanceAs (Decidable True)

/-- One operation: the database after it, the calls a flusher received and the error returned. -/
def step (cfg : Config) (md : MemDB B) : Op → MemDB B × List FlushCall × Option Err
  | .write metric now => let r := md.write cfg metric now; (r.1, [], r.2)
  | .resetMetricStore name now => let r := md.resetMetricStore cfg name now; (r.1, [], r.2)
  | .evict now => (md.evict cfg now, [], none)
  | .flushFamilyTo fl familyTime => md.flushFamilyTo fl familyTime

/-- The states a sequential run from `NewMemoryDatabase` reaches. -/
inductive Reachable (cfg : Config) : MemDB B → Prop
  | init : Reachable cfg (newMemoryDatabase cfg)
  | step {md : MemDB B} {op : Op} : Reachable cfg md → op.clockOk → Reachable cfg (step cfg md op).1

end Block

end Lindb.Memdb

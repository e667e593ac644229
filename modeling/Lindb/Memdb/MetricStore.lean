import Lindb.Memdb.TagIndex

/-! The metric store of part_003 (`metricStore`, §4.4): a mutable tag index, an atomic cell for the
    immutable one, the field metas and a size counter. Each method runs here to its end, as in a
    sequential run; the interleavings of its lock sections are modelled in `Lindb.Memdb.Concurrent`. -/

namespace Lindb.Memdb

/-- `emptyMStoreSize`. -/
def emptyMStoreSize : Int := 8 + 8 + 24 + 8 + 4 + 4 + 4

/-- `metadb.IDGenerator`, which the memory database calls and does not hold. -/
structure IDGenerator where
  genMetricID : String → Nat
  genFieldID : Nat → String → FieldType → Except String Nat
  genTagKeyID : Nat → String → Nat

/-- `field.Metas.GetFromName`. Modelled from the spec: `series/field` is not under src/; the metas are
    looked up by name. -/
def getFromName (metas : List FieldMeta) (name : String) : Option FieldMeta := metas.find? (·.name = name)

/-- `series.MultiVerSeriesIDSet`: a bitmap of series ids per index version. -/
structure MultiVerSeriesIDSet where
  versions : List (Int × List Nat)
  deriving DecidableEq, Repr

/-- `MultiVerSeriesIDSet.Add(version, bitmap)`. Modelled from the spec: `series` holds only the interface
    under src/; the set maps a version to its bitmap, so the bitmap of the version becomes `bitmap`. -/
def MultiVerSeriesIDSet.add (s : MultiVerSeriesIDSet) (version : Int) (bitmap : List Nat) : MultiVerSeriesIDSet :=
  if s.versions.any (·.1 = version) then ⟨s.versions.map fun x => if x.1 = version then (version, bitmap) else x⟩
  else ⟨s.versions ++ [(version, bitmap)]⟩

/-- A `metricsdata.Flusher`: whether `FlushMetric(metricID)` fails, given the calls it received before. -/
structure DataFlusher where
  flushMetric : List FlushCall → Nat → Option String

/-- A call on a `forwardindex.Flusher` (§6). -/
inductive ForwardCall
  | flushTagValue (value : String) (bitmap : List Nat)
  | flushTagKey (key : String)
  | flushVersion (version : Int) (timeRange : TimeRange)
  | flushMetricID (metricID : Nat)
  deriving DecidableEq, Repr

/-- A `forwardindex.Flusher`: whether `FlushMetricID(metricID)` fails, given the calls it received before. -/
structure ForwardFlusher where
  flushMetricID : List ForwardCall → Nat → Option String

/-- A call on an `invertedindex.Flusher` (§6). -/
inductive InvertedCall
  | flushVersion (version : Int) (timeRange : TimeRange) (bitmap : List Nat)
  | flushTagValue (value : String)
  | flushTagKeyID (tagKeyID : Nat)
  deriving DecidableEq, Repr

/-- An `invertedindex.Flusher`: whether `FlushTagKeyID(tagKeyID)` fails, given the calls it received before. -/
structure InvertedFlusher where
  flushTagKeyID : List InvertedCall → Nat → Option String

/-- `metricStore`. `immutable` is the atomic cell, `none` until an index is stored in it. -/
structure MStore (B : Type) where
  immutable : Option (TagIndex B)
  mutable : TagIndex B
  fieldsMetas : List FieldMeta
  maxTagsLimit : Nat
  metricID : Nat
  size : Int

variable {B : Type}

namespace MStore

/-- `atomicGetImmutable()`: the placeholder, of version `0`, reads as none. -/
def atomicGetImmutable (ms : MStore B) : Option (TagIndex B) := ms.immutable.filter (·.version ≠ 0)

/-- `GetTagsInUse()`. -/
def getTagsInUse (ms : MStore B) : Nat := ms.mutable.tagsInUse

/-- `GetTagsUsed()`. -/
def getTagsUsed (ms : MStore B) : Nat := ms.mutable.tagsUsed

/-- `isFull()`: `uint32(ms.GetTagsUsed()) >= ms.getMaxTagsLimit()`. -/
def isFull (ms : MStore B) : Bool := decide (ms.maxTagsLimit ≤ ms.getTagsUsed % 2 ^ 32)

/-- `IsEmpty()`. -/
def isEmpty (ms : MStore B) : Bool := ms.getTagsInUse == 0 && ms.atomicGetImmutable.isNone

/-- `SetMaxTagsLimit(limit)`. -/
def setMaxTagsLimit (ms : MStore B) (limit : Nat) : MStore B := { ms with maxTagsLimit := limit }

/-- `GetFieldIDOrGenerate(fieldName, fieldType, generator)`, run without interruption: the lock-free
    look-up checks the type and the field count, the look-up under `mux` does not, and a new field is
    appended to a copy of the metas. -/
def getFieldIDOrGenerate (gen : IDGenerator) (ms : MStore B) (fieldName : String) (fieldType : FieldType) :
    MStore B × Except Err Nat :=
  match getFromName ms.fieldsMetas fieldName with
  | some fm => (ms, if fm.type = fieldType then .ok fm.id else .error .wrongFieldType)
  | none =>
    if TStoreMaxFieldsCount ≤ ms.fieldsMetas.length then (ms, .error .tooManyFields)
    else
      match getFromName ms.fieldsMetas fieldName with
      | some fm => (ms, .ok fm.id)
      | none =>
        match gen.genFieldID ms.metricID fieldName fieldType with
        | .error e => (ms, .error (.generator e))
        | .ok id => ({ ms with fieldsMetas := ms.fieldsMetas ++ [⟨fieldName, id, fieldType⟩] }, .ok id)

/-- `Evict()`'s first check, under `RLock`: the series whose store is expired and holds no data. -/
def evictList (ms : MStore B) (now expiredDuration : Int) : List Nat :=
  (ms.mutable.seriesID2TStore.filter fun x => x.2.isExpired now expiredDuration && x.2.isNoData).map (·.1)

/-- `Evict()`'s double check, under `Lock`: the series of `evictList` whose store, looked up again, is
    expired and holds no data. -/
def doubleCheckEvictList (ms : MStore B) (evictList : List Nat) (now expiredDuration : Int) : List Nat :=
  evictList.filter fun seriesID =>
    match ms.mutable.getTStoreBySeriesID seriesID with
    | some ts => ts.isExpired now expiredDuration && ts.isNoData
    | none => false

/-- `FindSeriesIDsByExpr(expr)`: each index's bitmap under that index's version; `find` is the tag index's
    own `FindSeriesIDsByExpr(expr)`, which is not under src/. -/
def findSeriesIDsByExpr (find : TagIndex B → Option (List Nat)) (ms : MStore B) : MultiVerSeriesIDSet :=
  let add (s : MultiVerSeriesIDSet) (t : TagIndex B) := match find t with
    | some bitmap => s.add t.version bitmap
    | none => s
  let s := add ⟨[]⟩ ms.mutable
  match ms.atomicGetImmutable with
  | some t => add s t
  | none => s

/-- `GetSeriesIDsForTag(tagKey)`: each index's bitmap under the mutable index's version. -/
def getSeriesIDsForTag (ms : MStore B) (tagKey : String) : MultiVerSeriesIDSet :=
  let add (s : MultiVerSeriesIDSet) (t : TagIndex B) := match t.getSeriesIDsForTag tagKey with
    | some bitmap => s.add ms.mutable.version bitmap
    | none => s
  let s := add ⟨[]⟩ ms.mutable
  match ms.atomicGetImmutable with
  | some t => add s t
  | none => s

/-- `GetTagValues(tagKeys, version, seriesIDs)`: the index of the version (the mutable one when both
    match), every key checked first, then for each series id of the bitmap the first value of each key
    whose bitmap holds it, or `""`. -/
def getTagValues (ms : MStore B) (tagKeys : List String) (version : Int) (seriesIDs : List Nat) :
    Except Err (List (Nat × List String)) :=
  let found : Option (TagIndex B) :=
    if ms.mutable.version = version then some ms.mutable
    else (ms.atomicGetImmutable).filter (·.version = version)
  match found with
  | none => .error .notFound
  | some t =>
    match tagKeys.find? fun k => (t.getTagKVEntrySet k).isNone with
    | some k => .error (.tagKeyNotExist k)
    | none => .ok (seriesIDs.map fun seriesID => (seriesID, tagKeys.map fun k =>
        match t.getTagKVEntrySet k with
        | none => ""
        | some e => ((e.values.find? fun v => v.2.contains seriesID).map (·.1)).getD ""))

/-- `SuggestTagKeys(tagKeyPrefix, limit)`: the keys with the prefix, mutable index first; a scan stops
    once `limit` keys are found. -/
def suggestTagKeys (ms : MStore B) (tagKeyPrefix : String) (limit : Int) : List String :=
  if limit ≤ 0 then []
  else
    let scan (acc : List String) (t : TagIndex B) : List String :=
      t.tagKVEntrySets.foldl (fun acc e =>
        if limit ≤ acc.length then acc
        else if tagKeyPrefix.isPrefixOf e.key && !acc.contains e.key then acc ++ [e.key] else acc) acc
    let acc := scan [] ms.mutable
    match ms.atomicGetImmutable with
    | some t => scan acc t
    | none => acc

/-- `SuggestTagValues(tagKey, tagValuePrefix, limit)`: the limit is capped at `MaxSuggestions`; the values
    with the prefix of every entry set are collected, and a scan stops between entry sets once `limit`
    values are found. The tag key is not read. -/
def suggestTagValues (ms : MStore B) (_tagKey tagValuePrefix : String) (limit : Int) : List String :=
  if limit ≤ 0 then []
  else
    let limit := if (MaxSuggestions : Int) < limit then (MaxSuggestions : Int) else limit
    let scan (acc : List String) (t : TagIndex B) : List String :=
      t.tagKVEntrySets.foldl (fun acc e =>
        if limit ≤ acc.length then acc
        else e.values.foldl (fun acc v =>
          if tagValuePrefix.isPrefixOf v.1 && !acc.contains v.1 then acc ++ [v.1] else acc) acc) acc
    let acc := scan [] ms.mutable
    match ms.atomicGetImmutable with
    | some t => scan acc t
    | none => acc

/-- The forward-index calls of one index (`flushForwardIndex`): per entry set its values with their
    bitmaps, then its key; then the version with its time range. -/
def flushForwardIndex (t : TagIndex B) : List ForwardCall :=
  (t.tagKVEntrySets.map fun e => e.values.map (fun v => .flushTagValue v.1 v.2) ++ [.flushTagKey e.key]).flatten ++
    [.flushVersion t.version t.indexTimeRange]

/-- `FlushForwardIndexTo(flusher)`: the mutable index, then the immutable one, then `FlushMetricID`. -/
def flushForwardIndexTo (fl : ForwardFlusher) (ms : MStore B) (history : List ForwardCall) :
    List ForwardCall × Option Err :=
  let calls := flushForwardIndex ms.mutable ++ match ms.atomicGetImmutable with
    | some t => flushForwardIndex t
    | none => []
  (calls ++ [.flushMetricID ms.metricID], (fl.flushMetricID (history ++ calls) ms.metricID).map .flusher)

/-- The values of a key in `FlushInvertedIndexTo`'s `tagKeyValues`: the immutable index sets them, the
    mutable one adds to them. -/
def addKeyValues (kvs : List (String × List String)) (e : TagKVEntrySet) (fresh : Bool) :
    List (String × List String) :=
  let add (vs : List String) : List String := e.values.foldl (fun vs v => if vs.contains v.1 then vs else vs ++ [v.1]) vs
  if kvs.any (·.1 = e.key) then kvs.map fun x => if x.1 = e.key then (x.1, add (if fresh then [] else x.2)) else x
  else kvs ++ [(e.key, add [])]

/-- `flushInvertedIndex(tagIndex, tagKey, tagValue)`: the index's bitmap of the pair, under its version. -/
def flushInvertedIndex (t : TagIndex B) (tagKey tagValue : String) : List InvertedCall :=
  match (t.getTagKVEntrySet tagKey).bind fun e => e.values.find? (·.1 = tagValue) with
  | some v => [.flushVersion t.version t.indexTimeRange v.2]
  | none => []

/-- `FlushInvertedIndexTo(flusher, idGenerator)`: per key of either index, per value, the immutable's
    bitmap, the mutable's, then `FlushTagValue`; then `FlushTagKeyID`, whose error ends the flush. -/
def flushInvertedIndexTo (fl : InvertedFlusher) (gen : IDGenerator) (ms : MStore B) (history : List InvertedCall) :
    List InvertedCall × Option Err :=
  let kvs₀ := match ms.atomicGetImmutable with
    | some t => t.tagKVEntrySets.foldl (fun kvs e => addKeyValues kvs e true) []
    | none => []
  let kvs := ms.mutable.tagKVEntrySets.foldl (fun kvs e => addKeyValues kvs e false) kvs₀
  let rec go (history : List InvertedCall) : List (String × List String) → List InvertedCall × Option Err
    | [] => ([], none)
    | (tagKey, tagValues) :: rest =>
      let calls := (tagValues.map fun v => (match ms.atomicGetImmutable with
          | some t => flushInvertedIndex t tagKey v
          | none => []) ++ flushInvertedIndex ms.mutable tagKey v ++ [.flushTagValue v]).flatten
      let tagKeyID := gen.genTagKeyID ms.metricID tagKey
      match fl.flushTagKeyID (history ++ calls) tagKeyID with
      | some e => (calls ++ [.flushTagKeyID tagKeyID], some (.flusher e))
      | none =>
        let r := go (history ++ calls ++ [.flushTagKeyID tagKeyID]) rest
        (calls ++ [.flushTagKeyID tagKeyID] ++ r.1, r.2)
  go history kvs

end MStore

section Block
variable [Block B]

/-- `newMetricStore(metricID)`. -/
def newMetricStore (metricID : Nat) (now : Int) : MStore B :=
  { immutable := none, mutable := newTagIndex now, fieldsMetas := [], maxTagsLimit := DefaultMStoreMaxTagsCount,
    metricID, size := toInt32 (newTagIndex now : TagIndex B).memSize }

namespace MStore

/-- `MemSize()`. -/
def memSize (ms : MStore B) : Int :=
  emptyMStoreSize + ms.size + match ms.atomicGetImmutable with
    | some t => t.memSize
    | none => 0

/-- The series store of `Write`: the tag set's store in the mutable index (`GetTStore` under `RLock`), or the
    one `GetOrCreateTStore` creates under `Lock`, whose size the counter gets. -/
def getOrCreateTStore (ms : MStore B) (tags : List (String × String)) (now : Int) :
    Except Err (MStore B × Nat × TStore B × Int) :=
  match ms.mutable.getTStore tags with
  | some (seriesID, ts) => .ok (ms, seriesID, ts, 0)
  | none =>
    match ms.mutable.getOrCreateTStore tags now with
    | .error e => .error e
    | .ok (mutable, seriesID, ts, createdSize) =>
      .ok ({ ms with mutable, size := toInt32 (ms.size + toInt32 createdSize) }, seriesID, ts, createdSize)

/-- `Write(metric, writeCtx)`: the limit is checked before any lock; the point is written through the series
    store with the metric store as field-id getter, and the index time range is widened when that write
    succeeds. -/
def write (gen : IDGenerator) (ms : MStore B) (metric : PbMetric) (ctx : WriteContext) (now : Int) :
    MStore B × Int × Option Err :=
  if ms.isFull then (ms, 0, some .tooManyTags)
  else
    match ms.getOrCreateTStore metric.tags now with
    | .error e => (ms, 0, some e)
    | .ok (ms₁, seriesID, ts, createdSize) =>
      let w := ts.write (fun (m : MStore B) => m.getFieldIDOrGenerate gen) ctx now ms₁ metric.fields
      let ms₂ := { w.2.1 with mutable := w.2.1.mutable.setTStore seriesID w.1 }
      let ms₃ := if w.2.2.2.isNone then { ms₂ with mutable := ms₂.mutable.updateIndexTimeRange ctx.pointTime }
        else ms₂
      ({ ms₃ with size := toInt32 (ms₃.size + toInt32 w.2.2.1) }, w.2.2.1 + createdSize, w.2.2.2)

/-- `Evict()`: the series stores that are expired and hold no data, checked twice, are removed. -/
def evict (ms : MStore B) (now expiredDuration : Int) : MStore B × Int :=
  let r := ms.mutable.removeTStores (ms.doubleCheckEvictList (ms.evictList now expiredDuration) now expiredDuration)
  let evictedSize := (r.2.map TStore.memSize).sum
  ({ ms with mutable := r.1, size := toInt32 (ms.size - toInt32 evictedSize) }, evictedSize)

/-- `ResetVersion()`: with the immutable cell free (checked twice), the mutable index moves there, a new
    mutable index takes its place, and the size counter is set to the new index's size. -/
def resetVersion (ms : MStore B) (now : Int) : MStore B × Int × Option Err :=
  if ms.atomicGetImmutable.isSome then (ms, 0, some .resetVersionUnavailable)
  else if ms.atomicGetImmutable.isSome then (ms, 0, some .resetVersionUnavailable)
  else
    let createdSize := (newTagIndex now : TagIndex B).memSize
    ({ ms with immutable := some ms.mutable, mutable := newTagIndex now, size := toInt32 createdSize },
      createdSize, none)

/-- `FlushMetricsDataTo(flusher, flushCtx)`: the field metas, the mutable index's data of the family, then
    the immutable's, which the placeholder replaces, then `FlushMetric(metricID)`. `history` is what the
    flusher received before. -/
def flushMetricsDataTo (fl : DataFlusher) (ms : MStore B) (history : List FlushCall) (familyTime : Int) :
    MStore B × Int × List FlushCall × Option Err :=
  let m := ms.mutable.flushVersionDataTo familyTime
  let i : Int × List FlushCall := match ms.atomicGetImmutable with
    | some t => (t.flushVersionDataTo familyTime).2
    | none => (0, [])
  let calls := FlushCall.flushFieldMetas ms.fieldsMetas :: m.2.2 ++ i.2
  ({ ms with mutable := m.1, immutable := some staticNopTagIndex,
             size := toInt32 (ms.size - toInt32 (m.2.1 + i.1)) },
    m.2.1 + i.1, calls ++ [.flushMetric ms.metricID], (fl.flushMetric (history ++ calls) ms.metricID).map .flusher)

end MStore

end Block

end Lindb.Memdb

import Lindb.Memdb.FieldStore

/-! The time-series store and the tag index (§4.3). Neither is under src/ (`tstore.go` and `tag_index.go`
    are missing): both are modelled from the spec, with the methods the metric store calls. The limits are
    those of `src/constants/tsdb.go`. -/

namespace Lindb.Memdb

/-! ### Constants and errors -/

/-- `constants.DefaultMStoreMaxTagsCount`. -/
def DefaultMStoreMaxTagsCount : Nat := 10000000

/-- `constants.MStoreMaxTagKeysCount`. -/
def MStoreMaxTagKeysCount : Nat := 512

/-- `constants.TStoreMaxFieldsCount`. -/
def TStoreMaxFieldsCount : Nat := 1024

/-- `constants.MaxSuggestions`. -/
def MaxSuggestions : Nat := 10000

/-- The errors of the memory database: the `series.Err*` values, the two `fmt.Errorf` of part_003 with
    what they print, and the errors of the generator and of a flusher. -/
inductive Err
  | tooManyTags
  | tooManyTagKeys
  | tooManyFields
  | wrongFieldType
  | notFound
  | resetVersionUnavailable
  /-- `metric: %s doesn't exist` -/
  | metricNotExist (metricName : String)
  /-- `tagKey: %s not exist` -/
  | tagKeyNotExist (tagKey : String)
  | generator (message : String)
  | flusher (message : String)
  deriving DecidableEq, Repr

/-- `field.Type` of a point's field (`getFieldType`). -/
def getFieldType : PbFieldValue → FieldType
  | .sum _ => .sumField
  | .min _ => .minField
  | .max _ => .maxField

/-! ### The time-series store -/

/-- The base size of a time-series store. Modelled from the spec: its last-access time and its slice. -/
def emptyTStoreSize : Int := 8 + 24

/-- A time-series store (`tStoreINTF`). Modelled from the spec (§4.3): the field stores of one series,
    sorted by field id, and the time of its last write. -/
structure TStore (B : Type) where
  fStoreNodes : List (FieldStore B)
  lastAccessedAt : Int

variable {B : Type}

/-- `newTimeSeriesStore()`. -/
def newTimeSeriesStore (now : Int) : TStore B := ⟨[], now⟩

namespace TStore

/-- `getFStore(fieldID)`. -/
def getFStore (ts : TStore B) (fieldID : Nat) : Option (FieldStore B) := ts.fStoreNodes.find? (·.fieldID = fieldID)

/-- `insertFStore(fStore)`, at its place by field id. -/
def insertFStore (ts : TStore B) (fs : FieldStore B) : TStore B :=
  { ts with fStoreNodes := ts.fStoreNodes.orderedInsert (fun a b => a.fieldID ≤ b.fieldID) fs }

/-- The field store `getFStore(fs.fieldID)` gave becomes `fs`. -/
def setFStore (ts : TStore B) (fs : FieldStore B) : TStore B :=
  { ts with fStoreNodes := setFirst (·.fieldID = fs.fieldID) fs ts.fStoreNodes }

/-- `IsNoData()`: no field store holds a segment (§4.4). -/
def isNoData (ts : TStore B) : Bool := ts.fStoreNodes.all (·.segmentsCount = 0)

/-- `IsExpired()`: not written for `expiredDuration` (§4.4). -/
def isExpired (ts : TStore B) (now expiredDuration : Int) : Bool := decide (ts.lastAccessedAt + expiredDuration ≤ now)

variable [Block B]

/-- `MemSize()`. Modelled from the spec: the base size and the field stores'. -/
def memSize (ts : TStore B) : Int := emptyTStoreSize + (ts.fStoreNodes.map FieldStore.memSize).sum

/-- The write of a field whose id is known. Modelled from the spec (§4.3): the field store of the id writes
    the point; on the field's first write a new field store is written and inserted. The size is the new
    store's and what its `Write` reports. -/
def writeField (ts : TStore B) (fieldID : Nat) (f : PbField) (ctx : WriteContext) : TStore B × Int :=
  match ts.getFStore fieldID with
  | some fs => let w := fs.write f ctx; (ts.setFStore w.1, w.2)
  | none => let w := (newFieldStore fieldID).write f ctx; (ts.insertFStore w.1, emptyFieldStoreSize + w.2)

/-- `Write(metric, writeCtx)`. Modelled from the spec (§4.3): each field gets its id from the metric store
    (`writeCtx.GetFieldIDOrGenerate`, with the getter's state `σ`) and is written to its field store; the
    first error ends the write with what was written so far. -/
def write {σ : Type} (getFieldID : σ → String → FieldType → σ × Except Err Nat) (ctx : WriteContext)
    (now : Int) : TStore B → σ → List PbField → TStore B × σ × Int × Option Err
  | ts, st, [] => ({ ts with lastAccessedAt := now }, st, 0, none)
  | ts, st, f :: rest =>
    let r := getFieldID st f.name (getFieldType f.field)
    match r.2 with
    | .error e => (ts, r.1, 0, some e)
    | .ok fieldID =>
      let w := ts.writeField fieldID f ctx
      let r' := write getFieldID ctx now w.1 r.1 rest
      (r'.1, r'.2.1, w.2 + r'.2.2.1, r'.2.2.2)

/-- `FlushSeriesTo(flusher, flushCtx, seriesID)`. Modelled from the spec (§4.2, §6): every field store
    flushes the family, then `FlushSeries(seriesID)`. -/
def flushSeriesTo (ts : TStore B) (familyTime : Int) (seriesID : Nat) : TStore B × Int × List FlushCall :=
  let rs := ts.fStoreNodes.map (·.flushFieldTo familyTime)
  ({ ts with fStoreNodes := rs.map (·.1) }, (rs.map (·.2.1)).sum,
    (rs.map (·.2.2)).flatten ++ [.flushSeries seriesID])

end TStore

/-! ### The tag index -/

/-- `tagKVEntrySet`: a tag key, and for each of its values the bitmap of the series filed under it. -/
structure TagKVEntrySet where
  key : String
  values : List (String × List Nat)
  deriving DecidableEq, Repr

/-- The base size of a tag index. Modelled from the spec: version, counters, time deltas and maps. -/
def emptyTagIndexSize : Int := 8 + 8 + 8 + 8 + 24 + 24 + 24

/-- A tag index (`tagIndexINTF`). Modelled from the spec (§4.3): its version, the tag entry sets in insertion
    order, the series id of each tag set, the series stores, the series id counter, and the time deltas of
    the points written, from the version. -/
structure TagIndex (B : Type) where
  version : Int
  tagKVEntrySets : List TagKVEntrySet
  tagsIDs : List (List (String × String) × Nat)
  seriesID2TStore : List (Nat × TStore B)
  idCounter : Nat
  earliestTimeDelta : Int
  latestTimeDelta : Int

/-- `newTagIndex()`: its version is the clock reading. -/
def newTagIndex (now : Int) : TagIndex B := ⟨now, [], [], [], 0, 0, 0⟩

/-- `staticNopTagIndex`: the placeholder of version `0`. -/
def staticNopTagIndex : TagIndex B := newTagIndex 0

namespace TagKVEntrySet

/-- File series `seriesID` under `value`. -/
def addSeries (e : TagKVEntrySet) (value : String) (seriesID : Nat) : TagKVEntrySet :=
  if e.values.any (·.1 = value) then
    { e with values := e.values.map fun x => if x.1 = value then (x.1, x.2 ++ [seriesID]) else x }
  else { e with values := e.values ++ [(value, [seriesID])] }

/-- Take series `seriesID` out of every bitmap. -/
def removeSeries (e : TagKVEntrySet) (seriesID : Nat) : TagKVEntrySet :=
  { e with values := e.values.map fun x => (x.1, x.2.erase seriesID) }

end TagKVEntrySet

/-- File a series under one tag; a new key gets a new entry set at the end. -/
def addTagKV (sets : List TagKVEntrySet) (seriesID : Nat) (tag : String × String) : List TagKVEntrySet :=
  if sets.any (·.key = tag.1) then sets.map fun e => if e.key = tag.1 then e.addSeries tag.2 seriesID else e
  else sets ++ [⟨tag.1, [(tag.2, [seriesID])]⟩]

namespace TagIndex

/-- `GetTagKVEntrySet(tagKey)`. -/
def getTagKVEntrySet (t : TagIndex B) (tagKey : String) : Option TagKVEntrySet :=
  t.tagKVEntrySets.find? (·.key = tagKey)

/-- `GetTStoreBySeriesID(seriesID)`. -/
def getTStoreBySeriesID (t : TagIndex B) (seriesID : Nat) : Option (TStore B) :=
  (t.seriesID2TStore.find? (·.1 = seriesID)).map (·.2)

/-- `GetTStore(tags)`: the series of the tag set, and its store. A point's tags are its map's entries in
    key order (`PbMetric.tags_sorted`), so equal lists are equal maps. -/
def getTStore (t : TagIndex B) (tags : List (String × String)) : Option (Nat × TStore B) :=
  match (t.tagsIDs.find? (·.1 = tags)).map (·.2) with
  | some seriesID => (t.getTStoreBySeriesID seriesID).map (seriesID, ·)
  | none => none

/-- The series store `GetTStoreBySeriesID(seriesID)` gave becomes `ts`. -/
def setTStore (t : TagIndex B) (seriesID : Nat) (ts : TStore B) : TagIndex B :=
  { t with seriesID2TStore := setFirst (·.1 = seriesID) (seriesID, ts) t.seriesID2TStore }

/-- The tag keys the index would hold with the tags of a new series. -/
def tagKeysWith (t : TagIndex B) (tags : List (String × String)) : Nat :=
  (t.tagKVEntrySets.map (·.key) ++ tags.map (·.1)).dedup.length

/-- `TagsInUse()`: the series stores kept. -/
def tagsInUse (t : TagIndex B) : Nat := t.seriesID2TStore.length

/-- `TagsUsed()`: the series ids given out. -/
def tagsUsed (t : TagIndex B) : Nat := t.idCounter

/-- `UpdateIndexTimeRange(pointTime)`. -/
def updateIndexTimeRange (t : TagIndex B) (pointTime : Int) : TagIndex B :=
  { t with earliestTimeDelta := min t.earliestTimeDelta (pointTime - t.version)
           latestTimeDelta := max t.latestTimeDelta (pointTime - t.version) }

/-- `IndexTimeRange()`. -/
def indexTimeRange (t : TagIndex B) : TimeRange := ⟨t.version + t.earliestTimeDelta, t.version + t.latestTimeDelta⟩

/-- `GetSeriesIDsForTag(tagKey)`: the series filed under any value of the key, or `nil` for a key the index
    does not have. -/
def getSeriesIDsForTag (t : TagIndex B) (tagKey : String) : Option (List Nat) :=
  (t.getTagKVEntrySet tagKey).map fun e => (e.values.map (·.2)).foldl (· ∪ ·) []

/-- Take one series out: its store, its tag set and its bits. -/
def removeSeries (t : TagIndex B) (seriesID : Nat) : TagIndex B :=
  { t with seriesID2TStore := t.seriesID2TStore.filter (·.1 ≠ seriesID)
           tagsIDs := t.tagsIDs.filter (·.2 ≠ seriesID)
           tagKVEntrySets := t.tagKVEntrySets.map (·.removeSeries seriesID) }

/-- `RemoveTStores(seriesIDs...)`: the stores taken out, in the order of the ids. -/
def removeTStores (t : TagIndex B) : List Nat → TagIndex B × List (TStore B)
  | [] => (t, [])
  | seriesID :: rest =>
    match t.getTStoreBySeriesID seriesID with
    | none => t.removeTStores rest
    | some ts =>
      let r := (t.removeSeries seriesID).removeTStores rest
      (r.1, ts :: r.2)

variable [Block B]

/-- `MemSize()`. Modelled from the spec: the base size and the series stores'. -/
def memSize (t : TagIndex B) : Int := emptyTagIndexSize + (t.seriesID2TStore.map (·.2.memSize)).sum

/-- `GetOrCreateTStore(tags, writeCtx)`: a new tag set gets the next series id, its bits and a new store,
    unless it would bring the index above `MStoreMaxTagKeysCount` tag keys. The size is the new store's. -/
def getOrCreateTStore (t : TagIndex B) (tags : List (String × String)) (now : Int) :
    Except Err (TagIndex B × Nat × TStore B × Int) :=
  match t.getTStore tags with
  | some (seriesID, ts) => .ok (t, seriesID, ts, 0)
  | none =>
    if MStoreMaxTagKeysCount < t.tagKeysWith tags then .error .tooManyTagKeys
    else
      let seriesID := t.idCounter + 1
      let ts : TStore B := newTimeSeriesStore now
      .ok ({ t with
          tagKVEntrySets := tags.foldl (fun sets tag => addTagKV sets seriesID tag) t.tagKVEntrySets
          tagsIDs := t.tagsIDs ++ [(tags, seriesID)]
          seriesID2TStore := t.seriesID2TStore ++ [(seriesID, ts)]
          idCounter := seriesID }, seriesID, ts, ts.memSize)

/-- `FlushVersionDataTo(flusher, flushCtx)`. Modelled from the spec: every series flushes the family. -/
def flushVersionDataTo (t : TagIndex B) (familyTime : Int) : TagIndex B × Int × List FlushCall :=
  let rs := t.seriesID2TStore.map fun x => (x.1, x.2.flushSeriesTo familyTime x.1)
  ({ t with seriesID2TStore := rs.map fun x => (x.1, x.2.1) }, (rs.map (·.2.2.1)).sum,
    (rs.map (·.2.2.2)).flatten)

end TagIndex

end Lindb.Memdb

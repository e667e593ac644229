import Lindb.Go

/-! The field store of `tsdb/memdb/field_store.go`: the segments of one field, one per family, in a slice
    sorted by family time. The segment store behind `sStoreINTF` (`simpleFieldStore`) is not under src/: a
    segment is its family time, its aggregate function and a slot block, and the block's methods are taken
    as given (§4.1). -/

namespace Lindb.Memdb

/-! ### Points -/

/-- The aggregate function of a segment (§4.1). -/
inductive AggFunc
  | sum | min | max | first | last
  deriving DecidableEq, Repr

/-- `field.Type` of `series/field`. -/
inductive FieldType
  | sumField | minField | maxField | histogramField
  deriving DecidableEq, Repr

/-- The value oneof of a `pb.Field`. -/
inductive PbFieldValue
  | sum (value : Float)
  | min (value : Float)
  | max (value : Float)

/-- `pb.Field`. -/
structure PbField where
  name : String
  field : PbFieldValue

/-- Go's `<` on strings, over their characters: UTF-8 bytes compare as the code points they encode. -/
def stringLess : List Char → List Char → Bool
  | [], _ :: _ => true
  | c :: cs, d :: ds => c.toNat < d.toNat || c.toNat == d.toNat && stringLess cs ds
  | _, _ => false

/-- `pb.Metric`: a point of a metric, its timestamp in epoch-ms, its tags and its fields. The tag map is
    the list of its entries in ascending key order, so one map has one list: the stable signature the tag
    index keys its series by (§4.3). -/
structure PbMetric where
  name : String
  timestamp : Int
  tags : List (String × String)
  tags_sorted : tags.Pairwise fun a b => stringLess a.1.toList b.1.toList
  fields : List PbField

/-- `writeContext`, without the block store and the generator, which the model passes on its own. -/
structure WriteContext where
  metricID : Nat
  familyTime : Int
  slotIndex : Nat
  timeInterval : Int
  deriving DecidableEq, Repr

/-- `writeContext.PointTime`. -/
def WriteContext.pointTime (ctx : WriteContext) : Int := ctx.familyTime + ctx.timeInterval * ctx.slotIndex

/-- `field.Meta`. -/
structure FieldMeta where
  name : String
  id : Nat
  type : FieldType
  deriving DecidableEq, Repr

/-- A call on a `metricsdata.Flusher` (§6). -/
inductive FlushCall
  | flushFieldMetas (metas : List FieldMeta)
  | flushField (fieldID : Nat) (data : List UInt8)
  | flushSeries (seriesID : Nat)
  | flushMetric (metricID : Nat)
  deriving DecidableEq, Repr

/-- `timeutil.TimeRange`. -/
structure TimeRange where
  start : Int
  «end» : Int
  deriving DecidableEq, Repr

/-! ### Segments -/

/-- The slot block of a segment store, and the capacity Go's `append` gives the field store's segment
    slice. Neither is under src/ (the block belongs to `simpleFieldStore`, the capacity rule is the
    runtime's), so the model takes them as given. -/
class Block (B : Type) where
  /-- A fresh block from the block store. -/
  empty : B
  /-- Merge a value into a slot with the aggregate function; the bytes the block grew by. -/
  writeFloat : B → AggFunc → Nat → Float → B × Int
  /-- `Bytes(true)`: the encoded slots, and the block after its buffer went back to the pool. -/
  bytes : B → Except String (List UInt8) × B
  /-- The earliest and the latest slot written. -/
  slotRange : B → Except String (Nat × Nat)
  memSize : B → Int
  /-- The capacity of a slice of capacity `cap` after an `append` that needs `n` elements, `cap < n`. -/
  growslice : Nat → Nat → Nat

/-- A segment store (`sStoreINTF`): the points of one field in one family. -/
structure SStore (B : Type) where
  familyTime : Int
  aggFunc : AggFunc
  block : B

variable {B : Type}

section Block
variable [Block B]

/-- `newSimpleFieldStore(familyTime, aggFunc)`. -/
def newSimpleFieldStore (familyTime : Int) (aggFunc : AggFunc) : SStore B := ⟨familyTime, aggFunc, Block.empty⟩

namespace SStore

/-- `WriteFloat(value, writeCtx)`: the slot is `writeCtx.slotIndex`. -/
def writeFloat (s : SStore B) (value : Float) (ctx : WriteContext) : SStore B × Int :=
  let r := Block.writeFloat s.block s.aggFunc ctx.slotIndex value
  ({ s with block := r.1 }, r.2)

/-- `Bytes(true)`. -/
def bytes (s : SStore B) : Except String (List UInt8) × SStore B :=
  let r := Block.bytes s.block
  (r.1, { s with block := r.2 })

def slotRange (s : SStore B) : Except String (Nat × Nat) := Block.slotRange s.block

def memSize (s : SStore B) : Int := Block.memSize s.block

@[simp] theorem writeFloat_familyTime (s : SStore B) (v : Float) (ctx : WriteContext) :
    (s.writeFloat v ctx).1.familyTime = s.familyTime := rfl

@[simp] theorem bytes_familyTime (s : SStore B) : s.bytes.2.familyTime = s.familyTime := rfl

end SStore

@[simp] theorem newSimpleFieldStore_familyTime (ft : Int) (agg : AggFunc) :
    (newSimpleFieldStore ft agg : SStore B).familyTime = ft := rfl

end Block

/-! ### The field store -/

/-- `emptyFieldStoreSize`: the field id and the slice header. -/
def emptyFieldStoreSize : Int := 2 + 24

/-- `fieldStore`: `sStoreNodes` is the segment slice and `capacity` its `cap`. -/
structure FieldStore (B : Type) where
  fieldID : Nat
  sStoreNodes : List (SStore B)
  capacity : Nat

/-- `newFieldStore(fieldID)`. -/
def newFieldStore (fieldID : Nat) : FieldStore B := ⟨fieldID, [], 0⟩

namespace FieldStore

/-- `SegmentsCount()`. -/
def segmentsCount (fs : FieldStore B) : Nat := fs.sStoreNodes.length

/-- The family times of the segments, in slice order. -/
def familyTimes (fs : FieldStore B) : List Int := fs.sStoreNodes.map (·.familyTime)

/-- Whether a segment of the family is kept. -/
def hasFamily (fs : FieldStore B) (familyTime : Int) : Bool := fs.sStoreNodes.any (·.familyTime == familyTime)

/-- The test of the `sort.Search` in `GetSStore` and `removeSStore`: the `i`-th segment's family time is
    at least `familyTime`. -/
def familyAtLeast (nodes : List (SStore B)) (familyTime : Int) (i : Nat) : Bool :=
  match nodes[i]? with
  | some s => decide (familyTime ≤ s.familyTime)
  | none => true

/-- The `sort.Search` of `GetSStore` and `removeSStore`. -/
def searchSStore (fs : FieldStore B) (familyTime : Int) : Nat :=
  search fs.sStoreNodes.length (familyAtLeast fs.sStoreNodes familyTime)

/-- `GetSStore(familyTime)`. -/
def getSStore (fs : FieldStore B) (familyTime : Int) : Option (SStore B) :=
  match fs.sStoreNodes[fs.searchSStore familyTime]? with
  | some s => if s.familyTime = familyTime then some s else none
  | none => none

/-- `removeSStore(familyTime)`: the segments after the one found shift down by one; the capacity stays. -/
def removeSStore (fs : FieldStore B) (familyTime : Int) : FieldStore B :=
  match fs.sStoreNodes[fs.searchSStore familyTime]? with
  | some s =>
    if s.familyTime = familyTime then { fs with sStoreNodes := fs.sStoreNodes.eraseIdx (fs.searchSStore familyTime) }
    else fs
  | none => fs

variable [Block B]

/-- `insertSStore(sStore)`: `append`, then `sort.Sort` by family time. The sort is the sorted permutation;
    the field store inserts only a family time it does not hold, so the keys are distinct and every sort
    gives this list. -/
def insertSStore (fs : FieldStore B) (s : SStore B) : FieldStore B :=
  { fs with
    sStoreNodes := (fs.sStoreNodes ++ [s]).insertionSort fun a b => a.familyTime ≤ b.familyTime
    capacity := if fs.sStoreNodes.length + 1 ≤ fs.capacity then fs.capacity
      else Block.growslice B fs.capacity (fs.sStoreNodes.length + 1) }

/-- `Write(f, writeCtx)`: only a Sum field is stored; other kinds are logged and dropped. A new segment is
    written after it is inserted; writing it first gives the same slice, as the sort reads only family
    times. The size is the capacity growth, the new segment's size and what `WriteFloat` reports. -/
def write (fs : FieldStore B) (f : PbField) (ctx : WriteContext) : FieldStore B × Int :=
  match f.field with
  | .sum value =>
    match fs.getSStore ctx.familyTime with
    | some s =>
      let r := s.writeFloat value ctx
      ({ fs with sStoreNodes := fs.sStoreNodes.set (fs.searchSStore ctx.familyTime) r.1 }, r.2)
    | none =>
      let s : SStore B := newSimpleFieldStore ctx.familyTime .sum
      let r := s.writeFloat value ctx
      let fs' := fs.insertSStore r.1
      (fs', ((fs'.capacity : Int) - fs.capacity) * 8 + s.memSize + r.2)
  | _ => (fs, 0)

/-- `FlushFieldTo(tableFlusher, familyTime)`: the segment is removed before it is encoded, and a failed
    encoding drops it; the size returned is the segment's after `Bytes(true)`. -/
def flushFieldTo (fs : FieldStore B) (familyTime : Int) : FieldStore B × Int × List FlushCall :=
  match fs.getSStore familyTime with
  | none => (fs, 0, [])
  | some s =>
    let fs' := fs.removeSStore familyTime
    match s.bytes with
    | (.error _, _) => (fs', 0, [])
    | (.ok data, s') => (fs', s'.memSize, [.flushField fs.fieldID data])

/-- `TimeRange(interval)`: `0` stands for an unset bound. -/
def timeRange (fs : FieldStore B) (interval : Int) : TimeRange × Bool :=
  fs.sStoreNodes.foldl (fun acc s =>
    match s.slotRange with
    | .error _ => acc
    | .ok (startSlot, endSlot) =>
      let startTime := s.familyTime + startSlot * interval
      let endTime := s.familyTime + endSlot * interval
      ({ start := if acc.1.start = 0 ∨ startTime < acc.1.start then startTime else acc.1.start
         «end» := if acc.1.«end» = 0 ∨ acc.1.«end» < endTime then endTime else acc.1.«end» }, true))
    (⟨0, 0⟩, false)

/-- `MemSize()`. -/
def memSize (fs : FieldStore B) : Int :=
  emptyFieldStoreSize + 8 * fs.capacity + (fs.sStoreNodes.map SStore.memSize).sum

@[simp] theorem write_fieldID (fs : FieldStore B) (f : PbField) (ctx : WriteContext) :
    (fs.write f ctx).1.fieldID = fs.fieldID := by
  unfold write; split
  · split <;> rfl
  · rfl

@[simp] theorem flushFieldTo_fieldID (fs : FieldStore B) (ft : Int) : (fs.flushFieldTo ft).1.fieldID = fs.fieldID := by
  unfold flushFieldTo removeSStore; split
  · rfl
  · split <;> split <;> (try split) <;> rfl

end FieldStore

end Lindb.Memdb

import Lindb.Theorems.Query

/-! The memory database under concurrent calls (§4.4, §4.5). `Write` calls, evictor passes and the
    limitation syncer are threads over one shared state; a section under a lock, or a lock-free access,
    is one step. Stores are reached through pointers, so a store taken out stays where its holders write. -/

namespace Lindb.Memdb
namespace Concurrent

variable {B : Type}

/-- The shared state: buckets from metric hash to an address in `heap`, where deleted stores stay, and the
    series stores the evictor took out (`detached`), by store address and series id. -/
structure Shared (B : Type) where
  mStoresList : List (List (UInt64 × Nat))
  heap : List (MStore B)
  detached : List ((Nat × Nat) × TStore B)
  metricID2Hash : List (Nat × UInt64)
  size : Int
  lastWroteFamilyTime : Int
  familyTimes : List Int

namespace Shared

/-- The state `NewMemoryDatabase` leaves. -/
def init (cfg : Config) : Shared B := ⟨List.replicate (cfg.shardingCountMask.toNat + 1) [], [], [], [], 0, 0, []⟩

/-- The database a reader sees: each bucket's hashes with the stores at their addresses. -/
def toMemDB (s : Shared B) : MemDB B :=
  ⟨s.mStoresList.map (List.filterMap fun x => (s.heap[x.2]?).map (x.1, ·)), s.metricID2Hash, s.size,
    s.lastWroteFamilyTime, s.familyTimes⟩

/-- `getMStoreByMetricHash(hash)`, under the bucket's read lock: the address of the hash's store. -/
def getAddr (s : Shared B) (cfg : Config) (hash : UInt64) : Option Nat :=
  mapLoad (s.mStoresList.getD (getBucketIndex cfg hash) []) hash

/-- The metric store at `addr` becomes `ms`. -/
def setStore (s : Shared B) (addr : Nat) (ms : MStore B) : Shared B := { s with heap := s.heap.set addr ms }

/-- The series store `seriesID` of the metric store at `addr`, as a writer holding it reaches it: in the
    store's index, or where the evictor left it. -/
def getTStore (s : Shared B) (addr seriesID : Nat) : Option (TStore B) :=
  match s.heap[addr]? with
  | some ms =>
    match ms.mutable.getTStoreBySeriesID seriesID with
    | some ts => some ts
    | none => mapLoad s.detached (addr, seriesID)
  | none => none

/-- The series store a writer holds becomes `ts`. -/
def setTStore (s : Shared B) (addr seriesID : Nat) (ts : TStore B) : Shared B :=
  match s.heap[addr]? with
  | some ms =>
    match ms.mutable.getTStoreBySeriesID seriesID with
    | some _ => s.setStore addr { ms with mutable := ms.mutable.setTStore seriesID ts }
    | none => { s with detached := mapStore s.detached (addr, seriesID) ts }
  | none => s

section Block
variable [Block B]

/-- `getOrCreateMStore`'s section under the bucket's lock when the hash has no store there: a new metric
    store at the next address, its size added, its id mapped to the hash. -/
def createMStore (s : Shared B) (cfg : Config) (metricName : String) (now : Int) : Shared B :=
  let hash := cfg.hash metricName
  let ms : MStore B := newMetricStore (cfg.generator.genMetricID metricName) now
  { s with mStoresList := s.mStoresList.modify (· ++ [(hash, s.heap.length)]) (getBucketIndex cfg hash)
           heap := s.heap ++ [ms], size := toInt32 (s.size + toInt32 ms.memSize)
           metricID2Hash := mapStore s.metricID2Hash ms.metricID hash }

/-- `Evict()`'s section under `Lock` on the store `ms` at `addr`: the series `ids` leave its index for
    `detached`, and their size leaves the store's counter and the database's. -/
def evictTStores (s : Shared B) (addr : Nat) (ms : MStore B) (ids : List Nat) : Shared B :=
  let r := ms.mutable.removeTStores ids
  let evictedSize := (r.2.map TStore.memSize).sum
  { s with heap := s.heap.set addr { ms with mutable := r.1, size := toInt32 (ms.size - toInt32 evictedSize) }
           detached := s.detached ++ ids.filterMap fun seriesID =>
             (ms.mutable.getTStoreBySeriesID seriesID).map ((addr, seriesID), ·)
           size := toInt32 (s.size - toInt32 evictedSize) }

/-- The evictor's section under the lock of bucket `bucket`, for the store `ms` of `hash`: when it is still
    empty, it leaves the bucket and its id leaves the id map; its size is subtracted either way. -/
def deleteMStore (s : Shared B) (bucket : Nat) (hash : UInt64) (ms : MStore B) : Shared B :=
  let s₁ := if ms.isEmpty then
      { s with mStoresList := s.mStoresList.modify (mapDelete · hash) bucket
               metricID2Hash := mapDelete s.metricID2Hash ms.metricID }
    else s
  { s₁ with size := toInt32 (s₁.size - toInt32 ms.memSize) }

end Block

/-- `addFamilyTime(familyTime)`, as `MemDB.addFamilyTime`. -/
def addFamilyTime (s : Shared B) (familyTime : Int) : Shared B :=
  if s.lastWroteFamilyTime = familyTime then s
  else { s with lastWroteFamilyTime := familyTime,
                familyTimes := if familyTime ∈ s.familyTimes then s.familyTimes else s.familyTimes ++ [familyTime] }

end Shared

/-- The `writeContext` of `md.Write(metric)` with the metric store `ms`. -/
def writeContext (cfg : Config) (metric : PbMetric) (ms : MStore B) : WriteContext :=
  ⟨ms.metricID, (cfg.intervalCalc metric.timestamp).1, (cfg.intervalCalc metric.timestamp).2, cfg.interval⟩

/-! ### Threads -/

/-- Where a `Write(metric)` call is. `written` is what the series store's `Write` reported so far, and
    `createdSize` the size of the series store `GetOrCreateTStore` created. -/
inductive WriterPC
  /-- `getMStoreByMetricHash(hash)`, under the bucket's read lock. -/
  | start
  /-- `getOrCreateMStore`'s section under the bucket's lock. -/
  | create
  /-- `isFull()` of the metric store at `addr`. -/
  | isFull (addr : Nat)
  /-- `GetTStore(tags)`, under `RLock`. -/
  | getTStore (addr : Nat)
  /-- `GetOrCreateTStore(tags)` under `Lock`, and the size added after it. -/
  | createTStore (addr : Nat)
  /-- The series store's `Write` at its next field: the lock-free look-up of `GetFieldIDOrGenerate`; with
      no field left, the last access time. -/
  | nextField (addr seriesID : Nat) (fields : List PbField) (written createdSize : Int)
  /-- `GetFieldIDOrGenerate`'s section under `mux`: the reload, the double check, the generator and the
      store of the new metas. -/
  | generateField (addr seriesID : Nat) (f : PbField) (fields : List PbField) (written createdSize : Int)
  /-- The write of field `f`, whose id is `fieldID`, into the series store. -/
  | writeField (addr seriesID fieldID : Nat) (f : PbField) (fields : List PbField) (written createdSize : Int)
  /-- `UpdateIndexTimeRange(pointTime)`, under `RLock`. -/
  | updateIndexTimeRange (addr : Nat) (written createdSize : Int)
  /-- The metric store's size gets what the series store reported. -/
  | addSize (addr : Nat) (written createdSize : Int) (err : Option Err)
  /-- `md.Write`'s end: the family is recorded when the store's `Write` returned nil, and the size added. -/
  | finish (writtenSize : Int) (err : Option Err)
  | done (err : Option Err)

/-- Where a pass of the evictor is: the bucket, and the entries of its `allMetricStores()` copy not yet
    done, the first being worked on. -/
inductive EvictorPC
  /-- `allMetricStores()` of bucket `bucket`, under its read lock; past the last bucket the pass ends. -/
  | snapshot (bucket : Nat)
  /-- `Evict()`'s first check of the first of `stores`, under `RLock`. -/
  | firstCheck (bucket : Nat) (stores : List (UInt64 × Nat))
  /-- `Evict()`'s double check and `RemoveTStores`, under `Lock`, and the sizes subtracted after. -/
  | doubleCheck (bucket : Nat) (stores : List (UInt64 × Nat)) (evictList : List Nat)
  /-- `IsEmpty()`. -/
  | isEmpty (bucket : Nat) (stores : List (UInt64 × Nat))
  /-- The section under the bucket's lock: `IsEmpty()` again, the deletes, and the size subtracted. -/
  | delete (bucket : Nat) (stores : List (UInt64 × Nat))
  | done

/-- Where `setLimitations(limitations)` is: `getMStore(metricName)` of the next limitation, then
    `SetMaxTagsLimit(limit)` on the store found. -/
inductive LimiterPC
  | next (limitations : List (String × Nat))
  | set (addr limit : Nat) (limitations : List (String × Nat))
  | done

section Block
variable [Block B]

/-- The next step of `Write(metric)`, with the clock reading `now`; none once it returned. -/
def stepWriter (cfg : Config) (metric : PbMetric) (now : Int) (s : Shared B) : WriterPC → Option (Shared B × WriterPC)
  | .start => some (s, match s.getAddr cfg (cfg.hash metric.name) with
      | some addr => .isFull addr
      | none => .create)
  | .create =>
    match s.getAddr cfg (cfg.hash metric.name) with
    | some addr => some (s, .isFull addr)
    | none => some (s.createMStore cfg metric.name now, .isFull s.heap.length)
  | .isFull addr => (s.heap[addr]?).map fun ms =>
      (s, if ms.isFull then .finish 0 (some .tooManyTags) else .getTStore addr)
  | .getTStore addr => (s.heap[addr]?).map fun ms =>
      (s, match ms.mutable.getTStore metric.tags with
        | some (seriesID, _) => .nextField addr seriesID metric.fields 0 0
        | none => .createTStore addr)
  | .createTStore addr => (s.heap[addr]?).map fun ms =>
      match ms.mutable.getOrCreateTStore metric.tags now with
      | .error e => (s, .finish 0 (some e))
      | .ok (mutable, seriesID, _, createdSize) =>
        (s.setStore addr { ms with mutable, size := toInt32 (ms.size + toInt32 createdSize) },
          .nextField addr seriesID metric.fields 0 createdSize)
  | .nextField addr seriesID [] written createdSize => (s.getTStore addr seriesID).map fun ts =>
      (s.setTStore addr seriesID { ts with lastAccessedAt := now }, .updateIndexTimeRange addr written createdSize)
  | .nextField addr seriesID (f :: fields) written createdSize => (s.heap[addr]?).map fun ms =>
      (s, match getFromName ms.fieldsMetas f.name with
        | some fm =>
          if fm.type = getFieldType f.field then .writeField addr seriesID fm.id f fields written createdSize
          else .addSize addr written createdSize (some .wrongFieldType)
        | none =>
          if TStoreMaxFieldsCount ≤ ms.fieldsMetas.length then .addSize addr written createdSize (some .tooManyFields)
          else .generateField addr seriesID f fields written createdSize)
  | .generateField addr seriesID f fields written createdSize => (s.heap[addr]?).map fun ms =>
      match getFromName ms.fieldsMetas f.name with
      | some fm => (s, .writeField addr seriesID fm.id f fields written createdSize)
      | none =>
        match cfg.generator.genFieldID ms.metricID f.name (getFieldType f.field) with
        | .error e => (s, .addSize addr written createdSize (some (.generator e)))
        | .ok id => (s.setStore addr { ms with fieldsMetas := ms.fieldsMetas ++ [⟨f.name, id, getFieldType f.field⟩] },
            .writeField addr seriesID id f fields written createdSize)
  | .writeField addr seriesID fieldID f fields written createdSize =>
    match s.heap[addr]?, s.getTStore addr seriesID with
    | some ms, some ts =>
      let w := ts.writeField fieldID f (writeContext cfg metric ms)
      some (s.setTStore addr seriesID w.1, .nextField addr seriesID fields (written + w.2) createdSize)
    | _, _ => none
  | .updateIndexTimeRange addr written createdSize => (s.heap[addr]?).map fun ms =>
      (s.setStore addr { ms with mutable := ms.mutable.updateIndexTimeRange (writeContext cfg metric ms).pointTime },
        .addSize addr written createdSize none)
  | .addSize addr written createdSize err => (s.heap[addr]?).map fun ms =>
      (s.setStore addr { ms with size := toInt32 (ms.size + toInt32 written) }, .finish (written + createdSize) err)
  | .finish writtenSize err =>
    let s₁ := if err.isNone then s.addFamilyTime (cfg.intervalCalc metric.timestamp).1 else s
    some ({ s₁ with size := toInt32 (s₁.size + toInt32 writtenSize) }, .done err)
  | .done _ => none

/-- The next step of a pass of the evictor, with the clock reading `now`; none once it ended. -/
def stepEvictor (cfg : Config) (now : Int) (s : Shared B) : EvictorPC → Option (Shared B × EvictorPC)
  | .snapshot bucket => some (s, match s.mStoresList[bucket]? with
      | some b => .firstCheck bucket b
      | none => .done)
  | .firstCheck bucket [] => some (s, .snapshot (bucket + 1))
  | .firstCheck bucket ((hash, addr) :: stores) => (s.heap[addr]?).map fun ms =>
      (s, .doubleCheck bucket ((hash, addr) :: stores) (ms.evictList now cfg.tStoreExpiredDuration))
  | .doubleCheck _ [] _ => none
  | .doubleCheck bucket ((hash, addr) :: stores) evictList => (s.heap[addr]?).map fun ms =>
      (s.evictTStores addr ms (ms.doubleCheckEvictList evictList now cfg.tStoreExpiredDuration),
        .isEmpty bucket ((hash, addr) :: stores))
  | .isEmpty _ [] => none
  | .isEmpty bucket ((hash, addr) :: stores) => (s.heap[addr]?).map fun ms =>
      (s, if ms.isEmpty then .delete bucket ((hash, addr) :: stores) else .firstCheck bucket stores)
  | .delete _ [] => none
  | .delete bucket ((hash, addr) :: stores) => (s.heap[addr]?).map fun ms =>
      (s.deleteMStore bucket hash ms, .firstCheck bucket stores)
  | .done => none

end Block

/-- The next step of `setLimitations`; none once it ended. -/
def stepLimiter (cfg : Config) (s : Shared B) : LimiterPC → Option (Shared B × LimiterPC)
  | .next [] => some (s, .done)
  | .next ((metricName, limit) :: limitations) => some (s, match s.getAddr cfg (cfg.hash metricName) with
      | some addr => .set addr limit limitations
      | none => .next limitations)
  | .set addr limit limitations => (s.heap[addr]?).map fun ms => (s.setStore addr (ms.setMaxTagsLimit limit), .next limitations)
  | .done => none

/-- A thread: a `Write(metric)` call with its clock reading, a pass of the evictor with its clock reading,
    or a `setLimitations` of the limitation syncer. -/
inductive Thread
  | writer (metric : PbMetric) (now : Int) (pc : WriterPC)
  | evictor (now : Int) (pc : EvictorPC)
  | limiter (pc : LimiterPC)

namespace Thread

/-- A pass of the evictor that has not ended. -/
def isEvicting : Thread → Bool
  | .evictor _ .done => false
  | .evictor _ _ => true
  | _ => false

/-- A `setLimitations` that has not ended. -/
def isLimiting : Thread → Bool
  | .limiter .done => false
  | .limiter _ => true
  | _ => false

/-- What a `Write` call returned, once it returned. -/
def returned : Thread → Option (Option Err)
  | .writer _ _ (.done err) => some err
  | _ => none

end Thread

/-- The next step of a thread; none once it ended. -/
def stepThread [Block B] (cfg : Config) (s : Shared B) : Thread → Option (Shared B × Thread)
  | .writer metric now pc => (stepWriter cfg metric now s pc).map fun r => (r.1, .writer metric now r.2)
  | .evictor now pc => (stepEvictor cfg now s pc).map fun r => (r.1, .evictor now r.2)
  | .limiter pc => (stepLimiter cfg s pc).map fun r => (r.1, .limiter r.2)

/-- The shared state and the threads started so far. -/
structure Sys (B : Type) where
  shared : Shared B
  threads : List Thread

/-- What happens next: a `Write` starts, the evictor or the syncer starts, or thread `i` steps. -/
inductive Event
  | write (metric : PbMetric) (now : Int)
  | evict (now : Int)
  | limit (limitations : List (String × Nat))
  | step (i : Nat)

section Block
variable [Block B]

/-- The system after the event, or none if it cannot happen. -/
def Sys.apply (cfg : Config) (sys : Sys B) : Event → Option (Sys B)
  | .write metric now => some { sys with threads := sys.threads ++ [.writer metric now .start] }
  | .evict now => if sys.threads.any Thread.isEvicting then none
      else some { sys with threads := sys.threads ++ [.evictor now (.snapshot 0)] }
  | .limit limitations => if sys.threads.any Thread.isLimiting then none
      else some { sys with threads := sys.threads ++ [.limiter (.next limitations)] }
  | .step i => match sys.threads[i]? with
    | some t => (stepThread cfg sys.shared t).map fun r => ⟨r.1, sys.threads.set i r.2⟩
    | none => none

/-- The events of a schedule, one after the other. -/
def run (cfg : Config) : Sys B → List Event → Option (Sys B)
  | sys, [] => some sys
  | sys, e :: es => (sys.apply cfg e).bind fun sys' => run cfg sys' es

/-- The systems reached from `NewMemoryDatabase` under some schedule. -/
inductive Reachable (cfg : Config) : Sys B → Prop
  | init : Reachable cfg ⟨Shared.init cfg, []⟩
  | step {sys sys' : Sys B} {e : Event} : Reachable cfg sys → sys.apply cfg e = some sys' → Reachable cfg sys'

theorem Reachable.run {cfg : Config} : ∀ {sys sys' : Sys B} {es : List Event},
    Reachable cfg sys → Concurrent.run cfg sys es = some sys' → Reachable cfg sys'
  | _, _, [], h, hr => by cases hr; exact h
  | sys, _, e :: es, h, hr => by
    cases he : sys.apply cfg e with
    | none => simp [Concurrent.run, he] at hr
    | some sys₁ => exact (h.step he).run (by simpa [Concurrent.run, he] using hr)

theorem exists_of_run {cfg : Config} {p : Sys B → Prop} [DecidablePred p] (sys₀ : Sys B) (es : List Event)
    (h : (Concurrent.run cfg sys₀ es).map (fun sys => decide (p sys)) = some true) :
    ∃ sys, Concurrent.run cfg sys₀ es = some sys ∧ p sys := by
  cases hr : Concurrent.run cfg sys₀ es with
  | none => simp [hr] at h
  | some sys => exact ⟨sys, rfl, by simpa [hr] using h⟩

theorem exists_reachable_of_run {cfg : Config} {p : Sys B → Prop} [DecidablePred p] (es : List Event)
    (h : (Concurrent.run cfg ⟨Shared.init cfg, []⟩ es).map (fun sys => decide (p sys)) = some true) :
    ∃ sys, Reachable cfg sys ∧ p sys :=
  let ⟨sys, hr, hp⟩ := exists_of_run _ es h
  ⟨sys, Reachable.init.run hr, hp⟩

end Block

namespace Sample
open Memdb.Sample

/-- A `Write` of `cpu` stops before `isFull()`, the evictor deletes the empty store, and the `Write` then
    writes into it. -/
def deletedStoreSchedule : List Event :=
  [.write (point "cpu" 100) 1, .step 0, .step 0, .evict 1] ++ List.replicate 9 (.step 1) ++ List.replicate 10 (.step 0)

/-- A `Write` finds a series store that the evictor then removes, expired and without data, and writes
    into it. -/
def removedSeriesSchedule : List Event :=
  [.write ⟨"cpu", 100, [("host", "a")], by decide, []⟩ 1] ++ List.replicate 9 (.step 0) ++
    [.write ⟨"cpu", 100, [("host", "b")], by decide, [⟨"f", .sum 1⟩]⟩ 101] ++ List.replicate 11 (.step 1) ++
    [.write (point "cpu" 100) 101] ++ List.replicate 3 (.step 2) ++ [.evict 101] ++ List.replicate 8 (.step 3) ++
    List.replicate 6 (.step 2)

/-- Both schedules end with a `Write` that returned nil and whose point no reader reaches: it sits in a
    metric store no bucket holds, or in a series store no index holds. -/
theorem evict_orphans_acknowledged_write :
    (∃ sys : Sys Nat, Reachable config sys ∧ (sys.threads[0]?).bind Thread.returned = some none ∧
      ⟨0, [("host", "a")], 1, 100⟩ ∉ sys.shared.toMemDB.segments ∧
      ⟨0, [("host", "a")], 1, 100⟩ ∈ ((sys.shared.heap[0]?).map (·.segments 0)).getD []) ∧
    (∃ sys : Sys Nat, Reachable config sys ∧ (sys.threads[2]?).bind Thread.returned = some none ∧
      ⟨0, [("host", "a")], 1, 100⟩ ∉ sys.shared.toMemDB.segments ∧
      (mapLoad sys.shared.detached (0, 1)).map TStore.keys = some [(1, 100)]) :=
  ⟨exists_reachable_of_run deletedStoreSchedule (by decide),
    exists_reachable_of_run removedSeriesSchedule (by decide)⟩

/-- A point of `host = a` at clock `1`, then the limit of `cpu` set to `2`; two `Write`s of new series
    both find the store not full before either creates its series, and both create one. -/
def tagsLimitSchedule : List Event :=
  [.write (point "cpu" 100) 1] ++ List.replicate 12 (.step 0) ++ [.limit [("cpu", 2)]] ++ List.replicate 3 (.step 1) ++
    [.write ⟨"cpu", 100, [("host", "b")], by decide, [⟨"f", .sum 1⟩]⟩ 2, .write ⟨"cpu", 100, [("host", "c")], by decide, [⟨"f", .sum 1⟩]⟩ 2,
     .step 2, .step 2, .step 3, .step 3, .step 2, .step 2, .step 3, .step 3] ++
    List.replicate 6 (.step 2) ++ List.replicate 6 (.step 3)

/-- Both `Write`s return nil, and the mutable index uses `3` series ids under a limit of `2`. -/
theorem isFull_before_lock_exceeds_limit :
    ∃ sys : Sys Nat, Reachable config sys ∧ (sys.threads[2]?).bind Thread.returned = some none ∧
      (sys.threads[3]?).bind Thread.returned = some none ∧
      (sys.shared.heap[0]?).map (fun ms => (ms.getTagsUsed, ms.maxTagsLimit)) = some (3, 2) :=
  exists_reachable_of_run tagsLimitSchedule (by decide)

end Sample

end Concurrent
end Lindb.Memdb

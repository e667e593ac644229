import Lindb.Theorems.Sizes

/-! The memory database's size counter (§4.5) against the sum of its stores' `MemSize()`: each report is
    how far a store's `MemSize()` moved, as long as no flush meets an immutable index a reader sees. -/

namespace Lindb.Memdb

variable {B : Type}

/-! ### What each call does to a metric store's `MemSize()` -/

namespace MStore
variable [Block B] {ms : MStore B}

theorem memSize_eq (ms : MStore B) :
    ms.memSize = emptyMStoreSize + ms.size + (ms.atomicGetImmutable.map TagIndex.memSize).getD 0 := by
  unfold memSize
  cases ms.atomicGetImmutable <;> rfl

theorem write_memSize_mod (hw : FieldStore.WriteExact B) (gen : IDGenerator) (metric : PbMetric) (ctx : WriteContext)
    (now : Int) (hi : ms.SizeInv) :
    toInt32 (ms.write gen metric ctx now).1.memSize = toInt32 (ms.memSize + (ms.write gen metric ctx now).2.1) := by
  obtain ⟨hi', hgrow, himm⟩ := write_size hw gen metric ctx now hi
  have hvis : (ms.write gen metric ctx now).1.atomicGetImmutable = ms.atomicGetImmutable := by
    simp only [atomicGetImmutable, himm]
  rw [memSize_of_sizeInv hi', memSize_of_sizeInv hi, hgrow, hvis, toInt32_eq_iff]
  unfold toInt32
  omega

theorem resetVersion_memSize_mod (now : Int) (hwf : ms.WF) (hi : ms.SizeInv) :
    toInt32 (ms.resetVersion now).1.memSize = toInt32 (ms.memSize + (ms.resetVersion now).2.1) := by
  rw [memSize_eq, memSize_eq]
  unfold resetVersion
  split
  · simp
  · rename_i hnone
    rw [Option.not_isSome_iff_eq_none.mp hnone]
    simp only [atomicGetImmutable, Option.filter, ne_eq, hwf.version_pos.ne', not_false_eq_true, decide_True,
      if_true, Option.map_some', Option.getD_some, hi.size, Option.map_none', Option.getD_none, add_zero, toInt32_eq_iff]
    unfold toInt32
    omega

theorem evict_memSize_mod (ms : MStore B) (now d : Int) :
    toInt32 (ms.evict now d).1.memSize = toInt32 (ms.memSize - (ms.evict now d).2) := by
  simp only [memSize_eq, evict, atomicGetImmutable, toInt32_eq_iff]
  unfold toInt32
  omega

theorem flushMetricsDataTo_memSize_mod (fl : DataFlusher) (history : List FlushCall) (ft : Int)
    (hnone : ms.atomicGetImmutable = none) :
    toInt32 (ms.flushMetricsDataTo fl history ft).1.memSize = toInt32 (ms.memSize - (ms.flushMetricsDataTo fl history ft).2.1) := by
  rw [memSize_eq, memSize_eq, flushMetricsDataTo_atomicGetImmutable, hnone]
  simp only [flushMetricsDataTo, hnone, toInt32_eq_iff, Option.map_none', Option.getD_none]
  unfold toInt32
  omega

theorem apply_atomicGetImmutable (h : ms.atomicGetImmutable = none) :
    ∀ c : Call, (∀ now, c ≠ .resetVersion now) → (ms.apply c).atomicGetImmutable = none
  | .write gen metric ctx now, _ => by
    rcases write_cases ms gen metric ctx now with heq | ⟨_, _, _, _, _, _, _, himm, _⟩
    · rwa [apply, heq]
    · rwa [apply, atomicGetImmutable, himm]
  | .evict now d, _ => by rwa [apply, atomicGetImmutable, (evict_cases ms now d).choose_spec.2.2]
  | .resetVersion now, hc => absurd rfl (hc now)
  | .flushMetricsDataTo .., _ => flushMetricsDataTo_atomicGetImmutable

end MStore

/-! ### Sums over the buckets -/

theorem sum_map_flatten_modify {α : Type} (g : α → Int) (f : List α → List α) :
    ∀ {l : List (List α)} {i : Nat} {b : List α}, l[i]? = some b →
      ((l.modify f i).flatten.map g).sum = (l.flatten.map g).sum - (b.map g).sum + ((f b).map g).sum
  | _ :: _, 0, _, h => by
    simp only [List.getElem?_cons_zero, Option.some.injEq] at h
    subst h
    simp only [List.modify_zero_cons, List.flatten_cons, List.map_append, List.sum_append]
    omega
  | _ :: _, i + 1, _, h => by
    simp only [List.modify_succ_cons, List.flatten_cons, List.map_append, List.sum_append,
      sum_map_flatten_modify g f (l := _) (i := i) (by simpa using h)]
    omega

namespace MemDB
variable [Block B] {cfg : Config} {md md₁ : MemDB B} {hash : UInt64} {ms : MStore B}

/-- The sum of the metric stores' `MemSize()`, which the database's counter is meant to follow. -/
def storesSize (md : MemDB B) : Int := (md.entries.map (·.2.memSize)).sum

theorem storesSize_setMStore (h : md.getMStoreByMetricHash cfg hash = some ms) (ms' : MStore B) :
    (md.setMStore cfg hash ms').storesSize = md.storesSize - ms.memSize + ms'.memSize := by
  obtain ⟨hb, hfind⟩ := getMStoreByMetricHash_bucket h
  simp only [storesSize, entries, setMStore, sum_map_flatten_modify _ _ hb, sum_map_setFirst _ hfind]
  omega

theorem getOrCreateMStore_counter {name : String} {now : Int} (hlen : getBucketIndex cfg hash < md.mStoresList.length)
    (hc : md.size = toInt32 md.storesSize) (hgot : md.getOrCreateMStore cfg name hash now = (md₁, ms)) :
    md₁.getMStoreByMetricHash cfg hash = some ms ∧ md₁.mStoresList.length = md.mStoresList.length ∧
      md₁.size = toInt32 md₁.storesSize := by
  unfold getOrCreateMStore at hgot
  split at hgot
  · cases hgot
    exact ⟨‹_›, rfl, hc⟩
  split at hgot
  · rename_i h
    cases h
  rename_i hnone _ _
  cases hgot
  obtain ⟨b, hb⟩ : ∃ b, md.mStoresList[getBucketIndex cfg hash]? = some b :=
    ⟨_, List.getElem?_eq_getElem hlen⟩
  have hfind : b.find? (·.1 = hash) = none := by
    simpa [getMStoreByMetricHash, getBucket, List.getD_eq_getElem?_getD, hb, mapLoad] using hnone
  refine ⟨?_, List.length_modify _ _ _, ?_⟩
  · simp [getMStoreByMetricHash, getBucket, List.getD_eq_getElem?_getD, List.getElem?_modify, hb, mapLoad,
      List.find?_append, hfind]
  · simp only [storesSize, entries, sum_map_flatten_modify _ _ hb, List.map_append, List.sum_append, hc,
      toInt32_toInt32_add, toInt32_add_toInt32, List.map_cons, List.map_nil, List.sum_cons, List.sum_nil, add_zero]
    congr 1
    omega

theorem write_counter (hw : FieldStore.WriteExact B) (metric : PbMetric) (now : Int)
    (hlen : getBucketIndex cfg (cfg.hash metric.name) < md.mStoresList.length) (hc : md.size = toInt32 md.storesSize)
    (hi : ∀ x ∈ md.entries, x.2.SizeInv) :
    (md.write cfg metric now).1.mStoresList.length = md.mStoresList.length ∧
      (md.write cfg metric now).1.size = toInt32 (md.write cfg metric now).1.storesSize := by
  rcases hgot : md.getOrCreateMStore cfg metric.name (cfg.hash metric.name) now with ⟨md₁, ms⟩
  obtain ⟨hget, hlen₁, hc₁⟩ := getOrCreateMStore_counter hlen hc hgot
  have hms : ms.SizeInv := by
    rcases getOrCreateMStore_cases md cfg metric.name (cfg.hash metric.name) now with ⟨-, h⟩ | ⟨-, h, -⟩ <;>
      simp only [hgot] at h
    · exact hi _ (getMStoreByMetricHash_mem h)
    · exact h ▸ MStore.newMetricStore_sizeInv _ _
  set ctx : WriteContext :=
    ⟨ms.metricID, (cfg.intervalCalc metric.timestamp).1, (cfg.intervalCalc metric.timestamp).2, cfg.interval⟩
  have hmod := MStore.write_memSize_mod hw cfg.generator metric ctx now hms
  have hlist : (md.write cfg metric now).1.mStoresList =
      (md₁.setMStore cfg (cfg.hash metric.name) (ms.write cfg.generator metric ctx now).1).mStoresList := by
    simp only [write, hgot]; split <;> simp [ctx]
  have hsize : (md.write cfg metric now).1.size =
      toInt32 (md₁.size + toInt32 (ms.write cfg.generator metric ctx now).2.1) := by
    simp only [write, hgot]; split <;> simp [ctx, setMStore]
  have hstores : (md.write cfg metric now).1.storesSize =
      (md₁.setMStore cfg (cfg.hash metric.name) (ms.write cfg.generator metric ctx now).1).storesSize := by
    simp only [storesSize, entries, hlist]
  refine ⟨by rw [hlist, ← hlen₁]; exact List.length_modify _ _ _, ?_⟩
  rw [hsize, hstores, storesSize_setMStore hget, hc₁, toInt32_eq_iff]
  rw [toInt32_eq_iff] at hmod
  unfold toInt32
  omega

theorem resetMetricStore_counter (name : String) (now : Int) (hc : md.size = toInt32 md.storesSize) (hwf : md.WF)
    (hi : ∀ x ∈ md.entries, x.2.SizeInv) :
    (md.resetMetricStore cfg name now).1.mStoresList.length = md.mStoresList.length ∧
      (md.resetMetricStore cfg name now).1.size = toInt32 (md.resetMetricStore cfg name now).1.storesSize := by
  unfold resetMetricStore
  split
  · exact ⟨rfl, hc⟩
  rename_i ms h
  have hmem := getMStoreByMetricHash_mem h
  have hw₁ : ms.WF := hwf _ hmem
  have hmod := MStore.resetVersion_memSize_mod now hw₁ (hi _ hmem)
  refine ⟨List.length_modify _ _ _, ?_⟩
  show _ = toInt32 (md.setMStore cfg (cfg.hash name) _).storesSize
  rw [storesSize_setMStore h, hc, toInt32_eq_iff]
  rw [toInt32_eq_iff] at hmod
  unfold toInt32
  omega

end MemDB

/-! ### The passes over the buckets -/

section Passes
variable [Block B]

theorem evictBucket_counter (cfg : Config) (now : Int) : ∀ (b : Bucket B) (S : Int) (ids : List (Nat × UInt64)),
    (evictBucket cfg now b (toInt32 S) ids).2.1 =
      toInt32 (S - (b.map (·.2.memSize)).sum + ((evictBucket cfg now b (toInt32 S) ids).1.map (·.2.memSize)).sum)
  | [], S, _ => by simp [evictBucket]
  | (hash, ms) :: rest, S, ids => by
    have hmod := MStore.evict_memSize_mod ms now cfg.tStoreExpiredDuration
    rw [toInt32_eq_iff] at hmod
    unfold evictBucket
    dsimp only
    -- an emptied store leaves the bucket and its size the counter; a kept one moves both alike
    split <;>
      (rw [evictBucket_counter, toInt32_eq_iff]; simp only [List.map_cons, List.sum_cons]; unfold toInt32; omega)

theorem evictBuckets_counter (cfg : Config) (now : Int) : ∀ (l : List (Bucket B)) (S : Int) (ids : List (Nat × UInt64)),
    (evictBuckets cfg now l (toInt32 S) ids).2.1 =
      toInt32 (S - (l.flatten.map (·.2.memSize)).sum + ((evictBuckets cfg now l (toInt32 S) ids).1.flatten.map (·.2.memSize)).sum)
  | [], S, _ => by simp [evictBuckets]
  | b :: rest, S, ids => by
    simp only [evictBuckets, evictBucket_counter, evictBuckets_counter cfg now rest, List.flatten_cons, List.map_append,
      List.sum_append]
    congr 1
    omega

variable (fl : DataFlusher) (ft : Int)

theorem flushBucket_counter : ∀ (b : Bucket B) (S : Int) (calls : List FlushCall),
    (∀ x ∈ b, x.2.atomicGetImmutable = none) →
    (flushBucket fl ft b (toInt32 S) calls).2.1 =
      toInt32 (S - (b.map (·.2.memSize)).sum + ((flushBucket fl ft b (toInt32 S) calls).1.map (·.2.memSize)).sum)
  | [], S, _, _ => by simp [flushBucket]
  | (hash, ms) :: rest, S, calls, hnone => by
    have h₀ : ms.atomicGetImmutable = none := hnone _ (List.mem_cons_self _ _)
    have hmod := MStore.flushMetricsDataTo_memSize_mod fl calls ft h₀
    rw [toInt32_eq_iff] at hmod
    unfold flushBucket
    dsimp only
    split
    · simp only [List.map_cons, List.sum_cons, toInt32_eq_iff]
      unfold toInt32
      omega
    · rw [flushBucket_counter rest _ _ fun x hx => hnone x (List.mem_cons_of_mem _ hx), toInt32_eq_iff]
      simp only [List.map_cons, List.sum_cons]
      unfold toInt32
      omega

theorem flushBuckets_counter : ∀ (l : List (Bucket B)) (S : Int) (calls : List FlushCall),
    (∀ x ∈ l.flatten, x.2.atomicGetImmutable = none) →
    (flushBuckets fl ft l (toInt32 S) calls).2.1 =
      toInt32 (S - (l.flatten.map (·.2.memSize)).sum + ((flushBuckets fl ft l (toInt32 S) calls).1.flatten.map (·.2.memSize)).sum)
  | [], S, _, _ => by simp [flushBuckets]
  | b :: rest, S, calls, hnone => by
    have hb := flushBucket_counter fl ft b S calls fun x hx => hnone x (by simp [hx])
    unfold flushBuckets
    dsimp only
    split
    · simp only [hb, List.flatten_cons, List.map_append, List.sum_append]
      congr 1
      omega
    · rw [hb, flushBuckets_counter rest _ _ fun x hx => hnone x (by simp [hx])]
      simp only [List.flatten_cons, List.map_append, List.sum_append]
      congr 1
      omega

theorem flushBuckets_length : ∀ (l : List (Bucket B)) (size : Int) (calls : List FlushCall),
    (flushBuckets fl ft l size calls).1.length = l.length
  | [], _, _ => rfl
  | b :: rest, size, calls => by
    unfold flushBuckets
    dsimp only
    split
    · rfl
    · simp [flushBuckets_length rest]

end Passes

namespace MemDB
variable [Block B] {cfg : Config} {md : MemDB B}

theorem evict_counter (now : Int) (hc : md.size = toInt32 md.storesSize) :
    (md.evict cfg now).size = toInt32 (md.evict cfg now).storesSize := by
  show (evictBuckets cfg now md.mStoresList md.size md.metricID2Hash).2.1 =
    toInt32 ((evictBuckets cfg now md.mStoresList md.size md.metricID2Hash).1.flatten.map (·.2.memSize)).sum
  rw [hc, evictBuckets_counter, storesSize, entries, sub_self, zero_add]

theorem flushFamilyTo_counter (fl : DataFlusher) (ft : Int) (hc : md.size = toInt32 md.storesSize)
    (hnone : ∀ x ∈ md.entries, x.2.atomicGetImmutable = none) :
    (md.flushFamilyTo fl ft).1.size = toInt32 (md.flushFamilyTo fl ft).1.storesSize := by
  show (flushBuckets fl ft md.mStoresList md.size []).2.1 =
    toInt32 ((flushBuckets fl ft md.mStoresList md.size []).1.flatten.map (·.2.memSize)).sum
  rw [hc, flushBuckets_counter fl ft _ _ _ hnone, storesSize, entries, sub_self, zero_add]

end MemDB

/-! ### Runs -/

section Runs
variable [Block B] {cfg : Config}
open MemDB

/-- The states a sequential run from `NewMemoryDatabase` reaches in which no `FlushFamilyTo` meets a
    metric store with an immutable index a reader sees. -/
inductive ReachableFlushesAlone (cfg : Config) : MemDB B → Prop
  | init : ReachableFlushesAlone cfg (newMemoryDatabase cfg)
  | step {md : MemDB B} {op : Op} : ReachableFlushesAlone cfg md → op.clockOk →
      (∀ fl ft, op = .flushFamilyTo fl ft → ∀ x ∈ md.entries, x.2.atomicGetImmutable = none) →
      ReachableFlushesAlone cfg (step cfg md op).1

/-- What such a run keeps. -/
structure CounterInv (cfg : Config) (md : MemDB B) : Prop where
  /-- The buckets `NewMemoryDatabase` makes, `shardingCountMask + 1` of them. -/
  length : md.mStoresList.length = cfg.shardingCountMask.toNat + 1
  /-- Each metric store's counter follows its mutable index. -/
  sizeInv : ∀ x ∈ md.entries, x.2.SizeInv
  /-- The database's counter is the sum of the stores' `MemSize()`, as an int32. -/
  size : md.size = toInt32 md.storesSize

variable (hw : FieldStore.WriteExact B) (hf : FieldStore.FlushExact B)

include hw hf in
theorem step_counterInv {md : MemDB B} {op : Op} (hwf : md.WF) (hi : CounterInv cfg md)
    (halone : ∀ fl ft, op = .flushFamilyTo fl ft → ∀ x ∈ md.entries, x.2.atomicGetImmutable = none) :
    CounterInv cfg (step cfg md op).1 := by
  cases op with
  | write metric now =>
    obtain ⟨ms, ctx, -, hms, hr⟩ := write_replaces cfg md metric now
    have hsi : ms.SizeInv := hms.elim (hi.sizeInv _) fun h => h ▸ MStore.newMetricStore_sizeInv _ _
    obtain ⟨hlen, hsize⟩ := write_counter hw metric now (hi.length ▸ getBucketIndex_lt cfg _) hi.size hi.sizeInv
    exact ⟨hlen.trans hi.length, hr.forall_entries hi.sizeInv (MStore.write_sizeInv hw _ _ _ _ hsi), hsize⟩
  | resetMetricStore name now =>
    obtain ⟨hlen, hsize⟩ := resetMetricStore_counter name now hi.size hwf hi.sizeInv
    refine ⟨hlen.trans hi.length, ?_, hsize⟩
    rcases resetMetricStore_cases cfg md name now with h | ⟨ms, hms, hr⟩
    · exact fun y hy => hi.sizeInv y (entries_congr h ▸ hy)
    · exact hr.forall_entries hi.sizeInv (MStore.resetVersion_sizeInv now (hi.sizeInv _ (getMStoreByMetricHash_mem hms)))
  | evict now =>
    refine ⟨by simp [step, evict, evictBuckets_fst, hi.length], fun y hy => ?_, evict_counter now hi.size⟩
    obtain ⟨x, hx, rfl⟩ := (evict_entries cfg md now).1 y hy
    exact MStore.evict_sizeInv _ _ (hi.sizeInv x hx)
  | flushFamilyTo fl ft =>
    have hnone := halone fl ft rfl
    refine ⟨(flushBuckets_length fl ft _ _ _).trans hi.length, fun y hy => ?_, flushFamilyTo_counter fl ft hi.size hnone⟩
    rcases (flushFamilyTo_entries fl ft md).1 y hy with hy | ⟨x, hx, rfl⟩
    · exact hi.sizeInv y hy
    · exact MStore.apply_sizeInv hw hf (hi.sizeInv x hx) (.flushMetricsDataTo fl [] ft) fun _ _ _ _ => hnone x hx

omit hw hf in
theorem ReachableFlushesAlone.reachable {md : MemDB B} (h : ReachableFlushesAlone cfg md) : Reachable cfg md := by
  induction h with
  | init => exact .init
  | step _ hop _ ih => exact ih.step hop

include hw hf in
theorem ReachableFlushesAlone.counterInv {md : MemDB B} (h : ReachableFlushesAlone cfg md) : CounterInv cfg md := by
  induction h with
  | init =>
    exact ⟨List.length_replicate _ _, by simp, by rw [storesSize, entries_newMemoryDatabase]; rfl⟩
  | step hr _ halone ih => exact step_counterInv hw hf hr.reachable.wf ih halone

include hw hf in
/-- Over runs whose flushes meet no visible immutable index, `MemSize()` is the sum of the stores' sizes. -/
theorem ReachableFlushesAlone.memSize_eq_sum {md : MemDB B} (h : ReachableFlushesAlone cfg md) :
    md.memSize = toInt32 (md.entries.map (·.2.memSize)).sum :=
  (h.counterInv hw hf).size

theorem step_atomicGetImmutable {md : MemDB B} {op : Op} (hop : ∀ name now, op ≠ .resetMetricStore name now)
    (h : ∀ x ∈ md.entries, x.2.atomicGetImmutable = none) :
    ∀ y ∈ (step cfg md op).1.entries, y.2.atomicGetImmutable = none := by
  refine step_forall_entries (P := fun ms : MStore B => ms.atomicGetImmutable = none) (fun _ _ => rfl)
    (fun _ c hc hms => MStore.apply_atomicGetImmutable hms c fun now hr => ?_) h
  subst hr
  cases op <;> simp_all [Op.Calls]

theorem ReachableFlushesAlone.runOps {md : MemDB B} (hr : ReachableFlushesAlone cfg md)
    (hnone : ∀ x ∈ md.entries, x.2.atomicGetImmutable = none) :
    ∀ {ops : List Op}, (∀ op ∈ ops, op.clockOk ∧ ∀ name now, op ≠ .resetMetricStore name now) →
      ReachableFlushesAlone cfg (runOps cfg md ops)
  | [], _ => hr
  | op :: _, hops =>
    (hr.step (hops op (List.mem_cons_self _ _)).1 fun _ _ _ => hnone).runOps
      (step_atomicGetImmutable (hops op (List.mem_cons_self _ _)).2 hnone) fun o ho => hops o (List.mem_cons_of_mem _ ho)

end Runs

namespace Sample

/-- The operations of `writeFlushEvictDB`. -/
def writeFlushEvict : List Op :=
  [.write (point "cpu" 100) 1, .write (point "mem" 100) 1, .flushFamilyTo okFlusher 100, .evict 300]

theorem writeFlushEvict_noReset : ∀ op ∈ writeFlushEvict, op.clockOk ∧ ∀ name now, op ≠ .resetMetricStore name now := by
  simp only [writeFlushEvict, List.mem_cons, List.mem_singleton, List.not_mem_nil, or_false]
  rintro op (rfl | rfl | rfl | rfl) <;> exact ⟨by decide, fun _ _ h => by cases h⟩

/-- `cpu` and `mem` written in family 100 at clock `1`, the family flushed, then an evictor pass at `300`. -/
def writeFlushEvictDB : MemDB Nat := runOps config (newMemoryDatabase config) writeFlushEvict

theorem memSize_eq_sum_writeFlushEvict : ReachableFlushesAlone config writeFlushEvictDB ∧
    writeFlushEvictDB.memSize = toInt32 (writeFlushEvictDB.entries.map (·.2.memSize)).sum :=
  have h : ReachableFlushesAlone config writeFlushEvictDB :=
    ReachableFlushesAlone.init.runOps (by simp) writeFlushEvict_noReset
  ⟨h, h.memSize_eq_sum countingBlock_writeExact countingBlock_flushExact⟩

end Sample

end Lindb.Memdb

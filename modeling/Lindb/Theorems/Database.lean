import Lindb.Theorems.MetricStore

/-! What the memory database's operations do to the metric stores of its buckets (§4.5); every reachable
    database is well formed (`WF`). -/

namespace Lindb.Memdb

variable {B : Type}

section Modify
variable {α : Type} {f : α → α}

theorem mem_modify_back : ∀ {n : Nat} {l : List α} {b : α}, b ∈ l.modify f n → b ∈ l ∨ ∃ b₀, l[n]? = some b₀ ∧ b = f b₀
  | _, [], _, h => by simp at h
  | 0, a :: l, b, h => by
    rcases List.mem_cons.mp (by simpa using h) with rfl | h
    · exact .inr ⟨a, by simp, rfl⟩
    · exact .inl (List.mem_cons_of_mem _ h)
  | n + 1, a :: l, b, h => by
    rcases List.mem_cons.mp (by simpa using h) with rfl | h
    · exact .inl (List.mem_cons_self _ _)
    · exact (mem_modify_back h).imp (List.mem_cons_of_mem _) fun ⟨b₀, h₁, h₂⟩ => ⟨b₀, by simpa using h₁, h₂⟩

theorem mem_modify_forth : ∀ {n : Nat} {l : List α} {b : α}, b ∈ l →
    b ∈ l.modify f n ∨ (l[n]? = some b ∧ f b ∈ l.modify f n)
  | _, [], _, h => by simp at h
  | 0, a :: l, b, h => by
    rcases List.mem_cons.mp h with rfl | h
    · exact .inr ⟨by simp, by simp⟩
    · exact .inl (by simp [h])
  | n + 1, a :: l, b, h => by
    rcases List.mem_cons.mp h with rfl | h
    · exact .inl (by simp)
    · exact (mem_modify_forth (n := n) h).imp (fun h' => by simp [h']) fun h' => ⟨by simpa using h'.1, by simp [h'.2]⟩

end Modify

theorem getBucketIndex_lt (cfg : Config) (hash : UInt64) : getBucketIndex cfg hash < cfg.shardingCountMask.toNat + 1 :=
  Nat.lt_succ_of_le (by simpa [getBucketIndex] using Nat.and_le_left)

namespace MemDB

/-- Every entry of every bucket, bucket after bucket. -/
def entries (md : MemDB B) : List (UInt64 × MStore B) := md.mStoresList.flatten

/-- The field stores a reader reaches from the buckets. -/
def fieldStores (md : MemDB B) : List (FieldStore B) := md.entries.flatMap (·.2.fieldStores)

/-- The segments a reader reaches from the buckets. -/
def segments (md : MemDB B) : List SegmentKey := md.entries.flatMap fun x => x.2.segments x.1

/-- The segments a reader reaches through a mutable index. -/
def mutableSegments (md : MemDB B) : List SegmentKey := md.entries.flatMap fun x => x.2.mutable.segments x.1

/-- The families of which some field store a reader reaches holds a segment. -/
def heldFamilies (md : MemDB B) : List Int := md.fieldStores.flatMap FieldStore.familyTimes

/-- Every metric store of the buckets is well formed. -/
def WF (md : MemDB B) : Prop := ∀ x ∈ md.entries, x.2.WF

theorem mem_entries {md : MemDB B} {x : UInt64 × MStore B} : x ∈ md.entries ↔ ∃ b ∈ md.mStoresList, x ∈ b :=
  List.mem_flatten

@[simp] theorem entries_newMemoryDatabase (cfg : Config) : (newMemoryDatabase cfg : MemDB B).entries = [] := by
  simp [entries, newMemoryDatabase]

theorem mem_fieldStores {md : MemDB B} {fs : FieldStore B} : fs ∈ md.fieldStores ↔ ∃ x ∈ md.entries, fs ∈ x.2.fieldStores :=
  List.mem_flatMap

theorem mem_segments {md : MemDB B} {s : SegmentKey} : s ∈ md.segments ↔ ∃ x ∈ md.entries, s ∈ x.2.segments x.1 :=
  List.mem_flatMap

theorem mem_mutableSegments {md : MemDB B} {s : SegmentKey} :
    s ∈ md.mutableSegments ↔ ∃ x ∈ md.entries, s ∈ x.2.mutable.segments x.1 :=
  List.mem_flatMap

theorem mem_heldFamilies {md : MemDB B} {ft : Int} : ft ∈ md.heldFamilies ↔ ∃ fs ∈ md.fieldStores, ft ∈ fs.familyTimes :=
  List.mem_flatMap

/-- `md'` is `md` with the entry of `hash`, which holds `ms`, made to hold `ms'`; or with `(hash, ms')` added
    where no entry of `hash` was. -/
structure Replaces (md md' : MemDB B) (hash : UInt64) (ms ms' : MStore B) : Prop where
  back : ∀ y ∈ md'.entries, y ∈ md.entries ∨ y = (hash, ms')
  forth : ∀ x ∈ md.entries, x ∈ md'.entries ∨ (x = (hash, ms) ∧ (hash, ms') ∈ md'.entries)

namespace Replaces
variable {md md' : MemDB B} {hash : UInt64} {ms ms' : MStore B}

theorem mem_fieldStores (h : Replaces md md' hash ms ms') {fs : FieldStore B} (hfs : fs ∈ md'.fieldStores) :
    fs ∈ md.fieldStores ∨ fs ∈ ms'.fieldStores := by
  obtain ⟨y, hy, hfs⟩ := MemDB.mem_fieldStores.mp hfs
  rcases h.back y hy with hy | rfl
  · exact .inl (MemDB.mem_fieldStores.mpr ⟨y, hy, hfs⟩)
  · exact .inr hfs

theorem segments_subset (h : Replaces md md' hash ms ms') (hs : ms.segments hash ⊆ ms'.segments hash) :
    md.segments ⊆ md'.segments := by
  intro s hmem
  obtain ⟨x, hx, hsx⟩ := MemDB.mem_segments.mp hmem
  rcases h.forth x hx with hx' | ⟨rfl, hx'⟩
  · exact MemDB.mem_segments.mpr ⟨x, hx', hsx⟩
  · exact MemDB.mem_segments.mpr ⟨_, hx', hs hsx⟩

theorem forall_entries (h : Replaces md md' hash ms ms') {P : MStore B → Prop} (hp : ∀ x ∈ md.entries, P x.2)
    (hp' : P ms') : ∀ y ∈ md'.entries, P y.2 := fun y hy =>
  (h.back y hy).elim (hp y) fun h => h ▸ hp'

theorem wf (h : Replaces md md' hash ms ms') (hw : md.WF) (hw' : ms'.WF) : md'.WF :=
  h.forall_entries (P := MStore.WF) hw hw'

end Replaces

variable {cfg : Config} {md : MemDB B} {hash : UInt64} {ms : MStore B}

theorem getMStoreByMetricHash_bucket (h : md.getMStoreByMetricHash cfg hash = some ms) :
    md.mStoresList[getBucketIndex cfg hash]? = some (md.getBucket cfg hash) ∧
      (md.getBucket cfg hash).find? (·.1 = hash) = some (hash, ms) := by
  obtain ⟨x, hx, rfl⟩ := Option.map_eq_some'.mp h
  have hx1 : x.1 = hash := by simpa using List.find?_some hx
  refine ⟨?_, by rw [hx, ← hx1]⟩
  unfold getBucket at hx ⊢
  cases hi : md.mStoresList[getBucketIndex cfg hash]? with
  | none => simp [List.getD_eq_getElem?_getD, hi] at hx
  | some b => simp [List.getD_eq_getElem?_getD, hi]

theorem getMStoreByMetricHash_mem (h : md.getMStoreByMetricHash cfg hash = some ms) : (hash, ms) ∈ md.entries := by
  obtain ⟨hb, hfind⟩ := getMStoreByMetricHash_bucket h
  exact mem_entries.mpr ⟨_, List.getElem?_mem hb, List.mem_of_find?_eq_some hfind⟩

theorem setMStore_replaces (h : md.getMStoreByMetricHash cfg hash = some ms) (ms' : MStore B) :
    Replaces md (md.setMStore cfg hash ms') hash ms ms' := by
  obtain ⟨hb, hfind⟩ := getMStoreByMetricHash_bucket h
  obtain ⟨hin, hkeep⟩ := setFirst_keeps (a := (hash, ms')) hfind
  refine ⟨fun y hy => ?_, fun x hx => ?_⟩
  · obtain ⟨b', hb', hy⟩ := mem_entries.mp hy
    rcases mem_modify_back hb' with hb' | ⟨b₀, hb₀, rfl⟩
    · exact .inl (mem_entries.mpr ⟨b', hb', hy⟩)
    · rcases mem_setFirst hy with hy | rfl
      · have hmem := List.getElem?_mem hb₀
        rw [hb, Option.some.injEq] at hb₀
        exact .inl (mem_entries.mpr ⟨b₀, hmem, hb₀ ▸ hy⟩)
      · exact .inr rfl
  · obtain ⟨b, hbm, hx⟩ := mem_entries.mp hx
    rcases mem_modify_forth (f := setFirst (·.1 = hash) (hash, ms')) (n := getBucketIndex cfg hash) hbm with
      hbm' | ⟨hbi, hbm'⟩
    · exact .inl (mem_entries.mpr ⟨b, hbm', hx⟩)
    · rw [hb, Option.some.injEq] at hbi
      subst hbi
      rcases hkeep x hx with rfl | hx'
      · exact .inr ⟨rfl, mem_entries.mpr ⟨_, hbm', hin⟩⟩
      · exact .inl (mem_entries.mpr ⟨_, hbm', hx'⟩)

theorem setMStore_append_replaces {ms' : MStore B} (h : md.getMStoreByMetricHash cfg hash = none) :
    Replaces md ({ md with mStoresList := md.mStoresList.modify (· ++ [(hash, ms)]) (getBucketIndex cfg hash) }.setMStore
      cfg hash ms') hash ms ms' := by
  have happ : ∀ b, md.mStoresList[getBucketIndex cfg hash]? = some b →
      setFirst (·.1 = hash) (hash, ms') (b ++ [(hash, ms)]) = b ++ [(hash, ms')] := fun b hb => by
    have hnone : b.find? (·.1 = hash) = none := by
      simpa [getMStoreByMetricHash, getBucket, List.getD_eq_getElem?_getD, hb, mapLoad] using h
    rw [setFirst_append_of_none _ hnone]
    simp [setFirst]
  simp only [setMStore, List.modify_modify_eq]
  refine ⟨fun y hy => ?_, fun x hx => ?_⟩
  · obtain ⟨b', hb', hy⟩ := mem_entries.mp hy
    rcases mem_modify_back hb' with hb' | ⟨b₀, hb₀, rfl⟩
    · exact .inl (mem_entries.mpr ⟨b', hb', hy⟩)
    · simp only [Function.comp_apply, happ b₀ hb₀, List.mem_append, List.mem_singleton] at hy
      exact hy.imp (fun hy => mem_entries.mpr ⟨b₀, List.getElem?_mem hb₀, hy⟩) id
  · obtain ⟨b, hbm, hx⟩ := mem_entries.mp hx
    rcases mem_modify_forth (f := setFirst (·.1 = hash) (hash, ms') ∘ (· ++ [(hash, ms)]))
      (n := getBucketIndex cfg hash) hbm with hbm' | ⟨hbi, hbm'⟩
    · exact .inl (mem_entries.mpr ⟨b, hbm', hx⟩)
    · refine .inl (mem_entries.mpr ⟨_, hbm', ?_⟩)
      simp [Function.comp_apply, happ b hbi, hx]

theorem entries_congr {md' : MemDB B} (h : md'.mStoresList = md.mStoresList) : md'.entries = md.entries := by
  simp [entries, h]

theorem Replaces.congr {md' md'' : MemDB B} {ms' : MStore B} (h : Replaces md md' hash ms ms')
    (he : md''.mStoresList = md'.mStoresList) : Replaces md md'' hash ms ms' := by
  have he := entries_congr he
  exact ⟨fun y hy => h.back y (he ▸ hy), fun x hx => he ▸ h.forth x hx⟩

@[simp] theorem addFamilyTime_mStoresList (md : MemDB B) (ft : Int) : (md.addFamilyTime ft).mStoresList = md.mStoresList := by
  unfold addFamilyTime; split <;> rfl

@[simp] theorem addFamilyTime_size (md : MemDB B) (ft : Int) : (md.addFamilyTime ft).size = md.size := by
  unfold addFamilyTime; split <;> rfl

section Write
variable [Block B]

theorem getOrCreateMStore_cases (md : MemDB B) (cfg : Config) (name : String) (hash : UInt64) (now : Int) :
    ((md.getOrCreateMStore cfg name hash now).1 = md ∧
      md.getMStoreByMetricHash cfg hash = some (md.getOrCreateMStore cfg name hash now).2) ∨
    (md.getMStoreByMetricHash cfg hash = none ∧
      (md.getOrCreateMStore cfg name hash now).2 = newMetricStore (cfg.generator.genMetricID name) now ∧
      (md.getOrCreateMStore cfg name hash now).1.mStoresList =
        md.mStoresList.modify (· ++ [(hash, newMetricStore (cfg.generator.genMetricID name) now)]) (getBucketIndex cfg hash)) := by
  unfold getOrCreateMStore
  split
  · exact .inl ⟨rfl, ‹_›⟩
  · split
    · simp_all
    · exact .inr ⟨‹_›, rfl, rfl⟩

theorem write_replaces (cfg : Config) (md : MemDB B) (metric : PbMetric) (now : Int) :
    ∃ (ms : MStore B) (ctx : WriteContext), ctx.familyTime = (cfg.intervalCalc metric.timestamp).1 ∧
      ((cfg.hash metric.name, ms) ∈ md.entries ∨ ms = newMetricStore (cfg.generator.genMetricID metric.name) now) ∧
      Replaces md (md.write cfg metric now).1 (cfg.hash metric.name) ms (ms.write cfg.generator metric ctx now).1 := by
  let got := md.getOrCreateMStore cfg metric.name (cfg.hash metric.name) now
  let ctx : WriteContext :=
    ⟨got.2.metricID, (cfg.intervalCalc metric.timestamp).1, (cfg.intervalCalc metric.timestamp).2, cfg.interval⟩
  have hm : (md.write cfg metric now).1.mStoresList =
      (got.1.setMStore cfg (cfg.hash metric.name) (got.2.write cfg.generator metric ctx now).1).mStoresList := by
    simp only [write]; split <;> simp [got, ctx]
  refine ⟨got.2, ctx, rfl, ?_⟩
  rcases getOrCreateMStore_cases md cfg metric.name (cfg.hash metric.name) now with ⟨h₁, h₂⟩ | ⟨h₁, h₂, h₃⟩
  · refine ⟨.inl (getMStoreByMetricHash_mem h₂), (setMStore_replaces h₂ _).congr ?_⟩
    rw [hm, show got.1 = md from h₁]
  · refine ⟨.inr h₂, (show Replaces _ _ _ got.2 _ from setMStore_append_replaces h₁).congr ?_⟩
    rw [hm]
    simp [setMStore, got, h₃, h₂]

end Write

/-! ### ResetMetricStore, evict and FlushFamilyTo -/

section Others
variable [Block B]

theorem resetMetricStore_cases (cfg : Config) (md : MemDB B) (name : String) (now : Int) :
    (md.resetMetricStore cfg name now).1.mStoresList = md.mStoresList ∨
    ∃ ms, md.getMStore cfg name = some ms ∧
      Replaces md (md.resetMetricStore cfg name now).1 (cfg.hash name) ms (ms.resetVersion now).1 := by
  unfold resetMetricStore
  split
  · exact .inl rfl
  · rename_i ms h
    exact .inr ⟨ms, h, (setMStore_replaces h _).congr rfl⟩

theorem evictBucket_fst (cfg : Config) (now : Int) : ∀ (b : Bucket B) (size : Int) (ids : List (Nat × UInt64)),
    (evictBucket cfg now b size ids).1 =
      (b.map fun x => (x.1, (x.2.evict now cfg.tStoreExpiredDuration).1)).filter fun x => !x.2.isEmpty
  | [], _, _ => rfl
  | (hash, ms) :: rest, size, ids => by
    by_cases he : (ms.evict now cfg.tStoreExpiredDuration).1.isEmpty <;>
      simp [evictBucket, he, evictBucket_fst cfg now rest]

theorem evictBuckets_fst (cfg : Config) (now : Int) : ∀ (l : List (Bucket B)) (size : Int) (ids : List (Nat × UInt64)),
    (evictBuckets cfg now l size ids).1 =
      l.map fun b => (b.map fun x => (x.1, (x.2.evict now cfg.tStoreExpiredDuration).1)).filter fun x => !x.2.isEmpty
  | [], _, _ => rfl
  | b :: rest, size, ids => by simp [evictBuckets, evictBucket_fst, evictBuckets_fst cfg now rest]

theorem evict_entries (cfg : Config) (md : MemDB B) (now : Int) :
    (∀ y ∈ (md.evict cfg now).entries, ∃ x ∈ md.entries, y = (x.1, (x.2.evict now cfg.tStoreExpiredDuration).1)) ∧
    (∀ x ∈ md.entries, (x.1, (x.2.evict now cfg.tStoreExpiredDuration).1) ∈ (md.evict cfg now).entries ∨
      (x.2.evict now cfg.tStoreExpiredDuration).1.isEmpty = true) := by
  have hmem : ∀ y, y ∈ (md.evict cfg now).entries ↔ ∃ b ∈ md.mStoresList, ∃ x ∈ b,
      (x.2.evict now cfg.tStoreExpiredDuration).1.isEmpty = false ∧ y = (x.1, (x.2.evict now cfg.tStoreExpiredDuration).1) := by
    intro y
    simp only [entries, evict, evictBuckets_fst, List.mem_flatten, List.mem_map, List.mem_filter]
    constructor
    · rintro ⟨_, ⟨b, hb, rfl⟩, hy⟩
      obtain ⟨hy, he⟩ := List.mem_filter.mp hy
      obtain ⟨x, hx, rfl⟩ := List.mem_map.mp hy
      exact ⟨b, hb, x, hx, by simpa using he, rfl⟩
    · rintro ⟨b, hb, x, hx, he, rfl⟩
      exact ⟨_, ⟨b, hb, rfl⟩, List.mem_filter.mpr ⟨List.mem_map.mpr ⟨x, hx, rfl⟩, by simpa using he⟩⟩
  constructor
  · intro y hy
    obtain ⟨b, hb, x, hx, -, rfl⟩ := (hmem y).mp hy
    exact ⟨x, mem_entries.mpr ⟨b, hb, hx⟩, rfl⟩
  · intro x hx
    obtain ⟨b, hb, hx⟩ := mem_entries.mp hx
    by_cases he : (x.2.evict now cfg.tStoreExpiredDuration).1.isEmpty
    · exact .inr he
    · exact .inl ((hmem _).mpr ⟨b, hb, x, hx, by simpa using he, rfl⟩)

variable (fl : DataFlusher) (ft : Int)

theorem flushBucket_spec : ∀ (b : Bucket B) (size : Int) (calls : List FlushCall),
    (∀ y ∈ (flushBucket fl ft b size calls).1, y ∈ b ∨ ∃ x ∈ b, y = (x.1, (x.2.flushMetricsDataTo fl [] ft).1)) ∧
    (∀ x ∈ b, x ∈ (flushBucket fl ft b size calls).1 ∨
      (x.1, (x.2.flushMetricsDataTo fl [] ft).1) ∈ (flushBucket fl ft b size calls).1) ∧
    ((flushBucket fl ft b size calls).2.2.2 = none →
      (flushBucket fl ft b size calls).1 = b.map (fun x => (x.1, (x.2.flushMetricsDataTo fl [] ft).1)) ∧
      (flushBucket fl ft b size calls).2.2.1.filter FlushCall.isFlushField = calls.filter FlushCall.isFlushField ++
        ((b.flatMap (·.2.fieldStores)).map fun fs => (fs.flushFieldTo ft).2.2).flatten)
  | [], _, calls => by simp [flushBucket]
  | (hash, ms) :: rest, size, calls => by
    unfold flushBucket
    dsimp only
    split
    · refine ⟨fun y hy => ?_, fun x hx => ?_, fun h => by simp at h⟩
      · rcases List.mem_cons.mp hy with rfl | hy
        · exact .inr ⟨_, List.mem_cons_self _ _, rfl⟩
        · exact .inl (List.mem_cons_of_mem _ hy)
      · rcases List.mem_cons.mp hx with rfl | hx
        · exact .inr (List.mem_cons_self _ _)
        · exact .inl (List.mem_cons_of_mem _ hx)
    · rename_i hok
      obtain ⟨hback, hforth, hexact⟩ := flushBucket_spec rest _ (calls ++ (ms.flushMetricsDataTo fl calls ft).2.2.1)
      refine ⟨fun y hy => ?_, fun x hx => ?_, fun hnone => ?_⟩
      · rcases List.mem_cons.mp hy with rfl | hy
        · exact .inr ⟨_, List.mem_cons_self _ _, rfl⟩
        · exact (hback y hy).imp (List.mem_cons_of_mem _) fun ⟨x, hx, h⟩ => ⟨x, List.mem_cons_of_mem _ hx, h⟩
      · rcases List.mem_cons.mp hx with rfl | hx
        · exact .inr (List.mem_cons_self _ _)
        · exact (hforth x hx).imp (List.mem_cons_of_mem _) (List.mem_cons_of_mem _)
      · obtain ⟨h₁, h₂⟩ := hexact hnone
        dsimp only
        refine ⟨by rw [h₁]; rfl, ?_⟩
        rw [h₂, List.filter_append, MStore.flushMetricsDataTo_fieldCalls]
        simp

theorem flushBuckets_spec : ∀ (l : List (Bucket B)) (size : Int) (calls : List FlushCall),
    (∀ y ∈ (flushBuckets fl ft l size calls).1.flatten,
      y ∈ l.flatten ∨ ∃ x ∈ l.flatten, y = (x.1, (x.2.flushMetricsDataTo fl [] ft).1)) ∧
    (∀ x ∈ l.flatten, x ∈ (flushBuckets fl ft l size calls).1.flatten ∨
      (x.1, (x.2.flushMetricsDataTo fl [] ft).1) ∈ (flushBuckets fl ft l size calls).1.flatten) ∧
    ((flushBuckets fl ft l size calls).2.2.2 = none →
      (flushBuckets fl ft l size calls).1 = l.map (·.map fun x => (x.1, (x.2.flushMetricsDataTo fl [] ft).1)) ∧
      (flushBuckets fl ft l size calls).2.2.1.filter FlushCall.isFlushField = calls.filter FlushCall.isFlushField ++
        ((l.flatten.flatMap (·.2.fieldStores)).map fun fs => (fs.flushFieldTo ft).2.2).flatten)
  | [], _, calls => by simp [flushBuckets]
  | b :: rest, size, calls => by
    obtain ⟨hb, hf, hok⟩ := flushBucket_spec fl ft b size calls
    unfold flushBuckets
    dsimp only
    split
    · refine ⟨fun y hy => ?_, fun x hx => ?_, fun h => by simp at h⟩
      · rcases List.mem_append.mp (List.flatten_cons ▸ hy) with hy | hy
        · exact (hb y hy).imp (List.mem_append_left _) fun ⟨x, hx, h⟩ => ⟨x, List.mem_append_left _ hx, h⟩
        · exact .inl (List.mem_append_right _ hy)
      · rcases List.mem_append.mp (List.flatten_cons ▸ hx) with hx | hx
        · exact (hf x hx).imp (List.mem_append_left _) (List.mem_append_left _)
        · exact .inl (List.mem_append_right _ hx)
    · rename_i hnone
      obtain ⟨hb₁, -⟩ := hok hnone
      obtain ⟨hback, hforth, hexact⟩ := flushBuckets_spec rest (flushBucket fl ft b size calls).2.1
        (flushBucket fl ft b size calls).2.2.1
      refine ⟨fun y hy => ?_, fun x hx => ?_, fun h => ?_⟩
      · rcases List.mem_append.mp (List.flatten_cons ▸ hy) with hy | hy
        · exact (hb y hy).imp (List.mem_append_left _) fun ⟨x, hx, h⟩ => ⟨x, List.mem_append_left _ hx, h⟩
        · exact (hback y hy).imp (List.mem_append_right _) fun ⟨x, hx, h⟩ => ⟨x, List.mem_append_right _ hx, h⟩
      · rcases List.mem_append.mp (List.flatten_cons ▸ hx) with hx | hx
        · exact (hf x hx).imp (List.mem_append_left _) (List.mem_append_left _)
        · exact (hforth x hx).imp (List.mem_append_right _) (List.mem_append_right _)
      · obtain ⟨h₁, h₂⟩ := hexact h
        refine ⟨by simp [h₁, hb₁], ?_⟩
        rw [h₂, (hok hnone).2]
        simp

theorem flushFamilyTo_entries (md : MemDB B) :
    (∀ y ∈ (md.flushFamilyTo fl ft).1.entries, y ∈ md.entries ∨
      ∃ x ∈ md.entries, y = (x.1, (x.2.flushMetricsDataTo fl [] ft).1)) ∧
    (∀ x ∈ md.entries, x ∈ (md.flushFamilyTo fl ft).1.entries ∨
      (x.1, (x.2.flushMetricsDataTo fl [] ft).1) ∈ (md.flushFamilyTo fl ft).1.entries) :=
  ⟨(flushBuckets_spec fl ft md.mStoresList md.size []).1, (flushBuckets_spec fl ft md.mStoresList md.size []).2.1⟩

theorem flushFamilyTo_ok {md : MemDB B} (h : (md.flushFamilyTo fl ft).2.2 = none) :
    (md.flushFamilyTo fl ft).1.entries = md.entries.map (fun x => (x.1, (x.2.flushMetricsDataTo fl [] ft).1)) ∧
    (md.flushFamilyTo fl ft).2.1.filter FlushCall.isFlushField = (md.fieldStores.map fun fs => (fs.flushFieldTo ft).2.2).flatten := by
  obtain ⟨h₁, h₂⟩ := (flushBuckets_spec fl ft md.mStoresList md.size []).2.2 h
  refine ⟨?_, ?_⟩
  · simp only [entries, flushFamilyTo, h₁, List.map_flatten]
  · simpa [flushFamilyTo, fieldStores, entries] using h₂

end Others


end MemDB

/-! ### Sequential runs -/

section Runs
variable [Block B] {cfg : Config}
open MemDB

theorem step_wf {md : MemDB B} {op : Op} (hw : md.WF) (hop : op.clockOk) : (step cfg md op).1.WF := by
  cases op with
  | write metric now =>
    obtain ⟨ms, ctx, -, hms, hr⟩ := write_replaces cfg md metric now
    have hwm : ms.WF := hms.elim (hw _) fun h => h ▸ MStore.newMetricStore_wf hop
    exact hr.wf hw (MStore.write_wf hwm)
  | resetMetricStore name now =>
    rcases resetMetricStore_cases cfg md name now with h | ⟨ms, hms, hr⟩
    · exact fun y hy => hw y (entries_congr h ▸ hy)
    · exact hr.wf hw (MStore.resetVersion_wf (hw _ (getMStoreByMetricHash_mem hms)) hop)
  | evict now =>
    intro y hy
    obtain ⟨x, hx, rfl⟩ := (evict_entries cfg md now).1 y hy
    exact MStore.evict_wf (hw x hx)
  | flushFamilyTo fl ft =>
    intro y hy
    rcases (flushFamilyTo_entries fl ft md).1 y hy with hy | ⟨x, hx, rfl⟩
    · exact hw y hy
    · exact (MStore.flushMetricsDataTo_wf (hw x hx) : (x.2.flushMetricsDataTo fl [] ft).1.WF)

theorem Reachable.wf {md : MemDB B} (h : Reachable cfg md) : md.WF := by
  induction h with
  | init => intro x hx; simp at hx
  | step _ hop ih => exact step_wf ih hop

/-- The call an operation makes on each metric store it reaches. -/
def Op.Calls (cfg : Config) : Op → MStore.Call → Prop
  | .write metric now, c => ∃ ctx, c = .write cfg.generator metric ctx now
  | .resetMetricStore _ now, c => c = .resetVersion now
  | .evict now, c => c = .evict now cfg.tStoreExpiredDuration
  | .flushFamilyTo fl ft, c => c = .flushMetricsDataTo fl [] ft

theorem step_forall_entries {P : MStore B → Prop} (hnew : ∀ metricID now, P (newMetricStore metricID now))
    {md : MemDB B} {op : Op} (hcall : ∀ ms c, op.Calls cfg c → P ms → P (ms.apply c)) (h : ∀ x ∈ md.entries, P x.2) :
    ∀ y ∈ (step cfg md op).1.entries, P y.2 := by
  cases op with
  | write metric now =>
    obtain ⟨ms, ctx, -, hms, hr⟩ := write_replaces cfg md metric now
    exact hr.forall_entries h (hcall ms (.write cfg.generator metric ctx now) ⟨ctx, rfl⟩ (hms.elim (h _) fun h => h ▸ hnew _ _))
  | resetMetricStore name now =>
    rcases resetMetricStore_cases cfg md name now with hl | ⟨ms, hms, hr⟩
    · exact fun y hy => h y (entries_congr hl ▸ hy)
    · exact hr.forall_entries h (hcall ms (.resetVersion now) rfl (h _ (getMStoreByMetricHash_mem hms)))
  | evict now =>
    intro y hy
    obtain ⟨x, hx, rfl⟩ := (evict_entries cfg md now).1 y hy
    exact hcall x.2 (.evict now cfg.tStoreExpiredDuration) rfl (h x hx)
  | flushFamilyTo fl ft =>
    intro y hy
    rcases (flushFamilyTo_entries fl ft md).1 y hy with hy | ⟨x, hx, rfl⟩
    · exact h y hy
    · exact hcall x.2 (.flushMetricsDataTo fl [] ft) rfl (h x hx)

theorem Reachable.forall_entries {P : MStore B → Prop} (hnew : ∀ metricID now, P (newMetricStore metricID now))
    (hcall : ∀ ms c, P ms → P (ms.apply c)) {md : MemDB B} (h : Reachable cfg md) : ∀ x ∈ md.entries, P x.2 := by
  induction h with
  | init => intro x hx; simp at hx
  | step _ _ ih => exact step_forall_entries hnew (fun ms c _ => hcall ms c) ih

end Runs

/-! ### A concrete database -/

namespace Sample

/-- A block that counts the points written into it, eight bytes each; its sizes change exactly as it
    reports, and `Go`'s `append` doubles a full slice. -/
instance countingBlock : Block Nat where
  empty := 0
  writeFloat b _ _ _ := (b + 1, 8)
  bytes b := (.ok [], b)
  slotRange b := if b = 0 then .error "empty" else .ok (0, 0)
  memSize b := 8 * b
  growslice cap n := max n (2 * cap)

/-- Two buckets: `cpu` hashes to `0` and every other metric to `1`; families of 100 ms in slots of 10 ms. -/
def config : Config where
  hash name := if name = "cpu" then 0 else 1
  intervalCalc ts := (ts / 100 * 100, (ts % 100).toNat / 10)
  interval := 10
  generator := ⟨fun name => if name = "cpu" then 1 else 2, fun _ _ _ => .ok 1, fun _ _ => 1⟩
  shardingCountMask := 1
  tStoreExpiredDuration := 100

/-- A point of field `f` of a series tagged `host=a`. -/
def point (metricName : String) (timestamp : Int) : PbMetric :=
  ⟨metricName, timestamp, [("host", "a")], by decide, [⟨"f", .sum 1⟩]⟩

/-- A flusher none of whose calls fails. -/
def okFlusher : DataFlusher := ⟨fun _ _ => none⟩

end Sample

end Lindb.Memdb

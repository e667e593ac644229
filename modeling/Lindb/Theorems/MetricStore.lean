import Lindb.Theorems.Stores

/-! What a metric store's operations do to the field stores and segments a reader reaches through it;
    every reachable metric store is well formed (`WF`). -/

namespace Lindb.Memdb

variable {B : Type}

theorem getFromName_eq_none {metas : List FieldMeta} {name : String} :
    getFromName metas name = none ↔ name ∉ metas.map (·.name) := by
  simp [getFromName, List.find?_eq_none]

namespace MStore

/-- The indexes a reader sees: the mutable one, and the immutable one unless the cell holds the
    placeholder. -/
def tagIndexes (ms : MStore B) : List (TagIndex B) := ms.mutable :: ms.atomicGetImmutable.toList

/-- The field stores a reader reaches. -/
def fieldStores (ms : MStore B) : List (FieldStore B) := ms.tagIndexes.flatMap TagIndex.fieldStores

/-- The segments a reader reaches, named with the metric's hash. -/
def segments (ms : MStore B) (metricHash : UInt64) : List SegmentKey := ms.tagIndexes.flatMap (·.segments metricHash)

/-- What every metric store of a reachable database satisfies. -/
structure WF (ms : MStore B) : Prop where
  version_pos : 0 < ms.mutable.version
  idsFresh : ms.mutable.IdsFresh
  sorted : ∀ fs ∈ ms.fieldStores, FieldStore.Increasing fs.sStoreNodes

theorem mem_fieldStores {ms : MStore B} {fs : FieldStore B} :
    fs ∈ ms.fieldStores ↔ fs ∈ ms.mutable.fieldStores ∨ ∃ t, ms.atomicGetImmutable = some t ∧ fs ∈ t.fieldStores := by
  cases h : ms.atomicGetImmutable <;> simp [fieldStores, tagIndexes, h]

theorem mem_segments {ms : MStore B} {h : UInt64} {s : SegmentKey} :
    s ∈ ms.segments h ↔ s ∈ ms.mutable.segments h ∨ ∃ t, ms.atomicGetImmutable = some t ∧ s ∈ t.segments h := by
  cases hi : ms.atomicGetImmutable <;> simp [segments, tagIndexes, hi]

theorem segments_eq_nil_of_isEmpty {ms : MStore B} (h : ms.isEmpty = true) (metricHash : UInt64) :
    ms.segments metricHash = [] := by
  simp only [isEmpty, getTagsInUse, TagIndex.tagsInUse, Bool.and_eq_true, beq_iff_eq, List.length_eq_zero,
    Option.isNone_iff_eq_none] at h
  refine List.eq_nil_iff_forall_not_mem.mpr fun s hs => ?_
  rcases mem_segments.mp hs with hs | ⟨t, ht, -⟩
  · obtain ⟨-, _, _, -, hts, -⟩ := TagIndex.mem_segments.mp hs
    simp [TagIndex.getTStoreBySeriesID, h.1] at hts
  · simp [h.2] at ht

@[simp] theorem getFieldIDOrGenerate_mutable (gen : IDGenerator) (ms : MStore B) (name : String) (type : FieldType) :
    (ms.getFieldIDOrGenerate gen name type).1.mutable = ms.mutable := by
  unfold getFieldIDOrGenerate; split <;> (try split) <;> (try split) <;> (try split) <;> rfl

@[simp] theorem getFieldIDOrGenerate_immutable (gen : IDGenerator) (ms : MStore B) (name : String) (type : FieldType) :
    (ms.getFieldIDOrGenerate gen name type).1.immutable = ms.immutable := by
  unfold getFieldIDOrGenerate; split <;> (try split) <;> (try split) <;> (try split) <;> rfl

theorem getFieldIDOrGenerate_cases (gen : IDGenerator) (ms : MStore B) (name : String) (type : FieldType) :
    (ms.getFieldIDOrGenerate gen name type).1 = ms ∨
    ∃ id, name ∉ ms.fieldsMetas.map (·.name) ∧ ms.fieldsMetas.length < TStoreMaxFieldsCount ∧
      (ms.getFieldIDOrGenerate gen name type).1 = { ms with fieldsMetas := ms.fieldsMetas ++ [⟨name, id, type⟩] } := by
  unfold getFieldIDOrGenerate
  split
  · exact .inl rfl
  rename_i hnone
  split
  · exact .inl rfl
  rename_i hcount
  split
  · exact .inl rfl
  split
  · exact .inl rfl
  · exact .inr ⟨_, getFromName_eq_none.mp hnone, Nat.lt_of_not_le hcount, rfl⟩

/-! ### A new metric store -/

section New
variable [Block B] {metricID : Nat} {now : Int}

@[simp] theorem newMetricStore_fieldStores : (newMetricStore metricID now : MStore B).fieldStores = [] := rfl

@[simp] theorem newMetricStore_segments (metricHash : UInt64) :
    (newMetricStore metricID now : MStore B).segments metricHash = [] := rfl

theorem newMetricStore_wf (h : 0 < now) : (newMetricStore metricID now : MStore B).WF :=
  ⟨h, fun _ hx => by simp [newMetricStore, newTagIndex] at hx, fun _ hfs => by simp at hfs⟩

end New

/-! ### Write -/

section Write
variable [Block B] {ms : MStore B} {gen : IDGenerator} {metric : PbMetric} {ctx : WriteContext} {now : Int}

theorem getOrCreateTStore_ok {tags : List (String × String)} {ms₁ : MStore B} {seriesID : Nat} {ts : TStore B}
    {c : Int} (hf : ms.mutable.IdsFresh) (h : ms.getOrCreateTStore tags now = .ok (ms₁, seriesID, ts, c)) :
    ms₁.immutable = ms.immutable ∧ TagIndex.Grows ms.mutable ms₁.mutable ∧ ms₁.mutable.IdsFresh ∧
      ms₁.mutable.getTStoreBySeriesID seriesID = some ts := by
  unfold getOrCreateTStore at h
  split at h
  · rename_i seriesID ts hts
    cases h
    refine ⟨rfl, ⟨rfl, fun _ hx => hx, id, rfl⟩, hf, ?_⟩
    unfold TagIndex.getTStore at hts
    split at hts
    · obtain ⟨_, _, h⟩ := Option.map_eq_some'.mp hts
      cases h
      assumption
    · cases hts
  · split at h
    · cases h
    · rename_i r' hr
      cases h
      exact ⟨rfl, TagIndex.getOrCreateTStore_grows hr, (TagIndex.getOrCreateTStore_get hf hr).2,
        (TagIndex.getOrCreateTStore_get hf hr).1⟩

theorem write_cases (ms : MStore B) (gen : IDGenerator) (metric : PbMetric) (ctx : WriteContext) (now : Int) :
    (ms.write gen metric ctx now).1 = ms ∨
    ∃ (ms₁ : MStore B) (seriesID : Nat) (ts ts' : TStore B) (c : Int),
      ms.getOrCreateTStore metric.tags now = .ok (ms₁, seriesID, ts, c) ∧
      ts' = (ts.write (fun m : MStore B => m.getFieldIDOrGenerate gen) ctx now ms₁ metric.fields).1 ∧
      (ms.write gen metric ctx now).1.immutable = ms.immutable ∧
      ((ms.write gen metric ctx now).1.mutable = ms₁.mutable.setTStore seriesID ts' ∨
        (ms.write gen metric ctx now).1.mutable = (ms₁.mutable.setTStore seriesID ts').updateIndexTimeRange ctx.pointTime) := by
  unfold write
  split
  · exact .inl rfl
  split
  · exact .inl rfl
  · rename_i ms₁ seriesID ts c hgot
    have hst : let m := (ts.write (fun m : MStore B => m.getFieldIDOrGenerate gen) ctx now ms₁ metric.fields).2.1
        m.mutable = ms₁.mutable ∧ m.immutable = ms₁.immutable :=
      TStore.write_state (P := fun m : MStore B => m.mutable = ms₁.mutable ∧ m.immutable = ms₁.immutable)
        (fun _ _ _ h => by simpa using h) metric.fields ts ms₁ ⟨rfl, rfl⟩
    have himm : ms₁.immutable = ms.immutable := by
      unfold getOrCreateTStore at hgot
      split at hgot
      · cases hgot; rfl
      · split at hgot <;> cases hgot; rfl
    refine .inr ⟨ms₁, seriesID, ts, _, c, hgot, rfl, ?_⟩
    dsimp only
    split <;> simp only [hst.1, hst.2, himm] <;> simp

variable (hw : ms.WF)
include hw

theorem write_changed {ms₁ : MStore B} {seriesID : Nat} {ts ts' : TStore B} {c : Int}
    (hgot : ms.getOrCreateTStore metric.tags now = .ok (ms₁, seriesID, ts, c))
    (hts' : ts' = (ts.write (fun m : MStore B => m.getFieldIDOrGenerate gen) ctx now ms₁ metric.fields).1) :
    TagIndex.Grows ms.mutable ms₁.mutable ∧ ms₁.mutable.IdsFresh ∧ ms₁.mutable.getTStoreBySeriesID seriesID = some ts ∧
      (∀ fs' ∈ ts'.fStoreNodes, ∃ fs, (fs ∈ ms.mutable.fieldStores ∨ fs = newFieldStore fs.fieldID) ∧
        FieldStore.WrittenAt ctx.familyTime fs fs') ∧ ts.keys ⊆ ts'.keys := by
  obtain ⟨-, hgrow, hf, hts⟩ := getOrCreateTStore_ok hw.idsFresh hgot
  subst hts'
  refine ⟨hgrow, hf, hts, fun fs' h => ?_, TStore.keys_subset_of_forth fun fs hfs => TStore.write_forth _ _ _ hfs⟩
  obtain ⟨fs, hfs | hnew, hwr⟩ := TStore.write_back _ _ _ h
  · exact ⟨fs, .inl (hgrow.fieldStores ▸ TagIndex.mem_fieldStores.mpr
      ⟨_, TagIndex.getTStoreBySeriesID_mem hts, hfs⟩), hwr⟩
  · exact ⟨fs, .inr hnew, hwr⟩

theorem write_back {fs' : FieldStore B} (h : fs' ∈ (ms.write gen metric ctx now).1.fieldStores) :
    ∃ fs, (fs ∈ ms.fieldStores ∨ fs = newFieldStore fs.fieldID) ∧ FieldStore.WrittenAt ctx.familyTime fs fs' := by
  rcases write_cases ms gen metric ctx now with
    heq | ⟨ms₁, seriesID, ts, ts', c, hgot, hts', himm, hmut⟩
  · exact ⟨fs', .inl (by rwa [heq] at h), .refl⟩
  obtain ⟨hgrow, -, -, hback, -⟩ := write_changed hw hgot hts'
  have hvis : (ms.write gen metric ctx now).1.atomicGetImmutable = ms.atomicGetImmutable := by
    simp only [atomicGetImmutable, himm]
  rcases mem_fieldStores.mp h with h | ⟨t, ht, h⟩
  · replace h : fs' ∈ (ms₁.mutable.setTStore seriesID ts').fieldStores := by
      rcases hmut with hmut | hmut <;> rw [hmut] at h <;> simpa using h
    rcases TagIndex.mem_fieldStores_setTStore h with h | h
    · exact ⟨fs', .inl (mem_fieldStores.mpr (.inl (hgrow.fieldStores ▸ h))), .refl⟩
    · obtain ⟨fs, hfs, hwr⟩ := hback fs' h
      exact ⟨fs, hfs.imp_left fun h => mem_fieldStores.mpr (.inl h), hwr⟩
  · exact ⟨fs', .inl (mem_fieldStores.mpr (.inr ⟨t, hvis ▸ ht, h⟩)), .refl⟩

theorem write_forth (metricHash : UInt64) : ms.segments metricHash ⊆ (ms.write gen metric ctx now).1.segments metricHash := by
  rcases write_cases ms gen metric ctx now with
    heq | ⟨ms₁, seriesID, ts, ts', c, hgot, hts', himm, hmut⟩
  · rw [heq]; exact List.Subset.refl _
  obtain ⟨hgrow, -, hts, -, hkeys⟩ := write_changed hw hgot hts'
  have hvis : (ms.write gen metric ctx now).1.atomicGetImmutable = ms.atomicGetImmutable := by
    simp only [atomicGetImmutable, himm]
  intro s hs
  rcases mem_segments.mp hs with hs | ⟨t, ht, hs⟩
  · refine mem_segments.mpr (.inl ?_)
    suffices s ∈ (ms₁.mutable.setTStore seriesID ts').segments metricHash by
      rcases hmut with hmut | hmut <;> rw [hmut] <;> simpa using this
    refine TagIndex.segments_subset (t := ms₁.mutable) (u := ms₁.mutable.setTStore seriesID ts') (P := fun _ => True)
      (fun x hx ts₀ hts₀ k hk _ => ⟨hx, ?_⟩) (hgrow.segments_subset hs) trivial
    by_cases hid : x.2 = seriesID
    · rw [hid, hts, Option.some.injEq] at hts₀
      subst hts₀
      rw [hid]
      exact ⟨ts', TagIndex.getTStoreBySeriesID_setTStore_self (by rw [hts]; rfl), hkeys hk⟩
    · exact ⟨ts₀, (TagIndex.getTStoreBySeriesID_setTStore_of_ne hid).trans hts₀, hk⟩
  · exact mem_segments.mpr (.inr ⟨t, hvis ▸ ht, hs⟩)

theorem write_wf : (ms.write gen metric ctx now).1.WF := by
  rcases write_cases ms gen metric ctx now with
    heq | ⟨ms₁, seriesID, ts, ts', c, hgot, hts', -, hmut⟩
  · rw [heq]; exact hw
  obtain ⟨hgrow, hf, -, -, -⟩ := write_changed hw hgot hts'
  refine ⟨?_, ?_, fun fs' h => ?_⟩
  · rcases hmut with hmut | hmut <;> rw [hmut] <;> simpa [hgrow.version] using hw.version_pos
  · rcases hmut with hmut | hmut <;> rw [hmut]
    · exact hf.setTStore
    · exact hf.setTStore.updateIndexTimeRange _
  · obtain ⟨fs, hfs | hnew, hwr⟩ := write_back hw h
    · exact hwr.increasing (hw.sorted fs hfs)
    · exact hwr.increasing (hnew ▸ List.sorted_nil)

end Write

/-! ### Evict -/

theorem doubleCheckEvictList_collectable {ms : MStore B} {now d : Int} {evictList : List Nat} {seriesID : Nat}
    (h : seriesID ∈ ms.doubleCheckEvictList evictList now d) :
    ∃ ts, ms.mutable.getTStoreBySeriesID seriesID = some ts ∧ ts.isExpired now d = true ∧ ts.isNoData = true := by
  have hp := (List.mem_filter.mp h).2
  split at hp
  · exact ⟨_, ‹_›, (Bool.and_eq_true _ _).mp hp⟩
  · cases hp

theorem doubleCheckEvictList_noData {ms : MStore B} {now d : Int} (evictList : List Nat) :
    ∀ seriesID ∈ ms.doubleCheckEvictList evictList now d,
      ∃ ts, ms.mutable.getTStoreBySeriesID seriesID = some ts ∧ ts.isNoData = true := fun _ h =>
  let ⟨ts, hts, _, hno⟩ := doubleCheckEvictList_collectable h
  ⟨ts, hts, hno⟩

theorem segments_subset_of_removeTStores {ms ms' : MStore B} {ids : List Nat}
    (hids : ∀ seriesID ∈ ids, ∃ ts, ms.mutable.getTStoreBySeriesID seriesID = some ts ∧ ts.isNoData = true)
    (hm : ms'.mutable = (ms.mutable.removeTStores ids).1) (hi : ms'.immutable = ms.immutable) (metricHash : UInt64) :
    ms.segments metricHash ⊆ ms'.segments metricHash := by
  have hvis : ms'.atomicGetImmutable = ms.atomicGetImmutable := by simp only [atomicGetImmutable, hi]
  intro s hs
  rcases mem_segments.mp hs with hs | ⟨t, ht, hs⟩
  · exact mem_segments.mpr (.inl (hm ▸ TagIndex.segments_subset_removeTStores hids _ hs))
  · exact mem_segments.mpr (.inr ⟨t, hvis ▸ ht, hs⟩)

section Evict
variable [Block B]

theorem evict_cases (ms : MStore B) (now d : Int) : ∃ ids : List Nat,
    (∀ seriesID ∈ ids, ∃ ts, ms.mutable.getTStoreBySeriesID seriesID = some ts ∧ ts.isNoData = true) ∧
    (ms.evict now d).1.mutable = (ms.mutable.removeTStores ids).1 ∧ (ms.evict now d).1.immutable = ms.immutable :=
  ⟨_, doubleCheckEvictList_noData _, rfl, rfl⟩

variable {ms : MStore B} {now d : Int}

theorem evict_back {fs : FieldStore B} (h : fs ∈ (ms.evict now d).1.fieldStores) : fs ∈ ms.fieldStores := by
  obtain ⟨ids, -, hmut, himm⟩ := evict_cases ms now d
  have hvis : (ms.evict now d).1.atomicGetImmutable = ms.atomicGetImmutable := by simp only [atomicGetImmutable, himm]
  rcases mem_fieldStores.mp h with h | ⟨t, ht, h⟩
  · rw [hmut] at h
    exact mem_fieldStores.mpr (.inl ((TagIndex.removeTStores_shrinks ids _).fieldStores_sub h))
  · exact mem_fieldStores.mpr (.inr ⟨t, hvis ▸ ht, h⟩)

theorem evict_forth (metricHash : UInt64) : ms.segments metricHash ⊆ (ms.evict now d).1.segments metricHash :=
  let ⟨_, hids, hmut, himm⟩ := evict_cases ms now d
  segments_subset_of_removeTStores hids hmut himm metricHash

theorem evict_wf (hw : ms.WF) : (ms.evict now d).1.WF := by
  obtain ⟨ids, -, hmut, -⟩ := evict_cases ms now d
  have hsh := TagIndex.removeTStores_shrinks ids ms.mutable
  exact ⟨by rw [hmut, hsh.version]; exact hw.version_pos, hmut ▸ hsh.idsFresh hw.idsFresh,
    fun fs h => hw.sorted fs (evict_back h)⟩

end Evict

/-! ### ResetVersion -/

section Reset
variable [Block B]

theorem resetVersion_cases (ms : MStore B) (now : Int) : (ms.resetVersion now).1 = ms ∨
    (ms.atomicGetImmutable = none ∧ (ms.resetVersion now).1.immutable = some ms.mutable ∧
      (ms.resetVersion now).1.mutable = newTagIndex now) := by
  unfold resetVersion
  split
  · exact .inl rfl
  · rename_i h
    exact .inr ⟨Option.not_isSome_iff_eq_none.mp h, rfl, rfl⟩

variable {ms : MStore B} {now : Int}

theorem resetVersion_back {fs : FieldStore B} (h : fs ∈ (ms.resetVersion now).1.fieldStores) : fs ∈ ms.fieldStores := by
  rcases resetVersion_cases ms now with heq | ⟨-, himm, hmut⟩
  · rwa [heq] at h
  rcases mem_fieldStores.mp h with h | ⟨t, ht, h⟩
  · simp [hmut, newTagIndex, TagIndex.fieldStores] at h
  · simp only [atomicGetImmutable, himm, Option.filter_eq_some, Option.mem_def, Option.some.injEq] at ht
    exact mem_fieldStores.mpr (.inl (ht.1 ▸ h))

theorem resetVersion_forth (hw : ms.WF) (metricHash : UInt64) :
    ms.segments metricHash ⊆ (ms.resetVersion now).1.segments metricHash := by
  rcases resetVersion_cases ms now with heq | ⟨hnone, himm, -⟩
  · rw [heq]; exact List.Subset.refl _
  have hvis : (ms.resetVersion now).1.atomicGetImmutable = some ms.mutable := by
    simp [atomicGetImmutable, himm, hw.version_pos.ne']
  intro s hs
  rcases mem_segments.mp hs with hs | ⟨t, ht, -⟩
  · exact mem_segments.mpr (.inr ⟨_, hvis, hs⟩)
  · simp [hnone] at ht

theorem resetVersion_wf (hw : ms.WF) (hnow : 0 < now) : (ms.resetVersion now).1.WF := by
  rcases resetVersion_cases ms now with heq | ⟨-, -, hmut⟩
  · rwa [heq]
  refine ⟨by simpa [hmut, newTagIndex] using hnow, by simp [hmut, newTagIndex, TagIndex.IdsFresh], ?_⟩
  exact fun fs h => hw.sorted fs (resetVersion_back h)

end Reset

/-! ### FlushMetricsDataTo -/

section Flush
variable [Block B] {fl : DataFlusher} {ms : MStore B} {history : List FlushCall} {ft : Int}

@[simp] theorem flushMetricsDataTo_mutable :
    (ms.flushMetricsDataTo fl history ft).1.mutable = (ms.mutable.flushVersionDataTo ft).1 := rfl

/-- The placeholder replaces the immutable index. -/
@[simp] theorem flushMetricsDataTo_atomicGetImmutable :
    (ms.flushMetricsDataTo fl history ft).1.atomicGetImmutable = none := by
  simp [flushMetricsDataTo, atomicGetImmutable, staticNopTagIndex, newTagIndex]

theorem flushMetricsDataTo_fieldStores :
    (ms.flushMetricsDataTo fl history ft).1.fieldStores = ms.mutable.fieldStores.map fun fs => (fs.flushFieldTo ft).1 := by
  simp [fieldStores, tagIndexes, TagIndex.flushVersionDataTo_fieldStores]

theorem flushMetricsDataTo_fieldCalls :
    (ms.flushMetricsDataTo fl history ft).2.2.1.filter FlushCall.isFlushField =
      (ms.fieldStores.map fun fs => (fs.flushFieldTo ft).2.2).flatten := by
  cases h : ms.atomicGetImmutable <;>
    simp [flushMetricsDataTo, h, fieldStores, tagIndexes, List.filter_append, TagIndex.flushVersionDataTo_fieldCalls,
      FlushCall.isFlushField]

variable (hw : ms.WF)
include hw

theorem flushMetricsDataTo_forth (metricHash : UInt64) {s : SegmentKey} (hs : s ∈ ms.mutable.segments metricHash)
    (hft : s.familyTime ≠ ft) : s ∈ (ms.flushMetricsDataTo fl history ft).1.segments metricHash := by
  refine mem_segments.mpr (.inl (TagIndex.segments_subset (P := (· ≠ ft)) (fun x hx ts hts k hk hk' => ?_) hs hft))
  refine ⟨hx, (ts.flushSeriesTo ft x.2).1, by simp [TagIndex.flushVersionDataTo_getTStoreBySeriesID, hts], ?_⟩
  obtain ⟨fs, hfs, hid, hk⟩ := TStore.mem_keys.mp hk
  have hinc := hw.sorted fs (mem_fieldStores.mpr (.inl (TagIndex.mem_fieldStores.mpr
    ⟨_, TagIndex.getTStoreBySeriesID_mem hts, hfs⟩)))
  refine TStore.mem_keys.mpr ⟨(fs.flushFieldTo ft).1, ?_, by simpa using hid, ?_⟩
  · simpa [TStore.flushSeriesTo_fst] using ⟨fs, hfs, rfl⟩
  · simpa [FieldStore.flushFieldTo_familyTimes hinc] using ⟨hk, hk'⟩

theorem flushMetricsDataTo_no_family {fs : FieldStore B} (h : fs ∈ (ms.flushMetricsDataTo fl history ft).1.fieldStores) :
    ft ∉ fs.familyTimes := by
  rw [flushMetricsDataTo_fieldStores, List.mem_map] at h
  obtain ⟨fs₀, hfs₀, rfl⟩ := h
  simp [FieldStore.flushFieldTo_familyTimes (hw.sorted fs₀ (mem_fieldStores.mpr (.inl hfs₀)))]

theorem flushMetricsDataTo_wf : (ms.flushMetricsDataTo fl history ft).1.WF := by
  refine ⟨by simpa using hw.version_pos, by simpa using hw.idsFresh.flushVersionDataTo ft, fun fs h => ?_⟩
  rw [flushMetricsDataTo_fieldStores, List.mem_map] at h
  obtain ⟨fs₀, hfs₀, rfl⟩ := h
  exact FieldStore.flushFieldTo_increasing (hw.sorted fs₀ (mem_fieldStores.mpr (.inl hfs₀))) ft

end Flush

/-! ### Runs -/

/-- A call a metric store receives. -/
inductive Call
  | write (gen : IDGenerator) (metric : PbMetric) (ctx : WriteContext) (now : Int)
  | evict (now expiredDuration : Int)
  | resetVersion (now : Int)
  | flushMetricsDataTo (fl : DataFlusher) (history : List FlushCall) (familyTime : Int)

/-- The metric store after a call. -/
def apply [Block B] (ms : MStore B) : Call → MStore B
  | .write gen metric ctx now => (ms.write gen metric ctx now).1
  | .evict now d => (ms.evict now d).1
  | .resetVersion now => (ms.resetVersion now).1
  | .flushMetricsDataTo fl history ft => (ms.flushMetricsDataTo fl history ft).1

end MStore

end Lindb.Memdb

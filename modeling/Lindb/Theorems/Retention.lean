import Lindb.Theorems.Families

/-! What happens to the data written (§4.4, §6): no step loses a segment a reader reaches, except
    `FlushFamilyTo`. -/

namespace Lindb.Memdb

variable {B : Type} [Block B] {cfg : Config}

/-- The database after the operations `ops`, one after the other, from `md`. -/
def runOps (cfg : Config) (md : MemDB B) (ops : List Op) : MemDB B := ops.foldl (fun md op => (step cfg md op).1) md

theorem Reachable.runOps {md : MemDB B} (hr : Reachable cfg md) :
    ∀ {ops : List Op}, (∀ op ∈ ops, op.clockOk) → Reachable cfg (runOps cfg md ops)
  | [], _ => hr
  | op :: _, hops =>
    (hr.step (hops op (List.mem_cons_self _ _))).runOps fun o ho => hops o (List.mem_cons_of_mem _ ho)

namespace MemDB

variable {md : MemDB B}

theorem step_keeps_segments (hw : md.WF) {op : Op} (hop : op.clockOk) {s : SegmentKey} (hs : s ∈ md.segments) :
    s ∈ (step cfg md op).1.segments ∨
      ∃ fl ft, op = .flushFamilyTo fl ft ∧ (s.familyTime = ft ∨ s ∉ md.mutableSegments) := by
  cases op with
  | write metric now =>
    obtain ⟨ms, ctx, -, hms, hr⟩ := write_replaces cfg md metric now
    have hwm : ms.WF := hms.elim (hw _) fun h => h ▸ MStore.newMetricStore_wf hop
    exact .inl (hr.segments_subset (MStore.write_forth hwm _) hs)
  | resetMetricStore name now =>
    refine .inl ?_
    rcases resetMetricStore_cases cfg md name now with he | ⟨ms, hms, hr⟩
    · simpa [step, segments, entries_congr he] using hs
    · exact hr.segments_subset (MStore.resetVersion_forth (hw _ (getMStoreByMetricHash_mem hms)) _) hs
  | evict now =>
    refine .inl ?_
    obtain ⟨x, hx, hsx⟩ := mem_segments.mp hs
    rcases (evict_entries cfg md now).2 x hx with hx' | hempty
    · exact mem_segments.mpr ⟨_, hx', MStore.evict_forth _ hsx⟩
    · have h : s ∈ (x.2.evict now cfg.tStoreExpiredDuration).1.segments x.1 := MStore.evict_forth _ hsx
      simp [MStore.segments_eq_nil_of_isEmpty hempty] at h
  | flushFamilyTo fl ft =>
    by_cases hkeep : s.familyTime ≠ ft ∧ s ∈ md.mutableSegments
    · refine .inl ?_
      obtain ⟨x, hx, hsx⟩ := mem_mutableSegments.mp hkeep.2
      rcases (flushFamilyTo_entries fl ft md).2 x hx with hx' | hx'
      · exact mem_segments.mpr ⟨x, hx', MStore.mem_segments.mpr (.inl hsx)⟩
      · exact mem_segments.mpr ⟨_, hx',
          (MStore.flushMetricsDataTo_forth (hw x hx) _ hsx hkeep.1 : s ∈ (x.2.flushMetricsDataTo fl [] ft).1.segments x.1)⟩
    · exact .inr ⟨fl, ft, rfl, by tauto⟩

/-- The sum, over the metric stores of the buckets, of their `MemSize()`. -/
def storesMemSize (md : MemDB B) : Int := (md.entries.map fun x => x.2.memSize).sum

end MemDB

/-- A segment is still reachable after `ops`, or a flush of `ops` took it out. -/
def Retained (cfg : Config) (md : MemDB B) (ops : List Op) (s : SegmentKey) : Prop :=
  s ∈ (runOps cfg md ops).segments ∨ ∃ pre fl ft post, ops = pre ++ .flushFamilyTo fl ft :: post ∧
    s ∈ (runOps cfg md pre).segments ∧ (s.familyTime = ft ∨ s ∉ (runOps cfg md pre).mutableSegments)

theorem run_keeps_segments {md : MemDB B} (hr : Reachable cfg md) :
    ∀ {ops : List Op}, (∀ op ∈ ops, op.clockOk) → ∀ {s : SegmentKey}, s ∈ md.segments → Retained cfg md ops s
  | [], _, _, hs => .inl hs
  | op :: rest, hops, s, hs => by
    have hop := hops op (List.mem_cons_self _ _)
    rcases MemDB.step_keeps_segments hr.wf hop hs with hs' | ⟨fl, ft, rfl, hlost⟩
    · rcases run_keeps_segments (hr.step hop) (fun o ho => hops o (List.mem_cons_of_mem _ ho)) hs' with
        h | ⟨pre, fl, ft, post, rfl, h⟩
      · exact .inl h
      · exact .inr ⟨op :: pre, fl, ft, post, rfl, h⟩
    · exact .inr ⟨[], fl, ft, rest, rfl, hs, hlost⟩

namespace Sample

/-- After `ResetMetricStore`, a flush of family 100 drops the segment of family 200. -/
theorem reset_then_flush_drops_other_family :
    let md : MemDB Nat := runOps config (newMemoryDatabase config)
      [.write (point "cpu" 100) 1, .write (point "cpu" 200) 2, .resetMetricStore "cpu" 3]
    Reachable config md ∧ md.segments = [⟨0, [("host", "a")], 1, 100⟩, ⟨0, [("host", "a")], 1, 200⟩] ∧
      (md.flushFamilyTo okFlusher 100).2 =
        ([.flushFieldMetas [⟨"f", 1, .sumField⟩], .flushField 1 [], .flushSeries 1, .flushMetric 1], none) ∧
      (md.flushFamilyTo okFlusher 100).1.segments = [] :=
  ⟨Reachable.init.runOps (by decide), by decide, by decide, by decide⟩

/-- After `ResetMetricStore`, a flush leaves the counter above the stores' sum. -/
theorem reset_then_flush_memSize_drifts :
    let md : MemDB Nat := runOps config (newMemoryDatabase config) [.write (point "cpu" 100) 1, .resetMetricStore "cpu" 2]
    let md' := (md.flushFamilyTo okFlusher 100).1
    Reachable config md ∧ md.memSize = md.storesMemSize ∧
      ((md.getMStore config "cpu").bind MStore.atomicGetImmutable).map TagIndex.memSize = some 178 ∧
      md'.memSize = md.memSize - 8 ∧ md'.memSize = md'.storesMemSize + 178 :=
  ⟨Reachable.init.runOps (by decide), by decide, by decide, by decide, by decide⟩

end Sample

end Lindb.Memdb

import Lindb.Theorems.Flush

/-! The families `Families()` reports, against those the field stores hold (§4.5). -/

namespace Lindb.Memdb

variable {B : Type}

namespace MemDB

theorem mem_families {md : MemDB B} {ft : Int} : ft ∈ md.families ↔ ft ∈ md.familyTimes :=
  (List.perm_insertionSort _ _).mem_iff

/-- Every family other than `0` that a field store a reader reaches holds is recorded, and so is the last
    family written. -/
structure FamiliesCovered (md : MemDB B) : Prop where
  held : ∀ ft ∈ md.heldFamilies, ft ≠ 0 → ft ∈ md.familyTimes
  last : md.lastWroteFamilyTime ≠ 0 → md.lastWroteFamilyTime ∈ md.familyTimes

theorem addFamilyTime_covers (md : MemDB B) (ft : Int) (h : md.lastWroteFamilyTime ≠ 0 → md.lastWroteFamilyTime ∈ md.familyTimes) :
    (∀ x ∈ md.familyTimes, x ∈ (md.addFamilyTime ft).familyTimes) ∧ (ft ≠ 0 → ft ∈ (md.addFamilyTime ft).familyTimes) ∧
    ((md.addFamilyTime ft).lastWroteFamilyTime ≠ 0 →
      (md.addFamilyTime ft).lastWroteFamilyTime ∈ (md.addFamilyTime ft).familyTimes) := by
  unfold addFamilyTime
  split
  · rename_i hl
    exact ⟨fun _ hx => hx, fun hft => hl ▸ h (hl ▸ hft), h⟩
  · have hmem : ft ∈ if ft ∈ md.familyTimes then md.familyTimes else md.familyTimes ++ [ft] := by
      split
      · assumption
      · exact List.mem_append_right _ (List.mem_singleton_self _)
    refine ⟨fun x hx => ?_, fun _ => hmem, fun _ => hmem⟩
    split
    · exact hx
    · exact List.mem_append_left _ hx

section Steps
variable [Block B] {cfg : Config} {md : MemDB B}

theorem heldFamilies_write (hw : md.WF) {metric : PbMetric} {now : Int} (hnow : 0 < now) {ft : Int}
    (h : ft ∈ (md.write cfg metric now).1.heldFamilies) : ft ∈ md.heldFamilies ∨ ft = (cfg.intervalCalc metric.timestamp).1 := by
  obtain ⟨ms, ctx, hctx, hms, hr⟩ := write_replaces cfg md metric now
  obtain ⟨fs', hfs', hft⟩ := mem_heldFamilies.mp h
  rcases hr.mem_fieldStores hfs' with hfs' | hfs'
  · exact .inl (mem_heldFamilies.mpr ⟨fs', hfs', hft⟩)
  have hwm : ms.WF := hms.elim (hw _) fun h => h ▸ MStore.newMetricStore_wf hnow
  obtain ⟨fs, hfs, hwr⟩ := MStore.write_back hwm hfs'
  rcases hwr.familyTimes_sub hft with hft | hft
  · rcases hfs with hfs | hnew
    · rcases hms with hms | rfl
      · exact .inl (mem_heldFamilies.mpr ⟨fs, mem_fieldStores.mpr ⟨_, hms, hfs⟩, hft⟩)
      · simp at hfs
    · rw [hnew] at hft
      simp [newFieldStore, FieldStore.familyTimes] at hft
  · exact .inr (hft.trans hctx)

theorem heldFamilies_resetMetricStore {name : String} {now : Int} {ft : Int}
    (h : ft ∈ (md.resetMetricStore cfg name now).1.heldFamilies) : ft ∈ md.heldFamilies := by
  obtain ⟨fs, hfs, hft⟩ := mem_heldFamilies.mp h
  refine mem_heldFamilies.mpr ⟨fs, ?_, hft⟩
  rcases resetMetricStore_cases cfg md name now with he | ⟨ms, hms, hr⟩
  · simpa [fieldStores, entries_congr he] using hfs
  · rcases hr.mem_fieldStores hfs with hfs | hfs
    · exact hfs
    · exact mem_fieldStores.mpr ⟨_, getMStoreByMetricHash_mem hms, MStore.resetVersion_back hfs⟩

theorem heldFamilies_evict {now : Int} {ft : Int} (h : ft ∈ (md.evict cfg now).heldFamilies) : ft ∈ md.heldFamilies := by
  obtain ⟨fs, hfs, hft⟩ := mem_heldFamilies.mp h
  obtain ⟨y, hy, hfs⟩ := mem_fieldStores.mp hfs
  obtain ⟨x, hx, rfl⟩ := (evict_entries cfg md now).1 y hy
  exact mem_heldFamilies.mpr ⟨fs, mem_fieldStores.mpr ⟨x, hx, MStore.evict_back hfs⟩, hft⟩

theorem heldFamilies_flushFamilyTo (hw : md.WF) {fl : DataFlusher} {ft x : Int} (hok : (md.flushFamilyTo fl ft).2.2 = none)
    (h : x ∈ (md.flushFamilyTo fl ft).1.heldFamilies) : x ∈ md.heldFamilies ∧ x ≠ ft := by
  obtain ⟨fs, hfs, hx⟩ := mem_heldFamilies.mp h
  obtain ⟨y, hy, hfs⟩ := mem_fieldStores.mp hfs
  rw [(flushFamilyTo_ok fl ft hok).1, List.mem_map] at hy
  obtain ⟨e, he, rfl⟩ := hy
  dsimp only at hfs
  rw [MStore.flushMetricsDataTo_fieldStores, List.mem_map] at hfs
  obtain ⟨fs₀, hfs₀, rfl⟩ := hfs
  have hinc := (hw e he).sorted fs₀ (MStore.mem_fieldStores.mpr (.inl hfs₀))
  rw [FieldStore.flushFieldTo_familyTimes hinc, List.mem_filter] at hx
  exact ⟨mem_heldFamilies.mpr ⟨fs₀, mem_fieldStores.mpr ⟨e, he, MStore.mem_fieldStores.mpr (.inl hfs₀)⟩, hx.1⟩,
    by simpa using hx.2⟩

theorem write_familyTimes {metric : PbMetric} {now : Int} (h : (md.write cfg metric now).2 = none) :
    (md.write cfg metric now).1.familyTimes = (md.addFamilyTime (cfg.intervalCalc metric.timestamp).1).familyTimes ∧
    (md.write cfg metric now).1.lastWroteFamilyTime =
      (md.addFamilyTime (cfg.intervalCalc metric.timestamp).1).lastWroteFamilyTime := by
  have hg : ∀ r : MemDB B × MStore B, r = md.getOrCreateMStore cfg metric.name (cfg.hash metric.name) now →
      r.1.familyTimes = md.familyTimes ∧ r.1.lastWroteFamilyTime = md.lastWroteFamilyTime := by
    rintro _ rfl
    unfold getOrCreateMStore; split <;> (try split) <;> exact ⟨rfl, rfl⟩
  obtain ⟨h₁, h₂⟩ := hg _ rfl
  simp only [write] at h ⊢
  rw [if_pos (by simpa using h)]
  simp only [addFamilyTime, setMStore, h₁, h₂]
  split <;> exact ⟨rfl, rfl⟩

@[simp] theorem resetMetricStore_familyTimes {name : String} {now : Int} :
    (md.resetMetricStore cfg name now).1.familyTimes = md.familyTimes := by
  unfold resetMetricStore; split <;> rfl

@[simp] theorem resetMetricStore_lastWroteFamilyTime {name : String} {now : Int} :
    (md.resetMetricStore cfg name now).1.lastWroteFamilyTime = md.lastWroteFamilyTime := by
  unfold resetMetricStore; split <;> rfl

end Steps

end MemDB

section Runs
variable [Block B] {cfg : Config} {md : MemDB B}
open MemDB

/-- The states of the sequential runs from `NewMemoryDatabase` in which every `Write` and every
    `FlushFamilyTo` returned nil. -/
inductive ReachableOk (cfg : Config) : MemDB B → Prop
  | init : ReachableOk cfg (newMemoryDatabase cfg)
  | step {md : MemDB B} {op : Op} : ReachableOk cfg md → op.clockOk →
      (∀ metric now, op = .write metric now → (step cfg md op).2.2 = none) →
      (∀ fl ft, op = .flushFamilyTo fl ft → (step cfg md op).2.2 = none) → ReachableOk cfg (step cfg md op).1

theorem ReachableOk.reachable (h : ReachableOk cfg md) : Reachable cfg md := by
  induction h with
  | init => exact .init
  | step _ hop _ _ ih => exact .step ih hop

theorem step_familiesCovered {op : Op} (hw : md.WF) (hc : md.FamiliesCovered) (hop : op.clockOk)
    (hwrite : ∀ metric now, op = .write metric now → (step cfg md op).2.2 = none)
    (hflush : ∀ fl ft, op = .flushFamilyTo fl ft → (step cfg md op).2.2 = none) : (step cfg md op).1.FamiliesCovered := by
  cases op with
  | write metric now =>
    obtain ⟨hf, hl⟩ := write_familyTimes (hwrite metric now rfl)
    obtain ⟨hsub, hnew, hlast⟩ := addFamilyTime_covers md (cfg.intervalCalc metric.timestamp).1 hc.last
    refine ⟨fun ft hft hne => ?_, by simpa [step, hf, hl] using hlast⟩
    simp only [step, hf]
    rcases heldFamilies_write hw hop hft with h | rfl
    · exact hsub _ (hc.held _ h hne)
    · exact hnew hne
  | resetMetricStore name now =>
    exact ⟨fun ft hft hne => by simpa [step] using hc.held ft (heldFamilies_resetMetricStore hft) hne,
      by simpa [step] using hc.last⟩
  | evict now => exact ⟨fun ft hft hne => hc.held ft (heldFamilies_evict hft) hne, hc.last⟩
  | flushFamilyTo fl ft =>
    refine ⟨fun x hx hne => ?_, fun h => absurd rfl h⟩
    obtain ⟨hx, hxft⟩ := heldFamilies_flushFamilyTo hw (hflush fl ft rfl) hx
    exact List.mem_filter.mpr ⟨hc.held x hx hne, by simpa using hxft⟩

theorem ReachableOk.familiesCovered (h : ReachableOk cfg md) : md.FamiliesCovered := by
  induction h with
  | init => exact ⟨fun ft hft => by simp [heldFamilies, fieldStores] at hft, fun h => absurd rfl h⟩
  | step hr hop hwrite hflush ih => exact step_familiesCovered hr.reachable.wf ih hop hwrite hflush

theorem families_cover_held (h : ReachableOk cfg md) {ft : Int} (hft : ft ∈ md.heldFamilies) (hne : ft ≠ 0) :
    ft ∈ md.families :=
  mem_families.mpr (h.familiesCovered.held ft hft hne)

namespace Sample

/-- A flusher whose `FlushMetric` fails for metric id `1`. -/
def failingFlusher : DataFlusher := ⟨fun _ metricID => if metricID = 1 then some "closed" else none⟩

/-- Points of family 100 of `cpu` (bucket 0) and `mem` (bucket 1), then a flush of 100 whose flusher fails on
    `cpu`. -/
def failedFlush : MemDB Nat × List FlushCall × Option Err :=
  step config (step config (step config (newMemoryDatabase config) (.write (point "cpu" 100) 1)).1
    (.write (point "mem" 100) 2)).1 (.flushFamilyTo failingFlusher 100)

/-- A point of `cpu` at `5`, in family 0. -/
def familyZeroWrite : MemDB Nat × List FlushCall × Option Err :=
  step config (newMemoryDatabase config) (.write (point "cpu" 5) 1)

/-- A point of family 200 whose field `f`, a Sum field since the first point, comes as a Min field after a
    new field `g`. -/
def mixedPoint : PbMetric := ⟨"cpu", 200, [("host", "a")], by decide, [⟨"g", .sum 1⟩, ⟨"f", .min 1⟩]⟩

/-- A point of family 100, then `mixedPoint`: `g` is stored, then `Write` fails on `f`. -/
def failedWrite : MemDB Nat × List FlushCall × Option Err :=
  step config (step config (newMemoryDatabase config) (.write (point "cpu" 100) 1)).1 (.write mixedPoint 2)

/-- `Families()` leaves out families whose data is in memory: after a failed flush, for family `0`, and
    after a failed `Write`. -/
theorem families_miss_held_data :
    (Reachable config failedFlush.1 ∧ failedFlush.2.2 = some (.flusher "closed") ∧
      (100 : Int) ∈ failedFlush.1.heldFamilies ∧ (100 : Int) ∉ failedFlush.1.families) ∧
    (Reachable config familyZeroWrite.1 ∧ familyZeroWrite.2.2 = none ∧
      (0 : Int) ∈ familyZeroWrite.1.heldFamilies ∧ familyZeroWrite.1.families = []) ∧
    (Reachable config failedWrite.1 ∧ failedWrite.2.2 = some .wrongFieldType ∧
      (200 : Int) ∈ failedWrite.1.heldFamilies ∧ (200 : Int) ∉ failedWrite.1.families) :=
  ⟨⟨.step (.step (.step .init (by decide)) (by decide)) trivial, by decide, by decide, by decide⟩,
    ⟨.step .init (by decide), by decide, by decide, by decide⟩,
    ⟨.step (.step .init (by decide)) (by decide), by decide, by decide, by decide⟩⟩

end Sample

end Runs

end Lindb.Memdb

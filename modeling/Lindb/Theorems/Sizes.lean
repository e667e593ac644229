import Lindb.Theorems.Retention

/-! The size counter of a metric store (§4.4): it follows the mutable index's `MemSize()`, as long as no
    `FlushMetricsDataTo` meets an immutable index. -/

namespace Lindb.Memdb

variable {B : Type}

/-! ### Lists -/

theorem sum_map_setFirst {α : Type} (f : α → Int) {p : α → Bool} {a b : α} :
    ∀ {l : List α}, l.find? p = some b → ((setFirst p a l).map f).sum = (l.map f).sum - f b + f a
  | [], h => by simp at h
  | y :: ys, h => by
    unfold setFirst
    by_cases hy : p y
    · simp only [List.find?_cons_of_pos _ hy, Option.some.injEq] at h
      subst h
      simp [hy]
      omega
    · simp only [List.find?_cons_of_neg _ hy] at h
      simp [hy, sum_map_setFirst f h]
      omega

theorem sum_map_sub {α : Type} (f g : α → Int) :
    ∀ l : List α, (l.map fun x => f x - g x).sum = (l.map f).sum - (l.map g).sum
  | [] => rfl
  | x :: l => by
    simp only [List.map_cons, List.sum_cons, sum_map_sub f g l]
    omega

theorem sum_map_filter_key {α : Type} (f : Nat × α → Int) {k : Nat} {x : Nat × α} :
    ∀ {l : List (Nat × α)}, (l.map (·.1)).Nodup → l.find? (·.1 = k) = some x →
      ((l.filter (·.1 ≠ k)).map f).sum = (l.map f).sum - f x
  | [], _, h => by simp at h
  | y :: ys, hn, h => by
    rw [List.map_cons, List.nodup_cons] at hn
    by_cases hy : y.1 = k
    · obtain rfl : y = x := by simpa [hy] using h
      have hkeep : ys.filter (·.1 ≠ k) = ys := List.filter_eq_self.mpr fun z hz => by
        have : z.1 ≠ y.1 := fun hz' => hn.1 (hz' ▸ List.mem_map.mpr ⟨z, hz, rfl⟩)
        simpa [hy] using this
      rw [List.filter_cons_of_neg (by simpa using hy), hkeep, List.map_cons, List.sum_cons]
      omega
    · have h' : ys.find? (·.1 = k) = some x := by simpa [hy] using h
      rw [List.filter_cons_of_pos (by simpa using hy), List.map_cons, List.sum_cons, sum_map_filter_key f hn.2 h',
        List.map_cons, List.sum_cons]
      omega

theorem map_setFirst {α β : Type} (f : α → β) {p : α → Bool} {a b : α} (hab : f a = f b) :
    ∀ {l : List α}, l.find? p = some b → (setFirst p a l).map f = l.map f
  | [], h => by simp at h
  | y :: ys, h => by
    unfold setFirst
    by_cases hy : p y
    · simp only [List.find?_cons_of_pos _ hy, Option.some.injEq] at h
      subst h
      simp [hy, hab]
    · simp only [List.find?_cons_of_neg _ hy] at h
      simp [hy, map_setFirst f hab h]

/-! ### Size reports -/

namespace TStore
variable [Block B]

@[simp] theorem newFieldStore_memSize (fieldID : Nat) : (newFieldStore fieldID : FieldStore B).memSize = emptyFieldStoreSize := by
  simp [newFieldStore, FieldStore.memSize]

theorem writeField_memSize (hw : FieldStore.WriteExact B) (ts : TStore B) (fieldID : Nat) (f : PbField)
    (ctx : WriteContext) : (ts.writeField fieldID f ctx).2 = (ts.writeField fieldID f ctx).1.memSize - ts.memSize := by
  unfold writeField
  cases hg : ts.getFStore fieldID with
  | some fs =>
    have hid : fs.fieldID = fieldID := by simpa using List.find?_some hg
    have hfind : ts.fStoreNodes.find? (·.fieldID = (fs.write f ctx).1.fieldID) = some fs := by
      simpa [FieldStore.write_fieldID, hid] using hg
    simp only [memSize, setFStore, sum_map_setFirst _ hfind, FieldStore.write_memSize hw]
    omega
  | none =>
    have hperm := ((List.perm_orderedInsert (fun a b : FieldStore B => a.fieldID ≤ b.fieldID)
      ((newFieldStore fieldID : FieldStore B).write f ctx).1 ts.fStoreNodes).map FieldStore.memSize).sum_eq
    simp only [memSize, insertFStore, hperm, List.map_cons, List.sum_cons, FieldStore.write_memSize hw,
      newFieldStore_memSize]
    omega

variable {σ : Type} (g : σ → String → FieldType → σ × Except Err Nat) (ctx : WriteContext) (now : Int)

theorem write_memSize (hw : FieldStore.WriteExact B) : ∀ (ts : TStore B) (st : σ) (fields : List PbField),
    (ts.write g ctx now st fields).2.2.1 = (ts.write g ctx now st fields).1.memSize - ts.memSize
  | ts, st, [] => by simp [write, memSize]
  | ts, st, f :: rest => by
    simp only [write]
    split
    · simp
    · dsimp only
      rw [write_memSize hw _ _ rest, writeField_memSize hw]
      omega

theorem flushSeriesTo_memSize (hf : FieldStore.FlushExact B) (ts : TStore B) (ft : Int) (seriesID : Nat) :
    (ts.flushSeriesTo ft seriesID).2.1 = ts.memSize - (ts.flushSeriesTo ft seriesID).1.memSize := by
  simp only [flushSeriesTo, memSize, List.map_map, Function.comp_def, FieldStore.flushFieldTo_exact hf]
  rw [sum_map_sub]
  omega

end TStore

namespace TagIndex

/-- The series of an index have distinct ids, as the keys of the Go map they stand for. -/
def SeriesDistinct (t : TagIndex B) : Prop := (t.seriesID2TStore.map (·.1)).Nodup

section Series
variable {t : TagIndex B}

theorem setTStore_seriesDistinct {seriesID : Nat} {ts : TStore B} (h : t.getTStoreBySeriesID seriesID = some ts)
    (hd : t.SeriesDistinct) (ts' : TStore B) : (t.setTStore seriesID ts').SeriesDistinct := by
  obtain ⟨x, hx, rfl⟩ := Option.map_eq_some'.mp h
  have hid : x.1 = seriesID := by simpa using List.find?_some hx
  unfold SeriesDistinct
  rwa [setTStore, map_setFirst (fun y : Nat × TStore B => y.1) hid.symm hx]

theorem removeTStores_sublist : ∀ (ids : List Nat) (t : TagIndex B),
    (t.removeTStores ids).1.seriesID2TStore.Sublist t.seriesID2TStore
  | [], _ => List.Sublist.refl _
  | seriesID :: rest, t => by
    unfold removeTStores
    split
    · exact removeTStores_sublist rest t
    · exact (removeTStores_sublist rest _).trans (List.filter_sublist _)

end Series

variable [Block B] {t : TagIndex B}

theorem getOrCreateTStore_memSize {tags : List (String × String)} {now : Int} {r : TagIndex B × Nat × TStore B × Int}
    (h : t.getOrCreateTStore tags now = .ok r) : r.1.memSize = t.memSize + r.2.2.2 := by
  unfold getOrCreateTStore at h
  split at h
  · cases h; simp
  · split at h
    · cases h
    · cases h; simp [memSize]; omega

theorem getOrCreateTStore_seriesDistinct {tags : List (String × String)} {now : Int}
    {r : TagIndex B × Nat × TStore B × Int} (hf : t.IdsFresh) (hd : t.SeriesDistinct)
    (h : t.getOrCreateTStore tags now = .ok r) : r.1.SeriesDistinct := by
  rcases getOrCreateTStore_ok h with ⟨h₁, -⟩ | ⟨-, -, hseries, -, hnext, -, -⟩
  · exact h₁ ▸ hd
  · unfold SeriesDistinct
    rw [hseries, List.map_append, List.map_singleton, ← List.concat_eq_append]
    refine hd.concat fun hmem => ?_
    obtain ⟨x, hx, hx1⟩ := List.mem_map.mp hmem
    have := hf x hx
    omega

theorem setTStore_memSize {seriesID : Nat} {ts : TStore B} (h : t.getTStoreBySeriesID seriesID = some ts)
    (ts' : TStore B) : (t.setTStore seriesID ts').memSize = t.memSize - ts.memSize + ts'.memSize := by
  obtain ⟨x, hx, rfl⟩ := Option.map_eq_some'.mp h
  have hid : x.1 = seriesID := by simpa using List.find?_some hx
  simp only [memSize, setTStore, sum_map_setFirst (fun y : Nat × TStore B => y.2.memSize) hx]
  omega

theorem removeTStores_memSize : ∀ (ids : List Nat) (t : TagIndex B), t.SeriesDistinct →
    (t.removeTStores ids).1.memSize = t.memSize - ((t.removeTStores ids).2.map TStore.memSize).sum
  | [], _, _ => by simp [removeTStores]
  | seriesID :: rest, t, hd => by
    unfold removeTStores
    split
    · exact removeTStores_memSize rest t hd
    · rename_i ts hts
      obtain ⟨x, hx, rfl⟩ := Option.map_eq_some'.mp hts
      have hd' : (t.removeSeries seriesID).SeriesDistinct :=
        hd.sublist ((List.filter_sublist _).map _)
      have hrm : (t.removeSeries seriesID).memSize = t.memSize - x.2.memSize := by
        simp only [memSize, removeSeries, sum_map_filter_key (·.2.memSize) hd hx]
        omega
      simp only [removeTStores_memSize rest _ hd', hrm, List.map_cons, List.sum_cons]
      omega

theorem flushVersionDataTo_memSize (hf : FieldStore.FlushExact B) (t : TagIndex B) (ft : Int) :
    (t.flushVersionDataTo ft).2.1 = t.memSize - (t.flushVersionDataTo ft).1.memSize := by
  simp only [flushVersionDataTo, memSize, List.map_map, Function.comp_def, TStore.flushSeriesTo_memSize hf]
  rw [sum_map_sub]
  omega

end TagIndex

namespace MStore

@[simp] theorem getFieldIDOrGenerate_size (gen : IDGenerator) (ms : MStore B) (name : String) (type : FieldType) :
    (ms.getFieldIDOrGenerate gen name type).1.size = ms.size := by
  unfold getFieldIDOrGenerate; split <;> (try split) <;> (try split) <;> (try split) <;> rfl

variable [Block B]

/-- What the counter needs of a metric store: it is the mutable index's `MemSize()` as an int32, and the
    index's series have ids its counter gave, each once. -/
structure SizeInv (ms : MStore B) : Prop where
  size : ms.size = toInt32 ms.mutable.memSize
  idsFresh : ms.mutable.IdsFresh
  distinct : ms.mutable.SeriesDistinct

/-- What `MemSize()` is meant to be: the base size, the mutable index's size, and the immutable index's
    when a reader sees one. -/
def indexesMemSize (ms : MStore B) : Int :=
  emptyMStoreSize + ms.mutable.memSize + (ms.atomicGetImmutable.map TagIndex.memSize).getD 0

variable {ms : MStore B}

theorem newMetricStore_sizeInv (metricID : Nat) (now : Int) : (newMetricStore metricID now : MStore B).SizeInv :=
  ⟨rfl, fun _ hx => by simp [newMetricStore, newTagIndex] at hx, by simp [newMetricStore, newTagIndex, TagIndex.SeriesDistinct]⟩

theorem getOrCreateTStore_sizeInv {tags : List (String × String)} {now : Int} {ms₁ : MStore B} {seriesID : Nat}
    {ts : TStore B} {c : Int} (h : ms.getOrCreateTStore tags now = .ok (ms₁, seriesID, ts, c)) (hi : ms.SizeInv) :
    ms₁.SizeInv ∧ ms₁.mutable.memSize = ms.mutable.memSize + c ∧ ms₁.mutable.getTStoreBySeriesID seriesID = some ts ∧
      ms₁.fieldsMetas = ms.fieldsMetas ∧ ms₁.immutable = ms.immutable := by
  unfold getOrCreateTStore at h
  split at h
  · cases h
    exact ⟨hi, by simp, TagIndex.getTStoreBySeriesID_of_getTStore ‹_›, rfl, rfl⟩
  · split at h
    · cases h
    · rename_i r hr
      cases h
      obtain ⟨hget, hfresh⟩ := TagIndex.getOrCreateTStore_get hi.idsFresh hr
      have hmem := TagIndex.getOrCreateTStore_memSize hr
      exact ⟨⟨by simp [hmem, hi.size], hfresh, TagIndex.getOrCreateTStore_seriesDistinct hi.idsFresh hi.distinct hr⟩,
        hmem, hget, rfl, rfl⟩

theorem write_size (hw : FieldStore.WriteExact B) (gen : IDGenerator) (metric : PbMetric) (ctx : WriteContext)
    (now : Int) (hi : ms.SizeInv) :
    (ms.write gen metric ctx now).1.SizeInv ∧
      (ms.write gen metric ctx now).1.mutable.memSize = ms.mutable.memSize + (ms.write gen metric ctx now).2.1 ∧
      (ms.write gen metric ctx now).1.immutable = ms.immutable := by
  unfold write
  split
  · exact ⟨hi, by simp, rfl⟩
  split
  · exact ⟨hi, by simp, rfl⟩
  · rename_i ms₁ seriesID ts c hgot
    obtain ⟨hi₁, hc, hts, -, himm⟩ := getOrCreateTStore_sizeInv hgot hi
    -- the field-id getter keeps the index, the counter and the immutable cell
    have hst : let m := (ts.write (fun m : MStore B => m.getFieldIDOrGenerate gen) ctx now ms₁ metric.fields).2.1
        m.mutable = ms₁.mutable ∧ m.size = ms₁.size ∧ m.immutable = ms₁.immutable :=
      TStore.write_state (P := fun m : MStore B => m.mutable = ms₁.mutable ∧ m.size = ms₁.size ∧ m.immutable = ms₁.immutable)
        (fun _ _ _ h => by simpa using h) metric.fields ts ms₁ ⟨rfl, rfl, rfl⟩
    have hw' := TStore.write_memSize (fun m : MStore B => m.getFieldIDOrGenerate gen) ctx now hw ts ms₁ metric.fields
    dsimp only at hst ⊢
    generalize TStore.write (fun m => getFieldIDOrGenerate gen m) ctx now ts ms₁ metric.fields = w at hst hw' ⊢
    obtain ⟨ts', m, written, err⟩ := w
    obtain ⟨hm, hs, hmi⟩ := hst
    dsimp only at hm hs hmi hw' ⊢
    have hmem : (ms₁.mutable.setTStore seriesID ts').memSize = ms₁.mutable.memSize + written := by
      rw [TagIndex.setTStore_memSize hts]; omega
    have hsize : toInt32 (m.size + toInt32 written) = toInt32 (ms₁.mutable.memSize + written) := by
      rw [hs, hi₁.size]; simp
    have hfresh : (ms₁.mutable.setTStore seriesID ts').IdsFresh := hi₁.idsFresh.setTStore
    have hdist := TagIndex.setTStore_seriesDistinct hts hi₁.distinct ts'
    have hgrow : (ms₁.mutable.setTStore seriesID ts').memSize = ms.mutable.memSize + (written + c) := by omega
    rw [hm, hmi, himm]
    split
    · exact ⟨⟨hsize.trans (by rw [← hmem]; rfl), hfresh.updateIndexTimeRange _, hdist⟩, hgrow, rfl⟩
    · exact ⟨⟨hsize.trans (by rw [← hmem]), hfresh, hdist⟩, hgrow, rfl⟩

theorem write_sizeInv (hw : FieldStore.WriteExact B) (gen : IDGenerator) (metric : PbMetric) (ctx : WriteContext)
    (now : Int) (hi : ms.SizeInv) : (ms.write gen metric ctx now).1.SizeInv :=
  (write_size hw gen metric ctx now hi).1

theorem evict_sizeInv (now d : Int) (hi : ms.SizeInv) : (ms.evict now d).1.SizeInv := by
  have hsub := TagIndex.removeTStores_sublist
    (ms.doubleCheckEvictList (ms.evictList now d) now d) ms.mutable
  refine ⟨?_, (TagIndex.removeTStores_shrinks _ _).idsFresh hi.idsFresh, hi.distinct.sublist (hsub.map _)⟩
  simp only [evict, TagIndex.removeTStores_memSize _ _ hi.distinct, hi.size, toInt32_toInt32_sub, toInt32_sub_toInt32]

theorem resetVersion_sizeInv (now : Int) (hi : ms.SizeInv) : (ms.resetVersion now).1.SizeInv := by
  unfold resetVersion
  split
  · exact hi
  · exact ⟨rfl, fun _ hx => by simp [newTagIndex] at hx, by simp [newTagIndex, TagIndex.SeriesDistinct]⟩

theorem flushMetricsDataTo_size (hf : FieldStore.FlushExact B) (fl : DataFlusher) (history : List FlushCall)
    (ft : Int) (hi : ms.SizeInv) :
    (ms.flushMetricsDataTo fl history ft).1.size = toInt32 ((ms.flushMetricsDataTo fl history ft).1.mutable.memSize -
      (ms.atomicGetImmutable.map fun t => (t.flushVersionDataTo ft).2.1).getD 0) ∧
    (ms.flushMetricsDataTo fl history ft).1.mutable.IdsFresh ∧
    (ms.flushMetricsDataTo fl history ft).1.mutable.SeriesDistinct := by
  refine ⟨?_, hi.idsFresh.flushVersionDataTo ft, ?_⟩
  · have hm := TagIndex.flushVersionDataTo_memSize hf ms.mutable ft
    cases h : ms.atomicGetImmutable <;>
      simp only [flushMetricsDataTo, h, hi.size, flushMetricsDataTo_mutable, Option.map_none', Option.map_some',
        Option.getD_none, Option.getD_some, toInt32_sub_toInt32, toInt32_toInt32_sub, toInt32_eq_iff] <;> omega
  · simp only [flushMetricsDataTo_mutable, TagIndex.SeriesDistinct, TagIndex.flushVersionDataTo_series, List.map_map]
    exact hi.distinct

/-! ### Runs -/

/-- The calls run one after another, with every `FlushMetricsDataTo` finding no immutable index a reader
    sees. -/
def FlushesAlone : MStore B → List Call → Prop
  | _, [] => True
  | ms, c :: cs => (∀ fl history ft, c = .flushMetricsDataTo fl history ft → ms.atomicGetImmutable = none) ∧
      FlushesAlone (ms.apply c) cs

theorem apply_sizeInv (hw : FieldStore.WriteExact B) (hf : FieldStore.FlushExact B) (hi : ms.SizeInv) :
    ∀ c : Call, (∀ fl history ft, c = .flushMetricsDataTo fl history ft → ms.atomicGetImmutable = none) →
      (ms.apply c).SizeInv
  | .write gen metric ctx now, _ => write_sizeInv hw gen metric ctx now hi
  | .evict now d, _ => evict_sizeInv now d hi
  | .resetVersion now, _ => resetVersion_sizeInv now hi
  | .flushMetricsDataTo fl history ft, h => by
    obtain ⟨hs, hfresh, hdist⟩ := flushMetricsDataTo_size hf fl history ft hi
    exact ⟨by simpa [h fl history ft rfl] using hs, hfresh, hdist⟩

theorem memSize_of_sizeInv (hi : ms.SizeInv) :
    ms.memSize = emptyMStoreSize + toInt32 ms.mutable.memSize + (ms.atomicGetImmutable.map TagIndex.memSize).getD 0 := by
  simp only [memSize, hi.size]
  cases ms.atomicGetImmutable <;> rfl

theorem foldl_apply_sizeInv (hw : FieldStore.WriteExact B) (hf : FieldStore.FlushExact B) :
    ∀ (calls : List Call) (ms : MStore B), ms.SizeInv → FlushesAlone ms calls → (calls.foldl apply ms).SizeInv
  | [], _, hi, _ => hi
  | c :: cs, _, hi, ⟨hc, hcs⟩ => foldl_apply_sizeInv hw hf cs _ (apply_sizeInv hw hf hi c hc) hcs

/-- Over runs whose flushes meet no immutable index, the counter is the mutable index's `MemSize()`. -/
theorem run_sizeInv (hw : FieldStore.WriteExact B) (hf : FieldStore.FlushExact B) (metricID : Nat) (now : Int)
    (calls : List Call) (h : FlushesAlone (newMetricStore metricID now : MStore B) calls) :
    (calls.foldl apply (newMetricStore metricID now : MStore B)).SizeInv :=
  foldl_apply_sizeInv hw hf calls _ (newMetricStore_sizeInv metricID now) h

end MStore

namespace Sample

/-- The metric store of `cpu` after a point of family 100 at clock `1` and `ResetMetricStore` at `2`. -/
def resetStore : MStore Nat :=
  ((runOps config (newMemoryDatabase config) [.write (point "cpu" 100) 1, .resetMetricStore "cpu" 2]).getMStore
    config "cpu").getD (newMetricStore 0 0)

/-- `FlushMetricsDataTo` subtracts the immutable index's flushed bytes from the mutable index's counter. -/
theorem flushMetricsDataTo_subtracts_immutable_flush :
    resetStore.memSize = resetStore.indexesMemSize ∧
      (resetStore.mutable.flushVersionDataTo 100).2.1 =
        resetStore.mutable.memSize - (resetStore.mutable.flushVersionDataTo 100).1.memSize ∧
      (resetStore.atomicGetImmutable.map fun t => (t.flushVersionDataTo 100).2.1) =
        resetStore.atomicGetImmutable.map (fun t => t.memSize - (t.flushVersionDataTo 100).1.memSize) ∧
      (resetStore.atomicGetImmutable.map fun t => (t.flushVersionDataTo 100).2.1) = some 8 ∧
      (resetStore.flushMetricsDataTo okFlusher [] 100).2.2.2 = none ∧
      (resetStore.flushMetricsDataTo okFlusher [] 100).1.memSize =
        (resetStore.flushMetricsDataTo okFlusher [] 100).1.indexesMemSize - 8 := by
  decide

theorem countingBlock_writeExact : FieldStore.WriteExact Nat := fun s _ _ => by
  show (8 : Int) = 8 * ((s.block + 1 : Nat) : Int) - 8 * (s.block : Int)
  omega

theorem countingBlock_flushExact : FieldStore.FlushExact Nat := fun _ => rfl

/-- A point of `cpu` written, an evict pass and a flush of its family, with no reset between. -/
def writeEvictFlush : List MStore.Call :=
  [.write config.generator (point "cpu" 100) ⟨1, 100, 0, 10⟩ 1, .evict 200 100, .flushMetricsDataTo okFlusher [] 100]

theorem run_sizeInv_writeEvictFlush : MStore.FlushesAlone (newMetricStore 1 1 : MStore Nat) writeEvictFlush ∧
    (writeEvictFlush.foldl MStore.apply (newMetricStore 1 1 : MStore Nat)).SizeInv :=
  have h : MStore.FlushesAlone (newMetricStore 1 1 : MStore Nat) writeEvictFlush := by
    simp only [writeEvictFlush, MStore.FlushesAlone]
    exact ⟨fun _ _ _ h => (by cases h), fun _ _ _ h => (by cases h), fun _ _ _ _ => rfl, trivial⟩
  ⟨h, MStore.run_sizeInv countingBlock_writeExact countingBlock_flushExact 1 1 writeEvictFlush h⟩

end Sample

end Lindb.Memdb

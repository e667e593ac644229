import Lindb.Concurrent.Fields
import Lindb.Concurrent.Ids
import Lindb.Concurrent.Serial

/-! `Write` calls and limitation updates with no evictor pass (§4.4, §4.5): every step keeps what was
    found (`Keeps`), so every `Write` that returns nil leaves its `Sum` points where a reader finds them. -/

namespace Lindb.Memdb
namespace Concurrent

variable {B : Type}

/-! ### Steps that keep what was found -/

/-- What a step keeps of a metric store: its tag sets, each series with its segments, the ids its metas
    record, and its immutable index. -/
structure StoreKeeps (ms ms' : MStore B) : Prop where
  tagsIDs : ∀ x ∈ ms.mutable.tagsIDs, x ∈ ms'.mutable.tagsIDs
  series : ∀ seriesID ts, ms.mutable.getTStoreBySeriesID seriesID = some ts →
    ∃ ts', ms'.mutable.getTStoreBySeriesID seriesID = some ts' ∧ ts.keys ⊆ ts'.keys
  metas : ∀ name fm, getFromName ms.fieldsMetas name = some fm → getFromName ms'.fieldsMetas name = some fm
  immutable : ms'.immutable = ms.immutable

namespace StoreKeeps
variable {ms ms' : MStore B}

theorem refl (ms : MStore B) : StoreKeeps ms ms := ⟨fun _ h => h, fun _ ts h => ⟨ts, h, fun _ h => h⟩, fun _ _ h => h, rfl⟩

theorem of_eq (hm : ms'.mutable = ms.mutable) (hf : ms'.fieldsMetas = ms.fieldsMetas) (hi : ms'.immutable = ms.immutable) :
    StoreKeeps ms ms' := by
  obtain ⟨tagsIDs, series, metas, immutable⟩ := refl ms
  exact ⟨hm ▸ tagsIDs, hm ▸ series, hf ▸ metas, hi⟩

theorem mutableSegments_subset (h : StoreKeeps ms ms') (hash : UInt64) : ms.mutable.segments hash ⊆ ms'.mutable.segments hash := by
  intro k hk
  obtain ⟨rfl, seriesID, ts, hx, hts, hkey⟩ := TagIndex.mem_segments.mp hk
  obtain ⟨ts', hts', hsub⟩ := h.series seriesID ts hts
  exact TagIndex.mem_segments.mpr ⟨rfl, seriesID, ts', h.tagsIDs _ hx, hts', hsub hkey⟩

theorem segments_subset (h : StoreKeeps ms ms') (hash : UInt64) : ms.segments hash ⊆ ms'.segments hash := by
  intro k hk
  have himm : ms'.atomicGetImmutable = ms.atomicGetImmutable := by simp only [MStore.atomicGetImmutable, h.immutable]
  rcases MStore.mem_segments.mp hk with hk | hk
  · exact MStore.mem_segments.mpr (.inl (h.mutableSegments_subset hash hk))
  · exact MStore.mem_segments.mpr (.inr (himm ▸ hk))

end StoreKeeps

/-- What a step keeps of the shared state: each hash finds the address it found, and the store there
    keeps what `StoreKeeps` keeps. -/
structure Keeps (cfg : Config) (s s' : Shared B) : Prop where
  getAddr : ∀ hash a, s.getAddr cfg hash = some a → s'.getAddr cfg hash = some a
  heap : ∀ (a : Nat) (ms : MStore B), s.heap[a]? = some ms → ∃ ms', s'.heap[a]? = some ms' ∧ StoreKeeps ms ms'

namespace Keeps
variable {cfg : Config} {s s' : Shared B}

theorem of_eq (hm : s'.mStoresList = s.mStoresList) (hh : s'.heap = s.heap) : Keeps cfg s s' :=
  ⟨fun _ _ h => by rwa [Shared.getAddr, hm], fun _ ms h => ⟨ms, hh ▸ h, .refl ms⟩⟩

theorem refl (s : Shared B) : Keeps cfg s s := of_eq rfl rfl

theorem setStore {a : Nat} {ms ms' : MStore B} (hms : s.heap[a]? = some ms) (hk : StoreKeeps ms ms') :
    Keeps cfg s (s.setStore a ms') := by
  refine ⟨fun _ _ h => h, fun b msb hb => ?_⟩
  by_cases hab : a = b
  · subst hab
    cases hms.symm.trans hb
    exact ⟨ms', Shared.setStore_heap_self _ (List.getElem?_eq_some_iff.mp hms).1, hk⟩
  · exact ⟨msb, by rwa [Shared.setStore_heap, List.getElem?_set_ne hab], .refl msb⟩

theorem setTStore {a seriesID : Nat} {ts' : TStore B}
    (hk : ∀ ms ts, s.heap[a]? = some ms → ms.mutable.getTStoreBySeriesID seriesID = some ts → ts.keys ⊆ ts'.keys) :
    Keeps cfg s (s.setTStore a seriesID ts') := by
  unfold Shared.setTStore
  split
  · rename_i ms hms
    split
    · rename_i ts hts
      refine setStore hms ⟨fun x hx => hx, fun seriesID₀ ts₀ h₀ => ?_, fun _ _ h => h, rfl⟩
      by_cases hid : seriesID₀ = seriesID
      · subst hid
        cases hts.symm.trans h₀
        exact ⟨ts', TagIndex.getTStoreBySeriesID_setTStore_self (by simp [hts]), hk ms ts hms hts⟩
      · exact ⟨ts₀, by rwa [TagIndex.getTStoreBySeriesID_setTStore_of_ne hid], fun _ h => h⟩
    · exact of_eq rfl rfl
  · exact refl s

section Block
variable [Block B]

theorem createMStore (hok : SharedOk cfg s) {name : String} {now : Int} (hnone : s.getAddr cfg (cfg.hash name) = none) :
    Keeps cfg s (s.createMStore cfg name now) := by
  have hlen : getBucketIndex cfg (cfg.hash name) < s.mStoresList.length := hok.length ▸ getBucketIndex_lt cfg _
  refine ⟨fun hash a h => ?_, fun a ms h => ⟨ms, ?_, .refl ms⟩⟩
  · rw [Shared.getAddr_of_add hlen hnone rfl hash, if_neg fun he => by rw [he, h] at hnone; cases hnone]
    exact h
  · rw [SharedOk.createMStore_heap_of_lt (List.getElem?_eq_some_iff.mp h).1]
    exact h

end Block

theorem segments_subset (hok : SharedOk cfg s) (hok' : SharedOk cfg s') (hk : Keeps cfg s s') :
    s.toMemDB.segments ⊆ s'.toMemDB.segments :=
  hok.segments_subset hok' fun hash a ms ha hms _ =>
    let ⟨ms', hms', hkm⟩ := hk.heap a ms hms
    ⟨hk.getAddr hash a ha, ms', hms', hkm.segments_subset hash⟩

end Keeps

theorem Shared.getTStore_of_index {s : Shared B} {a seriesID : Nat} {ms : MStore B} {ts : TStore B}
    (hms : s.heap[a]? = some ms) (hts : ms.mutable.getTStoreBySeriesID seriesID = some ts) : s.getTStore a seriesID = some ts := by
  simp [Shared.getTStore, hms, hts]

theorem StoreKeeps.append_meta {ms : MStore B} {fm : FieldMeta} :
    StoreKeeps ms { ms with fieldsMetas := ms.fieldsMetas ++ [fm] } := by
  refine ⟨fun _ h => h, fun _ ts h => ⟨ts, h, fun _ h => h⟩, fun name fm' h => ?_, rfl⟩
  simp only [getFromName, List.find?_append] at h ⊢
  rw [h]
  rfl

section Block
variable [Block B] {cfg : Config} {s s' : Shared B}

theorem stepWriter_keeps (hok : SharedOk cfg s) {metric : PbMetric} {now : Int} {pc pc' : WriterPC}
    (h : stepWriter cfg metric now s pc = some (s', pc')) : Keeps cfg s s' := by
  cases pc with
  | start | isFull a | getTStore a =>
    simp only [stepWriter, Option.some.injEq, Option.map_eq_some', Prod.mk.injEq] at h
    first | obtain ⟨rfl, -⟩ := h | obtain ⟨-, -, rfl, -⟩ := h
    exact .refl _
  | create =>
    simp only [stepWriter] at h
    split at h <;> simp only [Option.some.injEq, Prod.mk.injEq] at h <;> obtain ⟨rfl, -⟩ := h
    · exact .refl _
    · exact .createMStore hok ‹_›
  | createTStore a =>
    simp only [stepWriter, Option.map_eq_some'] at h
    obtain ⟨ms, hms, h⟩ := h
    split at h <;> simp only [Prod.mk.injEq] at h <;> obtain ⟨rfl, -⟩ := h
    · exact .refl _
    · have hg := TagIndex.getOrCreateTStore_grows ‹_›
      exact .setStore hms ⟨hg.tagsIDs, fun _ ts hts => ⟨ts, hg.getTStore hts, fun _ h => h⟩, fun _ _ h => h, rfl⟩
  | nextField a seriesID fields written createdSize =>
    cases fields with
    | nil =>
      simp only [stepWriter, Option.map_eq_some', Prod.mk.injEq] at h
      obtain ⟨ts, hts, rfl, -⟩ := h
      refine .setTStore fun ms ts₀ hms h₀ => ?_
      cases (Shared.getTStore_of_index hms h₀).symm.trans hts
      exact fun _ h => h
    | cons f fields =>
      simp only [stepWriter, Option.map_eq_some', Prod.mk.injEq] at h
      obtain ⟨ms, -, rfl, -⟩ := h
      exact .refl _
  | generateField a seriesID f fields written createdSize =>
    simp only [stepWriter, Option.map_eq_some'] at h
    obtain ⟨ms, hms, h⟩ := h
    split at h
    · simp only [Prod.mk.injEq] at h
      obtain ⟨rfl, -⟩ := h
      exact .refl _
    · split at h <;> simp only [Prod.mk.injEq] at h <;> obtain ⟨rfl, -⟩ := h
      · exact .refl _
      · exact .setStore hms .append_meta
  | writeField a seriesID fieldID f fields written createdSize =>
    simp only [stepWriter] at h
    split at h
    · rename_i ms ts hms hts
      simp only [Option.some.injEq, Prod.mk.injEq] at h
      obtain ⟨rfl, -⟩ := h
      refine .setTStore fun ms₀ ts₀ hms₀ h₀ => ?_
      cases (Shared.getTStore_of_index hms₀ h₀).symm.trans hts
      exact TStore.keys_subset_writeField
    · cases h
  | updateIndexTimeRange a written createdSize | addSize a written createdSize _ =>
    simp only [stepWriter, Option.map_eq_some', Prod.mk.injEq] at h
    obtain ⟨ms, hms, rfl, -⟩ := h
    exact .setStore hms ⟨fun _ h => h, fun _ ts h => ⟨ts, h, fun _ h => h⟩, fun _ _ h => h, rfl⟩
  | finish writtenSize err =>
    simp only [stepWriter, Option.some.injEq, Prod.mk.injEq] at h
    obtain ⟨rfl, -⟩ := h
    split
    · obtain ⟨h₁, -, h₃⟩ := Shared.addFamilyTime_cases (s := s) (cfg.intervalCalc metric.timestamp).1
      exact .of_eq h₁ h₃
    · exact .of_eq rfl rfl
  | done => cases h

end Block

theorem stepLimiter_keeps {cfg : Config} {s s' : Shared B} {pc pc' : LimiterPC} (h : stepLimiter cfg s pc = some (s', pc')) :
    Keeps cfg s s' := by
  cases pc with
  | next limitations =>
    cases limitations <;> simp only [stepLimiter, Option.some.injEq, Prod.mk.injEq] at h <;> obtain ⟨rfl, -⟩ := h <;>
      exact .refl _
  | set addr limit limitations =>
    simp only [stepLimiter, Option.map_eq_some', Prod.mk.injEq] at h
    obtain ⟨ms, hms, rfl, -⟩ := h
    exact .setStore hms (.of_eq rfl rfl rfl)
  | done => cases h

/-! ### What a writer has stored -/

/-- The writer's series at `addr`, under the metric's tags, holds each `Sum` field of `fields` in the
    point's family. -/
def SeriesHolds (cfg : Config) (s : Shared B) (metric : PbMetric) (addr seriesID : Nat) (fields : List PbField) : Prop :=
  s.getAddr cfg (cfg.hash metric.name) = some addr ∧ ∃ ms, s.heap[addr]? = some ms ∧
    (metric.tags, seriesID) ∈ ms.mutable.tagsIDs ∧ ∃ ts, ms.mutable.getTStoreBySeriesID seriesID = some ts ∧
      ∀ f ∈ fields, ∀ v, f.field = .sum v → ∃ fm, getFromName ms.fieldsMetas f.name = some fm ∧
        (fm.id, (cfg.intervalCalc metric.timestamp).1) ∈ ts.keys

/-- Where a writer is, and what it has stored so far: the address its hash found, the series it writes
    with the fields written, and once the fields are done, the whole point. -/
def WriterOk (cfg : Config) (s : Shared B) (metric : PbMetric) : WriterPC → Prop
  | .start | .create => True
  | .isFull addr | .getTStore addr | .createTStore addr => s.getAddr cfg (cfg.hash metric.name) = some addr
  | .nextField addr seriesID fields _ _ =>
    ∃ done, metric.fields = done ++ fields ∧ SeriesHolds cfg s metric addr seriesID done
  | .generateField addr seriesID f fields _ _ =>
    ∃ done, metric.fields = done ++ f :: fields ∧ SeriesHolds cfg s metric addr seriesID done
  | .writeField addr seriesID fieldID f fields _ _ =>
    ∃ done, metric.fields = done ++ f :: fields ∧ SeriesHolds cfg s metric addr seriesID done ∧
      ∃ ms fm, s.heap[addr]? = some ms ∧ getFromName ms.fieldsMetas f.name = some fm ∧ fm.id = fieldID
  | .updateIndexTimeRange addr _ _ | .addSize addr _ _ none =>
    ∃ seriesID, SeriesHolds cfg s metric addr seriesID metric.fields
  | .finish _ none | .done none => ∃ addr seriesID, SeriesHolds cfg s metric addr seriesID metric.fields
  | _ => True

section Holds
variable {cfg : Config} {s s' : Shared B} {metric : PbMetric}

theorem SeriesHolds.keeps {addr seriesID : Nat} {fields : List PbField} (h : SeriesHolds cfg s metric addr seriesID fields)
    (hk : Keeps cfg s s') : SeriesHolds cfg s' metric addr seriesID fields := by
  obtain ⟨haddr, ms, hms, htags, ts, hts, hf⟩ := h
  obtain ⟨ms', hms', hkm⟩ := hk.heap addr ms hms
  obtain ⟨ts', hts', hkeys⟩ := hkm.series seriesID ts hts
  refine ⟨hk.getAddr _ _ haddr, ms', hms', hkm.tagsIDs _ htags, ts', hts', fun f hfm v hv => ?_⟩
  obtain ⟨fm, hfm', hkey⟩ := hf f hfm v hv
  exact ⟨fm, hkm.metas _ _ hfm', hkeys hkey⟩

theorem WriterOk.keeps {pc : WriterPC} (h : WriterOk cfg s metric pc) (hk : Keeps cfg s s') : WriterOk cfg s' metric pc := by
  cases pc with
  | start | create => trivial
  | isFull a | getTStore a | createTStore a => exact hk.getAddr _ _ h
  | nextField a seriesID fields _ _ | generateField a seriesID f fields _ _ =>
    obtain ⟨done, hd, hs⟩ := h
    exact ⟨done, hd, hs.keeps hk⟩
  | writeField a seriesID fieldID f fields _ _ =>
    obtain ⟨done, hd, hs, ms, fm, hms, hfm, hid⟩ := h
    obtain ⟨ms', hms', hkm⟩ := hk.heap a ms hms
    exact ⟨done, hd, hs.keeps hk, ms', fm, hms', hkm.metas _ _ hfm, hid⟩
  | updateIndexTimeRange a _ _ =>
    obtain ⟨seriesID, hs⟩ := h
    exact ⟨seriesID, hs.keeps hk⟩
  | addSize a _ _ err =>
    cases err with
    | none => obtain ⟨seriesID, hs⟩ := h; exact ⟨seriesID, hs.keeps hk⟩
    | some _ => trivial
  | finish _ err | done err =>
    cases err with
    | none => obtain ⟨a, seriesID, hs⟩ := h; exact ⟨a, seriesID, hs.keeps hk⟩
    | some _ => trivial

end Holds

theorem Shared.setTStore_of_index {s : Shared B} {a seriesID : Nat} {ms : MStore B} {ts ts' : TStore B}
    (hms : s.heap[a]? = some ms) (hts : ms.mutable.getTStoreBySeriesID seriesID = some ts) :
    s.setTStore a seriesID ts' = s.setStore a (ms.withTStore seriesID ts') := by
  simp only [Shared.setTStore, hms, hts]
  rfl

section Step
variable [Block B] {cfg : Config} {s s' : Shared B} {metric : PbMetric} {now : Int}

theorem SeriesHolds.writeField {addr seriesID : Nat} {done : List PbField} {f : PbField} {ms : MStore B} {ts : TStore B}
    {fm : FieldMeta} (hs : SeriesHolds cfg s metric addr seriesID done) (hms : s.heap[addr]? = some ms)
    (hts : ms.mutable.getTStoreBySeriesID seriesID = some ts) (hfm : getFromName ms.fieldsMetas f.name = some fm) :
    SeriesHolds cfg (s.setTStore addr seriesID (ts.writeField fm.id f (writeContext cfg metric ms)).1) metric addr seriesID
      (done ++ [f]) := by
  obtain ⟨haddr, ms₀, hms₀, htags, ts₀, hts₀, hf⟩ := hs
  cases hms₀.symm.trans hms
  cases hts₀.symm.trans hts
  rw [Shared.setTStore_of_index hms hts]
  refine ⟨haddr, _, Shared.setStore_heap_self _ (List.getElem?_eq_some_iff.mp hms).1, htags, _,
    TagIndex.getTStoreBySeriesID_setTStore_self (by simp [hts]), fun g hg v hv => ?_⟩
  rcases List.mem_append.mp hg with hg | hg
  · obtain ⟨fm', hfm', hkey⟩ := hf g hg v hv
    exact ⟨fm', hfm', TStore.keys_subset_writeField hkey⟩
  · cases List.mem_singleton.mp hg
    exact ⟨fm, hfm, TStore.mem_keys_writeField_sum hv⟩

theorem stepWriter_writerOk (hok : SharedOk cfg s) {pc pc' : WriterPC} (hw : WriterOk cfg s metric pc)
    (h : stepWriter cfg metric now s pc = some (s', pc')) : WriterOk cfg s' metric pc' := by
  have hk := stepWriter_keeps hok h
  cases pc with
  | start =>
    simp only [stepWriter, Option.some.injEq, Prod.mk.injEq] at h
    obtain ⟨rfl, rfl⟩ := h
    split
    · assumption
    · trivial
  | create =>
    simp only [stepWriter] at h
    split at h <;> simp only [Option.some.injEq, Prod.mk.injEq] at h <;> obtain ⟨rfl, rfl⟩ := h
    · assumption
    · exact (Shared.getAddr_of_add (hok.length ▸ getBucketIndex_lt cfg _) ‹_› rfl _).trans (if_pos rfl)
  | isFull a =>
    simp only [stepWriter, Option.map_eq_some', Prod.mk.injEq] at h
    obtain ⟨ms, -, rfl, rfl⟩ := h
    split
    · trivial
    · exact hw
  | getTStore a =>
    simp only [stepWriter, Option.map_eq_some', Prod.mk.injEq] at h
    obtain ⟨ms, hms, rfl, rfl⟩ := h
    split
    · rename_i hget
      exact ⟨[], rfl, hw, ms, hms, TagIndex.mem_tagsIDs_of_getTStore hget, _,
        TagIndex.getTStoreBySeriesID_of_getTStore hget, by simp⟩
    · exact hw
  | createTStore a =>
    simp only [stepWriter, Option.map_eq_some'] at h
    obtain ⟨ms, hms, h⟩ := h
    split at h <;> simp only [Prod.mk.injEq] at h <;> obtain ⟨rfl, rfl⟩ := h
    · trivial
    · rename_i hr
      have hget := (TagIndex.getOrCreateTStore_get (hok.idsFresh ms (List.getElem?_mem hms)) hr).1
      exact ⟨[], rfl, hk.getAddr _ _ hw, _, Shared.setStore_heap_self _ (List.getElem?_eq_some_iff.mp hms).1,
        TagIndex.getOrCreateTStore_mem_tagsIDs hr, _, hget, by simp⟩
  | nextField a seriesID fields written createdSize =>
    obtain ⟨done, hd, hs⟩ := hw
    cases fields with
    | nil =>
      simp only [stepWriter, Option.map_eq_some', Prod.mk.injEq] at h
      obtain ⟨ts, -, rfl, rfl⟩ := h
      exact ⟨seriesID, by rw [hd, List.append_nil]; exact hs.keeps hk⟩
    | cons f fields =>
      simp only [stepWriter, Option.map_eq_some', Prod.mk.injEq] at h
      obtain ⟨ms, hms, rfl, rfl⟩ := h
      split
      · rename_i fm hfm
        split
        · exact ⟨done, hd, hs, ms, fm, hms, hfm, rfl⟩
        · trivial
      · split
        · trivial
        · exact ⟨done, hd, hs⟩
  | generateField a seriesID f fields written createdSize =>
    obtain ⟨done, hd, hs⟩ := hw
    simp only [stepWriter, Option.map_eq_some'] at h
    obtain ⟨ms, hms, h⟩ := h
    split at h
    · rename_i fm hfm
      simp only [Prod.mk.injEq] at h
      obtain ⟨rfl, rfl⟩ := h
      exact ⟨done, hd, hs, ms, fm, hms, hfm, rfl⟩
    · rename_i hnone
      split at h <;> simp only [Prod.mk.injEq] at h <;> obtain ⟨rfl, rfl⟩ := h
      · trivial
      · exact ⟨done, hd, hs.keeps hk, _, _, Shared.setStore_heap_self _ (List.getElem?_eq_some_iff.mp hms).1,
          getFromName_append_new hnone, rfl⟩
  | writeField a seriesID fieldID f fields written createdSize =>
    obtain ⟨done, hd, hs, ms₁, fm, hms₁, hfm, rfl⟩ := hw
    simp only [stepWriter] at h
    split at h
    · rename_i ms ts hms hts
      simp only [Option.some.injEq, Prod.mk.injEq] at h
      obtain ⟨rfl, rfl⟩ := h
      cases hms₁.symm.trans hms
      obtain ⟨ms₀, hms₀, -, ts₀, hts₀, -⟩ := hs.2
      cases hms₀.symm.trans hms
      cases (Shared.getTStore_of_index hms hts₀).symm.trans hts
      exact ⟨done ++ [f], by simp [hd], hs.writeField hms hts₀ hfm⟩
    · cases h
  | updateIndexTimeRange a written createdSize =>
    simp only [stepWriter, Option.map_eq_some', Prod.mk.injEq] at h
    obtain ⟨ms, -, rfl, rfl⟩ := h
    obtain ⟨seriesID, hs⟩ := hw
    exact ⟨seriesID, hs.keeps hk⟩
  | addSize a written createdSize err =>
    simp only [stepWriter, Option.map_eq_some', Prod.mk.injEq] at h
    obtain ⟨ms, -, -, rfl⟩ := h
    cases err with
    | none => obtain ⟨seriesID, hs⟩ := hw; exact ⟨a, seriesID, hs.keeps hk⟩
    | some _ => trivial
  | finish writtenSize err =>
    simp only [stepWriter, Option.some.injEq, Prod.mk.injEq] at h
    obtain ⟨-, rfl⟩ := h
    cases err with
    | none => obtain ⟨a, seriesID, hs⟩ := hw; exact ⟨a, seriesID, hs.keeps hk⟩
    | some _ => trivial
  | done => cases h

end Step

/-! ### Interleavings without the evictor -/

/-- The event starts a pass of the evictor. -/
def Event.isEvict : Event → Bool
  | .evict _ => true
  | _ => false

/-- No pass of the evictor runs, and every writer from thread `k` on is where `WriterOk` says. -/
structure WritersOk (cfg : Config) (k : Nat) (sys : Sys B) : Prop where
  idle : sys.threads.any Thread.isEvicting = false
  writers : ∀ i, k ≤ i → ∀ metric now pc, sys.threads[i]? = some (.writer metric now pc) → WriterOk cfg sys.shared metric pc

/-- A reader finds each `Sum` field of the point under its store, tags, family and recorded id. -/
def PointVisible (cfg : Config) (md : MemDB B) (metric : PbMetric) : Prop :=
  ∃ ms, md.getMStore cfg metric.name = some ms ∧ ∀ f ∈ metric.fields, ∀ v, f.field = .sum v →
    ∃ fm, getFromName ms.fieldsMetas f.name = some fm ∧
      ⟨cfg.hash metric.name, metric.tags, fm.id, (cfg.intervalCalc metric.timestamp).1⟩ ∈ ms.segments (cfg.hash metric.name)

/-- What a thread leaves a reader: a `Write`'s point, visible. -/
def Thread.Stored (cfg : Config) (md : MemDB B) : Thread → Prop
  | .writer metric _ _ => PointVisible cfg md metric
  | _ => True

theorem SeriesHolds.pointVisible {s : Shared B} {metric : PbMetric} {addr seriesID : Nat} {cfg : Config} (hok : SharedOk cfg s)
    (h : SeriesHolds cfg s metric addr seriesID metric.fields) : PointVisible cfg s.toMemDB metric := by
  obtain ⟨haddr, ms, hms, htags, ts, hts, hf⟩ := h
  refine ⟨ms, by rw [MemDB.getMStore, hok.getMStoreByMetricHash, haddr, Option.some_bind, hms], fun f hfm v hv => ?_⟩
  obtain ⟨fm, hfm', hkey⟩ := hf f hfm v hv
  exact ⟨fm, hfm', MStore.mem_segments.mpr (.inl (TagIndex.mem_segments.mpr ⟨rfl, seriesID, ts, htags, hts, hkey⟩))⟩

theorem WritersOk.init {cfg : Config} {sys : Sys B} (hidle : sys.threads.any Thread.isEvicting = false) :
    WritersOk cfg sys.threads.length sys :=
  ⟨hidle, fun i hi _ _ _ hget => by simp [List.getElem?_eq_none hi] at hget⟩

theorem WritersOk.append {cfg : Config} {k : Nat} {sys : Sys B} {t : Thread} (h : WritersOk cfg k sys) (ht : t.isEvicting = false)
    (hw : ∀ metric now pc, t = .writer metric now pc → pc = .start) : WritersOk cfg k ⟨sys.shared, sys.threads ++ [t]⟩ := by
  refine ⟨by simp [h.idle, ht], fun i hi metric now pc hget => ?_⟩
  rcases getElem?_concat_cases hget with hget | ⟨-, rfl⟩
  · exact h.writers i hi metric now pc hget
  · cases hw metric now pc rfl
    trivial

theorem WritersOk.set {cfg : Config} {k i : Nat} {sys : Sys B} {s' : Shared B} {t' : Thread} (h : WritersOk cfg k sys)
    (hk : Keeps cfg sys.shared s') (ht : t'.isEvicting = false)
    (hw : ∀ metric now pc, t' = .writer metric now pc → k ≤ i → WriterOk cfg s' metric pc) :
    WritersOk cfg k ⟨s', sys.threads.set i t'⟩ := by
  refine ⟨List.any_eq_false.mpr fun u hu => ?_, fun j hj metric now pc hget => ?_⟩
  · rcases List.mem_or_eq_of_mem_set hu with hu | rfl
    · simpa using List.any_eq_false.mp h.idle u hu
    · simp [ht]
  · rcases getElem?_set_cases hget with ⟨rfl, rfl⟩ | ⟨-, hget⟩
    · exact hw metric now pc rfl hj
    · exact (h.writers j hj metric now pc hget).keeps hk

section Run
variable [Block B] {cfg : Config}

theorem WritersOk.apply {k : Nat} {sys sys' : Sys B} {e : Event} (hok : SharedOk cfg sys.shared) (h : WritersOk cfg k sys)
    (he : e.isEvict = false) (happ : sys.apply cfg e = some sys') : WritersOk cfg k sys' := by
  cases e with
  | write metric now =>
    simp only [Sys.apply, Option.some.injEq] at happ
    subst happ
    exact h.append rfl fun _ _ _ h => (Thread.writer.inj h).2.2.symm
  | evict now => cases he
  | limit limitations =>
    simp only [Sys.apply] at happ
    split at happ
    · cases happ
    · simp only [Option.some.injEq] at happ
      subst happ
      exact h.append rfl fun _ _ _ h => nomatch h
  | step i =>
    simp only [Sys.apply] at happ
    split at happ
    · rename_i t hti
      obtain ⟨r, hr, rfl⟩ := Option.map_eq_some'.mp happ
      cases t with
      | writer metric now pc =>
        obtain ⟨⟨s', pc'⟩, hw, rfl⟩ := Option.map_eq_some'.mp hr
        refine h.set (stepWriter_keeps hok hw) rfl fun _ _ _ heq hki => ?_
        cases heq
        exact stepWriter_writerOk hok (h.writers i hki metric now pc hti) hw
      | evictor now pc =>
        have hidle : Thread.isEvicting (.evictor now pc) = false :=
          by simpa using List.any_eq_false.mp h.idle _ (List.getElem?_mem hti)
        cases pc <;> simp [Thread.isEvicting] at hidle
        simp [stepThread, stepEvictor] at hr
      | limiter pc =>
        obtain ⟨⟨s', pc'⟩, hl, rfl⟩ := Option.map_eq_some'.mp hr
        exact h.set (stepLimiter_keeps hl) rfl fun _ _ _ heq => nomatch heq
    · cases happ

theorem WritersOk.run {k : Nat} : ∀ {sys sys' : Sys B} {es : List Event}, Reachable cfg sys → WritersOk cfg k sys →
    (∀ e ∈ es, e.isEvict = false) → Concurrent.run cfg sys es = some sys' → WritersOk cfg k sys'
  | _, _, [], _, h, _, hr => by cases hr; exact h
  | sys, _, e :: es, hreach, h, hes, hr => by
    cases happ : sys.apply cfg e with
    | none => simp [Concurrent.run, happ] at hr
    | some sys₁ =>
      simp only [Concurrent.run, happ, Option.some_bind] at hr
      exact WritersOk.run (hreach.step happ) (h.apply (SharedOk.of_reachable hreach) (hes e (List.mem_cons_self _ _)) happ)
        (fun e he => hes e (List.mem_cons_of_mem _ he)) hr

/-- With no evictor pass, every `Write` that returned nil leaves its `Sum` points where a reader finds them. -/
theorem acknowledged_writes_visible {sys sys' : Sys B} (h : Reachable cfg sys)
    (hidle : sys.threads.any Thread.isEvicting = false) {es : List Event} (hes : ∀ e ∈ es, e.isEvict = false)
    (hrun : Concurrent.run cfg sys es = some sys') :
    ∀ t ∈ sys'.threads.drop sys.threads.length, t.returned = some none → t.Stored cfg sys'.shared.toMemDB := by
  have hw := (WritersOk.init hidle).run h hes hrun
  intro t ht hret
  obtain ⟨j, hj⟩ := List.mem_iff_getElem?.mp ht
  rw [List.getElem?_drop] at hj
  cases t with
  | writer metric now pc =>
    cases pc <;> simp only [Thread.returned, Option.some.injEq, reduceCtorEq] at hret
    subst hret
    obtain ⟨addr, seriesID, hs⟩ := hw.writers _ (Nat.le_add_right _ _) metric now _ hj
    exact hs.pointVisible (SharedOk.of_reachable (h.run hrun))
  | evictor | limiter => trivial

end Run

namespace Sample
open Memdb.Sample

/-- Thread `0` and thread `1` each take a step, `rounds` times. -/
def lockstep (rounds : Nat) : List Event := (List.replicate rounds [.step 0, .step 1]).flatten

/-- Two `Write`s of `cpu`, of `host=a` and `host=b`, in lockstep; a limit for `cpu` comes in between. -/
def racingWrites (rounds : Nat) : List Event :=
  [.write (point "cpu" 100) 1, .write ⟨"cpu", 100, [("host", "b")], by decide, [⟨"f", .sum 1⟩]⟩ 1] ++ lockstep 3 ++
    [.limit [("cpu", 5)], .step 2, .step 2, .step 2] ++ lockstep rounds

theorem acknowledged_writes_visible_racing :
    ∃ sys', run config (⟨Shared.init config, []⟩ : Sys Nat) (racingWrites 9) = some sys' ∧
      sys'.threads.map Thread.returned = [some none, some none, none] ∧
      ∀ t ∈ sys'.threads.drop 0, t.returned = some none → t.Stored config sys'.shared.toMemDB :=
  let ⟨sys', hrun, hret⟩ := exists_of_run
    (p := fun sys : Sys Nat => sys.threads.map Thread.returned = [some none, some none, none]) _ (racingWrites 9) (by decide)
  ⟨sys', hrun, hret, acknowledged_writes_visible .init rfl (by decide) hrun⟩

end Sample

end Concurrent
end Lindb.Memdb

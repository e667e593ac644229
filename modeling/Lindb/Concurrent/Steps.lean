import Lindb.Concurrent.Model

/-! What one step of a thread may do to the shared state, said once for every invariant to use. -/

namespace Lindb.Memdb
namespace Concurrent

variable {B : Type}

/-! ### Metric stores and the heap -/

/-- What a step may do to a metric store it keeps. -/
structure StoreStep (ms ms' : MStore B) : Prop where
  metricID : ms'.metricID = ms.metricID
  metas : ms'.fieldsMetas = ms.fieldsMetas ∨
    ∃ fm, getFromName ms.fieldsMetas fm.name = none ∧ ms'.fieldsMetas = ms.fieldsMetas ++ [fm]
  idsFresh : ms.mutable.IdsFresh → ms'.mutable.IdsFresh

theorem StoreStep.of_eq {ms ms' : MStore B} (hid : ms'.metricID = ms.metricID) (hm : ms'.fieldsMetas = ms.fieldsMetas)
    (hf : ms.mutable.IdsFresh → ms'.mutable.IdsFresh) : StoreStep ms ms' := ⟨hid, .inl hm, hf⟩

/-- What a step may do to the heap: each store stays at its address, changed as `StoreStep` allows, and a
    store at a new address has no metas and an index of fresh ids. -/
structure HeapStep (h h' : List (MStore B)) : Prop where
  forth : ∀ (a : Nat) (ms : MStore B), h[a]? = some ms → ∃ ms', h'[a]? = some ms' ∧ StoreStep ms ms'
  fresh : ∀ (a : Nat) (ms' : MStore B), h'[a]? = some ms' → h[a]? = none →
    ms'.fieldsMetas = [] ∧ ms'.mutable.IdsFresh

namespace HeapStep

theorem refl (h : List (MStore B)) : HeapStep h h :=
  ⟨fun _ ms hms => ⟨ms, hms, .of_eq rfl rfl id⟩, fun _ _ h₁ h₂ => by simp_all⟩

theorem set {h : List (MStore B)} {a : Nat} {ms ms' : MStore B} (hms : h[a]? = some ms) (hs : StoreStep ms ms') :
    HeapStep h (h.set a ms') := by
  have ha : a < h.length := (List.getElem?_eq_some_iff.mp hms).1
  refine ⟨fun b ms₀ hb => ?_, fun b ms₀ hb hn => ?_⟩
  · by_cases hab : a = b
    · subst hab
      rw [hms, Option.some.injEq] at hb
      subst hb
      exact ⟨ms', by simp [List.getElem?_set, ha], hs⟩
    · exact ⟨ms₀, by rw [List.getElem?_set_ne hab]; exact hb, .of_eq rfl rfl id⟩
  · have : b < h.length := by simpa using (List.getElem?_eq_some_iff.mp hb).1
    simp [List.getElem?_eq_getElem this] at hn

theorem append {h : List (MStore B)} {ms : MStore B} (hm : ms.fieldsMetas = []) (hf : ms.mutable.IdsFresh) :
    HeapStep h (h ++ [ms]) := by
  refine ⟨fun b ms₀ hb => ⟨ms₀, ?_, .of_eq rfl rfl id⟩, fun b ms₀ hb hn => ?_⟩
  · rw [List.getElem?_append_left (List.getElem?_eq_some_iff.mp hb).1]; exact hb
  · rw [List.getElem?_append_right (List.getElem?_eq_none_iff.mp hn)] at hb
    cases hlt : b - h.length with
    | zero => simp_all
    | succ n => simp [hlt] at hb

end HeapStep

/-! ### The sections and accesses of the steps -/

namespace Shared

variable {s : Shared B}

@[simp] theorem setStore_mStoresList (a : Nat) (ms : MStore B) : (s.setStore a ms).mStoresList = s.mStoresList := rfl
@[simp] theorem setStore_metricID2Hash (a : Nat) (ms : MStore B) : (s.setStore a ms).metricID2Hash = s.metricID2Hash := rfl
@[simp] theorem setStore_heap (a : Nat) (ms : MStore B) : (s.setStore a ms).heap = s.heap.set a ms := rfl

theorem setTStore_cases (a seriesID : Nat) (ts : TStore B) :
    (s.setTStore a seriesID ts).mStoresList = s.mStoresList ∧ (s.setTStore a seriesID ts).metricID2Hash = s.metricID2Hash ∧
      HeapStep s.heap (s.setTStore a seriesID ts).heap := by
  unfold setTStore
  split
  · rename_i ms hms
    split
    · exact ⟨rfl, rfl, HeapStep.set hms (.of_eq rfl rfl TagIndex.IdsFresh.setTStore)⟩
    · exact ⟨rfl, rfl, HeapStep.refl _⟩
  · exact ⟨rfl, rfl, HeapStep.refl _⟩

theorem addFamilyTime_cases (ft : Int) :
    (s.addFamilyTime ft).mStoresList = s.mStoresList ∧ (s.addFamilyTime ft).metricID2Hash = s.metricID2Hash ∧
      (s.addFamilyTime ft).heap = s.heap := by
  unfold addFamilyTime; split <;> exact ⟨rfl, rfl, rfl⟩

section Block
variable [Block B] {cfg : Config}

@[simp] theorem createMStore_mStoresList (name : String) (now : Int) :
    (s.createMStore cfg name now).mStoresList =
      s.mStoresList.modify (· ++ [(cfg.hash name, s.heap.length)]) (getBucketIndex cfg (cfg.hash name)) := rfl

@[simp] theorem createMStore_metricID2Hash (name : String) (now : Int) :
    (s.createMStore cfg name now).metricID2Hash = mapStore s.metricID2Hash (cfg.generator.genMetricID name) (cfg.hash name) := rfl

@[simp] theorem createMStore_heap (name : String) (now : Int) :
    (s.createMStore cfg name now).heap = s.heap ++ [newMetricStore (cfg.generator.genMetricID name) now] := rfl

theorem evictTStores_cases {a : Nat} {ms : MStore B} (hms : s.heap[a]? = some ms) (ids : List Nat) :
    (s.evictTStores a ms ids).mStoresList = s.mStoresList ∧ (s.evictTStores a ms ids).metricID2Hash = s.metricID2Hash ∧
      HeapStep s.heap (s.evictTStores a ms ids).heap :=
  ⟨rfl, rfl, HeapStep.set hms (.of_eq rfl rfl (TagIndex.removeTStores_shrinks ids ms.mutable).idsFresh)⟩

theorem deleteMStore_cases (bucket : Nat) (hash : UInt64) (ms : MStore B) :
    (s.deleteMStore bucket hash ms).heap = s.heap ∧
      ((ms.isEmpty = true ∧ (s.deleteMStore bucket hash ms).mStoresList = s.mStoresList.modify (mapDelete · hash) bucket ∧
        (s.deleteMStore bucket hash ms).metricID2Hash = mapDelete s.metricID2Hash ms.metricID) ∨
       ((s.deleteMStore bucket hash ms).mStoresList = s.mStoresList ∧
        (s.deleteMStore bucket hash ms).metricID2Hash = s.metricID2Hash)) := by
  unfold deleteMStore
  split
  · exact ⟨rfl, .inl ⟨‹_›, rfl, rfl⟩⟩
  · exact ⟨rfl, .inr ⟨rfl, rfl⟩⟩

end Block

end Shared

/-! ### One step of each thread -/

/-- The buckets and the id map after a step that does not change them. -/
def SameMaps (s s' : Shared B) : Prop := s'.mStoresList = s.mStoresList ∧ s'.metricID2Hash = s.metricID2Hash

theorem SameMaps.refl (s : Shared B) : SameMaps s s := ⟨rfl, rfl⟩

theorem Shared.setTStore_frame (s : Shared B) (a seriesID : Nat) (ts : TStore B) :
    HeapStep s.heap (s.setTStore a seriesID ts).heap ∧ SameMaps s (s.setTStore a seriesID ts) :=
  let h := Shared.setTStore_cases (s := s) a seriesID ts
  ⟨h.2.2, h.1, h.2.1⟩

section Block
variable [Block B] {cfg : Config} {s s' : Shared B}

theorem stepWriter_cases {metric : PbMetric} {now : Int} {pc pc' : WriterPC}
    (h : stepWriter cfg metric now s pc = some (s', pc')) :
    HeapStep s.heap s'.heap ∧ (SameMaps s s' ∨
      (pc = .create ∧ s.getAddr cfg (cfg.hash metric.name) = none ∧ s' = s.createMStore cfg metric.name now)) := by
  cases pc with
  | start =>
    simp only [stepWriter, Option.some.injEq, Prod.mk.injEq] at h
    obtain ⟨rfl, -⟩ := h; exact ⟨HeapStep.refl _, .inl (SameMaps.refl _)⟩
  | create =>
    simp only [stepWriter] at h
    split at h <;> simp only [Option.some.injEq, Prod.mk.injEq] at h <;> obtain ⟨rfl, -⟩ := h
    · exact ⟨HeapStep.refl _, .inl (SameMaps.refl _)⟩
    · exact ⟨by simpa using HeapStep.append (h := s.heap) rfl fun x hx => by simp [newMetricStore, newTagIndex] at hx,
        .inr ⟨rfl, ‹_›, rfl⟩⟩
  | isFull a | getTStore a =>
    simp only [stepWriter, Option.map_eq_some', Prod.mk.injEq] at h
    obtain ⟨ms, -, rfl, -⟩ := h; exact ⟨HeapStep.refl _, .inl (SameMaps.refl _)⟩
  | createTStore a =>
    simp only [stepWriter, Option.map_eq_some'] at h
    obtain ⟨ms, hms, h⟩ := h
    split at h <;> simp only [Prod.mk.injEq] at h <;> obtain ⟨rfl, -⟩ := h
    · exact ⟨HeapStep.refl _, .inl (SameMaps.refl _)⟩
    · exact ⟨HeapStep.set hms (.of_eq rfl rfl fun hf => (TagIndex.getOrCreateTStore_get hf ‹_›).2),
        .inl (SameMaps.refl _)⟩
  | nextField a seriesID fields written createdSize =>
    cases fields with
    | nil =>
      simp only [stepWriter, Option.map_eq_some', Prod.mk.injEq] at h
      obtain ⟨ts, -, rfl, -⟩ := h
      exact (s.setTStore_frame _ _ _).imp_right .inl
    | cons f fields =>
      simp only [stepWriter, Option.map_eq_some', Prod.mk.injEq] at h
      obtain ⟨ms, -, rfl, -⟩ := h; exact ⟨HeapStep.refl _, .inl (SameMaps.refl _)⟩
  | generateField a seriesID f fields written createdSize =>
    simp only [stepWriter, Option.map_eq_some'] at h
    obtain ⟨ms, hms, h⟩ := h
    split at h
    · simp only [Prod.mk.injEq] at h
      obtain ⟨rfl, -⟩ := h; exact ⟨HeapStep.refl _, .inl (SameMaps.refl _)⟩
    · rename_i hnone
      split at h <;> simp only [Prod.mk.injEq] at h <;> obtain ⟨rfl, -⟩ := h
      · exact ⟨HeapStep.refl _, .inl (SameMaps.refl _)⟩
      · exact ⟨HeapStep.set hms ⟨rfl, .inr ⟨_, hnone, rfl⟩, id⟩, .inl (SameMaps.refl _)⟩
  | writeField a seriesID fieldID f fields written createdSize =>
    simp only [stepWriter] at h
    split at h
    · simp only [Option.some.injEq, Prod.mk.injEq] at h
      obtain ⟨rfl, -⟩ := h
      exact (s.setTStore_frame _ _ _).imp_right .inl
    · cases h
  | updateIndexTimeRange a written createdSize | addSize a written createdSize _ =>
    simp only [stepWriter, Option.map_eq_some', Prod.mk.injEq] at h
    obtain ⟨ms, hms, rfl, -⟩ := h
    exact ⟨HeapStep.set hms (.of_eq rfl rfl id), .inl (SameMaps.refl _)⟩
  | finish writtenSize err =>
    simp only [stepWriter, Option.some.injEq, Prod.mk.injEq] at h
    obtain ⟨rfl, -⟩ := h
    split
    · obtain ⟨h₁, h₂, h₃⟩ := Shared.addFamilyTime_cases (s := s) (cfg.intervalCalc metric.timestamp).1
      exact ⟨h₃ ▸ HeapStep.refl _, .inl ⟨h₁, h₂⟩⟩
    · exact ⟨HeapStep.refl _, .inl (SameMaps.refl _)⟩
  | done => cases h

/-- The bucket a pass of the evictor is at, and the entries of its copy it has not finished. -/
def EvictorPC.entries : EvictorPC → Option (Nat × List (UInt64 × Nat))
  | .firstCheck bucket stores | .doubleCheck bucket stores _ | .isEmpty bucket stores | .delete bucket stores =>
    some (bucket, stores)
  | _ => none

theorem stepEvictor_cases {now : Int} {pc pc' : EvictorPC} (h : stepEvictor cfg now s pc = some (s', pc')) :
    HeapStep s.heap s'.heap ∧
    (SameMaps s s' ∨ ∃ bucket hash addr stores ms, pc = .delete bucket ((hash, addr) :: stores) ∧
      pc' = .firstCheck bucket stores ∧ s.heap[addr]? = some ms ∧ ms.isEmpty = true ∧
      s'.mStoresList = s.mStoresList.modify (mapDelete · hash) bucket ∧
      s'.metricID2Hash = mapDelete s.metricID2Hash ms.metricID ∧ s'.heap = s.heap) ∧
    (pc'.entries = none ∨ (∃ i b, pc = .snapshot i ∧ s.mStoresList[i]? = some b ∧ pc'.entries = some (i, b)) ∨
      pc'.entries = pc.entries ∨ ∃ i x stores, pc.entries = some (i, x :: stores) ∧ pc'.entries = some (i, stores)) := by
  cases pc with
  | snapshot i =>
    simp only [stepEvictor, Option.some.injEq, Prod.mk.injEq] at h
    obtain ⟨rfl, rfl⟩ := h
    refine ⟨HeapStep.refl _, .inl (SameMaps.refl _), ?_⟩
    cases hb : s.mStoresList[i]? with
    | none => exact .inl rfl
    | some b => exact .inr (.inl ⟨i, b, rfl, hb, rfl⟩)
  | firstCheck i stores =>
    cases stores with
    | nil =>
      simp only [stepEvictor, Option.some.injEq, Prod.mk.injEq] at h
      obtain ⟨rfl, rfl⟩ := h; exact ⟨HeapStep.refl _, .inl (SameMaps.refl _), .inl rfl⟩
    | cons x stores =>
      simp only [stepEvictor, Option.map_eq_some', Prod.mk.injEq] at h
      obtain ⟨ms, -, rfl, rfl⟩ := h; exact ⟨HeapStep.refl _, .inl (SameMaps.refl _), .inr (.inr (.inl rfl))⟩
  | doubleCheck i stores evictList =>
    cases stores with
    | nil => cases h
    | cons x stores =>
      simp only [stepEvictor, Option.map_eq_some', Prod.mk.injEq] at h
      obtain ⟨ms, hms, rfl, rfl⟩ := h
      obtain ⟨h₁, h₂, h₃⟩ := Shared.evictTStores_cases hms (ms.doubleCheckEvictList evictList now cfg.tStoreExpiredDuration)
      exact ⟨h₃, .inl ⟨h₁, h₂⟩, .inr (.inr (.inl rfl))⟩
  | isEmpty i stores =>
    cases stores with
    | nil => cases h
    | cons x stores =>
      simp only [stepEvictor, Option.map_eq_some', Prod.mk.injEq] at h
      obtain ⟨ms, -, rfl, rfl⟩ := h
      refine ⟨HeapStep.refl _, .inl (SameMaps.refl _), ?_⟩
      split
      · exact .inr (.inr (.inl rfl))
      · exact .inr (.inr (.inr ⟨i, x, stores, rfl, rfl⟩))
  | delete i stores =>
    cases stores with
    | nil => cases h
    | cons x stores =>
      obtain ⟨hash, addr⟩ := x
      simp only [stepEvictor, Option.map_eq_some', Prod.mk.injEq] at h
      obtain ⟨ms, hms, rfl, rfl⟩ := h
      obtain ⟨hheap, ⟨he, h₁, h₂⟩ | ⟨h₁, h₂⟩⟩ := Shared.deleteMStore_cases (s := s) i hash ms
      · exact ⟨hheap ▸ HeapStep.refl _, .inr ⟨i, hash, addr, stores, ms, rfl, rfl, hms, he, h₁, h₂, hheap⟩,
          .inr (.inr (.inr ⟨i, _, stores, rfl, rfl⟩))⟩
      · exact ⟨hheap ▸ HeapStep.refl _, .inl ⟨h₁, h₂⟩, .inr (.inr (.inr ⟨i, _, stores, rfl, rfl⟩))⟩
  | done => cases h

end Block

theorem stepLimiter_cases {cfg : Config} {s s' : Shared B} {pc pc' : LimiterPC} (h : stepLimiter cfg s pc = some (s', pc')) :
    HeapStep s.heap s'.heap ∧ SameMaps s s' := by
  cases pc with
  | next limitations =>
    cases limitations with
    | nil => simp only [stepLimiter, Option.some.injEq, Prod.mk.injEq] at h; obtain ⟨rfl, -⟩ := h; exact ⟨HeapStep.refl _, SameMaps.refl _⟩
    | cons l limitations =>
      simp only [stepLimiter, Option.some.injEq, Prod.mk.injEq] at h; obtain ⟨rfl, -⟩ := h; exact ⟨HeapStep.refl _, SameMaps.refl _⟩
  | set addr limit limitations =>
    simp only [stepLimiter, Option.map_eq_some', Prod.mk.injEq] at h
    obtain ⟨ms, hms, rfl, -⟩ := h
    exact ⟨HeapStep.set hms (.of_eq rfl rfl id), SameMaps.refl _⟩
  | done => cases h

theorem stepThread_heapStep [Block B] {cfg : Config} {s s' : Shared B} {t t' : Thread}
    (h : stepThread cfg s t = some (s', t')) : HeapStep s.heap s'.heap := by
  cases t with
  | writer metric now pc =>
    obtain ⟨r, hr, hrr⟩ := Option.map_eq_some'.mp h; cases hrr; exact (stepWriter_cases hr).1
  | evictor now pc =>
    obtain ⟨r, hr, hrr⟩ := Option.map_eq_some'.mp h; cases hrr; exact (stepEvictor_cases hr).1
  | limiter pc =>
    obtain ⟨r, hr, hrr⟩ := Option.map_eq_some'.mp h; cases hrr; exact (stepLimiter_cases hr).1

/-! ### Events -/

section Block
variable [Block B] {cfg : Config}

theorem Sys.apply_cases {sys sys' : Sys B} {e : Event} (h : sys.apply cfg e = some sys') :
    (sys'.shared = sys.shared ∧ ∃ t, sys'.threads = sys.threads ++ [t] ∧
      (t.isEvicting = true → ∀ u ∈ sys.threads, u.isEvicting = false) ∧ (∀ m n pc, t = .writer m n pc → pc = .start) ∧
      (∀ n pc, t = .evictor n pc → pc = .snapshot 0)) ∨
    ∃ i t t', sys.threads[i]? = some t ∧ stepThread cfg sys.shared t = some (sys'.shared, t') ∧
      sys'.threads = sys.threads.set i t' := by
  cases e with
  | write metric now =>
    simp only [Sys.apply, Option.some.injEq] at h; subst h
    exact .inl ⟨rfl, _, rfl, fun h => by simp [Thread.isEvicting] at h, fun _ _ _ h => (Thread.writer.inj h).2.2.symm,
      fun _ _ h => nomatch h⟩
  | evict now =>
    simp only [Sys.apply] at h
    split at h
    · cases h
    · rename_i hno
      simp only [Option.some.injEq] at h; subst h
      exact .inl ⟨rfl, _, rfl, fun _ u hu => by simpa using fun h => hno (List.any_eq_true.mpr ⟨u, hu, h⟩),
        fun _ _ _ h => (nomatch h), fun _ _ h => (Thread.evictor.inj h).2.symm⟩
  | limit limitations =>
    simp only [Sys.apply] at h
    split at h
    · cases h
    · simp only [Option.some.injEq] at h; subst h
      exact .inl ⟨rfl, _, rfl, fun h => by simp [Thread.isEvicting] at h, fun _ _ _ h => (nomatch h),
        fun _ _ h => nomatch h⟩
  | step i =>
    simp only [Sys.apply] at h
    split at h
    · rename_i t ht
      obtain ⟨r, hr, rfl⟩ := Option.map_eq_some'.mp h
      exact .inr ⟨i, t, r.2, ht, hr, rfl⟩
    · cases h

end Block

end Concurrent
end Lindb.Memdb

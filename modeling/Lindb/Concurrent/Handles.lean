import Lindb.Concurrent.Retention

/-! What the threads hold (§4.5): in every reachable state it stays where they look, so every thread that
    has not ended can step. A section under a lock is one step: waiting on a lock is not modelled. -/

namespace Lindb.Memdb
namespace Concurrent

variable {B : Type}

/-! ### What a thread holds -/

theorem Shared.getTStore_isSome {s : Shared B} {a seriesID : Nat} : (s.getTStore a seriesID).isSome ↔
    ∃ ms, s.heap[a]? = some ms ∧
      ((ms.mutable.getTStoreBySeriesID seriesID).isSome ∨ (mapLoad s.detached (a, seriesID)).isSome) := by
  rcases hh : s.heap[a]? with _ | ms
  · simp [Shared.getTStore, hh]
  · rcases ht : ms.mutable.getTStoreBySeriesID seriesID with _ | ts <;> simp [Shared.getTStore, hh, ht]

/-- What a step keeps of what the threads hold: a store at every address that had one, and every series
    store reached through an address. -/
structure HandlesKept (s s' : Shared B) : Prop where
  heap : ∀ a : Nat, (s.heap[a]?).isSome → (s'.heap[a]?).isSome
  series : ∀ a seriesID : Nat, (s.getTStore a seriesID).isSome → (s'.getTStore a seriesID).isSome

namespace HandlesKept
variable {s s' : Shared B}

theorem of_eq (hh : s'.heap = s.heap) (hd : s'.detached = s.detached) : HandlesKept s s' := by
  refine ⟨fun a h => hh ▸ h, fun a seriesID h => ?_⟩
  unfold Shared.getTStore
  rw [hh, hd]
  exact h

theorem setStore {a : Nat} {ms ms' : MStore B} (hms : s.heap[a]? = some ms)
    (hk : ∀ seriesID, (ms.mutable.getTStoreBySeriesID seriesID).isSome →
      (ms'.mutable.getTStoreBySeriesID seriesID).isSome) :
    HandlesKept s (s.setStore a ms') := by
  have ha : a < s.heap.length := (List.getElem?_eq_some_iff.mp hms).1
  have hat : ∀ b, a ≠ b → (s.setStore a ms').heap[b]? = s.heap[b]? := fun b hne => List.getElem?_set_ne hne
  refine ⟨fun b hb => ?_, fun b seriesID hb => ?_⟩
  · rcases eq_or_ne a b with rfl | hne
    · simp [ha]
    · rwa [hat b hne]
  · obtain ⟨msb, hmsb, hsb⟩ := Shared.getTStore_isSome.mp hb
    refine Shared.getTStore_isSome.mpr ?_
    rcases eq_or_ne a b with rfl | hne
    · cases hms.symm.trans hmsb
      exact ⟨ms', List.getElem?_set_self ha, hsb.imp_left (hk seriesID)⟩
    · exact ⟨msb, (hat b hne).trans hmsb, hsb⟩

theorem setStore_of_mutable {a : Nat} {ms ms' : MStore B} (hms : s.heap[a]? = some ms) (hm : ms'.mutable = ms.mutable) :
    HandlesKept s (s.setStore a ms') :=
  setStore hms fun _ h => hm ▸ h

theorem setTStore (a seriesID : Nat) (ts : TStore B) : HandlesKept s (s.setTStore a seriesID ts) := by
  unfold Shared.setTStore
  split
  · rename_i ms hms
    split
    · refine setStore hms fun seriesID₀ h => ?_
      by_cases hid : seriesID₀ = seriesID
      · subst hid
        simp [TagIndex.getTStoreBySeriesID_setTStore_self h]
      · rwa [TagIndex.getTStoreBySeriesID_setTStore_of_ne hid]
    · refine ⟨fun b h => h, fun b seriesID₀ h => ?_⟩
      obtain ⟨msb, hmsb, hsb⟩ := Shared.getTStore_isSome.mp h
      refine Shared.getTStore_isSome.mpr ⟨msb, hmsb, hsb.imp_right fun hd => ?_⟩
      rw [mapLoad_mapStore]
      split <;> simp_all
  · exact of_eq rfl rfl

theorem and_series (hk : HandlesKept s s') {a seriesID : Nat} (h : (s.getTStore a seriesID).isSome) :
    HandlesKept s s' ∧ (s'.getTStore a seriesID).isSome :=
  ⟨hk, hk.series _ _ h⟩

theorem and_heap (hk : HandlesKept s s') {a : Nat} (h : (s.heap[a]?).isSome) : HandlesKept s s' ∧ (s'.heap[a]?).isSome :=
  ⟨hk, hk.heap _ h⟩

end HandlesKept

section Block
variable [Block B] {cfg : Config} {s s' : Shared B}

theorem HandlesKept.createMStore (name : String) (now : Int) : HandlesKept s (s.createMStore cfg name now) := by
  have hold : ∀ b, (s.heap[b]?).isSome → (s.createMStore cfg name now).heap[b]? = s.heap[b]? := fun b hb =>
    SharedOk.createMStore_heap_of_lt (by
      obtain ⟨ms, hms⟩ := Option.isSome_iff_exists.mp hb
      exact (List.getElem?_eq_some_iff.mp hms).1)
  refine ⟨fun b hb => hold b hb ▸ hb, fun b seriesID hb => ?_⟩
  obtain ⟨msb, hmsb, hsb⟩ := Shared.getTStore_isSome.mp hb
  exact Shared.getTStore_isSome.mpr ⟨msb, (hold b (by simp [hmsb])).trans hmsb, hsb⟩

theorem HandlesKept.evictTStores {a : Nat} {ms : MStore B} (hms : s.heap[a]? = some ms) (ids : List Nat) :
    HandlesKept s (s.evictTStores a ms ids) := by
  have ha : a < s.heap.length := (List.getElem?_eq_some_iff.mp hms).1
  have hat : ∀ b, a ≠ b → (s.evictTStores a ms ids).heap[b]? = s.heap[b]? := fun b hne => List.getElem?_set_ne hne
  have hdet : ∀ k, (mapLoad s.detached k).isSome → (mapLoad (s.evictTStores a ms ids).detached k).isSome :=
    fun k h => by simp only [Shared.evictTStores, mapLoad_append, Option.isSome_or, h, Bool.true_or]
  refine ⟨fun b hb => ?_, fun b seriesID hb => ?_⟩
  · rcases eq_or_ne a b with rfl | hne
    · simp [Shared.evictTStores, ha]
    · rwa [hat b hne]
  · obtain ⟨msb, hmsb, hsb⟩ := Shared.getTStore_isSome.mp hb
    refine Shared.getTStore_isSome.mpr ?_
    rcases eq_or_ne a b with rfl | hne
    · cases hms.symm.trans hmsb
      refine ⟨_, List.getElem?_set_self ha, ?_⟩
      rcases hsb with hsb | hsb
      · by_cases hin : seriesID ∈ ids
        · -- a series the section takes out is left where a writer holding it finds it
          obtain ⟨ts, hts⟩ := Option.isSome_iff_exists.mp hsb
          refine .inr ?_
          simp only [Shared.evictTStores, mapLoad_append, Option.isSome_or, Bool.or_eq_true]
          refine .inr (Option.ne_none_iff_isSome.mp fun hn => mapLoad_eq_none.mp hn ts ?_)
          exact List.mem_filterMap.mpr ⟨seriesID, hin, by simp [hts]⟩
        · exact .inl (by rwa [(TagIndex.removeTStores_shrinks ids _).getTStore hin])
      · exact .inr (hdet _ hsb)
    · exact ⟨msb, (hat b hne).trans hmsb, hsb.imp_right (hdet _)⟩

end Block

/-- What a writer at `pc` holds resolves in `s`: the store at its address, and the series store it
    writes. -/
def WriterPC.Resolves (s : Shared B) : WriterPC → Prop
  | .isFull a | .getTStore a | .createTStore a | .updateIndexTimeRange a _ _ | .addSize a _ _ _ => (s.heap[a]?).isSome
  | .nextField a seriesID _ _ _ | .generateField a seriesID _ _ _ _ | .writeField a seriesID _ _ _ _ _ =>
    (s.getTStore a seriesID).isSome
  | _ => True

/-- A pass of the evictor at a store of its copy has that store. -/
def EvictorPC.Pending : EvictorPC → Prop
  | .doubleCheck _ stores _ | .isEmpty _ stores | .delete _ stores => stores ≠ []
  | _ => True

/-- What `setLimitations` is to set resolves in `s`. -/
def LimiterPC.Resolves (s : Shared B) : LimiterPC → Prop
  | .set a _ _ => (s.heap[a]?).isSome
  | _ => True

/-- What a thread holds resolves in `s`. -/
def Thread.Resolves (s : Shared B) : Thread → Prop
  | .writer _ _ pc => pc.Resolves s
  | .evictor _ pc => pc.Pending
  | .limiter pc => pc.Resolves s

theorem Shared.heap_isSome_of_getTStore {s : Shared B} {a seriesID : Nat} (h : (s.getTStore a seriesID).isSome) :
    (s.heap[a]?).isSome :=
  let ⟨_, hms, _⟩ := Shared.getTStore_isSome.mp h
  by simp [hms]

theorem Thread.Resolves.kept {s s' : Shared B} {t : Thread} (h : t.Resolves s) (hk : HandlesKept s s') :
    t.Resolves s' := by
  match t with
  | .writer _ _ pc =>
    cases pc <;> first | trivial | exact hk.heap _ h | exact hk.series _ _ h
  | .evictor _ _ => exact h
  | .limiter pc =>
    cases pc <;> first | trivial | exact hk.heap _ h

/-! ### What a step keeps -/

theorem stepLimiter_holds {cfg : Config} {s s' : Shared B} (hok : SharedOk cfg s) {pc pc' : LimiterPC}
    (h : stepLimiter cfg s pc = some (s', pc')) :
    HandlesKept s s' ∧ pc'.Resolves s' := by
  cases pc with
  | next limitations =>
    cases limitations with
    | nil =>
      simp only [stepLimiter, Option.some.injEq, Prod.mk.injEq] at h
      obtain ⟨rfl, rfl⟩ := h
      exact ⟨.of_eq rfl rfl, trivial⟩
    | cons l limitations =>
      simp only [stepLimiter, Option.some.injEq, Prod.mk.injEq] at h
      obtain ⟨rfl, rfl⟩ := h
      refine ⟨.of_eq rfl rfl, ?_⟩
      split
      · obtain ⟨ms, hms, -⟩ := hok.named_of_getAddr ‹_›
        simp [LimiterPC.Resolves, hms]
      · trivial
  | set addr limit limitations =>
    simp only [stepLimiter, Option.map_eq_some', Prod.mk.injEq] at h
    obtain ⟨ms, hms, rfl, rfl⟩ := h
    exact ⟨.setStore_of_mutable hms (by rfl), trivial⟩
  | done => cases h

section Block
variable [Block B] {cfg : Config} {s s' : Shared B}

theorem stepWriter_holds (hok : SharedOk cfg s) {metric : PbMetric} {now : Int} {pc pc' : WriterPC}
    (hr : pc.Resolves s) (h : stepWriter cfg metric now s pc = some (s', pc')) :
    HandlesKept s s' ∧ pc'.Resolves s' := by
  -- the store a hash finds is in the heap
  have haddr : ∀ {a}, s.getAddr cfg (cfg.hash metric.name) = some a → (s.heap[a]?).isSome := fun ha =>
    let ⟨_, hms, _⟩ := hok.named_of_getAddr ha
    by simp [hms]
  cases pc with
  | start =>
    simp only [stepWriter, Option.some.injEq, Prod.mk.injEq] at h
    obtain ⟨rfl, rfl⟩ := h
    refine ⟨.of_eq rfl rfl, ?_⟩
    split
    · exact haddr ‹_›
    · trivial
  | create =>
    simp only [stepWriter] at h
    split at h <;> simp only [Option.some.injEq, Prod.mk.injEq] at h <;> obtain ⟨rfl, rfl⟩ := h
    · exact ⟨.of_eq rfl rfl, haddr ‹_›⟩
    · exact ⟨.createMStore _ _, by simp [WriterPC.Resolves, SharedOk.createMStore_heap_length]⟩
  | isFull a =>
    simp only [stepWriter, Option.map_eq_some', Prod.mk.injEq] at h
    obtain ⟨ms, hms, rfl, rfl⟩ := h
    refine ⟨.of_eq rfl rfl, ?_⟩
    split
    · trivial
    · exact hr
  | getTStore a =>
    simp only [stepWriter, Option.map_eq_some', Prod.mk.injEq] at h
    obtain ⟨ms, hms, rfl, rfl⟩ := h
    refine ⟨.of_eq rfl rfl, ?_⟩
    split
    · rename_i seriesID ts hts
      exact Shared.getTStore_isSome.mpr
        ⟨ms, hms, .inl (by simp [TagIndex.getTStoreBySeriesID_of_getTStore hts])⟩
    · exact hr
  | createTStore a =>
    simp only [stepWriter, Option.map_eq_some'] at h
    obtain ⟨ms, hms, h⟩ := h
    split at h <;> simp only [Prod.mk.injEq] at h <;> obtain ⟨rfl, rfl⟩ := h
    · exact ⟨.of_eq rfl rfl, trivial⟩
    · rename_i mutable seriesID ts createdSize hcreate
      have hget := TagIndex.getOrCreateTStore_get (hok.idsFresh ms (List.getElem?_mem hms)) hcreate
      refine ⟨.setStore hms fun _ h => ?_, Shared.getTStore_isSome.mpr
        ⟨_, List.getElem?_set_self (List.getElem?_eq_some_iff.mp hms).1, .inl (by simp [hget.1])⟩⟩
      obtain ⟨ts₀, hts₀⟩ := Option.isSome_iff_exists.mp h
      simp [(TagIndex.getOrCreateTStore_grows hcreate).getTStore hts₀]
  | nextField a seriesID fields written createdSize =>
    cases fields with
    | nil =>
      simp only [stepWriter, Option.map_eq_some', Prod.mk.injEq] at h
      obtain ⟨ts, -, rfl, rfl⟩ := h
      exact (HandlesKept.setTStore a seriesID _).and_heap (Shared.heap_isSome_of_getTStore hr)
    | cons f fields =>
      simp only [stepWriter, Option.map_eq_some', Prod.mk.injEq] at h
      obtain ⟨ms, hms, rfl, rfl⟩ := h
      refine ⟨.of_eq rfl rfl, ?_⟩
      split
      · split
        · exact hr
        · exact Shared.heap_isSome_of_getTStore hr
      · split
        · exact Shared.heap_isSome_of_getTStore hr
        · exact hr
  | generateField a seriesID f fields written createdSize =>
    simp only [stepWriter, Option.map_eq_some'] at h
    obtain ⟨ms, hms, h⟩ := h
    split at h
    · simp only [Prod.mk.injEq] at h
      obtain ⟨rfl, rfl⟩ := h
      exact ⟨.of_eq rfl rfl, hr⟩
    · split at h <;> simp only [Prod.mk.injEq] at h <;> obtain ⟨rfl, rfl⟩ := h
      · exact ⟨.of_eq rfl rfl, Shared.heap_isSome_of_getTStore hr⟩
      · exact (HandlesKept.setStore_of_mutable hms (by rfl)).and_series hr
  | writeField a seriesID fieldID f fields written createdSize =>
    simp only [stepWriter] at h
    split at h
    · simp only [Option.some.injEq, Prod.mk.injEq] at h
      obtain ⟨rfl, rfl⟩ := h
      exact (HandlesKept.setTStore a seriesID _).and_series hr
    · cases h
  | updateIndexTimeRange a written createdSize | addSize a written createdSize _ =>
    simp only [stepWriter, Option.map_eq_some', Prod.mk.injEq] at h
    obtain ⟨ms, hms, rfl, rfl⟩ := h
    exact ⟨.setStore hms fun _ h => h, by simp [WriterPC.Resolves, (List.getElem?_eq_some_iff.mp hms).1]⟩
  | finish writtenSize err =>
    simp only [stepWriter, Option.some.injEq, Prod.mk.injEq] at h
    obtain ⟨rfl, rfl⟩ := h
    refine ⟨.of_eq ?_ ?_, trivial⟩ <;> split <;> first | rfl | (unfold Shared.addFamilyTime; split <;> rfl)
  | done => cases h

theorem stepEvictor_holds {now : Int} {pc pc' : EvictorPC} (h : stepEvictor cfg now s pc = some (s', pc')) :
    HandlesKept s s' ∧ pc'.Pending := by
  refine ⟨?_, ?_⟩
  · rcases stepEvictor_shared h with rfl | ⟨_, _, _, _, _, ms, -, hms, rfl⟩ | ⟨_, hash, _, _, ms, -, -, rfl⟩
    · exact .of_eq rfl rfl
    · exact .evictTStores hms _
    · exact .of_eq (Shared.deleteMStore_cases _ hash ms).1 (by unfold Shared.deleteMStore; split <;> rfl)
  · cases pc with
    | snapshot i =>
      simp only [stepEvictor, Option.some.injEq, Prod.mk.injEq] at h
      obtain ⟨-, rfl⟩ := h
      split <;> trivial
    | firstCheck i stores =>
      cases stores with
      | nil =>
        simp only [stepEvictor, Option.some.injEq, Prod.mk.injEq] at h
        obtain ⟨-, rfl⟩ := h
        trivial
      | cons x stores =>
        simp only [stepEvictor, Option.map_eq_some', Prod.mk.injEq] at h
        obtain ⟨_, -, -, rfl⟩ := h
        exact List.cons_ne_nil _ _
    | doubleCheck i stores evictList =>
      cases stores with
      | nil => cases h
      | cons x stores =>
        simp only [stepEvictor, Option.map_eq_some', Prod.mk.injEq] at h
        obtain ⟨_, -, -, rfl⟩ := h
        exact List.cons_ne_nil _ _
    | isEmpty i stores =>
      cases stores with
      | nil => cases h
      | cons x stores =>
        simp only [stepEvictor, Option.map_eq_some', Prod.mk.injEq] at h
        obtain ⟨_, -, -, rfl⟩ := h
        split
        · exact List.cons_ne_nil _ _
        · trivial
    | delete i stores =>
      cases stores with
      | nil => cases h
      | cons x stores =>
        simp only [stepEvictor, Option.map_eq_some', Prod.mk.injEq] at h
        obtain ⟨_, -, -, rfl⟩ := h
        trivial
    | done => cases h

theorem stepThread_holds (hok : SharedOk cfg s) {t t' : Thread} (hr : t.Resolves s)
    (h : stepThread cfg s t = some (s', t')) : HandlesKept s s' ∧ t'.Resolves s' := by
  cases t with
  | writer metric now pc =>
    obtain ⟨r, hst, hrr⟩ := Option.map_eq_some'.mp h; cases hrr
    exact stepWriter_holds hok hr hst
  | evictor now pc =>
    obtain ⟨r, hst, hrr⟩ := Option.map_eq_some'.mp h; cases hrr
    exact stepEvictor_holds hst
  | limiter pc =>
    obtain ⟨r, hst, hrr⟩ := Option.map_eq_some'.mp h; cases hrr
    exact stepLimiter_holds hok hst

theorem Reachable.resolves {sys : Sys B} (h : Reachable cfg sys) : ∀ t ∈ sys.threads, t.Resolves sys.shared := by
  induction h with
  | init => exact fun t ht => by cases ht
  | @step sys sys' e hr happ ih =>
    cases e with
    | write metric now =>
      simp only [Sys.apply, Option.some.injEq] at happ
      subst happ
      exact List.forall_mem_append.mpr ⟨ih, List.forall_mem_singleton.mpr trivial⟩
    | evict now | limit limitations =>
      simp only [Sys.apply] at happ
      split at happ
      · cases happ
      · simp only [Option.some.injEq] at happ
        subst happ
        exact List.forall_mem_append.mpr ⟨ih, List.forall_mem_singleton.mpr trivial⟩
    | step i =>
      simp only [Sys.apply] at happ
      split at happ
      · rename_i t hti
        obtain ⟨r, hst, rfl⟩ := Option.map_eq_some'.mp happ
        obtain ⟨hk, hr'⟩ := stepThread_holds (SharedOk.of_reachable hr) (ih t (List.getElem?_mem hti)) hst
        intro u hu
        rcases List.mem_or_eq_of_mem_set hu with hu | rfl
        · exact (ih u hu).kept hk
        · exact hr'
      · cases happ

/-! ### No thread is stuck -/

/-- The thread has ended: its `Write` returned, or its pass of the evictor or its `setLimitations` is done. -/
def Thread.ended : Thread → Bool
  | .writer _ _ (.done _) | .evictor _ .done | .limiter .done => true
  | _ => false

theorem stepThread_isSome (hok : SharedOk cfg s) {t : Thread} (hc : CopyOk s t) (hr : t.Resolves s)
    (hend : t.ended = false) : (stepThread cfg s t).isSome := by
  -- the head of an evictor's copy is in the heap
  have hhead : ∀ {now pc i x stores}, CopyOk s (.evictor now pc) → pc.entries = some (i, x :: stores) →
      ∃ ms, s.heap[x.2]? = some ms := fun hc he => (hok.of_mem_getD ((hc _ _ he).2 _ (List.mem_cons_self _ _))).2.2
  cases t with
  | writer metric now pc =>
    simp only [stepThread, Option.isSome_map']
    cases pc with
    | start | finish => rfl
    | create => simp only [stepWriter]; split <;> rfl
    | isFull a | getTStore a | createTStore a | updateIndexTimeRange a | addSize a =>
      simp only [stepWriter, Option.isSome_map']; exact hr
    | nextField a seriesID fields =>
      cases fields with
      | nil => simp only [stepWriter, Option.isSome_map']; exact hr
      | cons f fields => simp only [stepWriter, Option.isSome_map']; exact Shared.heap_isSome_of_getTStore hr
    | generateField a => simp only [stepWriter, Option.isSome_map']; exact Shared.heap_isSome_of_getTStore hr
    | writeField a seriesID =>
      obtain ⟨ms, hms⟩ := Option.isSome_iff_exists.mp (Shared.heap_isSome_of_getTStore hr)
      obtain ⟨ts, hts⟩ := Option.isSome_iff_exists.mp hr
      simp only [stepWriter, hms, hts, Option.isSome_some]
    | done => cases hend
  | evictor now pc =>
    simp only [stepThread, Option.isSome_map']
    cases pc with
    | snapshot => rfl
    | firstCheck i stores =>
      cases stores with
      | nil => rfl
      | cons x stores =>
        obtain ⟨ms, hms⟩ := hhead hc rfl
        simp only [stepEvictor, hms, Option.isSome_map', Option.isSome_some]
    | doubleCheck i stores | isEmpty i stores | delete i stores =>
      cases stores with
      | nil => exact absurd rfl hr
      | cons x stores =>
        obtain ⟨ms, hms⟩ := hhead hc rfl
        simp only [stepEvictor, hms, Option.isSome_map', Option.isSome_some]
    | done => cases hend
  | limiter pc =>
    simp only [stepThread, Option.isSome_map']
    cases pc with
    | next limitations => cases limitations <;> rfl
    | set a => simp only [stepLimiter, Option.isSome_map']; exact hr
    | done => cases hend

theorem step_enabled {sys : Sys B} (h : Reachable cfg sys) {i : Nat} {t : Thread} (hi : sys.threads[i]? = some t)
    (hend : t.ended = false) : ∃ sys', sys.apply cfg (.step i) = some sys' := by
  have hs := stepThread_isSome (SharedOk.of_reachable h) ((CopiesOk.of_reachable h).copies t (List.getElem?_mem hi))
    (h.resolves t (List.getElem?_mem hi)) hend
  obtain ⟨r, hr⟩ := Option.isSome_iff_exists.mp hs
  exact ⟨⟨r.1, sys.threads.set i r.2⟩, by simp only [Sys.apply, hi, hr, Option.map_some']⟩

end Block

end Concurrent
end Lindb.Memdb

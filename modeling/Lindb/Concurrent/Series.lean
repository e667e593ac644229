import Lindb.Theorems.Sizes
import Lindb.Concurrent.Retention

/-! # One series per tag set, under any interleaving

`GetOrCreateTStore` looks the tag set up again under `Lock` before it creates a series, so each mutable
index has one series per tag set and one tag set per series (`SeriesOk`), and a series id is never filed
under a second tag set (`IdsLater`). -/

namespace Lindb.Memdb

variable {B : Type}

namespace TagIndex

/-- The series of an index: its tag sets are distinct, so are their series ids, and the series stores are
    kept under exactly those ids, in the same order. -/
structure SeriesOk (t : TagIndex B) : Prop where
  tags : (t.tagsIDs.map (·.1)).Nodup
  ids : (t.tagsIDs.map (·.2)).Nodup
  stores : t.tagsIDs.map (·.2) = t.seriesID2TStore.map (·.1)

variable {t : TagIndex B}

theorem getTStoreBySeriesID_isSome {seriesID : Nat} :
    (t.getTStoreBySeriesID seriesID).isSome ↔ seriesID ∈ t.seriesID2TStore.map (·.1) := by
  simp [getTStoreBySeriesID, List.find?_isSome]

theorem SeriesOk.getTStore_isSome (h : t.SeriesOk) {tags : List (String × String)} :
    (t.getTStore tags).isSome ↔ tags ∈ t.tagsIDs.map (·.1) := by
  unfold getTStore
  cases hf : t.tagsIDs.find? (·.1 = tags) with
  | none =>
    simp only [Option.map_none', Option.isSome_none, Bool.false_eq_true, false_iff, List.mem_map, not_exists, not_and]
    exact fun x hx hx1 => by simpa [hx1] using List.find?_eq_none.mp hf x hx
  | some x =>
    have hx : x.1 = tags := by simpa using List.find?_some hf
    have hmem := List.mem_of_find?_eq_some hf
    have hid : (t.getTStoreBySeriesID x.2).isSome :=
      getTStoreBySeriesID_isSome.mpr (h.stores ▸ List.mem_map_of_mem _ hmem)
    obtain ⟨ts, hts⟩ := Option.isSome_iff_exists.mp hid
    simp only [Option.map_some', hts, Option.isSome_some, true_iff]
    exact hx ▸ List.mem_map_of_mem _ hmem

theorem SeriesOk.eq_of_mem (h : t.SeriesOk) {tags : List (String × String)} {seriesID seriesID' : Nat}
    (hm : (tags, seriesID) ∈ t.tagsIDs) (hm' : (tags, seriesID') ∈ t.tagsIDs) : seriesID = seriesID' :=
  congrArg Prod.snd (List.inj_on_of_nodup_map h.tags hm hm' rfl)

theorem newTagIndex_seriesOk (now : Int) : (newTagIndex now : TagIndex B).SeriesOk :=
  ⟨List.nodup_nil, List.nodup_nil, rfl⟩

theorem setTStore_ids (seriesID : Nat) (ts : TStore B) :
    (t.setTStore seriesID ts).seriesID2TStore.map (·.1) = t.seriesID2TStore.map (·.1) := by
  cases hf : t.seriesID2TStore.find? (·.1 = seriesID) with
  | none => simp [setTStore, setFirst_eq_self hf]
  | some y => exact map_setFirst _ (by simpa using List.find?_some hf : y.1 = seriesID).symm hf

theorem SeriesOk.setTStore (h : t.SeriesOk) (seriesID : Nat) (ts : TStore B) : (t.setTStore seriesID ts).SeriesOk :=
  ⟨h.tags, h.ids, h.stores.trans (setTStore_ids seriesID ts).symm⟩

theorem SeriesOk.removeSeries (h : t.SeriesOk) (seriesID : Nat) : (t.removeSeries seriesID).SeriesOk := by
  -- taking a series out filters both lists by its id
  have hfilter : ∀ {α : Type} (f : α → Nat) (l : List α),
      (l.filter (f · ≠ seriesID)).map f = (l.map f).filter (· ≠ seriesID) := fun f l => by
    rw [List.filter_map]; rfl
  refine ⟨h.tags.sublist ((List.filter_sublist _).map _), h.ids.sublist ((List.filter_sublist _).map _), ?_⟩
  simp only [TagIndex.removeSeries]
  rw [hfilter Prod.snd, hfilter Prod.fst, h.stores]

theorem SeriesOk.removeTStores : ∀ (ids : List Nat) {t : TagIndex B}, t.SeriesOk → (t.removeTStores ids).1.SeriesOk
  | [], _, h => h
  | seriesID :: ids, t, h => by
    unfold TagIndex.removeTStores
    split
    · exact SeriesOk.removeTStores ids h
    · exact SeriesOk.removeTStores ids (h.removeSeries seriesID)

section Block
variable [Block B]

theorem SeriesOk.getOrCreateTStore (h : t.SeriesOk) (hf : t.IdsFresh) {tags : List (String × String)} {now : Int}
    {r : TagIndex B × Nat × TStore B × Int} (hr : t.getOrCreateTStore tags now = .ok r) : r.1.SeriesOk := by
  unfold TagIndex.getOrCreateTStore at hr
  split at hr
  · cases hr
    exact h
  rename_i hnone
  split at hr
  · cases hr
  cases hr
  have htags : tags ∉ t.tagsIDs.map (·.1) := fun hm => by
    simpa [hnone] using h.getTStore_isSome.mpr hm
  have hid : t.idCounter + 1 ∉ t.tagsIDs.map (·.2) := fun hm => by
    obtain ⟨x, hx, hx1⟩ := List.mem_map.mp (h.stores ▸ hm)
    have := hf x hx
    omega
  refine ⟨?_, ?_, ?_⟩ <;> simp only [List.map_append, List.map_cons, List.map_nil]
  · exact List.nodup_append.mpr ⟨h.tags, List.nodup_singleton _, List.disjoint_singleton.mpr htags⟩
  · exact List.nodup_append.mpr ⟨h.ids, List.nodup_singleton _, List.disjoint_singleton.mpr hid⟩
  · rw [h.stores]

/-- What a call of the index can do to it: nothing, or one of `setTStore`, `GetOrCreateTStore`,
    `UpdateIndexTimeRange` and `RemoveTStores`. -/
inductive IndexStep : TagIndex B → TagIndex B → Prop
  | refl (t : TagIndex B) : IndexStep t t
  | setTStore (t : TagIndex B) (seriesID : Nat) (ts : TStore B) : IndexStep t (t.setTStore seriesID ts)
  | getOrCreateTStore {t : TagIndex B} {tags : List (String × String)} {now : Int} {r : TagIndex B × Nat × TStore B × Int} :
      t.getOrCreateTStore tags now = .ok r → IndexStep t r.1
  | updateIndexTimeRange (t : TagIndex B) (pointTime : Int) : IndexStep t (t.updateIndexTimeRange pointTime)
  | removeTStores (t : TagIndex B) (ids : List Nat) : IndexStep t (t.removeTStores ids).1

theorem SeriesOk.indexStep {t' : TagIndex B} (h : t.SeriesOk) (hf : t.IdsFresh) (hs : IndexStep t t') : t'.SeriesOk := by
  cases hs with
  | refl => exact h
  | setTStore seriesID ts => exact h.setTStore seriesID ts
  | getOrCreateTStore hr => exact h.getOrCreateTStore hf hr
  | updateIndexTimeRange pointTime => exact ⟨h.tags, h.ids, h.stores⟩
  | removeTStores ids => exact h.removeTStores ids

end Block

theorem SeriesOk.le_idCounter (h : t.SeriesOk) (hf : t.IdsFresh) {x : List (String × String) × Nat}
    (hx : x ∈ t.tagsIDs) : x.2 ≤ t.idCounter := by
  have hmem : x.2 ∈ t.seriesID2TStore.map (·.1) := h.stores ▸ List.mem_map_of_mem _ hx
  obtain ⟨y, hy, hyx⟩ := List.mem_map.mp hmem
  exact hyx ▸ hf y hy

/-- What a later index keeps of an earlier one: its counter has not gone back, and each series id it
    files was filed under the same tag set before, or is above the counter then. -/
structure IdsLater (t t' : TagIndex B) : Prop where
  idCounter : t.idCounter ≤ t'.idCounter
  tagsIDs : ∀ x ∈ t'.tagsIDs, x ∈ t.tagsIDs ∨ t.idCounter < x.2

theorem IdsLater.refl (t : TagIndex B) : IdsLater t t := ⟨le_rfl, fun _ hx => .inl hx⟩

theorem IdsLater.trans {t' t'' : TagIndex B} (h₁ : IdsLater t t') (h₂ : IdsLater t' t'') : IdsLater t t'' where
  idCounter := h₁.idCounter.trans h₂.idCounter
  tagsIDs x hx := (h₂.tagsIDs x hx).elim (h₁.tagsIDs x) fun hlt => .inr (h₁.idCounter.trans_lt hlt)

theorem IndexStep.idsLater [Block B] {t' : TagIndex B} (hs : IndexStep t t') : IdsLater t t' := by
  cases hs with
  | refl | setTStore | updateIndexTimeRange => exact ⟨le_rfl, fun _ hx => .inl hx⟩
  | getOrCreateTStore hr =>
    rcases getOrCreateTStore_ok hr with ⟨heq, -⟩ | ⟨-, htags, -, hcounter, hnext, -⟩
    · exact heq ▸ .refl _
    · refine ⟨by omega, fun x hx => ?_⟩
      rw [htags, List.mem_append, List.mem_singleton] at hx
      rcases hx with hx | rfl
      · exact .inl hx
      · exact .inr (by simp only; omega)
  | removeTStores ids =>
    exact ⟨(removeTStores_shrinks ids t).idCounter.ge, fun x hx => .inl (tagsIDs_removeTStores_subset ids t hx)⟩

end TagIndex

namespace Concurrent

/-- The series a thread in a `Write` holds once past its look-up: its metric's name and tags, the
    address of the metric store and the series id. -/
def Thread.heldSeries : Thread → Option (String × List (String × String) × Nat × Nat)
  | .writer metric _ (.nextField addr seriesID ..) | .writer metric _ (.generateField addr seriesID ..)
  | .writer metric _ (.writeField addr seriesID ..) => some (metric.name, metric.tags, addr, seriesID)
  | _ => none

theorem SeriesHolds.held {cfg : Config} {s : Shared B} {metric : PbMetric} {addr seriesID : Nat} {fields : List PbField}
    (hs : SeriesHolds cfg s metric addr seriesID fields) :
    s.getAddr cfg (cfg.hash metric.name) = some addr ∧ ∃ ms, s.heap[addr]? = some ms ∧ (metric.tags, seriesID) ∈ ms.mutable.tagsIDs :=
  let ⟨ha, ms, hms, hm, _⟩ := hs
  ⟨ha, ms, hms, hm⟩

theorem WriterOk.heldSeries {cfg : Config} {s : Shared B} {metric : PbMetric} {now : Int} {pc : WriterPC}
    {name : String} {tags : List (String × String)} {addr seriesID : Nat} (hw : WriterOk cfg s metric pc)
    (h : Thread.heldSeries (.writer metric now pc) = some (name, tags, addr, seriesID)) :
    s.getAddr cfg (cfg.hash name) = some addr ∧ ∃ ms, s.heap[addr]? = some ms ∧ (tags, seriesID) ∈ ms.mutable.tagsIDs := by
  cases pc <;> simp only [Thread.heldSeries, reduceCtorEq, Option.some.injEq, Prod.mk.injEq] at h
  all_goals
    obtain ⟨rfl, rfl, rfl, rfl⟩ := h
    obtain ⟨_, _, hs⟩ := hw
    first | exact hs.held | exact hs.1.held

section Block
variable [Block B] {cfg : Config} {s s' : Shared B}

/-- What a step may do to the mutable indexes of the heap: the index of the store at each address is the
    index of the store there before, changed by one call, or a new one at a new address. -/
def IndexesStep (h h' : List (MStore B)) : Prop :=
  ∀ (a : Nat) (ms' : MStore B), h'[a]? = some ms' →
    (∃ ms, h[a]? = some ms ∧ TagIndex.IndexStep ms.mutable ms'.mutable) ∨
      (h[a]? = none ∧ ∃ now, ms'.mutable = newTagIndex now)

namespace IndexesStep

theorem of_eq {h h' : List (MStore B)} (he : h' = h) : IndexesStep h h' :=
  fun _ ms h₀ => .inl ⟨ms, he ▸ h₀, .refl _⟩

theorem setStore {a : Nat} {ms ms' : MStore B} (hms : s.heap[a]? = some ms)
    (hs : TagIndex.IndexStep ms.mutable ms'.mutable) : IndexesStep s.heap (s.setStore a ms').heap := by
  intro b ms₀ h₀
  rcases eq_or_ne a b with rfl | hne
  · rw [Shared.setStore_heap, List.getElem?_set_self (List.getElem?_eq_some_iff.mp hms).1, Option.some.injEq] at h₀
    exact .inl ⟨ms, hms, h₀ ▸ hs⟩
  · rw [Shared.setStore_heap, List.getElem?_set_ne hne] at h₀
    exact .inl ⟨ms₀, h₀, .refl _⟩

theorem setTStore (s : Shared B) (a seriesID : Nat) (ts : TStore B) : IndexesStep s.heap (s.setTStore a seriesID ts).heap := by
  unfold Shared.setTStore
  split
  · split
    · exact setStore ‹_› (.setTStore _ _ _)
    · exact of_eq rfl
  · exact of_eq rfl

theorem createMStore (s : Shared B) (name : String) (now : Int) :
    IndexesStep s.heap (s.createMStore cfg name now).heap := by
  intro b ms h
  rw [Shared.createMStore_heap] at h
  rcases lt_or_ge b s.heap.length with hlt | hge
  · rw [List.getElem?_append_left hlt] at h
    exact .inl ⟨ms, h, .refl _⟩
  · rw [List.getElem?_append_right hge] at h
    cases hk : b - s.heap.length with
    | zero =>
      simp only [hk, List.getElem?_cons_zero, Option.some.injEq] at h
      exact .inr ⟨List.getElem?_eq_none hge, now, h ▸ rfl⟩
    | succ k => simp [hk] at h

end IndexesStep

theorem stepWriter_indexesStep {metric : PbMetric} {now : Int} {pc pc' : WriterPC}
    (h : stepWriter cfg metric now s pc = some (s', pc')) : IndexesStep s.heap s'.heap := by
  cases pc with
  | start | finish =>
    simp only [stepWriter, Option.some.injEq, Prod.mk.injEq] at h
    obtain ⟨rfl, -⟩ := h
    first | exact .of_eq rfl | (split <;> exact .of_eq (by first | rfl | (unfold Shared.addFamilyTime; split <;> rfl)))
  | create =>
    simp only [stepWriter] at h
    split at h <;> simp only [Option.some.injEq, Prod.mk.injEq] at h <;> obtain ⟨rfl, -⟩ := h
    · exact .of_eq rfl
    · exact .createMStore _ _ _
  | isFull a | getTStore a =>
    simp only [stepWriter, Option.map_eq_some', Prod.mk.injEq] at h
    obtain ⟨ms, -, rfl, -⟩ := h
    exact .of_eq rfl
  | createTStore a =>
    simp only [stepWriter, Option.map_eq_some'] at h
    obtain ⟨ms, hms, h⟩ := h
    split at h <;> simp only [Prod.mk.injEq] at h <;> obtain ⟨rfl, -⟩ := h
    · exact .of_eq rfl
    · exact .setStore hms (.getOrCreateTStore ‹_›)
  | nextField a seriesID fields =>
    cases fields with
    | nil =>
      simp only [stepWriter, Option.map_eq_some', Prod.mk.injEq] at h
      obtain ⟨ts, -, rfl, -⟩ := h
      exact .setTStore _ _ _ _
    | cons f fields =>
      simp only [stepWriter, Option.map_eq_some', Prod.mk.injEq] at h
      obtain ⟨ms, -, rfl, -⟩ := h
      exact .of_eq rfl
  | generateField a =>
    simp only [stepWriter, Option.map_eq_some'] at h
    obtain ⟨ms, hms, h⟩ := h
    repeat' split at h
    all_goals (simp only [Prod.mk.injEq] at h; obtain ⟨rfl, -⟩ := h)
    · exact .of_eq rfl
    · exact .of_eq rfl
    · exact .setStore hms (.refl _)
  | writeField a seriesID =>
    simp only [stepWriter] at h
    split at h
    · simp only [Option.some.injEq, Prod.mk.injEq] at h
      obtain ⟨rfl, -⟩ := h
      exact .setTStore _ _ _ _
    · cases h
  | updateIndexTimeRange a | addSize a =>
    simp only [stepWriter, Option.map_eq_some', Prod.mk.injEq] at h
    obtain ⟨ms, hms, rfl, -⟩ := h
    first | exact .setStore hms (.updateIndexTimeRange _ _) | exact .setStore hms (.refl _)
  | done => cases h

theorem stepThread_indexesStep {t t' : Thread} (h : stepThread cfg s t = some (s', t')) : IndexesStep s.heap s'.heap := by
  cases t with
  | writer metric now pc =>
    obtain ⟨r, hr, hrr⟩ := Option.map_eq_some'.mp h; cases hrr
    exact stepWriter_indexesStep hr
  | evictor now pc =>
    obtain ⟨⟨s₁, pc₁⟩, hr, hrr⟩ := Option.map_eq_some'.mp h; cases hrr
    rcases stepEvictor_shared hr with rfl | ⟨_, _, _, _, _, ms, -, hms, rfl⟩ | ⟨_, hash, _, _, ms, -, -, rfl⟩
    · exact .of_eq rfl
    · exact .setStore (s := s) hms (.removeTStores _ _)
    · exact .of_eq (Shared.deleteMStore_cases _ hash ms).1
  | limiter pc =>
    obtain ⟨r, hr, hrr⟩ := Option.map_eq_some'.mp h; cases hrr
    cases pc with
    | next limitations =>
      cases limitations <;> simp only [stepLimiter, Option.some.injEq, Prod.mk.injEq] at hr <;>
        obtain ⟨rfl, -⟩ := hr <;> exact .of_eq rfl
    | set a limit limitations =>
      simp only [stepLimiter, Option.map_eq_some', Prod.mk.injEq] at hr
      obtain ⟨ms, hms, rfl, -⟩ := hr
      exact .setStore hms (.refl _)
    | done => cases hr

/-- Every metric store, also one the evictor took out, has one series per tag set and one tag set per
    series. -/
theorem Reachable.seriesOk {sys : Sys B} (h : Reachable cfg sys) : ∀ ms ∈ sys.shared.heap, ms.mutable.SeriesOk := by
  induction h with
  | init => exact fun ms hms => by simp [Shared.init] at hms
  | @step sys sys' e hr happ ih =>
    rcases Sys.apply_cases happ with ⟨hs, -⟩ | ⟨_, _, _, -, hst, -⟩
    · exact hs ▸ ih
    · intro ms' hms'
      obtain ⟨a, ha⟩ := List.mem_iff_getElem?.mp hms'
      rcases stepThread_indexesStep hst a ms' ha with ⟨ms, hms, hstep⟩ | ⟨-, now, hnew⟩
      · have hmem := List.getElem?_mem hms
        exact (ih ms hmem).indexStep ((SharedOk.of_reachable hr).idsFresh ms hmem) hstep
      · exact hnew ▸ TagIndex.newTagIndex_seriesOk now

theorem idsLater_run : ∀ {es : List Event} {sys sys' : Sys B}, Concurrent.run cfg sys es = some sys' →
    ∀ {a : Nat} {ms : MStore B}, sys.shared.heap[a]? = some ms →
      ∃ ms', sys'.shared.heap[a]? = some ms' ∧ TagIndex.IdsLater ms.mutable ms'.mutable
  | [], _, _, hrun, _, ms, hms => by
    cases hrun
    exact ⟨ms, hms, .refl _⟩
  | e :: es, sys, _, hrun, a, ms, hms => by
    cases happ : sys.apply cfg e with
    | none => simp [Concurrent.run, happ] at hrun
    | some sys₁ =>
      simp only [Concurrent.run, happ, Option.some_bind] at hrun
      rcases Sys.apply_cases happ with ⟨hs, -⟩ | ⟨_, _, _, -, hst, -⟩
      · exact idsLater_run hrun (hs ▸ hms)
      · obtain ⟨ms₁, hms₁, -⟩ := (stepThread_heapStep hst).forth a ms hms
        rcases stepThread_indexesStep hst a ms₁ hms₁ with ⟨ms₀, hms₀, hstep⟩ | ⟨hnone, -⟩
        · cases hms.symm.trans hms₀
          obtain ⟨ms', hms', hl⟩ := idsLater_run hrun hms₁
          exact ⟨ms', hms', hstep.idsLater.trans hl⟩
        · cases hms.symm.trans hnone

/-- A store never files a series id under a second tag set, also after the evictor took the series out. -/
theorem seriesID_not_reused {sys sys' : Sys B} (h : Reachable cfg sys) {es : List Event}
    (hrun : Concurrent.run cfg sys es = some sys') {a : Nat} {ms ms' : MStore B} (hms : sys.shared.heap[a]? = some ms)
    (hms' : sys'.shared.heap[a]? = some ms') {tags tags' : List (String × String)} {seriesID : Nat}
    (hm : (tags, seriesID) ∈ ms.mutable.tagsIDs) (hm' : (tags', seriesID) ∈ ms'.mutable.tagsIDs) : tags = tags' := by
  obtain ⟨ms'', hms'', hl⟩ := idsLater_run hrun hms
  cases hms'.symm.trans hms''
  have hmem := List.getElem?_mem hms
  have hok := Reachable.seriesOk h ms hmem
  rcases hl.tagsIDs _ hm' with hin | hlt
  · exact congrArg Prod.fst (List.inj_on_of_nodup_map hok.ids hm hin rfl)
  · have hle := hok.le_idCounter ((SharedOk.of_reachable h).idsFresh ms hmem) hm
    simp only at hle hlt
    omega

/-- With no evictor pass, two `Write`s of one metric and tag set past their look-up hold one series store. -/
theorem same_series {sys sys' : Sys B} (h : Reachable cfg sys) (hidle : sys.threads.any Thread.isEvicting = false)
    {es : List Event} (hes : ∀ e ∈ es, e.isEvict = false) (hrun : Concurrent.run cfg sys es = some sys')
    {i j : Nat} (hi : sys.threads.length ≤ i) (hj : sys.threads.length ≤ j) {name : String}
    {tags : List (String × String)} {addr addr' seriesID seriesID' : Nat}
    (hti : (sys'.threads[i]?).bind Thread.heldSeries = some (name, tags, addr, seriesID))
    (htj : (sys'.threads[j]?).bind Thread.heldSeries = some (name, tags, addr', seriesID')) :
    addr = addr' ∧ seriesID = seriesID' := by
  have hw := (WritersOk.init hidle).run h hes hrun
  -- each of the two holds a series filed under the tags in the store its hash finds
  have hheld : ∀ {k a id}, sys.threads.length ≤ k →
      (sys'.threads[k]?).bind Thread.heldSeries = some (name, tags, a, id) →
      sys'.shared.getAddr cfg (cfg.hash name) = some a ∧
        ∃ ms, sys'.shared.heap[a]? = some ms ∧ (tags, id) ∈ ms.mutable.tagsIDs := fun hk ht => by
    obtain ⟨t, hkt, ht⟩ := Option.bind_eq_some.mp ht
    cases t with
    | writer metric now pc => exact (hw.writers _ hk metric now pc hkt).heldSeries ht
    | evictor | limiter => cases ht
  obtain ⟨ha, ms, hms, hm⟩ := hheld hi hti
  obtain ⟨ha', ms', hms', hm'⟩ := hheld hj htj
  cases ha.symm.trans ha'
  cases hms.symm.trans hms'
  exact ⟨rfl, (Reachable.seriesOk (h.run hrun) ms (List.getElem?_mem hms)).eq_of_mem hm hm'⟩

end Block

end Concurrent

namespace Concurrent.Sample
open Memdb.Sample

/-- Two `Write`s of the same point of `cpu`, in lockstep from `NewMemoryDatabase`: both miss the series
    under `RLock`, and the second's `GetOrCreateTStore` finds the one the first created. -/
def sameSeriesRace : List Event :=
  [.write (point "cpu" 100) 1, .write (point "cpu" 100) 1] ++ lockstep 5

theorem seriesOk_racing :
    ∃ sys', run config (⟨Shared.init config, []⟩ : Sys Nat) sameSeriesRace = some sys' ∧
      sys'.shared.heap.map (·.mutable.tagsIDs.length) = [1] ∧ ∀ ms ∈ sys'.shared.heap, ms.mutable.SeriesOk :=
  let ⟨sys', hrun, hlen⟩ := exists_of_run
    (p := fun sys : Sys Nat => sys.shared.heap.map (·.mutable.tagsIDs.length) = [1]) _ sameSeriesRace (by decide)
  ⟨sys', hrun, hlen, Reachable.seriesOk (Reachable.init.run hrun)⟩

theorem same_series_racing :
    ∃ sys', run config (⟨Shared.init config, []⟩ : Sys Nat) sameSeriesRace = some sys' ∧
      (sys'.threads[0]?).bind Thread.heldSeries = some ("cpu", [("host", "a")], 0, 1) ∧
      (sys'.threads[1]?).bind Thread.heldSeries = some ("cpu", [("host", "a")], 0, 1) ∧ (0 = 0 ∧ 1 = 1) :=
  have h₀ : ∃ sys', run config (⟨Shared.init config, []⟩ : Sys Nat) sameSeriesRace = some sys' ∧
      (sys'.threads[0]?).bind Thread.heldSeries = some ("cpu", [("host", "a")], 0, 1) := exists_of_run _ _ (by decide)
  have h₁ : ∃ sys', run config (⟨Shared.init config, []⟩ : Sys Nat) sameSeriesRace = some sys' ∧
      (sys'.threads[1]?).bind Thread.heldSeries = some ("cpu", [("host", "a")], 0, 1) := exists_of_run _ _ (by decide)
  let ⟨sys', hrun, h₀⟩ := h₀
  let ⟨_, hrun', h₁⟩ := h₁
  have h₁ := Option.some.inj (hrun'.symm.trans hrun) ▸ h₁
  ⟨sys', hrun, h₀, h₁, same_series .init rfl (by decide) hrun (Nat.zero_le _) (Nat.zero_le _) h₀ h₁⟩

/-- `host=b` keeps its id through a pass of the evictor that takes out `host=a`. -/
theorem seriesID_not_reused_evicting :
    ∃ sys₁ sys₂ ms₁ ms₂, run config (⟨Shared.init config, []⟩ : Sys Nat) seriesWritten = some sys₁ ∧
      run config sys₁ evictDuringWrite = some sys₂ ∧ sys₁.shared.heap[0]? = some ms₁ ∧
      sys₂.shared.heap[0]? = some ms₂ ∧ ([("host", "b")], 2) ∈ ms₁.mutable.tagsIDs ∧
      ([("host", "b")], 2) ∈ ms₂.mutable.tagsIDs ∧ [("host", "b")] = [("host", "b")] :=
  let ⟨sys₁, hrun₁, h₁⟩ := exists_of_run (p := fun sys : Sys Nat =>
    (sys.shared.heap[0]?).map (·.mutable.tagsIDs.contains ([("host", "b")], 2)) = some true) _ seriesWritten (by decide)
  have h₂ : ∃ sys, run config (⟨Shared.init config, []⟩ : Sys Nat) (seriesWritten ++ evictDuringWrite) = some sys ∧
      (sys.shared.heap[0]?).map (·.mutable.tagsIDs.contains ([("host", "b")], 2)) = some true :=
    exists_of_run _ _ (by decide)
  let ⟨sys₂, hrun, h₂⟩ := h₂
  have hrun₂ : run config sys₁ evictDuringWrite = some sys₂ := by rwa [run_append, hrun₁, Option.some_bind] at hrun
  let ⟨ms₁, hms₁, hm₁⟩ := Option.map_eq_some'.mp h₁
  let ⟨ms₂, hms₂, hm₂⟩ := Option.map_eq_some'.mp h₂
  ⟨sys₁, sys₂, ms₁, ms₂, hrun₁, hrun₂, hms₁, hms₂, List.mem_of_elem_eq_true hm₁, List.mem_of_elem_eq_true hm₂,
    seriesID_not_reused (Reachable.init.run hrun₁) hrun₂ hms₁ hms₂ (List.mem_of_elem_eq_true hm₁)
      (List.mem_of_elem_eq_true hm₂)⟩

/-- A `Write` holds the new series of `host=a`; a pass of the evictor takes it out, expired and without
    data, under the store's lock; a second `Write` of `host=a` then creates the series again. -/
def evictBetweenWrites : List Event :=
  [.write (point "cpu" 100) 1] ++ List.replicate 5 (.step 0) ++ [.evict 200] ++ List.replicate 3 (.step 1) ++
    [.write (point "cpu" 100) 200] ++ List.replicate 5 (.step 2)

theorem same_series_fails_with_evictor :
    ∃ sys, run config (⟨Shared.init config, []⟩ : Sys Nat) evictBetweenWrites = some sys ∧
      (sys.threads[0]?).bind Thread.heldSeries = some ("cpu", [("host", "a")], 0, 1) ∧
      (sys.threads[2]?).bind Thread.heldSeries = some ("cpu", [("host", "a")], 0, 2) :=
  have h₀ : ∃ sys, run config (⟨Shared.init config, []⟩ : Sys Nat) evictBetweenWrites = some sys ∧
      (sys.threads[0]?).bind Thread.heldSeries = some ("cpu", [("host", "a")], 0, 1) := exists_of_run _ _ (by decide)
  have h₂ : ∃ sys, run config (⟨Shared.init config, []⟩ : Sys Nat) evictBetweenWrites = some sys ∧
      (sys.threads[2]?).bind Thread.heldSeries = some ("cpu", [("host", "a")], 0, 2) := exists_of_run _ _ (by decide)
  let ⟨sys, hrun, h₀⟩ := h₀
  let ⟨_, hrun', h₂⟩ := h₂
  ⟨sys, hrun, h₀, Option.some.inj (hrun'.symm.trans hrun) ▸ h₂⟩

end Concurrent.Sample

end Lindb.Memdb

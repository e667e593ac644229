import Lindb.Theorems.Database

/-! The evictor's pass as a collector (§4.3): it changes nothing a reader finds, and leaves no empty
    store and no expired series without data. -/

namespace Lindb.Memdb

variable {B : Type}

theorem toInt32_toInt32 (x : Int) : toInt32 (toInt32 x) = toInt32 x := by
  simpa using toInt32_toInt32_sub x 0

namespace TagIndex

theorem getTStoreBySeriesID_removeSeries_self (t : TagIndex B) (seriesID : Nat) :
    (t.removeSeries seriesID).getTStoreBySeriesID seriesID = none := by
  simp only [getTStoreBySeriesID, removeSeries, Option.map_eq_none', List.find?_eq_none, List.mem_filter]
  simp +contextual

theorem getTStoreBySeriesID_removeTStores {seriesID : Nat} :
    ∀ {ids : List Nat} (t : TagIndex B), seriesID ∈ ids → (t.removeTStores ids).1.getTStoreBySeriesID seriesID = none
  | id :: rest, t, h => by
    by_cases hr : seriesID ∈ rest
    · unfold removeTStores
      split <;> exact getTStoreBySeriesID_removeTStores _ hr
    obtain rfl : seriesID = id := by simpa [hr] using h
    unfold removeTStores
    split
    · rename_i hnone
      rw [(removeTStores_shrinks rest t).getTStore hr, hnone]
    · rw [(removeTStores_shrinks rest _).getTStore hr, getTStoreBySeriesID_removeSeries_self]

theorem tagsIDs_removeTStores_subset : ∀ (ids : List Nat) (t : TagIndex B), (t.removeTStores ids).1.tagsIDs ⊆ t.tagsIDs
  | [], _ => List.Subset.refl _
  | id :: rest, t => by
    unfold removeTStores
    split
    · exact tagsIDs_removeTStores_subset rest t
    · exact fun x hx => (List.mem_filter.mp (tagsIDs_removeTStores_subset rest _ hx)).1

end TagIndex

namespace MStore
variable {ms : MStore B} {now d : Int}

theorem mem_doubleCheckEvictList {seriesID : Nat} {ts : TStore B} (h : ms.mutable.getTStoreBySeriesID seriesID = some ts)
    (hts : ts.isExpired now d = true ∧ ts.isNoData = true) :
    seriesID ∈ ms.doubleCheckEvictList (ms.evictList now d) now d := by
  obtain ⟨x, hx, rfl⟩ := Option.map_eq_some'.mp h
  have hmem := List.mem_of_find?_eq_some hx
  have hid : x.1 = seriesID := by simpa using List.find?_some hx
  refine List.mem_filter.mpr ⟨List.mem_map.mpr ⟨x, List.mem_filter.mpr ⟨hmem, ?_⟩, hid⟩, ?_⟩
  · simp [hts.1, hts.2]
  · simp [h, hts.1, hts.2]

variable [Block B]

theorem evict_segments_subset (metricHash : UInt64) : (ms.evict now d).1.segments metricHash ⊆ ms.segments metricHash := by
  obtain ⟨ids, -, hmut, himm⟩ := evict_cases ms now d
  have hvis : (ms.evict now d).1.atomicGetImmutable = ms.atomicGetImmutable := by simp only [atomicGetImmutable, himm]
  intro s hs
  rcases mem_segments.mp hs with hs | ⟨t, ht, hs⟩
  · rw [hmut] at hs
    obtain ⟨hh, seriesID, ts, hx, hts, hk⟩ := TagIndex.mem_segments.mp hs
    have hn : seriesID ∉ ids := fun hin => by
      rw [TagIndex.getTStoreBySeriesID_removeTStores _ hin] at hts
      cases hts
    rw [(TagIndex.removeTStores_shrinks ids _).getTStore hn] at hts
    exact mem_segments.mpr (.inl (TagIndex.mem_segments.mpr
      ⟨hh, seriesID, ts, TagIndex.tagsIDs_removeTStores_subset ids _ hx, hts, hk⟩))
  · exact mem_segments.mpr (.inr ⟨t, hvis ▸ ht, hs⟩)

theorem getTStoreBySeriesID_evict {seriesID : Nat} {ts : TStore B} :
    (ms.evict now d).1.mutable.getTStoreBySeriesID seriesID = some ts ↔
      ms.mutable.getTStoreBySeriesID seriesID = some ts ∧ ¬(ts.isExpired now d = true ∧ ts.isNoData = true) := by
  have hsh := TagIndex.removeTStores_shrinks (ms.doubleCheckEvictList (ms.evictList now d) now d) ms.mutable
  change (ms.mutable.removeTStores _).1.getTStoreBySeriesID seriesID = some ts ↔ _
  by_cases hin : seriesID ∈ ms.doubleCheckEvictList (ms.evictList now d) now d
  · obtain ⟨ts', hts', hcol⟩ := doubleCheckEvictList_collectable hin
    rw [TagIndex.getTStoreBySeriesID_removeTStores _ hin]
    refine ⟨fun h => (by cases h), fun ⟨h, hts⟩ => ?_⟩
    cases h.symm.trans hts'
    exact absurd hcol hts
  · rw [hsh.getTStore hin]
    exact ⟨fun h => ⟨h, fun hts => hin (mem_doubleCheckEvictList h hts)⟩, And.left⟩

theorem doubleCheckEvictList_evict (evictList : List Nat) :
    (ms.evict now d).1.doubleCheckEvictList evictList now d = [] :=
  List.eq_nil_iff_forall_not_mem.mpr fun _ h =>
    let ⟨_, hts, hcol⟩ := doubleCheckEvictList_collectable h
    (getTStoreBySeriesID_evict.mp hts).2 hcol

theorem evict_of_doubleCheckEvictList_nil (h : ms.doubleCheckEvictList (ms.evictList now d) now d = []) :
    ms.evict now d = ({ ms with size := toInt32 ms.size }, 0) := by
  simp only [evict, h, TagIndex.removeTStores, List.map_nil, List.sum_nil, toInt32_sub_toInt32, sub_zero]

theorem evict_evict : (ms.evict now d).1.evict now d = ((ms.evict now d).1, 0) := by
  rw [evict_of_doubleCheckEvictList_nil (doubleCheckEvictList_evict _)]
  exact congrArg (·, 0) (congrArg (fun size => { (ms.evict now d).1 with size }) (toInt32_toInt32 _))

end MStore

namespace MemDB
variable [Block B]

theorem mem_evict_entries {cfg : Config} {md : MemDB B} {now : Int} {y : UInt64 × MStore B} :
    y ∈ (md.evict cfg now).entries ↔ ∃ x ∈ md.entries,
      (x.2.evict now cfg.tStoreExpiredDuration).1.isEmpty = false ∧ y = (x.1, (x.2.evict now cfg.tStoreExpiredDuration).1) := by
  simp only [entries, evict, evictBuckets_fst, List.mem_flatten, List.mem_map]
  constructor
  · rintro ⟨_, ⟨b, hb, rfl⟩, hy⟩
    obtain ⟨hy, he⟩ := List.mem_filter.mp hy
    obtain ⟨x, hx, rfl⟩ := List.mem_map.mp hy
    exact ⟨x, ⟨b, hb, hx⟩, by simpa using he, rfl⟩
  · rintro ⟨x, ⟨b, hb, hx⟩, he, rfl⟩
    exact ⟨_, ⟨b, hb, rfl⟩, List.mem_filter.mpr ⟨List.mem_map.mpr ⟨x, hx, rfl⟩, by simpa using he⟩⟩

/-- One evictor pass keeps the segments a reader finds and leaves nothing it collects. -/
theorem evict_collects (cfg : Config) (md : MemDB B) (now : Int) :
    (∀ s, s ∈ (md.evict cfg now).segments ↔ s ∈ md.segments) ∧
    ∀ y ∈ (md.evict cfg now).entries, y.2.isEmpty = false ∧ ∃ x ∈ md.entries, y.1 = x.1 ∧
      ∀ seriesID ts, y.2.mutable.getTStoreBySeriesID seriesID = some ts ↔
        x.2.mutable.getTStoreBySeriesID seriesID = some ts ∧
          ¬(ts.isExpired now cfg.tStoreExpiredDuration = true ∧ ts.isNoData = true) := by
  refine ⟨fun s => ⟨fun hs => ?_, fun hs => ?_⟩, fun y hy => ?_⟩
  · obtain ⟨y, hy, hs⟩ := mem_segments.mp hs
    obtain ⟨x, hx, -, rfl⟩ := mem_evict_entries.mp hy
    exact mem_segments.mpr ⟨x, hx, MStore.evict_segments_subset _ hs⟩
  · obtain ⟨x, hx, hs⟩ := mem_segments.mp hs
    have hs' : s ∈ (x.2.evict now cfg.tStoreExpiredDuration).1.segments x.1 := MStore.evict_forth _ hs
    by_cases he : (x.2.evict now cfg.tStoreExpiredDuration).1.isEmpty
    · simp [MStore.segments_eq_nil_of_isEmpty he] at hs'
    · exact mem_segments.mpr ⟨_, mem_evict_entries.mpr ⟨x, hx, by simpa using he, rfl⟩, hs'⟩
  · obtain ⟨x, hx, he, rfl⟩ := mem_evict_entries.mp hy
    exact ⟨he, x, hx, rfl, fun _ _ => MStore.getTStoreBySeriesID_evict⟩

theorem evictBucket_stable (cfg : Config) (now : Int) : ∀ (b : Bucket B) (size : Int) (ids : List (Nat × UInt64)),
    (∀ x ∈ b, x.2.evict now cfg.tStoreExpiredDuration = (x.2, 0) ∧ x.2.isEmpty = false) →
    (b ≠ [] → toInt32 size = size) → evictBucket cfg now b size ids = (b, size, ids)
  | [], _, _, _, _ => rfl
  | (hash, ms) :: rest, size, ids, hb, hs => by
    obtain ⟨he, hne⟩ := hb _ (List.mem_cons_self _ _)
    have hsize : toInt32 (size - toInt32 0) = size := by simpa using hs (List.cons_ne_nil _ _)
    have hrest := evictBucket_stable cfg now rest size ids (fun x hx => hb x (List.mem_cons_of_mem _ hx))
      fun _ => hs (List.cons_ne_nil _ _)
    simp only [evictBucket, he, hne, hsize, hrest]
    rfl

theorem evictBuckets_stable (cfg : Config) (now : Int) :
    ∀ (l : List (Bucket B)) (size : Int) (ids : List (Nat × UInt64)),
    (∀ b ∈ l, ∀ x ∈ b, x.2.evict now cfg.tStoreExpiredDuration = (x.2, 0) ∧ x.2.isEmpty = false) →
    (l.flatten ≠ [] → toInt32 size = size) → evictBuckets cfg now l size ids = (l, size, ids)
  | [], _, _, _, _ => rfl
  | b :: rest, size, ids, hl, hs => by
    have hb := evictBucket_stable cfg now b size ids (hl b (List.mem_cons_self _ _))
      fun hne => hs (by rw [List.flatten_cons]; exact fun h => hne (List.append_eq_nil.mp h).1)
    have hrest := evictBuckets_stable cfg now rest size ids (fun b hb => hl b (List.mem_cons_of_mem _ hb))
      fun hne => hs (by rw [List.flatten_cons]; exact fun h => hne (List.append_eq_nil.mp h).2)
    simp only [evictBuckets, hb, hrest]

theorem evictBucket_size (cfg : Config) (now : Int) : ∀ (b : Bucket B) (size : Int) (ids : List (Nat × UInt64)),
    (b ≠ [] ∨ toInt32 size = size) → toInt32 (evictBucket cfg now b size ids).2.1 = (evictBucket cfg now b size ids).2.1
  | [], _, _, h => h.resolve_left fun h => h rfl
  | (hash, ms) :: rest, size, ids, _ => by
    simp only [evictBucket]
    split_ifs <;> exact evictBucket_size cfg now rest _ _ (.inr (toInt32_toInt32 _))

theorem evictBuckets_size (cfg : Config) (now : Int) :
    ∀ (l : List (Bucket B)) (size : Int) (ids : List (Nat × UInt64)),
    (l.flatten ≠ [] ∨ toInt32 size = size) → toInt32 (evictBuckets cfg now l size ids).2.1 = (evictBuckets cfg now l size ids).2.1
  | [], _, _, h => h.resolve_left fun h => h rfl
  | b :: rest, size, ids, h => by
    refine evictBuckets_size cfg now rest _ _ ?_
    by_cases hb : b = []
    · subst hb
      simpa [evictBucket] using h
    · exact .inr (evictBucket_size cfg now b size ids (.inl hb))

/-- An evictor pass is idempotent: a second pass at the same time leaves the database, its buckets, its
    size counter and its id map, as the first left it. -/
theorem evict_idempotent (cfg : Config) (md : MemDB B) (now : Int) : (md.evict cfg now).evict cfg now = md.evict cfg now := by
  have hstores : ∀ b ∈ (md.evict cfg now).mStoresList, ∀ x ∈ b,
      x.2.evict now cfg.tStoreExpiredDuration = (x.2, 0) ∧ x.2.isEmpty = false := fun b hb x hx => by
    obtain ⟨y, -, he, rfl⟩ := mem_evict_entries.mp (mem_entries.mpr ⟨b, hb, hx⟩)
    exact ⟨MStore.evict_evict, he⟩
  have hsize : (md.evict cfg now).mStoresList.flatten ≠ [] → toInt32 (md.evict cfg now).size = (md.evict cfg now).size := by
    intro hne
    obtain ⟨y, hy⟩ := List.exists_mem_of_ne_nil _ hne
    obtain ⟨x, hx, -⟩ := mem_evict_entries.mp hy
    exact evictBuckets_size cfg now _ _ _ (.inl (List.ne_nil_of_mem hx))
  simp only [evict] at hsize hstores ⊢
  rw [evictBuckets_stable cfg now _ _ _ hstores hsize]

end MemDB

end Lindb.Memdb

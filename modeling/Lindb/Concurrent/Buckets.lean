import Lindb.Concurrent.Steps

/-! The buckets against the heap (§4.5): each entry under the bucket of its hash, once, at the address of
    a store of that hash's metric (`SharedOk`), in every state any interleaving reaches. -/

namespace Lindb.Memdb
namespace Concurrent

variable {B : Type}

/-! ### Bucket look-ups after a section -/

namespace Shared

variable {cfg : Config} {s s' : Shared B}

theorem getAddr_mem {hash : UInt64} {a : Nat} (h : s.getAddr cfg hash = some a) :
    ∃ b, s.mStoresList[getBucketIndex cfg hash]? = some b ∧ (hash, a) ∈ b := by
  unfold getAddr at h
  rw [List.getD_eq_getElem?_getD] at h
  rcases Option.eq_none_or_eq_some (s.mStoresList[getBucketIndex cfg hash]?) with hb | ⟨b, hb⟩
  · simp [hb] at h
  · rw [hb, Option.getD_some] at h
    exact ⟨b, hb, mem_of_mapLoad h⟩

theorem getAddr_of_add {H : UInt64} {a : Nat} (hlen : getBucketIndex cfg H < s.mStoresList.length)
    (hnone : s.getAddr cfg H = none)
    (h : s'.mStoresList = s.mStoresList.modify (· ++ [(H, a)]) (getBucketIndex cfg H)) (hash : UInt64) :
    s'.getAddr cfg hash = if H = hash then some a else s.getAddr cfg hash := by
  obtain ⟨b, hb⟩ : ∃ b, s.mStoresList[getBucketIndex cfg H]? = some b := ⟨_, List.getElem?_eq_getElem hlen⟩
  have hbH : mapLoad b H = none := by simpa [getAddr, List.getD_eq_getElem?_getD, hb] using hnone
  unfold getAddr
  rw [h, List.getD_eq_getElem?_getD, List.getD_eq_getElem?_getD]
  by_cases hi : getBucketIndex cfg H = getBucketIndex cfg hash
  · rw [← hi, List.getElem?_modify_eq, hb]
    by_cases hH : H = hash
    · subst hH; simp [mapLoad_append, hbH]
    · simp [mapLoad_append, hH]
  · have hH : H ≠ hash := fun h => hi (h ▸ rfl)
    rw [List.getElem?_modify_ne _ _ hi]
    simp [hH]

theorem getAddr_of_delete {H : UInt64} {i : Nat} (hi : getBucketIndex cfg H = i)
    (h : s'.mStoresList = s.mStoresList.modify (mapDelete · H) i) (hash : UInt64) :
    s'.getAddr cfg hash = if H = hash then none else s.getAddr cfg hash := by
  unfold getAddr
  rw [h, List.getD_eq_getElem?_getD, List.getD_eq_getElem?_getD]
  by_cases hb : i = getBucketIndex cfg hash
  · subst hb
    rw [List.getElem?_modify_eq]
    rcases Option.eq_none_or_eq_some (s.mStoresList[getBucketIndex cfg hash]?) with hl | ⟨b, hl⟩ <;>
      by_cases hH : H = hash <;> simp [hl, hH, mapLoad_mapDelete]
  · have hH : H ≠ hash := fun h => hb (hi ▸ h ▸ rfl)
    rw [List.getElem?_modify_ne _ _ hb]
    simp [hH]

end Shared

/-! ### The invariant -/

/-- What every reachable shared state keeps, whatever the generator. -/
structure SharedOk (cfg : Config) (s : Shared B) : Prop where
  length : s.mStoresList.length = cfg.shardingCountMask.toNat + 1
  placed : ∀ i b, s.mStoresList[i]? = some b → ∀ x ∈ b, getBucketIndex cfg x.1 = i
  keys : ∀ b ∈ s.mStoresList, (b.map (·.1)).Nodup
  named : ∀ b ∈ s.mStoresList, ∀ x ∈ b, ∃ ms, s.heap[x.2]? = some ms ∧
    ∃ name, cfg.hash name = x.1 ∧ ms.metricID = cfg.generator.genMetricID name
  addrs : ∀ b ∈ s.mStoresList, ∀ b' ∈ s.mStoresList, ∀ x ∈ b, ∀ y ∈ b', x.2 = y.2 → x.1 = y.1
  idsFresh : ∀ ms ∈ s.heap, ms.mutable.IdsFresh

theorem HeapStep.idsFresh {h h' : List (MStore B)} (hs : HeapStep h h') (hf : ∀ ms ∈ h, ms.mutable.IdsFresh) :
    ∀ ms' ∈ h', ms'.mutable.IdsFresh := by
  intro ms' hms'
  obtain ⟨a, ha⟩ := List.mem_iff_getElem?.mp hms'
  rcases Option.eq_none_or_eq_some h[a]? with hn | ⟨ms, hms⟩
  · exact (hs.fresh a ms' ha hn).2
  · obtain ⟨ms'', h'', hst⟩ := hs.forth a ms hms
    cases ha.symm.trans h''
    exact hst.idsFresh (hf ms (List.getElem?_mem hms))

namespace SharedOk

variable {cfg : Config} {s s' : Shared B}

theorem named_of_getAddr (h : SharedOk cfg s) {hash : UInt64} {a : Nat} (ha : s.getAddr cfg hash = some a) :
    ∃ ms, s.heap[a]? = some ms ∧ ∃ name, cfg.hash name = hash ∧ ms.metricID = cfg.generator.genMetricID name := by
  obtain ⟨b, hb, hmem⟩ := Shared.getAddr_mem ha
  exact h.named b (List.getElem?_mem hb) _ hmem

theorem lt_length (h : SharedOk cfg s) {b : List (UInt64 × Nat)} (hb : b ∈ s.mStoresList) {x : UInt64 × Nat}
    (hx : x ∈ b) : x.2 < s.heap.length :=
  let ⟨_, hms, _⟩ := h.named b hb x hx
  (List.getElem?_eq_some_iff.mp hms).1

theorem frame (h : SharedOk cfg s) (hs : HeapStep s.heap s'.heap) (hm : SameMaps s s') : SharedOk cfg s' := by
  refine ⟨hm.1 ▸ h.length, hm.1 ▸ h.placed, hm.1 ▸ h.keys, fun b hb x hx => ?_, hm.1 ▸ h.addrs,
    hs.idsFresh h.idsFresh⟩
  obtain ⟨ms, hms, name, hname, hmid⟩ := h.named b (hm.1 ▸ hb) x hx
  obtain ⟨ms', h', hst⟩ := hs.forth _ ms hms
  exact ⟨ms', h', name, hname, hst.metricID.trans hmid⟩

section Create
variable [Block B] {name : String} {now : Int}

theorem mem_createMStore {b : List (UInt64 × Nat)} (hb : b ∈ (s.createMStore cfg name now).mStoresList)
    {x : UInt64 × Nat} (hx : x ∈ b) : (∃ b ∈ s.mStoresList, x ∈ b) ∨ x = (cfg.hash name, s.heap.length) := by
  rcases mem_modify_back hb with hb | ⟨b', hb', rfl⟩
  · exact .inl ⟨b, hb, hx⟩
  · rcases List.mem_append.mp hx with hx | hx
    · exact .inl ⟨b', List.getElem?_mem hb', hx⟩
    · exact .inr (List.mem_singleton.mp hx)

theorem createMStore_heap_of_lt {a : Nat} (ha : a < s.heap.length) :
    (s.createMStore cfg name now).heap[a]? = s.heap[a]? := by
  rw [Shared.createMStore_heap, List.getElem?_append_left ha]

theorem createMStore_heap_length :
    (s.createMStore cfg name now).heap[s.heap.length]? = some (newMetricStore (cfg.generator.genMetricID name) now) := by
  rw [Shared.createMStore_heap, List.getElem?_concat_length]

theorem create (h : SharedOk cfg s) (hnone : s.getAddr cfg (cfg.hash name) = none) :
    SharedOk cfg (s.createMStore cfg name now) := by
  have hlen : getBucketIndex cfg (cfg.hash name) < s.mStoresList.length := h.length ▸ getBucketIndex_lt cfg _
  obtain ⟨b₀, hb₀⟩ : ∃ b, s.mStoresList[getBucketIndex cfg (cfg.hash name)]? = some b :=
    ⟨_, List.getElem?_eq_getElem hlen⟩
  have hfresh : ∀ a, (cfg.hash name, a) ∉ b₀ := mapLoad_eq_none.mp <| by
    simpa [Shared.getAddr, List.getD_eq_getElem?_getD, hb₀] using hnone
  refine ⟨by simp [h.length], fun i b hb x hx => ?placed, fun b hb => ?keys, fun b hb x hx => ?named,
    fun b hb b' hb' x hx y hy hxy => ?addrs, fun ms hms => ?idsFresh⟩
  case placed =>
    by_cases hi : getBucketIndex cfg (cfg.hash name) = i
    · subst hi
      rw [Shared.createMStore_mStoresList, List.getElem?_modify_eq, hb₀] at hb
      cases hb
      rcases List.mem_append.mp hx with hx | hx
      · exact h.placed _ _ hb₀ x hx
      · rw [List.mem_singleton.mp hx]
    · rw [Shared.createMStore_mStoresList, List.getElem?_modify_ne _ _ hi] at hb
      exact h.placed i b hb x hx
  case keys =>
    rcases mem_modify_back hb with hb | ⟨b', hb', rfl⟩
    · exact h.keys b hb
    · cases hb₀.symm.trans hb'
      simpa [List.nodup_append, h.keys _ (List.getElem?_mem hb₀)] using hfresh
  case named =>
    rcases mem_createMStore hb hx with ⟨b', hb', hx'⟩ | rfl
    · obtain ⟨ms, hms, hname⟩ := h.named b' hb' x hx'
      exact ⟨ms, by rw [createMStore_heap_of_lt (h.lt_length hb' hx'), hms], hname⟩
    · exact ⟨_, createMStore_heap_length, name, rfl, rfl⟩
  case addrs =>
    -- an old entry's address is below the new one's
    rcases mem_createMStore hb hx with ⟨b₁, hb₁, hx₁⟩ | rfl <;> rcases mem_createMStore hb' hy with ⟨b₂, hb₂, hy₂⟩ | rfl
    · exact h.addrs b₁ hb₁ b₂ hb₂ x hx₁ y hy₂ hxy
    · exact absurd hxy (h.lt_length hb₁ hx₁).ne
    · exact absurd hxy.symm (h.lt_length hb₂ hy₂).ne
    · rfl
  case idsFresh =>
    rw [Shared.createMStore_heap, List.mem_append, List.mem_singleton] at hms
    rcases hms with hms | rfl
    · exact h.idsFresh ms hms
    · intro x hx; simp [newMetricStore, newTagIndex] at hx

end Create

theorem delete (h : SharedOk cfg s) {i : Nat} {hash : UInt64}
    (hb : s'.mStoresList = s.mStoresList.modify (mapDelete · hash) i) (hheap : s'.heap = s.heap) : SharedOk cfg s' := by
  -- every bucket after the section is a sublist of one before it
  have hsub : ∀ b ∈ s'.mStoresList, ∃ b' ∈ s.mStoresList, b.Sublist b' := by
    intro b hbm
    rw [hb] at hbm
    rcases mem_modify_back hbm with hbm | ⟨b', hb', rfl⟩
    · exact ⟨b, hbm, List.Sublist.refl b⟩
    · exact ⟨b', List.getElem?_mem hb', List.filter_sublist _⟩
  refine ⟨by simp [hb, h.length], fun j b hbj x hx' => ?placed, fun b hb' => ?keys, fun b hb' x hx' => ?named,
    fun b hb' b' hb'' x hx y hy hxy => ?addrs, hheap ▸ h.idsFresh⟩
  case placed =>
    rw [hb] at hbj
    by_cases hij : i = j
    · subst hij
      rw [List.getElem?_modify_eq] at hbj
      obtain ⟨b₀, hb₀, rfl⟩ := Option.map_eq_some'.mp hbj
      exact h.placed i b₀ hb₀ x (List.mem_of_mem_filter hx')
    · rw [List.getElem?_modify_ne _ _ hij] at hbj
      exact h.placed j b hbj x hx'
  case keys =>
    obtain ⟨b', hb'', hs⟩ := hsub b hb'
    exact (h.keys b' hb'').sublist (hs.map _)
  case named =>
    obtain ⟨b', hb'', hs⟩ := hsub b hb'
    rw [hheap]
    exact h.named b' hb'' x (hs.subset hx')
  case addrs =>
    obtain ⟨b₁, hb₁, hs₁⟩ := hsub b hb'
    obtain ⟨b₂, hb₂, hs₂⟩ := hsub b' hb''
    exact h.addrs b₁ hb₁ b₂ hb₂ x (hs₁.subset hx) y (hs₂.subset hy) hxy

theorem stepThread [Block B] (h : SharedOk cfg s) {t t' : Thread} (hst : Concurrent.stepThread cfg s t = some (s', t')) :
    SharedOk cfg s' := by
  cases t with
  | writer metric now pc =>
    obtain ⟨r, hr, hrr⟩ := Option.map_eq_some'.mp hst; cases hrr
    obtain ⟨hheap, hsm | ⟨-, hnone, hr'⟩⟩ := stepWriter_cases hr
    · exact h.frame hheap hsm
    · exact hr' ▸ h.create hnone
  | limiter pc =>
    obtain ⟨r, hr, hrr⟩ := Option.map_eq_some'.mp hst; cases hrr
    obtain ⟨hheap, hsm⟩ := stepLimiter_cases hr
    exact h.frame hheap hsm
  | evictor now pc =>
    obtain ⟨r, hr, hrr⟩ := Option.map_eq_some'.mp hst; cases hrr
    obtain ⟨hheap, hsm | ⟨_, _, _, _, _, -, -, -, -, hb, -, hh⟩, -⟩ := stepEvictor_cases hr
    · exact h.frame hheap hsm
    · exact h.delete hb hh

theorem init (cfg : Config) : SharedOk cfg (Shared.init cfg : Shared B) := by
  have hnil : ∀ b ∈ (Shared.init cfg : Shared B).mStoresList, b = [] := fun b hb => List.eq_of_mem_replicate hb
  refine ⟨by simp [Shared.init], fun i b hb x hx => ?_, fun b hb => ?_, fun b hb x hx => ?_,
    fun b hb b' _ x hx => ?_, fun ms hms => by simp [Shared.init] at hms⟩
  · cases hnil b (List.getElem?_mem hb); cases hx
  · rw [hnil b hb]; exact List.nodup_nil
  · cases hnil b hb; cases hx
  · cases hnil b hb; cases hx

theorem of_reachable [Block B] {sys : Sys B} (h : Reachable cfg sys) : SharedOk cfg sys.shared := by
  induction h with
  | init => exact init cfg
  | step _ happly ih =>
    rcases Sys.apply_cases happly with ⟨hs, -⟩ | ⟨_, _, _, -, hst, -⟩
    · exact hs ▸ ih
    · exact ih.stepThread hst

/-! ### What a reader sees -/

theorem getMStoreByMetricHash (h : SharedOk cfg s) (hash : UInt64) :
    s.toMemDB.getMStoreByMetricHash cfg hash = (s.getAddr cfg hash).bind (s.heap[·]?) := by
  simp only [MemDB.getMStoreByMetricHash, MemDB.getBucket, Shared.toMemDB, Shared.getAddr,
    List.getD_eq_getElem?_getD, List.getElem?_map]
  rcases Option.eq_none_or_eq_some (s.mStoresList[getBucketIndex cfg hash]?) with hb | ⟨b, hb⟩
  · simp [hb]
  · rw [hb, Option.map_some', Option.getD_some, Option.getD_some]
    refine mapLoad_filterMap _ fun x hx => ?_
    obtain ⟨ms, hms, -⟩ := h.named b (List.getElem?_mem hb) x hx
    simp [hms]

theorem hashes_nodup (h : SharedOk cfg s) : (s.mStoresList.flatten.map (·.1)).Nodup := by
  rw [List.map_flatten, List.nodup_flatten, List.pairwise_map]
  refine ⟨fun l hl => ?_, List.pairwise_iff_getElem.mpr fun i j hi hj hij a hai haj => ?_⟩
  · obtain ⟨b, hb, rfl⟩ := List.mem_map.mp hl
    exact h.keys b hb
  · -- an entry of bucket `i` and one of bucket `j` sit under their hashes' buckets
    obtain ⟨x, hx, rfl⟩ := List.mem_map.mp hai
    obtain ⟨y, hy, hxy⟩ := List.mem_map.mp haj
    have hpi := h.placed i _ (List.getElem?_eq_getElem hi) x hx
    have hpj := h.placed j _ (List.getElem?_eq_getElem hj) y hy
    rw [hxy] at hpj
    omega

theorem addrs_nodup (h : SharedOk cfg s) : (s.mStoresList.flatten.map (·.2)).Nodup := by
  refine List.Nodup.map_on (fun x hx y hy hxy => ?_) (h.hashes_nodup.of_map _)
  obtain ⟨b, hb, hx⟩ := List.mem_flatten.mp hx
  obtain ⟨b', hb', hy⟩ := List.mem_flatten.mp hy
  exact Prod.ext (h.addrs b hb b' hb' x hx y hy hxy) hxy

theorem getAddr_of_mem (h : SharedOk cfg s) {b : List (UInt64 × Nat)} (hb : b ∈ s.mStoresList) {x : UInt64 × Nat}
    (hx : x ∈ b) : s.getAddr cfg x.1 = some x.2 := by
  obtain ⟨i, hi⟩ := List.mem_iff_getElem?.mp hb
  rw [Shared.getAddr, List.getD_eq_getElem?_getD, h.placed i b hi x hx, hi, Option.getD_some]
  exact mapLoad_of_mem (h.keys b hb) hx

theorem of_mem_getD (h : SharedOk cfg s) {i : Nat} {x : UInt64 × Nat} (hx : x ∈ s.mStoresList.getD i []) :
    getBucketIndex cfg x.1 = i ∧ s.getAddr cfg x.1 = some x.2 ∧ ∃ ms, s.heap[x.2]? = some ms := by
  rw [List.getD_eq_getElem?_getD] at hx
  obtain ⟨b, hb, hxb⟩ : ∃ b, s.mStoresList[i]? = some b ∧ x ∈ b := by
    cases hb : s.mStoresList[i]? <;> simp_all
  obtain ⟨ms, hms, -⟩ := h.named b (List.getElem?_mem hb) x hxb
  exact ⟨h.placed i b hb x hxb, h.getAddr_of_mem (List.getElem?_mem hb) hxb, ms, hms⟩

theorem getAddr_of_mem_entries (h : SharedOk cfg s) {x : UInt64 × MStore B} (hx : x ∈ s.toMemDB.entries) :
    ∃ a, s.getAddr cfg x.1 = some a ∧ s.heap[a]? = some x.2 := by
  obtain ⟨b, hb, hxb⟩ := MemDB.mem_entries.mp hx
  obtain ⟨b₀, hb₀, rfl⟩ := List.mem_map.mp hb
  obtain ⟨y, hy, hyx⟩ := List.mem_filterMap.mp hxb
  obtain ⟨ms, hms, rfl⟩ := Option.map_eq_some'.mp hyx
  exact ⟨y.2, h.getAddr_of_mem hb₀ hy, hms⟩

theorem segments_subset (h : SharedOk cfg s) (h' : SharedOk cfg s')
    (hkeep : ∀ hash a ms, s.getAddr cfg hash = some a → s.heap[a]? = some ms → ms.segments hash ≠ [] →
      s'.getAddr cfg hash = some a ∧ ∃ ms', s'.heap[a]? = some ms' ∧ ms.segments hash ⊆ ms'.segments hash) :
    s.toMemDB.segments ⊆ s'.toMemDB.segments := by
  intro k hk
  obtain ⟨x, hx, hkx⟩ := MemDB.mem_segments.mp hk
  obtain ⟨a, haddr, hms⟩ := h.getAddr_of_mem_entries hx
  obtain ⟨haddr', ms', hms', hsub⟩ := hkeep x.1 a x.2 haddr hms (List.ne_nil_of_mem hkx)
  have hget : s'.toMemDB.getMStoreByMetricHash cfg x.1 = some ms' := by
    rw [h'.getMStoreByMetricHash, haddr', Option.some_bind, hms']
  exact MemDB.mem_segments.mpr ⟨_, MemDB.getMStoreByMetricHash_mem hget, hsub hkx⟩

end SharedOk

/-- No metric hash has two entries and no two entries share a store: `getOrCreateMStore` looks the hash
    up again under the bucket's lock before it creates one. -/
theorem Reachable.one_store_per_hash [Block B] {cfg : Config} {sys : Sys B} (h : Reachable cfg sys) :
    (sys.shared.mStoresList.flatten.map (·.1)).Nodup ∧ (sys.shared.mStoresList.flatten.map (·.2)).Nodup ∧
      ∀ x ∈ sys.shared.mStoresList.flatten, ∃ ms, sys.shared.heap[x.2]? = some ms ∧
        sys.shared.toMemDB.getMStoreByMetricHash cfg x.1 = some ms ∧
        ∃ name, cfg.hash name = x.1 ∧ ms.metricID = cfg.generator.genMetricID name := by
  have hok := SharedOk.of_reachable h
  refine ⟨hok.hashes_nodup, hok.addrs_nodup, fun x hx => ?_⟩
  obtain ⟨b, hb, hxb⟩ := List.mem_flatten.mp hx
  obtain ⟨ms, hms, hname⟩ := hok.named b hb x hxb
  exact ⟨ms, hms, by rw [hok.getMStoreByMetricHash, hok.getAddr_of_mem hb hxb, Option.some_bind, hms], hname⟩

namespace Sample
open Memdb.Sample

/-- After the first `Write`s of `cpu` and `mem`, their sections interleaved. -/
theorem one_store_per_hash_written : ∃ sys : Sys Nat, Reachable config sys ∧ sys.shared.heap.length = 2 ∧
    (sys.shared.mStoresList.flatten.map (·.1)).Nodup ∧ (sys.shared.mStoresList.flatten.map (·.2)).Nodup ∧
    ∀ x ∈ sys.shared.mStoresList.flatten, ∃ ms, sys.shared.heap[x.2]? = some ms ∧
      sys.shared.toMemDB.getMStoreByMetricHash config x.1 = some ms ∧
      ∃ name, config.hash name = x.1 ∧ ms.metricID = config.generator.genMetricID name :=
  let ⟨sys, hr, hp⟩ := exists_reachable_of_run (p := fun sys : Sys Nat => sys.shared.heap.length = 2)
    [.write (point "cpu" 100) 1, .write (point "mem" 100) 1, .step 0, .step 1, .step 0, .step 1] (by decide)
  ⟨sys, hr, hp, Reachable.one_store_per_hash hr⟩

end Sample

end Concurrent
end Lindb.Memdb

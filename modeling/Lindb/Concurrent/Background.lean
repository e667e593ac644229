import Lindb.Concurrent.Solo

/-! The background tasks run alone (§4.4, §4.5, §5): from any state that keeps `SharedOk`, an evictor pass
    or a `setLimitations` with no other thread moving ends, and a reader then sees what the sequential
    `MemDB.evict` or `MemDB.setLimitations` leaves. -/

namespace Lindb.Memdb
namespace Concurrent

variable {B : Type}

theorem set_congr {α : Type} {l l' : List α} {i : Nat} (a : α) (hlen : l.length = l'.length)
    (h : ∀ j, j ≠ i → l[j]? = l'[j]?) : l.set i a = l'.set i a :=
  List.ext_getElem? fun j => by
    by_cases hij : i = j
    · subst hij; simp [List.getElem?_set, hlen]
    · rw [List.getElem?_set_ne hij, List.getElem?_set_ne hij, h j (Ne.symm hij)]

theorem mapDelete_middle {pre rest : List (UInt64 × Nat)} {hash : UInt64} {addr : Nat}
    (h : ((pre ++ (hash, addr) :: rest).map (·.1)).Nodup) : mapDelete (pre ++ (hash, addr) :: rest) hash = pre ++ rest := by
  rw [List.map_append, List.map_cons, List.nodup_middle, List.nodup_cons, ← List.map_append] at h
  have hne : ∀ x ∈ pre ++ rest, x.1 ≠ hash := fun x hx hxk => h.1 (hxk ▸ List.mem_map_of_mem (·.1) hx)
  simp only [mapDelete, List.filter_append, List.filter_cons, ne_eq, not_true_eq_false, decide_False,
    Bool.false_eq_true, if_false]
  rw [List.filter_eq_self.mpr fun x hx => by simpa using hne x (List.mem_append_left _ hx),
    List.filter_eq_self.mpr fun x hx => by simpa using hne x (List.mem_append_right _ hx)]

/-! ### The reader's buckets -/

namespace Shared
variable {s s' : Shared B}

/-- The reader's bucket of the entries `b`: each hash with the store at its address. -/
def readBucket (s : Shared B) (b : List (UInt64 × Nat)) : Bucket B :=
  b.filterMap fun x => (s.heap[x.2]?).map (x.1, ·)

theorem toMemDB_mStoresList : s.toMemDB.mStoresList = s.mStoresList.map s.readBucket := rfl

@[simp] theorem readBucket_nil : s.readBucket [] = [] := rfl

theorem readBucket_append (b b' : List (UInt64 × Nat)) : s.readBucket (b ++ b') = s.readBucket b ++ s.readBucket b' :=
  List.filterMap_append _ _ _

theorem readBucket_cons {hash : UInt64} {a : Nat} {ms : MStore B} (h : s.heap[a]? = some ms) (b : List (UInt64 × Nat)) :
    s.readBucket ((hash, a) :: b) = (hash, ms) :: s.readBucket b := by
  simp [readBucket, h]

theorem readBucket_congr {b : List (UInt64 × Nat)} (h : ∀ x ∈ b, s'.heap[x.2]? = s.heap[x.2]?) :
    s'.readBucket b = s.readBucket b :=
  List.filterMap_congr fun x hx => by rw [h x hx]

theorem toMemDB_with {s s' : Shared B} (hl : s'.lastWroteFamilyTime = s.lastWroteFamilyTime)
    (hf : s'.familyTimes = s.familyTimes) (L : List (Bucket B)) (ids : List (Nat × UInt64)) (size : Int) :
    { s'.toMemDB with mStoresList := L, metricID2Hash := ids, size := size } =
      { s.toMemDB with mStoresList := L, metricID2Hash := ids, size := size } := by
  simp only [toMemDB, hl, hf]

theorem toMemDB_set_congr {i : Nat} (hlen : s'.mStoresList.length = s.mStoresList.length)
    (hj : ∀ j, j ≠ i → s'.mStoresList[j]? = s.mStoresList[j]?)
    (hread : ∀ j b, j ≠ i → s.mStoresList[j]? = some b → s'.readBucket b = s.readBucket b) (X : Bucket B) :
    s'.toMemDB.mStoresList.set i X = s.toMemDB.mStoresList.set i X := by
  refine set_congr X (by simp [toMemDB_mStoresList, hlen]) fun j hji => ?_
  simp only [toMemDB_mStoresList, List.getElem?_map, hj j hji]
  rcases hb : s.mStoresList[j]? with _ | b
  · rfl
  · simp [hread j b hji hb]

end Shared

namespace SharedOk
variable {cfg : Config} {s : Shared B}

theorem addr_unique (h : SharedOk cfg s) {i : Nat} {pre rest : List (UInt64 × Nat)} {hash : UInt64} {addr : Nat}
    (hb : s.mStoresList[i]? = some (pre ++ (hash, addr) :: rest)) {j : Nat} {b : List (UInt64 × Nat)}
    (hj : s.mStoresList[j]? = some b) {x : UInt64 × Nat} (hx : x ∈ b) (hxa : x.2 = addr) :
    j = i ∧ x ∉ pre ++ rest := by
  have hmem : (hash, addr) ∈ pre ++ (hash, addr) :: rest := by simp
  have hx1 : x.1 = hash := h.addrs b (List.getElem?_mem hj) _ (List.getElem?_mem hb) x hx (hash, addr) hmem hxa
  have hkeys := h.keys _ (List.getElem?_mem hb)
  rw [List.map_append, List.map_cons, List.nodup_middle, List.nodup_cons, ← List.map_append] at hkeys
  exact ⟨(h.placed j b hj x hx).symm.trans (hx1 ▸ h.placed i _ hb _ hmem),
    fun hx' => hkeys.1 (hx1 ▸ List.mem_map_of_mem (·.1) hx')⟩

end SharedOk

section Block
variable [Block B] {cfg : Config} {s : Shared B}

theorem solo_evictEntry (cfg : Config) (now : Int) (i : Nat) {hash : UInt64} {addr : Nat}
    {rest : List (UInt64 × Nat)} {ms : MStore B} (hms : s.heap[addr]? = some ms) :
    Solo cfg s (.evictor now (.firstCheck i ((hash, addr) :: rest)))
      (if (ms.evict now cfg.tStoreExpiredDuration).1.isEmpty then
        (s.evictTStores addr ms (ms.doubleCheckEvictList (ms.evictList now cfg.tStoreExpiredDuration) now
          cfg.tStoreExpiredDuration)).deleteMStore i hash (ms.evict now cfg.tStoreExpiredDuration).1
      else s.evictTStores addr ms (ms.doubleCheckEvictList (ms.evictList now cfg.tStoreExpiredDuration) now
          cfg.tStoreExpiredDuration)) (.evictor now (.firstCheck i rest)) := by
  have hlen : addr < s.heap.length := (List.getElem?_eq_some_iff.mp hms).1
  have hms₁ : (s.evictTStores addr ms (ms.doubleCheckEvictList (ms.evictList now cfg.tStoreExpiredDuration) now
      cfg.tStoreExpiredDuration)).heap[addr]? = some (ms.evict now cfg.tStoreExpiredDuration).1 := by
    simp [Shared.evictTStores, hlen, MStore.evict]
  refine .step (by simp only [stepThread, stepEvictor, hms, Option.map_some']; rfl)
    (.step (by simp only [stepThread, stepEvictor, hms, Option.map_some']; rfl)
    (.step (by simp only [stepThread, stepEvictor, hms₁, Option.map_some']; rfl) ?_))
  split
  · exact .step (by simp only [stepThread, stepEvictor, hms₁, Option.map_some']) (.refl _ _)
  · exact .refl _ _

@[simp] theorem Shared.deleteMStore_lastWroteFamilyTime (s : Shared B) (bucket : Nat) (hash : UInt64) (ms : MStore B) :
    (s.deleteMStore bucket hash ms).lastWroteFamilyTime = s.lastWroteFamilyTime := by
  unfold Shared.deleteMStore
  split <;> rfl

@[simp] theorem Shared.deleteMStore_familyTimes (s : Shared B) (bucket : Nat) (hash : UInt64) (ms : MStore B) :
    (s.deleteMStore bucket hash ms).familyTimes = s.familyTimes := by
  unfold Shared.deleteMStore
  split <;> rfl

@[simp] theorem Shared.deleteMStore_size (s : Shared B) (bucket : Nat) (hash : UInt64) (ms : MStore B) :
    (s.deleteMStore bucket hash ms).size = toInt32 (s.size - toInt32 ms.memSize) := by
  unfold Shared.deleteMStore
  split <;> rfl

theorem Shared.deleteMStore_of_isEmpty (s : Shared B) (bucket : Nat) (hash : UInt64) {ms : MStore B}
    (h : ms.isEmpty = true) :
    (s.deleteMStore bucket hash ms).mStoresList = s.mStoresList.modify (mapDelete · hash) bucket ∧
      (s.deleteMStore bucket hash ms).metricID2Hash = mapDelete s.metricID2Hash ms.metricID := by
  unfold Shared.deleteMStore
  rw [if_pos h]
  exact ⟨rfl, rfl⟩

theorem solo_evictBucket (now : Int) (i : Nat) : ∀ (rest pre : List (UInt64 × Nat)) (s : Shared B), SharedOk cfg s →
    s.mStoresList[i]? = some (pre ++ rest) →
    ∃ s', Solo cfg s (.evictor now (.firstCheck i rest)) s' (.evictor now (.snapshot (i + 1))) ∧
      (∀ j, j ≠ i → s'.mStoresList[j]? = s.mStoresList[j]?) ∧
      s'.toMemDB = { s.toMemDB with
        mStoresList := s.toMemDB.mStoresList.set i
          (s.readBucket pre ++ (evictBucket cfg now (s.readBucket rest) s.size s.metricID2Hash).1)
        size := (evictBucket cfg now (s.readBucket rest) s.size s.metricID2Hash).2.1
        metricID2Hash := (evictBucket cfg now (s.readBucket rest) s.size s.metricID2Hash).2.2 }
  | [], pre, s, _, hb => by
    refine ⟨s, .step (by simp only [stepThread, stepEvictor, Option.map_some']) (.refl _ _), fun _ _ => rfl, ?_⟩
    have hi : s.toMemDB.mStoresList[i]? = some (s.readBucket pre) := by
      simp [Shared.toMemDB_mStoresList, hb]
    simp only [Shared.readBucket_nil, evictBucket, List.append_nil, set_of_getElem? hi]
    rfl
  | (hash, addr) :: rest, pre, s, h, hb => by
    obtain ⟨ms, hms, -⟩ := h.named _ (List.getElem?_mem hb) (hash, addr) (by simp)
    have hlen : addr < s.heap.length := (List.getElem?_eq_some_iff.mp hms).1
    set d := cfg.tStoreExpiredDuration
    set e := ms.evict now d with he
    set s₁ := s.evictTStores addr ms (ms.doubleCheckEvictList (ms.evictList now d) now d) with hs₁
    have hentry : Solo cfg s (.evictor now (.firstCheck i ((hash, addr) :: rest))) _ _ := solo_evictEntry cfg now i hms
    have hheap₁ : s₁.heap = s.heap.set addr e.1 := rfl
    -- no entry other than this one holds its address
    have hother : ∀ j b, j ≠ i → s.mStoresList[j]? = some b → ∀ x ∈ b, x.2 ≠ addr :=
      fun j b hji hj x hx hxa => hji (h.addr_unique hb hj hx hxa).1
    have hpr : ∀ x ∈ pre ++ rest, x.2 ≠ addr := fun x hx hxa =>
      (h.addr_unique hb hb (List.mem_append.mpr ((List.mem_append.mp hx).imp id (List.mem_cons_of_mem _))) hxa).2 hx
    have hframe : ∀ s₂ : Shared B, s₂.heap = s₁.heap → ∀ b : List (UInt64 × Nat), (∀ x ∈ b, x.2 ≠ addr) →
        s₂.readBucket b = s.readBucket b := fun s₂ hh b hb' =>
      Shared.readBucket_congr fun x hx => by rw [hh, hheap₁, List.getElem?_set_ne (Ne.symm (hb' x hx))]
    by_cases hempty : e.1.isEmpty
    · -- the store is left empty: its entry leaves the bucket
      rw [if_pos hempty] at hentry
      set s₂ := s₁.deleteMStore i hash e.1
      have hheap₂ : s₂.heap = s₁.heap := (Shared.deleteMStore_cases i hash e.1).1
      have hl₂ : s₂.mStoresList = s.mStoresList.modify (mapDelete · hash) i :=
        (Shared.deleteMStore_of_isEmpty s₁ i hash hempty).1
      have hid₂ : s₂.metricID2Hash = mapDelete s.metricID2Hash e.1.metricID :=
        (Shared.deleteMStore_of_isEmpty s₁ i hash hempty).2
      have hb₂ : s₂.mStoresList[i]? = some (pre ++ rest) := by
        rw [hl₂, List.getElem?_modify_eq, hb, Option.map_eq_map, Option.map_some',
          mapDelete_middle (h.keys _ (List.getElem?_mem hb))]
      have hj₂ : ∀ j, j ≠ i → s₂.mStoresList[j]? = s.mStoresList[j]? := fun j hji => by
        rw [hl₂, List.getElem?_modify_ne _ _ (Ne.symm hji)]
      obtain ⟨s', hsolo, hj', hview⟩ := solo_evictBucket now i rest pre s₂ (hentry.sharedOk h) hb₂
      refine ⟨s', hentry.trans hsolo, fun j hji => (hj' j hji).trans (hj₂ j hji), ?_⟩
      have hset := Shared.toMemDB_set_congr (by rw [hl₂, List.length_modify]) hj₂
        fun j b hji hj => hframe s₂ hheap₂ b (hother j b hji hj)
      rw [hview, hset, hframe s₂ hheap₂ pre fun x hx => hpr x (List.mem_append_left _ hx),
        hframe s₂ hheap₂ rest fun x hx => hpr x (List.mem_append_right _ hx), Shared.readBucket_cons hms]
      simp only [evictBucket, ← he, hempty, if_true]
      rw [show s₂.size = toInt32 (s₁.size - toInt32 e.1.memSize) from Shared.deleteMStore_size .., hid₂]
      exact Shared.toMemDB_with (Shared.deleteMStore_lastWroteFamilyTime ..) (Shared.deleteMStore_familyTimes ..) _ _ _
    · -- the store stays in the bucket
      rw [if_neg hempty] at hentry
      have hb₁ : s₁.mStoresList[i]? = some ((pre ++ [(hash, addr)]) ++ rest) := by
        rw [List.append_assoc]; exact hb
      obtain ⟨s', hsolo, hj', hview⟩ := solo_evictBucket now i rest (pre ++ [(hash, addr)]) s₁ (hentry.sharedOk h) hb₁
      refine ⟨s', hentry.trans hsolo, hj', ?_⟩
      have hset : ∀ X, s₁.toMemDB.mStoresList.set i X = s.toMemDB.mStoresList.set i X :=
        Shared.toMemDB_set_congr rfl (fun _ _ => rfl) fun j b hji hj => hframe s₁ rfl b (hother j b hji hj)
      have hms₁ : s₁.heap[addr]? = some e.1 := by simp [hheap₁, hlen]
      rw [hview, hset, Shared.readBucket_append, hframe s₁ rfl pre fun x hx => hpr x (List.mem_append_left _ hx),
        Shared.readBucket_cons hms₁, Shared.readBucket_nil, hframe s₁ rfl rest fun x hx => hpr x (List.mem_append_right _ hx),
        Shared.readBucket_cons hms]
      simp only [evictBucket, ← he, hempty, Bool.false_eq_true, if_false, List.append_assoc, List.singleton_append]
      rfl

theorem solo_evictPass (now : Int) : ∀ (rest done : List (Bucket B)) (s : Shared B), SharedOk cfg s →
    s.toMemDB.mStoresList = done ++ rest →
    ∃ s', Solo cfg s (.evictor now (.snapshot done.length)) s' (.evictor now .done) ∧
      s'.toMemDB = { s.toMemDB with
        mStoresList := done ++ (evictBuckets cfg now rest s.size s.metricID2Hash).1
        size := (evictBuckets cfg now rest s.size s.metricID2Hash).2.1
        metricID2Hash := (evictBuckets cfg now rest s.size s.metricID2Hash).2.2 }
  | [], done, s, _, hL => by
    have hnone : s.mStoresList[done.length]? = none := by
      have := congrArg List.length hL
      simp only [Shared.toMemDB_mStoresList, List.length_map, List.append_nil] at this
      exact List.getElem?_eq_none (by omega)
    refine ⟨s, .step (by simp only [stepThread, stepEvictor, hnone, Option.map_some']) (.refl _ _), ?_⟩
    rw [List.append_nil] at hL
    simp only [evictBuckets, List.append_nil, ← hL]
    rfl
  | R :: rest, done, s, h, hL => by
    have hget := congrArg (·[done.length]?) hL
    simp only [Shared.toMemDB_mStoresList, List.getElem?_map, List.getElem?_append_right (le_refl _), Nat.sub_self,
      List.getElem?_cons_zero] at hget
    obtain ⟨b, hb, hR⟩ := Option.map_eq_some'.mp hget
    obtain ⟨s₁, hsolo₁, -, hview₁⟩ := solo_evictBucket now done.length b [] s h (by simpa using hb)
    rw [hR, Shared.readBucket_nil, List.nil_append, hL, List.set_append_right _ _ (le_refl _), Nat.sub_self,
      List.set_cons_zero] at hview₁
    have hL₁ : s₁.toMemDB.mStoresList = (done ++ [(evictBucket cfg now R s.size s.metricID2Hash).1]) ++ rest := by
      rw [hview₁, List.append_assoc, List.singleton_append]
    obtain ⟨s', hsolo, hview⟩ := solo_evictPass now rest _ s₁ (hsolo₁.sharedOk h) hL₁
    rw [List.length_append, List.length_singleton] at hsolo
    refine ⟨s', .step (by simp only [stepThread, stepEvictor, hb, Option.map_some']) (hsolo₁.trans hsolo), ?_⟩
    have hsize₁ : s₁.size = (evictBucket cfg now R s.size s.metricID2Hash).2.1 := congrArg MemDB.size hview₁
    have hids₁ : s₁.metricID2Hash = (evictBucket cfg now R s.size s.metricID2Hash).2.2 :=
      congrArg MemDB.metricID2Hash hview₁
    rw [hview, hsize₁, hids₁, List.append_assoc, List.singleton_append]
    exact Shared.toMemDB_with (congrArg MemDB.lastWroteFamilyTime hview₁) (congrArg MemDB.familyTimes hview₁) _ _ _

end Block

/-- From any reachable state, an evictor pass run alone ends as the sequential `MemDB.evict`. -/
theorem evict_alone_refines [Block B] {cfg : Config} {sys : Sys B} (h : Reachable cfg sys)
    (hidle : sys.threads.any Thread.isEvicting = false) (now : Int) :
    ∃ n s', run cfg sys (.evict now :: List.replicate n (.step sys.threads.length)) =
        some ⟨s', sys.threads ++ [.evictor now .done]⟩ ∧ s'.toMemDB = sys.shared.toMemDB.evict cfg now := by
  obtain ⟨s', hsolo, hview⟩ := solo_evictPass now _ [] sys.shared (SharedOk.of_reachable h) rfl
  obtain ⟨n, hn⟩ := hsolo.run sys.threads
  refine ⟨n, s', by simpa only [run, Sys.apply, hidle, Bool.false_eq_true, if_false, Option.some_bind] using hn, ?_⟩
  rw [hview]
  rfl

/-! ### The limitation syncer -/

section Limiter
variable [Block B] {cfg : Config}

theorem solo_setLimitations : ∀ (ls : List (String × Nat)) (s : Shared B), SharedOk cfg s →
    ∃ s', Solo cfg s (.limiter (.next ls)) s' (.limiter .done) ∧ s'.toMemDB = s.toMemDB.setLimitations cfg ls
  | [], s, _ => ⟨s, .step rfl (.refl _ _), rfl⟩
  | (name, limit) :: ls, s, h => by
    rcases ha : s.getAddr cfg (cfg.hash name) with _ | addr
    · -- the metric has no store: the limitation is skipped
      obtain ⟨s', hsolo, hview⟩ := solo_setLimitations ls s h
      refine ⟨s', .step (by simp only [stepThread, stepLimiter, ha]; rfl) hsolo, ?_⟩
      have hget : s.toMemDB.getMStore cfg name = none := by simp [MemDB.getMStore, h.getMStoreByMetricHash, ha]
      rw [hview]
      simp only [MemDB.setLimitations, List.foldl_cons, hget]
    · obtain ⟨ms, hms, -⟩ := h.named_of_getAddr ha
      have hget : stepThread cfg s (.limiter (.next ((name, limit) :: ls))) = some (s, .limiter (.set addr limit ls)) := by
        simp only [stepThread, stepLimiter, ha, Option.map_some']
      have hset : Solo cfg s (.limiter (.next ((name, limit) :: ls))) (s.setStore addr (ms.setMaxTagsLimit limit))
          (.limiter (.next ls)) :=
        .step hget (.step (by simp only [stepThread, stepLimiter, hms, Option.map_some']) (.refl _ _))
      obtain ⟨s', hsolo, hview⟩ := solo_setLimitations ls _ (hset.sharedOk h)
      refine ⟨s', hset.trans hsolo, ?_⟩
      have hfind : s.toMemDB.getMStore cfg name = some ms := by simp [MemDB.getMStore, h.getMStoreByMetricHash, ha, hms]
      rw [hview, h.toMemDB_setStore ha]
      simp only [MemDB.setLimitations, List.foldl_cons, hfind]

end Limiter

/-- From any reachable state, a `setLimitations` run alone ends as the sequential one. -/
theorem setLimitations_alone_refines [Block B] {cfg : Config} {sys : Sys B} (h : Reachable cfg sys)
    (hidle : sys.threads.any Thread.isLimiting = false) (limitations : List (String × Nat)) :
    ∃ n s', run cfg sys (.limit limitations :: List.replicate n (.step sys.threads.length)) =
        some ⟨s', sys.threads ++ [.limiter .done]⟩ ∧ s'.toMemDB = sys.shared.toMemDB.setLimitations cfg limitations := by
  obtain ⟨s', hsolo, hview⟩ := solo_setLimitations limitations sys.shared (SharedOk.of_reachable h)
  obtain ⟨n, hn⟩ := hsolo.run sys.threads
  exact ⟨n, s', by simpa only [run, Sys.apply, hidle, Bool.false_eq_true, if_false, Option.some_bind] using hn, hview⟩

namespace Sample
open Memdb.Sample

/-- From the state after the first `Write` of `cpu`, with one metric store. -/
theorem evict_alone_refines_written :
    ∃ sys : Sys Nat, Reachable config sys ∧ sys.threads.any Thread.isEvicting = false ∧ sys.shared.heap.length = 1 ∧
      ∃ n s', run config sys (.evict 1 :: List.replicate n (.step sys.threads.length)) =
          some ⟨s', sys.threads ++ [.evictor 1 .done]⟩ ∧ s'.toMemDB = sys.shared.toMemDB.evict config 1 :=
  let ⟨sys, hr, hp⟩ := exists_reachable_of_run
    (p := fun sys : Sys Nat => sys.threads.any Thread.isEvicting = false ∧ sys.shared.heap.length = 1)
    (.write (point "cpu" 100) 1 :: List.replicate 12 (.step 0)) (by decide)
  ⟨sys, hr, hp.1, hp.2, evict_alone_refines hr hp.1 1⟩

/-- A limit of `5` tags for `cpu`, from the state after its first `Write`. -/
theorem setLimitations_alone_refines_written :
    ∃ sys : Sys Nat, Reachable config sys ∧ sys.threads.any Thread.isLimiting = false ∧ sys.shared.heap.length = 1 ∧
      ∃ n s', run config sys (.limit [("cpu", 5)] :: List.replicate n (.step sys.threads.length)) =
          some ⟨s', sys.threads ++ [.limiter .done]⟩ ∧ s'.toMemDB = sys.shared.toMemDB.setLimitations config [("cpu", 5)] :=
  let ⟨sys, hr, hp⟩ := exists_reachable_of_run
    (p := fun sys : Sys Nat => sys.threads.any Thread.isLimiting = false ∧ sys.shared.heap.length = 1)
    (.write (point "cpu" 100) 1 :: List.replicate 12 (.step 0)) (by decide)
  ⟨sys, hr, hp.1, hp.2, setLimitations_alone_refines hr hp.1 [("cpu", 5)]⟩

end Sample

end Concurrent
end Lindb.Memdb

import Lindb.Concurrent.Buckets

/-! The metric-id map against the buckets (§4.5): with a generator injective on names, the map sends an id
    to a hash exactly when the hash's bucket holds a store of that id, under any interleaving. -/

namespace Lindb.Memdb
namespace Concurrent

variable {B : Type}

/-! ### The id map -/

/-- `SharedOk`, and the id map sends an id to a hash exactly when the hash's store has that id. -/
structure MapsOk (cfg : Config) (s : Shared B) extends SharedOk cfg s : Prop where
  agree : ∀ id hash, mapLoad s.metricID2Hash id = some hash ↔
    ∃ a, s.getAddr cfg hash = some a ∧ (s.heap[a]?).map (·.metricID) = some id

namespace MapsOk

variable {cfg : Config} {s s' : Shared B}

theorem frame (h : MapsOk cfg s) (hs : HeapStep s.heap s'.heap) (hm : SameMaps s s') : MapsOk cfg s' := by
  refine ⟨h.toSharedOk.frame hs hm, fun id hash => ?_⟩
  have haddr : s'.getAddr cfg hash = s.getAddr cfg hash := by simp only [Shared.getAddr, hm.1]
  rw [hm.2, h.agree, haddr]
  refine exists_congr fun a => and_congr_right fun ha => ?_
  obtain ⟨ms, hms, -⟩ := h.named_of_getAddr ha
  obtain ⟨ms', h', hst⟩ := hs.forth _ ms hms
  rw [hms, h', Option.map_some', Option.map_some', hst.metricID]

theorem create [Block B] (hgen : Function.Injective cfg.generator.genMetricID) (h : MapsOk cfg s) {name : String}
    (now : Int) (hnone : s.getAddr cfg (cfg.hash name) = none) : MapsOk cfg (s.createMStore cfg name now) := by
  have hlen : getBucketIndex cfg (cfg.hash name) < s.mStoresList.length := h.length ▸ getBucketIndex_lt cfg _
  refine ⟨h.toSharedOk.create hnone, fun id hash => ?_⟩
  rw [Shared.createMStore_metricID2Hash, mapLoad_mapStore,
    Shared.getAddr_of_add hlen hnone (Shared.createMStore_mStoresList name now) hash]
  by_cases hH : cfg.hash name = hash
  · subst hH
    by_cases hid : cfg.generator.genMetricID name = id <;>
      simp [hid, h.agree, hnone, SharedOk.createMStore_heap_length, newMetricStore]
  · have hkeep : ∀ a, s.getAddr cfg hash = some a → (s.createMStore cfg name now).heap[a]? = s.heap[a]? :=
      fun a ha => by
        obtain ⟨ms, hms, -⟩ := h.named_of_getAddr ha
        exact SharedOk.createMStore_heap_of_lt (List.getElem?_eq_some_iff.mp hms).1
    simp only [hH, if_false]
    by_cases hid : cfg.generator.genMetricID name = id
    · -- the hash's store is of another name, so of another id
      subst hid
      simp only [if_true, Option.some.injEq, hH, false_iff, not_exists, not_and]
      intro a ha hida
      obtain ⟨ms, hms, name', hname', hmid⟩ := h.named_of_getAddr ha
      rw [hkeep a ha, hms, Option.map_some', Option.some.injEq, hmid] at hida
      exact hH (hgen hida ▸ hname')
    · simp only [hid, if_false, h.agree]
      exact exists_congr fun a => and_congr_right fun ha => by rw [hkeep a ha]

theorem delete (hgen : Function.Injective cfg.generator.genMetricID) (h : MapsOk cfg s) {i : Nat} {hash : UInt64}
    {addr : Nat} {ms : MStore B} (hx : (hash, addr) ∈ s.mStoresList.getD i []) (hms : s.heap[addr]? = some ms)
    (hb : s'.mStoresList = s.mStoresList.modify (mapDelete · hash) i)
    (hid : s'.metricID2Hash = mapDelete s.metricID2Hash ms.metricID) (hheap : s'.heap = s.heap) :
    MapsOk cfg s' := by
  obtain ⟨b₀, hb₀, hx⟩ : ∃ b, s.mStoresList[i]? = some b ∧ (hash, addr) ∈ b := by
    rw [List.getD_eq_getElem?_getD] at hx
    rcases Option.eq_none_or_eq_some (s.mStoresList[i]?) with h0 | ⟨b, h0⟩
    · simp [h0] at hx
    · exact ⟨b, h0, by simpa [h0] using hx⟩
  have hi : getBucketIndex cfg hash = i := h.placed i b₀ hb₀ _ hx
  have haddr : s.getAddr cfg hash = some addr := by
    rw [Shared.getAddr, List.getD_eq_getElem?_getD, hi, hb₀, Option.getD_some]
    exact mapLoad_of_mem (h.keys b₀ (List.getElem?_mem hb₀)) hx
  obtain ⟨name, hname, hmid⟩ : ∃ name, cfg.hash name = hash ∧ ms.metricID = cfg.generator.genMetricID name := by
    obtain ⟨ms', hms', hn⟩ := h.named_of_getAddr haddr
    cases hms.symm.trans hms'; exact hn
  refine ⟨h.toSharedOk.delete hb hheap, fun id hash' => ?_⟩
  rw [hid, mapLoad_mapDelete, hheap, Shared.getAddr_of_delete hi hb hash']
  by_cases hH : hash = hash'
  · subst hH
    by_cases hidm : ms.metricID = id <;> simp [hidm, h.agree, haddr, hms]
  · simp only [hH, if_false]
    by_cases hidm : ms.metricID = id
    · -- another hash's store is of another name, so of another id
      subst hidm
      simp only [if_true, reduceCtorEq, false_iff, not_exists, not_and]
      intro a ha hida
      obtain ⟨ms', hms', name', hname', hmid'⟩ := h.named_of_getAddr ha
      rw [hms', Option.map_some', Option.some.injEq, hmid', hmid] at hida
      exact hH (hname.symm.trans (hgen hida ▸ hname'))
    · simp only [hidm, if_false, h.agree]

end MapsOk

/-! ### The evictor's copy of a bucket -/

section Lists
variable {α : Type}

theorem mem_getD_modify_append {l : List (List α)} {i j : Nat} {x y : α} (h : x ∈ l.getD i []) :
    x ∈ (l.modify (· ++ [y]) j).getD i [] := by
  rw [List.getD_eq_getElem?_getD] at h ⊢
  by_cases hji : j = i
  · subst hji
    rw [List.getElem?_modify_eq]
    cases hl : l[j]? <;> simp_all
  · rw [List.getElem?_modify_ne _ _ hji]; exact h

theorem mem_getD_modify_mapDelete {κ : Type} [DecidableEq κ] {l : List (List (κ × α))} {i : Nat} {k : κ}
    {x : κ × α} (h : x ∈ l.getD i []) (hk : x.1 ≠ k) : x ∈ (l.modify (mapDelete · k) i).getD i [] := by
  rw [List.getD_eq_getElem?_getD, List.getElem?_modify_eq] at *
  cases hl : l[i]? <;> simp_all [mapDelete]

theorem getElem?_set_cases {l : List α} {k j : Nat} {a u : α} (h : (l.set k a)[j]? = some u) :
    (k = j ∧ u = a) ∨ (k ≠ j ∧ l[j]? = some u) := by
  rw [List.getElem?_set] at h
  split_ifs at h with hkj
  · exact .inl ⟨hkj, (Option.some.inj h).symm⟩
  · exact .inr ⟨hkj, h⟩

theorem getElem?_concat_cases {l : List α} {j : Nat} {a u : α} (h : (l ++ [a])[j]? = some u) :
    l[j]? = some u ∨ (j = l.length ∧ u = a) := by
  rw [List.getElem?_append] at h
  split_ifs at h with hj
  · exact .inl h
  · obtain ⟨hlt, hu⟩ := List.getElem?_eq_some_iff.mp h
    simp only [List.length_singleton, Nat.lt_one_iff] at hlt
    exact .inr ⟨by omega, by simpa [hlt] using hu.symm⟩

end Lists

/-- An evictor's copy of a bucket: entries of distinct hashes, each still in the bucket. -/
def CopyOk (s : Shared B) : Thread → Prop
  | .evictor _ pc => ∀ i stores, pc.entries = some (i, stores) →
      (stores.map (·.1)).Nodup ∧ ∀ x ∈ stores, x ∈ s.mStoresList.getD i []
  | _ => True

namespace CopyOk

variable {s s' : Shared B}

theorem mono {t : Thread} (h : CopyOk s t) (hsub : ∀ i, ∀ x ∈ s.mStoresList.getD i [], x ∈ s'.mStoresList.getD i []) :
    CopyOk s' t := by
  cases t with
  | evictor now pc => exact fun i stores he => ⟨(h i stores he).1, fun x hx => hsub i x ((h i stores he).2 x hx)⟩
  | writer _ _ _ | limiter _ => trivial

theorem of_not_evicting {t : Thread} (h : t.isEvicting = false) : CopyOk s t := by
  match t with
  | .evictor _ .done => intro i stores he; cases he
  | .evictor _ (.snapshot _) | .evictor _ (.firstCheck _ _) | .evictor _ (.doubleCheck _ _ _)
  | .evictor _ (.isEmpty _ _) | .evictor _ (.delete _ _) => cases h
  | .writer _ _ _ | .limiter _ => trivial

theorem stepEvictor [Block B] {cfg : Config} {now : Int} {pc pc' : EvictorPC} (hm : SharedOk cfg s)
    (hc : CopyOk s (.evictor now pc)) (h : stepEvictor cfg now s pc = some (s', pc')) : CopyOk s' (.evictor now pc') := by
  obtain ⟨-, hsame | ⟨bucket, hash, addr, stores, ms, rfl, rfl, -, -, hb, -, -⟩, hentries⟩ := stepEvictor_cases h
  · have hkeep : ∀ i, s'.mStoresList.getD i [] = s.mStoresList.getD i [] := fun i => by rw [hsame.1]
    intro i stores he
    rcases hentries with hnone | ⟨j, b, -, hb, he'⟩ | heq | ⟨j, x, rest, hx, he'⟩
    · rw [hnone] at he; cases he
    · rw [he'] at he; cases he
      refine ⟨hm.keys _ (List.getElem?_mem hb), fun x hx => ?_⟩
      rw [hkeep, List.getD_eq_getElem?_getD, hb]; exact hx
    · obtain ⟨hnd, hin⟩ := hc i stores (heq ▸ he)
      exact ⟨hnd, fun x hx => hkeep i ▸ hin x hx⟩
    · rw [he'] at he; cases he
      obtain ⟨hnd, hin⟩ := hc i (x :: stores) hx
      exact ⟨(List.nodup_cons.mp hnd).2, fun y hy => hkeep i ▸ hin y (List.mem_cons_of_mem _ hy)⟩
  · intro i rest he
    obtain ⟨rfl, rfl⟩ : bucket = i ∧ stores = rest := by simpa [EvictorPC.entries] using he
    obtain ⟨hnd, hin⟩ := hc bucket ((hash, addr) :: stores) rfl
    rw [List.map_cons, List.nodup_cons] at hnd
    refine ⟨hnd.2, fun x hx => hb ▸ mem_getD_modify_mapDelete (hin x (List.mem_cons_of_mem _ hx)) ?_⟩
    exact fun hxk => hnd.1 (hxk ▸ List.mem_map_of_mem (·.1) hx)

end CopyOk

/-! ### The invariant -/

/-- What the threads keep against the shared state: an evictor's copy of a bucket is still in the bucket,
    and one pass of the evictor runs at a time. -/
structure CopiesOk (sys : Sys B) : Prop where
  copies : ∀ t ∈ sys.threads, CopyOk sys.shared t
  oneEvictor : ∀ (i j : Nat) (t u : Thread), sys.threads[i]? = some t → sys.threads[j]? = some u →
    t.isEvicting = true → u.isEvicting = true → i = j

/-- What every reachable system keeps: `MapsOk` of the shared state, an evictor's copy of a bucket is still
    in the bucket, and one pass of the evictor runs at a time. -/
structure IdsInv (cfg : Config) (sys : Sys B) : Prop where
  maps : MapsOk cfg sys.shared
  copies : ∀ t ∈ sys.threads, CopyOk sys.shared t
  oneEvictor : ∀ (i j : Nat) (t u : Thread), sys.threads[i]? = some t → sys.threads[j]? = some u →
    t.isEvicting = true → u.isEvicting = true → i = j

theorem IdsInv.init {cfg : Config} : IdsInv cfg (⟨Shared.init cfg, []⟩ : Sys B) :=
  ⟨⟨SharedOk.init cfg, fun id hash => by simp [Shared.init, Shared.getAddr]⟩, fun t ht => (by cases ht),
    fun i j t u ht => by simp at ht⟩

section Block
variable [Block B] {cfg : Config}

theorem stepThread_isEvicting {s s' : Shared B} {t t' : Thread} (h : stepThread cfg s t = some (s', t'))
    (he : t'.isEvicting = true) : t.isEvicting = true := by
  cases t with
  | evictor now pc => cases pc <;> first | rfl | cases h
  | writer _ _ _ | limiter _ => obtain ⟨r, -, hrr⟩ := Option.map_eq_some'.mp h; cases hrr; cases he

theorem CopyOk.stepThread {s s' : Shared B} {t t' : Thread} (hok : SharedOk cfg s) (hc : CopyOk s t)
    (h : stepThread cfg s t = some (s', t')) :
    CopyOk s' t' ∧ (t.isEvicting = true ∨ ∀ i, ∀ x ∈ s.mStoresList.getD i [], x ∈ s'.mStoresList.getD i []) := by
  have hsame : ∀ {s' : Shared B}, SameMaps s s' → ∀ i, ∀ x ∈ s.mStoresList.getD i [], x ∈ s'.mStoresList.getD i [] :=
    fun hs i x hx => by rw [hs.1]; exact hx
  cases t with
  | writer metric now pc =>
    obtain ⟨r, hr, hrr⟩ := Option.map_eq_some'.mp h; cases hrr
    obtain ⟨-, hsm | ⟨-, -, hr'⟩⟩ := stepWriter_cases hr
    · exact ⟨trivial, .inr (hsame hsm)⟩
    · exact ⟨trivial, .inr fun i x hx => hr' ▸ mem_getD_modify_append hx⟩
  | limiter pc =>
    obtain ⟨r, hr, hrr⟩ := Option.map_eq_some'.mp h; cases hrr
    exact ⟨trivial, .inr (hsame (stepLimiter_cases hr).2)⟩
  | evictor now pc =>
    obtain ⟨r, hr, hrr⟩ := Option.map_eq_some'.mp h; cases hrr
    exact ⟨CopyOk.stepEvictor hok hc hr, .inl (by cases pc <;> first | rfl | cases hr)⟩

theorem MapsOk.stepThread (hgen : Function.Injective cfg.generator.genMetricID) {s s' : Shared B} {t t' : Thread}
    (hm : MapsOk cfg s) (hc : CopyOk s t) (h : stepThread cfg s t = some (s', t')) :
    MapsOk cfg s' ∧ CopyOk s' t' ∧
      (t.isEvicting = true ∨ ∀ i, ∀ x ∈ s.mStoresList.getD i [], x ∈ s'.mStoresList.getD i []) := by
  refine ⟨?_, CopyOk.stepThread hm.toSharedOk hc h⟩
  cases t with
  | writer metric now pc =>
    obtain ⟨r, hr, hrr⟩ := Option.map_eq_some'.mp h; cases hrr
    obtain ⟨hheap, hsm | ⟨-, hnone, hr'⟩⟩ := stepWriter_cases hr
    · exact hm.frame hheap hsm
    · exact hr' ▸ hm.create hgen now hnone
  | limiter pc =>
    obtain ⟨r, hr, hrr⟩ := Option.map_eq_some'.mp h; cases hrr
    obtain ⟨hheap, hsm⟩ := stepLimiter_cases hr
    exact hm.frame hheap hsm
  | evictor now pc =>
    obtain ⟨r, hr, hrr⟩ := Option.map_eq_some'.mp h; cases hrr
    obtain ⟨hheap, hsm | ⟨bucket, hash, addr, stores, ms, rfl, -, hms, -, hb, hid, hh⟩, -⟩ := stepEvictor_cases hr
    · exact hm.frame hheap hsm
    · exact hm.delete hgen ((hc bucket _ rfl).2 _ (List.mem_cons_self _ _)) hms hb hid hh

theorem CopiesOk.apply {sys sys' : Sys B} {e : Event} (hok : SharedOk cfg sys.shared) (hi : CopiesOk sys)
    (h : sys.apply cfg e = some sys') : CopiesOk sys' := by
  rcases Sys.apply_cases h with ⟨hs, t, ht, hev, -, hsnap⟩ | ⟨k, t, t', hk, hst, ht⟩
  case inl =>
    refine ⟨fun u hu => ?_, fun i j u v hu hv heu hev' => ?_⟩
    · rw [ht, List.mem_append, List.mem_singleton] at hu
      rcases hu with hu | rfl
      · exact hs ▸ hi.copies u hu
      · cases u with
        | evictor n pc => rw [hsnap n pc rfl]; intro i stores he; cases he
        | writer _ _ _ | limiter _ => trivial
    · rw [ht] at hu hv
      rcases getElem?_concat_cases hu with hu₀ | ⟨rfl, rfl⟩ <;>
        rcases getElem?_concat_cases hv with hv₀ | ⟨rfl, rfl⟩
      · exact hi.oneEvictor i j u v hu₀ hv₀ heu hev'
      · exact absurd (hev hev' u (List.getElem?_mem hu₀)) (by simp [heu])
      · exact absurd (hev heu v (List.getElem?_mem hv₀)) (by simp [hev'])
      · rfl
  case inr =>
    obtain ⟨hcopy, hgrow⟩ := CopyOk.stepThread hok (hi.copies t (List.getElem?_mem hk)) hst
    -- an index whose thread is in a pass of the evictor after the step held one before it
    have hback : ∀ (i : Nat) (u : Thread), sys'.threads[i]? = some u → u.isEvicting = true →
        ∃ u₀, sys.threads[i]? = some u₀ ∧ u₀.isEvicting = true := by
      intro i u hu heu
      rw [ht] at hu
      rcases getElem?_set_cases hu with ⟨rfl, rfl⟩ | ⟨-, hu⟩
      · exact ⟨t, hk, stepThread_isEvicting hst heu⟩
      · exact ⟨u, hu, heu⟩
    refine ⟨fun u hu => ?_, fun i j u v hu hv heu hev => ?_⟩
    · rw [ht] at hu
      obtain ⟨j, hj⟩ := List.mem_iff_getElem?.mp hu
      rcases getElem?_set_cases hj with ⟨-, rfl⟩ | ⟨hkj, hj⟩
      · exact hcopy
      · rcases hgrow with hte | hgrow
        · exact CopyOk.of_not_evicting
            (Bool.eq_false_iff.mpr fun heu => hkj (hi.oneEvictor k j t u hk hj hte heu))
        · exact (hi.copies u (List.getElem?_mem hj)).mono hgrow
    · obtain ⟨u₀, hu₀, he₀⟩ := hback i u hu heu
      obtain ⟨v₀, hv₀, hev₀⟩ := hback j v hv hev
      exact hi.oneEvictor i j u₀ v₀ hu₀ hv₀ he₀ hev₀

theorem CopiesOk.of_reachable {sys : Sys B} (h : Reachable cfg sys) : CopiesOk sys := by
  induction h with
  | init => exact ⟨fun t ht => (by cases ht), fun i j t u ht => by simp at ht⟩
  | step hr happly ih => exact ih.apply (SharedOk.of_reachable hr) happly

theorem IdsInv.apply (hgen : Function.Injective cfg.generator.genMetricID) {sys sys' : Sys B} {e : Event}
    (hi : IdsInv cfg sys) (h : sys.apply cfg e = some sys') : IdsInv cfg sys' := by
  have hc := CopiesOk.apply hi.maps.toSharedOk ⟨hi.copies, hi.oneEvictor⟩ h
  refine ⟨?_, hc.copies, hc.oneEvictor⟩
  rcases Sys.apply_cases h with ⟨hs, -⟩ | ⟨k, t, _, hk, hst, -⟩
  · exact hs ▸ hi.maps
  · exact (hi.maps.stepThread hgen (hi.copies t (List.getElem?_mem hk)) hst).1

theorem IdsInv.of_reachable (hgen : Function.Injective cfg.generator.genMetricID) {sys : Sys B}
    (h : Reachable cfg sys) : IdsInv cfg sys := by
  induction h with
  | init => exact IdsInv.init
  | step _ happly ih => exact ih.apply hgen happly

/-- With an injective generator, `getMStoreByMetricID` finds a store exactly when a live store has the id. -/
theorem metricID2Hash_consistent (hgen : Function.Injective cfg.generator.genMetricID) {sys : Sys B}
    (h : Reachable cfg sys) (id : Nat) :
    (∀ hash, mapLoad sys.shared.toMemDB.metricID2Hash id = some hash ↔
      ∃ ms, sys.shared.toMemDB.getMStoreByMetricHash cfg hash = some ms ∧ ms.metricID = id) ∧
    ∀ ms, sys.shared.toMemDB.getMStoreByMetricID cfg id = some ms ↔
      (∃ hash, sys.shared.toMemDB.getMStoreByMetricHash cfg hash = some ms) ∧ ms.metricID = id := by
  have hm := (IdsInv.of_reachable hgen h).maps
  have hagree : ∀ hash, mapLoad sys.shared.toMemDB.metricID2Hash id = some hash ↔
      ∃ ms, sys.shared.toMemDB.getMStoreByMetricHash cfg hash = some ms ∧ ms.metricID = id := fun hash => by
    rw [show sys.shared.toMemDB.metricID2Hash = sys.shared.metricID2Hash from rfl, hm.agree,
      hm.toSharedOk.getMStoreByMetricHash]
    constructor
    · rintro ⟨a, ha, hid⟩
      obtain ⟨ms, hms, rfl⟩ := Option.map_eq_some'.mp hid
      exact ⟨ms, by rw [ha, Option.some_bind, hms], rfl⟩
    · rintro ⟨ms, hms, rfl⟩
      obtain ⟨a, ha, hms⟩ := Option.bind_eq_some.mp hms
      exact ⟨a, ha, by rw [hms, Option.map_some']⟩
  refine ⟨hagree, fun ms => ?_⟩
  simp only [MemDB.getMStoreByMetricID, Option.bind_eq_some]
  constructor
  · rintro ⟨hash, hh, hms⟩
    obtain ⟨ms', hms', hid⟩ := (hagree hash).mp hh
    cases hms.symm.trans hms'
    exact ⟨⟨hash, hms⟩, hid⟩
  · rintro ⟨⟨hash, hms⟩, rfl⟩
    exact ⟨hash, (hagree hash).mpr ⟨ms, hms, rfl⟩, hms⟩

end Block

namespace Sample
open Memdb.Sample

/-- `config` with a generator that gives a name the encoding of its characters' codes, so distinct names
    distinct ids. -/
def idConfig : Config :=
  { config with generator := { config.generator with
      genMetricID := fun name => Encodable.encode (name.toList.map Char.toNat) } }

theorem idConfig_genMetricID_injective : Function.Injective idConfig.generator.genMetricID := by
  intro a b h
  have hchar : Function.Injective Char.toNat := Function.LeftInverse.injective Char.ofNat_toNat
  exact String.ext (List.map_injective_iff.mpr hchar (Encodable.encode_injective h))

/-- The evictor deletes `cpu`'s store under a `Write` that holds it (`deletedStoreSchedule`); then a third
    `Write` of `cpu` creates a second store at address `1`. -/
def recreateSchedule : List Event := deletedStoreSchedule ++ [.write (point "cpu" 100) 201, .step 2, .step 2]

theorem metricID2Hash_consistent_recreated :
    Function.Injective idConfig.generator.genMetricID ∧
    ∃ sys : Sys Nat, Reachable idConfig sys ∧ sys.shared.mStoresList = [[(0, 1)], []] ∧
      ((∀ hash, mapLoad sys.shared.toMemDB.metricID2Hash (idConfig.generator.genMetricID "cpu") = some hash ↔
        ∃ ms, sys.shared.toMemDB.getMStoreByMetricHash idConfig hash = some ms ∧
          ms.metricID = idConfig.generator.genMetricID "cpu") ∧
      ∀ ms, sys.shared.toMemDB.getMStoreByMetricID idConfig (idConfig.generator.genMetricID "cpu") = some ms ↔
        (∃ hash, sys.shared.toMemDB.getMStoreByMetricHash idConfig hash = some ms) ∧
          ms.metricID = idConfig.generator.genMetricID "cpu") :=
  let ⟨sys, hr, hb⟩ := exists_reachable_of_run (p := fun sys : Sys Nat => sys.shared.mStoresList = [[(0, 1)], []])
    recreateSchedule (by decide)
  ⟨idConfig_genMetricID_injective, sys, hr, hb, metricID2Hash_consistent idConfig_genMetricID_injective hr _⟩

end Sample

end Concurrent
end Lindb.Memdb

import Lindb.Theorems.Evictor
import Lindb.Concurrent.Writers

/-! What a reader finds, under any interleaving (§4.4, §4.5): no step of any thread loses a segment a
    reader finds, so along every interleaving these only grow. -/

namespace Lindb.Memdb
namespace Concurrent

variable {B : Type}

section Block
variable [Block B] {cfg : Config} {s s' : Shared B}

theorem stepEvictor_shared {now : Int} {pc pc' : EvictorPC} (h : stepEvictor cfg now s pc = some (s', pc')) :
    s' = s ∨
    (∃ bucket hash addr stores evictList ms, pc = .doubleCheck bucket ((hash, addr) :: stores) evictList ∧
      s.heap[addr]? = some ms ∧
      s' = s.evictTStores addr ms (ms.doubleCheckEvictList evictList now cfg.tStoreExpiredDuration)) ∨
    (∃ bucket hash addr stores ms, pc = .delete bucket ((hash, addr) :: stores) ∧ s.heap[addr]? = some ms ∧
      s' = s.deleteMStore bucket hash ms) := by
  cases pc with
  | snapshot i =>
    simp only [stepEvictor, Option.some.injEq, Prod.mk.injEq] at h
    exact .inl h.1.symm
  | firstCheck i stores =>
    cases stores with
    | nil =>
      simp only [stepEvictor, Option.some.injEq, Prod.mk.injEq] at h
      exact .inl h.1.symm
    | cons x stores =>
      simp only [stepEvictor, Option.map_eq_some', Prod.mk.injEq] at h
      obtain ⟨ms, -, rfl, -⟩ := h
      exact .inl rfl
  | doubleCheck i stores evictList =>
    cases stores with
    | nil => cases h
    | cons x stores =>
      obtain ⟨hash, addr⟩ := x
      simp only [stepEvictor, Option.map_eq_some', Prod.mk.injEq] at h
      obtain ⟨ms, hms, rfl, -⟩ := h
      exact .inr (.inl ⟨i, hash, addr, stores, evictList, ms, rfl, hms, rfl⟩)
  | isEmpty i stores =>
    cases stores with
    | nil => cases h
    | cons x stores =>
      simp only [stepEvictor, Option.map_eq_some', Prod.mk.injEq] at h
      obtain ⟨ms, -, rfl, -⟩ := h
      exact .inl rfl
  | delete i stores =>
    cases stores with
    | nil => cases h
    | cons x stores =>
      obtain ⟨hash, addr⟩ := x
      simp only [stepEvictor, Option.map_eq_some', Prod.mk.injEq] at h
      obtain ⟨ms, hms, rfl, -⟩ := h
      exact .inr (.inr ⟨i, hash, addr, stores, ms, rfl, hms, rfl⟩)
  | done => cases h

theorem stepEvictor_segments_subset {now : Int} {pc pc' : EvictorPC} (hok : SharedOk cfg s) (hok' : SharedOk cfg s')
    (hc : CopyOk s (.evictor now pc)) (h : stepEvictor cfg now s pc = some (s', pc')) :
    s.toMemDB.segments ⊆ s'.toMemDB.segments := by
  rcases stepEvictor_shared h with rfl | ⟨bucket, hash, addr, stores, evictList, ms, rfl, hms, rfl⟩ |
    ⟨bucket, hash, addr, stores, ms, rfl, hms, rfl⟩
  · exact List.Subset.refl _
  case inr.inl =>
    refine hok.segments_subset hok' fun H a msa ha hmsa _ => ⟨ha, ?_⟩
    rcases eq_or_ne addr a with rfl | hne
    · cases hms.symm.trans hmsa
      refine ⟨_, List.getElem?_set_self (List.getElem?_eq_some_iff.mp hms).1, ?_⟩
      exact MStore.segments_subset_of_removeTStores (MStore.doubleCheckEvictList_noData _) (by rfl) (by rfl) H
    · exact ⟨msa, by rwa [Shared.evictTStores, List.getElem?_set_ne hne], List.Subset.refl _⟩
  case inr.inr =>
    obtain ⟨hheap, ⟨he, hb, -⟩ | ⟨hb, -⟩⟩ := Shared.deleteMStore_cases (s := s) bucket hash ms
    · -- the head of the copy is the bucket's entry of `hash`, and its store is empty
      obtain ⟨hi, haddr, -⟩ := hok.of_mem_getD ((hc bucket _ rfl).2 _ (List.mem_cons_self _ _))
      refine hok.segments_subset hok' fun H a msa ha hmsa hne => ?_
      rw [Shared.getAddr_of_delete hi hb H, hheap]
      by_cases hH : hash = H
      · subst hH
        cases ha.symm.trans haddr
        cases hms.symm.trans hmsa
        exact absurd (MStore.segments_eq_nil_of_isEmpty he hash) hne
      · exact ⟨by rwa [if_neg hH], msa, hmsa, List.Subset.refl _⟩
    · refine hok.segments_subset hok' fun H a msa ha hmsa _ => ⟨?_, msa, hheap ▸ hmsa, List.Subset.refl _⟩
      rwa [Shared.getAddr, hb]

theorem stepThread_segments_subset {t t' : Thread} (hok : SharedOk cfg s) (hc : CopyOk s t)
    (h : stepThread cfg s t = some (s', t')) : s.toMemDB.segments ⊆ s'.toMemDB.segments := by
  have hok' := hok.stepThread h
  cases t with
  | writer metric now pc =>
    obtain ⟨r, hr, hrr⟩ := Option.map_eq_some'.mp h; cases hrr
    exact (stepWriter_keeps hok hr).segments_subset hok hok'
  | evictor now pc =>
    obtain ⟨r, hr, hrr⟩ := Option.map_eq_some'.mp h; cases hrr
    exact stepEvictor_segments_subset hok hok' hc hr
  | limiter pc =>
    obtain ⟨r, hr, hrr⟩ := Option.map_eq_some'.mp h; cases hrr
    exact (stepLimiter_keeps hr).segments_subset hok hok'

/-- Along every interleaving of `Write` calls, evictor passes and `setLimitations` from a reachable state,
    every segment a reader finds through the buckets stays where a reader finds it. -/
theorem segments_kept {sys sys' : Sys B} (h : Reachable cfg sys) {es : List Event}
    (hrun : Concurrent.run cfg sys es = some sys') : sys.shared.toMemDB.segments ⊆ sys'.shared.toMemDB.segments := by
  induction es generalizing sys with
  | nil =>
    cases hrun
    exact List.Subset.refl _
  | cons e es ih =>
    cases happ : sys.apply cfg e with
    | none => simp [Concurrent.run, happ] at hrun
    | some sys₁ =>
      simp only [Concurrent.run, happ, Option.some_bind] at hrun
      refine List.Subset.trans ?_ (ih (h.step happ) hrun)
      rcases Sys.apply_cases happ with ⟨hs, -⟩ | ⟨k, t, _, hk, hst, -⟩
      · exact hs ▸ List.Subset.refl _
      · exact stepThread_segments_subset (SharedOk.of_reachable h)
          ((CopiesOk.of_reachable h).copies t (List.getElem?_mem hk)) hst

end Block

namespace Sample
open Memdb.Sample

/-- A series of `host=a` written with no field at clock `1`, and a point of `host=b` at `101`. -/
def seriesWritten : List Event :=
  [.write ⟨"cpu", 100, [("host", "a")], by decide, []⟩ 1] ++ List.replicate 9 (.step 0) ++
    [.write ⟨"cpu", 100, [("host", "b")], by decide, [⟨"f", .sum 1⟩]⟩ 101] ++ List.replicate 11 (.step 1)

/-- A `Write` of `host=a` at `101` that finds its series store, and a pass of the evictor that removes
    that store, expired and without data, before the `Write` writes into it. -/
def evictDuringWrite : List Event :=
  [.write (point "cpu" 100) 101] ++ List.replicate 3 (.step 2) ++ [.evict 101] ++ List.replicate 8 (.step 3) ++
    List.replicate 6 (.step 2)

theorem segments_kept_evicting :
    ∃ sys₁ sys₂, run config (⟨Shared.init config, []⟩ : Sys Nat) seriesWritten = some sys₁ ∧
      sys₁.shared.toMemDB.segments.length = 1 ∧ run config sys₁ evictDuringWrite = some sys₂ ∧
      sys₂.shared.detached.length = 1 ∧ sys₁.shared.toMemDB.segments ⊆ sys₂.shared.toMemDB.segments :=
  let ⟨sys₁, hrun₁, hseg⟩ := exists_of_run (p := fun sys : Sys Nat => sys.shared.toMemDB.segments.length = 1) _
    seriesWritten (by decide)
  have hrun : ∃ sys, run config (⟨Shared.init config, []⟩ : Sys Nat) (seriesWritten ++ evictDuringWrite) = some sys ∧
      sys.shared.detached.length = 1 := exists_of_run _ _ (by decide)
  let ⟨sys₂, hrun, hdet⟩ := hrun
  have hrun₂ : run config sys₁ evictDuringWrite = some sys₂ := by rwa [run_append, hrun₁, Option.some_bind] at hrun
  ⟨sys₁, sys₂, hrun₁, hseg, hrun₂, hdet, segments_kept (Reachable.init.run hrun₁) hrun₂⟩

end Sample

end Concurrent
end Lindb.Memdb

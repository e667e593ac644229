import Lindb.Theorems.Database

/-! A `FlushFamilyTo` that returns nil (§6). -/

namespace Lindb.Memdb
namespace MemDB

variable {B : Type} [Block B] {cfg : Config}

theorem not_mem_families_flushFamilyTo (md : MemDB B) (fl : DataFlusher) (ft : Int) :
    ft ∉ (md.flushFamilyTo fl ft).1.families := by
  simp [families, flushFamilyTo, (List.perm_insertionSort _ _).mem_iff]

/-- What `FlushFamilyTo(flusher, ft)` promises when it returns nil: `ft` is gone from the field stores and
    from `Families()`, and each field store a reader reached made its at most one call, in order. -/
structure Cleared (md : MemDB B) (fl : DataFlusher) (ft : Int) : Prop where
  no_segment : ∀ fs ∈ (md.flushFamilyTo fl ft).1.fieldStores, ft ∉ fs.familyTimes
  not_in_families : ft ∉ (md.flushFamilyTo fl ft).1.families
  calls : (md.flushFamilyTo fl ft).2.1.filter FlushCall.isFlushField =
    (md.fieldStores.map fun fs => (fs.flushFieldTo ft).2.2).flatten
  at_most_once : ∀ fs ∈ md.fieldStores,
    (fs.flushFieldTo ft).2.2.length ≤ fs.familyTimes.count ft ∧ fs.familyTimes.count ft ≤ 1

/-- A `FlushFamilyTo` from a reachable state that returns nil keeps its promise. -/
theorem flushFamilyTo_clears {md : MemDB B} (hr : Reachable cfg md) (fl : DataFlusher) (ft : Int)
    (hok : (md.flushFamilyTo fl ft).2.2 = none) : md.Cleared fl ft := by
  have hw := hr.wf
  obtain ⟨hentries, hcalls⟩ := flushFamilyTo_ok fl ft hok
  refine ⟨fun fs hfs => ?_, not_mem_families_flushFamilyTo md fl ft, hcalls, fun fs hfs => ?_⟩
  · obtain ⟨y, hy, hfs⟩ := mem_fieldStores.mp hfs
    rw [hentries, List.mem_map] at hy
    obtain ⟨x, hx, rfl⟩ := hy
    dsimp only at hfs
    exact MStore.flushMetricsDataTo_no_family (hw x hx) hfs
  · obtain ⟨x, hx, hfs⟩ := mem_fieldStores.mp hfs
    exact ⟨FieldStore.flushFieldTo_calls_length fs ft,
      List.nodup_iff_count_le_one.mp ((hw x hx).sorted fs hfs).nodup_familyTimes ft⟩

open Sample in
/-- After a write of family 100, flushing 100 succeeds, and clears it. -/
theorem flushFamilyTo_clears_written :
    let md : MemDB Nat := (step config (newMemoryDatabase config) (.write (point "cpu" 100) 1)).1
    Reachable config md ∧ (md.flushFamilyTo okFlusher 100).2.2 = none ∧ md.Cleared okFlusher 100 :=
  have hr : Reachable config (step config (newMemoryDatabase config : MemDB Nat) (.write (point "cpu" 100) 1)).1 :=
    .step .init (by decide)
  ⟨hr, by decide, flushFamilyTo_clears hr okFlusher 100 (by decide)⟩

end MemDB
end Lindb.Memdb

import Lindb.Concurrent.Solo

/-! The field metas of a metric store under concurrent `GetFieldIDOrGenerate` calls (§4.4). The metas
    name each field once, but the type and count checks are made only on the lock-free path. -/

namespace Lindb.Memdb
namespace Concurrent

variable {B : Type}

theorem getFromName_append_new {metas : List FieldMeta} {name : String} {id : Nat} {type : FieldType}
    (h : getFromName metas name = none) : getFromName (metas ++ [⟨name, id, type⟩]) name = some ⟨name, id, type⟩ := by
  simp [getFromName, List.find?_append, show metas.find? (·.name = name) = none from h]

namespace StoreStep

variable {ms ms' : MStore B}

theorem nodup (h : StoreStep ms ms') (hn : (ms.fieldsMetas.map (·.name)).Nodup) : (ms'.fieldsMetas.map (·.name)).Nodup := by
  rcases h.metas with h | ⟨fm, hnone, h⟩
  · rwa [h]
  · rw [h, List.map_append, List.nodup_append]
    exact ⟨hn, by simp, by simpa using getFromName_eq_none.mp hnone⟩

theorem getFromName {name : String} {fm : FieldMeta} (h : StoreStep ms ms') (hf : Memdb.getFromName ms.fieldsMetas name = some fm) :
    Memdb.getFromName ms'.fieldsMetas name = some fm := by
  rcases h.metas with h | ⟨fm', -, h⟩
  · rwa [h]
  · rw [h]; simp only [Memdb.getFromName, List.find?_append] at hf ⊢; rw [hf]; rfl

end StoreStep

/-- A writer at the write of field `f` holds the id the metas of its store record for `f`'s name. -/
def HoldsRecordedID (heap : List (MStore B)) : Thread → Prop
  | .writer _ _ (.writeField addr _ fieldID f _ _ _) =>
    ∃ ms, heap[addr]? = some ms ∧ (Memdb.getFromName ms.fieldsMetas f.name).map (·.id) = some fieldID
  | _ => True

theorem HeapStep.holdsRecordedID {h h' : List (MStore B)} (hs : HeapStep h h') {t : Thread}
    (ht : HoldsRecordedID h t) : HoldsRecordedID h' t := by
  match t, ht with
  | .writer _ _ (.writeField addr _ fieldID f _ _ _), ⟨ms, hms, hid⟩ =>
    obtain ⟨ms', hms', hst⟩ := hs.forth addr ms hms
    obtain ⟨fm, hfm, rfl⟩ := Option.map_eq_some'.mp hid
    exact ⟨ms', hms', by rw [hst.getFromName hfm]; rfl⟩
  | .writer _ _ .start, _ | .writer _ _ .create, _ | .writer _ _ (.isFull _), _
  | .writer _ _ (.getTStore _), _ | .writer _ _ (.createTStore _), _ | .writer _ _ (.nextField ..), _
  | .writer _ _ (.generateField ..), _ | .writer _ _ (.updateIndexTimeRange ..), _ | .writer _ _ (.addSize ..), _
  | .writer _ _ (.finish ..), _ | .writer _ _ (.done _), _ | .evictor _ _, _ | .limiter _, _ => trivial

section Block
variable [Block B] {cfg : Config}

theorem stepWriter_holdsRecordedID {metric : PbMetric} {now : Int} {s s' : Shared B} {pc pc' : WriterPC}
    (h : stepWriter cfg metric now s pc = some (s', pc')) : HoldsRecordedID s'.heap (.writer metric now pc') := by
  cases pc with
  | nextField a seriesID fields written createdSize =>
    cases fields with
    | nil =>
      obtain ⟨ts, -, h⟩ := Option.map_eq_some'.mp h
      cases h; trivial
    | cons f fields =>
      obtain ⟨ms, hms, h⟩ := Option.map_eq_some'.mp h
      cases h
      split
      · rename_i fm hfm
        split
        · exact ⟨ms, hms, by simp [hfm]⟩
        · trivial
      · split <;> trivial
  | generateField a seriesID f fields written createdSize =>
    obtain ⟨ms, hms, h⟩ := Option.map_eq_some'.mp h
    split at h
    · rename_i fm hfm
      cases h; exact ⟨ms, hms, by simp [hfm]⟩
    · rename_i hnone
      split at h
      · cases h; trivial
      · rename_i id _
        cases h
        have ha := (List.getElem?_eq_some_iff.mp hms).1
        exact ⟨{ ms with fieldsMetas := ms.fieldsMetas ++ [⟨f.name, id, getFieldType f.field⟩] },
          by simp [List.getElem?_set, ha], by simp [getFromName_append_new hnone]⟩
  | writeField a seriesID fieldID f fields written createdSize =>
    simp only [stepWriter] at h
    split at h
    · cases h; trivial
    · cases h
  | start =>
    simp only [stepWriter, Option.some.injEq, Prod.mk.injEq] at h
    obtain ⟨-, rfl⟩ := h; split <;> trivial
  | create =>
    simp only [stepWriter] at h
    split at h <;> simp only [Option.some.injEq, Prod.mk.injEq] at h <;> obtain ⟨-, rfl⟩ := h <;> trivial
  | isFull _ | getTStore _ =>
    obtain ⟨ms, -, h⟩ := Option.map_eq_some'.mp h
    cases h; split <;> trivial
  | createTStore _ =>
    obtain ⟨ms, -, h⟩ := Option.map_eq_some'.mp h
    split at h <;> cases h <;> trivial
  | updateIndexTimeRange _ _ _ | addSize _ _ _ _ =>
    obtain ⟨ms, -, h⟩ := Option.map_eq_some'.mp h
    cases h; trivial
  | finish _ _ => cases h; trivial
  | done _ => cases h

theorem stepThread_holdsRecordedID {s s' : Shared B} {t t' : Thread} (h : stepThread cfg s t = some (s', t')) :
    HoldsRecordedID s'.heap t' := by
  cases t with
  | writer metric now pc =>
    obtain ⟨r, hr, hrr⟩ := Option.map_eq_some'.mp h; cases hrr; exact stepWriter_holdsRecordedID hr
  | evictor now pc => obtain ⟨r, -, hrr⟩ := Option.map_eq_some'.mp h; cases hrr; trivial
  | limiter pc => obtain ⟨r, -, hrr⟩ := Option.map_eq_some'.mp h; cases hrr; trivial

end Block

theorem HeapStep.metasNodup {h h' : List (MStore B)} (hs : HeapStep h h')
    (hn : ∀ (a : Nat) (ms : MStore B), h[a]? = some ms → (ms.fieldsMetas.map (·.name)).Nodup) :
    ∀ (a : Nat) (ms' : MStore B), h'[a]? = some ms' → (ms'.fieldsMetas.map (·.name)).Nodup := by
  intro a ms' hms'
  cases hms : h[a]? with
  | none => simp [(hs.fresh a ms' hms' hms).1]
  | some ms =>
    obtain ⟨ms'', h'', hst⟩ := hs.forth a ms hms
    rw [hms'] at h''
    cases h''
    exact hst.nodup (hn a ms hms)

/-- What every reachable system keeps of the field metas: the metas of each store name each field once,
    and a writer at the write of a field holds the id its store's metas record for the field's name. -/
structure FieldsInv (sys : Sys B) : Prop where
  nodup : ∀ (a : Nat) (ms : MStore B), sys.shared.heap[a]? = some ms → (ms.fieldsMetas.map (·.name)).Nodup
  recorded : ∀ t ∈ sys.threads, HoldsRecordedID sys.shared.heap t

section Block
variable [Block B] {cfg : Config}

theorem FieldsInv.apply {sys sys' : Sys B} {e : Event} (hi : FieldsInv sys) (h : sys.apply cfg e = some sys') :
    FieldsInv sys' := by
  rcases Sys.apply_cases h with ⟨hs, t, ht, -, hw, -⟩ | ⟨i, t, t', -, hst, ht⟩
  · refine ⟨hs ▸ hi.nodup, fun u hu => ?_⟩
    rw [ht, List.mem_append, List.mem_singleton] at hu
    rcases hu with hu | rfl
    · exact hs ▸ hi.recorded u hu
    · match u, hw with
      | .writer _ _ _, hw => rw [hw _ _ _ rfl]; trivial
      | .evictor _ _, _ | .limiter _, _ => trivial
  · have hheap := stepThread_heapStep hst
    refine ⟨hheap.metasNodup hi.nodup, fun u hu => ?_⟩
    rw [ht] at hu
    rcases List.mem_or_eq_of_mem_set hu with hu | rfl
    · exact hheap.holdsRecordedID (hi.recorded u hu)
    · exact stepThread_holdsRecordedID hst

/-- The metas of every store name each field once, and each id handed out is the one they record. -/
theorem fieldsMetas_consistent {sys : Sys B} (h : Reachable cfg sys) : FieldsInv sys := by
  induction h with
  | init => exact ⟨fun a ms h => by simp [Shared.init] at h, by simp⟩
  | step _ he ih => exact ih.apply he

theorem fieldsMetas_consistent_written :
    ∃ sys : Sys Nat, Reachable Sample.config sys ∧ (sys.threads[0]?).bind Thread.returned = some none ∧
      sys.shared.heap.map (·.fieldsMetas.length) = [1] ∧ FieldsInv sys :=
  have ⟨sys, hr, hp⟩ : ∃ sys : Sys Nat, Reachable Sample.config sys ∧
      ((sys.threads[0]?).bind Thread.returned = some none ∧ sys.shared.heap.map (·.fieldsMetas.length) = [1]) :=
    exists_reachable_of_run (.write (Sample.point "cpu" 100) 1 :: List.replicate 12 (.step 0)) (by decide)
  ⟨sys, hr, hp.1, hp.2, fieldsMetas_consistent hr⟩

/-! ### New fields -/

section NewFields
variable (gen : IDGenerator) (ctx : WriteContext) (now : Int) (ids : String → Nat)

theorem TStore.write_ids_error : ∀ (fields : List PbField) (ts : TStore B),
    (ts.write (fun (u : Unit) name _ => (u, .ok (ids name))) ctx now () fields).2.2.2 = none
  | [], _ => rfl
  | _ :: fields, _ => TStore.write_ids_error fields _

theorem TStore.write_new_fields : ∀ (fields : List PbField) (ts : TStore B) (st : MStore B),
    (st.fieldsMetas.map (·.name) ++ fields.map (·.name)).Nodup →
    st.fieldsMetas.length + fields.length ≤ TStoreMaxFieldsCount →
    (∀ f ∈ fields, gen.genFieldID st.metricID f.name (getFieldType f.field) = .ok (ids f.name)) →
    ts.write (fun m : MStore B => m.getFieldIDOrGenerate gen) ctx now st fields =
      ((ts.write (fun (u : Unit) name _ => (u, .ok (ids name))) ctx now () fields).1,
        { st with fieldsMetas := st.fieldsMetas ++ fields.map fun f => ⟨f.name, ids f.name, getFieldType f.field⟩ },
        (ts.write (fun (u : Unit) name _ => (u, .ok (ids name))) ctx now () fields).2.2.1, none)
  | [], ts, st, _, _, _ => by simp [TStore.write]
  | f :: fields, ts, st, hn, hroom, hgen => by
    have hnew : getFromName st.fieldsMetas f.name = none :=
      getFromName_eq_none.mpr fun h => List.disjoint_of_nodup_append hn h (List.mem_cons_self _ _)
    have hcount : ¬ TStoreMaxFieldsCount ≤ st.fieldsMetas.length := by simp only [List.length_cons] at hroom; omega
    have hget : st.getFieldIDOrGenerate gen f.name (getFieldType f.field) =
        ({ st with fieldsMetas := st.fieldsMetas ++ [⟨f.name, ids f.name, getFieldType f.field⟩] }, .ok (ids f.name)) := by
      simp only [MStore.getFieldIDOrGenerate, hnew, hcount, if_false, hgen f (List.mem_cons_self _ _)]
    have ih := TStore.write_new_fields fields (ts.writeField (ids f.name) f ctx).1
      { st with fieldsMetas := st.fieldsMetas ++ [⟨f.name, ids f.name, getFieldType f.field⟩] }
      (by simpa using hn) (by simp only [List.length_append, List.length_cons, List.length_nil] at hroom ⊢; omega)
      fun g hg => hgen g (List.mem_cons_of_mem _ hg)
    simp only [TStore.write, hget, ih, List.append_assoc, List.map_cons, List.singleton_append]

end NewFields

end Block

/-- The field name, the type and the id a writer at the write of a field got from `GetFieldIDOrGenerate`. -/
def Thread.fieldGot : Thread → Option (String × FieldType × Nat)
  | .writer _ _ (.writeField _ _ fieldID f _ _ _) => some (f.name, getFieldType f.field, fieldID)
  | _ => none

namespace Sample
open Memdb.Sample

/-- A point of `f` as a Min field. -/
def minPoint : PbMetric := ⟨"cpu", 100, [("host", "a")], by decide, [⟨"f", .min 1⟩]⟩

/-- First writes of `f` as a Sum field and as a Min field: both miss `f` on the lock-free path, the Sum
    write stores it under `mux`, and the Min write's look-up under `mux` then finds it. -/
def fieldTypeSchedule : List Event :=
  [.write (point "cpu" 100) 1, .write minPoint 1] ++ List.replicate 6 (.step 0) ++ List.replicate 4 (.step 1) ++
    [.step 0, .step 1]

/-- `1023` Sum fields named `f`, `ff`, `fff`, … -/
def fullFields : List PbField := (List.range 1023).map fun i => ⟨⟨List.replicate (i + 1) 'f'⟩, .sum 1⟩

theorem fullFields_names_nodup : (fullFields.map (·.name)).Nodup := by
  simp only [fullFields, List.map_map]
  exact (List.nodup_range _).map fun i j h => by simpa using congrArg String.length h

/-- A point of `cpu` with the `1023` fields. -/
def fullPoint : PbMetric := ⟨"cpu", 100, [("host", "a")], by decide, fullFields⟩

/-- The store of `cpu` once `GetOrCreateTStore` has made the series of `host=a`. -/
def fullSeriesStore : MStore Nat :=
  { (newMetricStore 1 1 : MStore Nat) with
    mutable := ⟨1, [⟨"host", [("a", [1])]⟩], [([("host", "a")], 1)], [(1, newTimeSeriesStore 1)], 1, 0, 0⟩
    size := toInt32 ((newMetricStore 1 1 : MStore Nat).size + toInt32 (newTimeSeriesStore 1 : TStore Nat).memSize) }

/-- The series store's `Write` of the `1023` fields, each of id `1`, the id the sample generator gives. -/
def fullWrite : TStore Nat × Unit × Int × Option Err :=
  (newTimeSeriesStore 1 : TStore Nat).write (fun (u : Unit) _ _ => (u, .ok 1)) ⟨1, 100, 0, 10⟩ 1 () fullFields

/-- The metas of the `1023` fields. -/
def fullMetas : List FieldMeta := fullFields.map fun f => ⟨f.name, 1, getFieldType f.field⟩

/-- The store of `cpu` after the `Write` of `fullPoint`: the `1023` metas, the series store written, the
    index time range and the size. -/
def fullStore : MStore Nat :=
  let M := ({ fullSeriesStore with fieldsMetas := fullSeriesStore.fieldsMetas ++ fullMetas }).withTStore 1 fullWrite.1
  let M₃ := { M with mutable := M.mutable.updateIndexTimeRange 100 }
  { M₃ with size := toInt32 (M₃.size + toInt32 (0 + fullWrite.2.2.1)) }

/-- What the `Write` of `fullPoint` at clock `1` leaves from `NewMemoryDatabase`, the writer done. -/
def fullFieldsSys : Sys Nat :=
  let s := ((((Shared.init config : Shared Nat).createMStore config "cpu" 1).setStore 0 fullSeriesStore).setStore 0
    fullStore).addFamilyTime 100
  ⟨{ s with size := toInt32 (s.size + toInt32 (0 + fullWrite.2.2.1 + (newTimeSeriesStore 1 : TStore Nat).memSize)) },
    [.writer fullPoint 1 (.done none)]⟩

set_option maxRecDepth 20000 in
theorem fullFieldsSys_reachable : Reachable config fullFieldsSys := by
  let s₂ : Shared Nat := ((Shared.init config : Shared Nat).createMStore config "cpu" 1).setStore 0 fullSeriesStore
  have hlen : 0 < s₂.heap.length := by decide
  -- `getOrCreateMStore`, `isFull()`, `GetTStore` and `GetOrCreateTStore`
  have h₁ : Reaches config fullPoint 1 (Shared.init config : Shared Nat) .start s₂
      (.nextField 0 1 fullFields 0 (newTimeSeriesStore 1 : TStore Nat).memSize) :=
    .step rfl (.step rfl (.step rfl (.step rfl (.single rfl))))
  -- the fields, each new
  have hw := TStore.write_new_fields config.generator ⟨1, 100, 0, 10⟩ 1 (fun _ => 1) fullFields
    (newTimeSeriesStore 1) fullSeriesStore
  replace hw := hw (by simpa [fullSeriesStore, newMetricStore] using fullFields_names_nodup)
    (by simp [fullSeriesStore, newMetricStore, fullFields, TStoreMaxFieldsCount]) fun _ _ => rfl
  -- the write of the `1023` fields is kept folded: it is never evaluated
  have hW : fullWrite = (newTimeSeriesStore 1 : TStore Nat).write (fun (u : Unit) _ _ => (u, .ok 1)) ⟨1, 100, 0, 10⟩ 1
      () fullFields := rfl
  rw [← hW] at hw
  unfold fullFieldsSys fullStore
  generalize fullWrite = W at hw ⊢
  have h₂ : Reaches config fullPoint 1 _ (.nextField 0 1 fullFields 0 _) _ _ := reaches_fields hlen 1
    (newTimeSeriesStore 1 : TStore Nat).memSize fullFields (newTimeSeriesStore 1) fullSeriesStore 0 _ rfl rfl hw
  have hs₂ : s₂.setStore 0 (fullSeriesStore.withTStore 1 (newTimeSeriesStore 1)) = s₂ := rfl
  rw [hs₂] at h₂
  -- the index time range, the size, and the family
  obtain ⟨n, hn⟩ := (h₁.trans (h₂.trans ((reaches_afterFields hlen fullPoint 1 _ _ none ⟨1, 100, 0, 10⟩ (by rfl)).trans
    (.single (by rfl))))).solo.run []
  exact (Reachable.init.step (e := .write fullPoint 1) rfl).run hn

/-- Two `Write`s of new fields `x` and `y` after `fullFieldsSys`: both pass the count check on the lock-free
    path before either stores its field under `mux`. -/
def fieldsCountSchedule : List Event :=
  [.write ⟨"cpu", 100, [("host", "a")], by decide, [⟨"x", .sum 1⟩]⟩ 1, .write ⟨"cpu", 100, [("host", "a")], by decide, [⟨"y", .sum 1⟩]⟩ 1] ++
    List.replicate 4 (.step 1) ++ List.replicate 4 (.step 2) ++ [.step 1, .step 2] ++
    List.replicate 5 (.step 1) ++ List.replicate 5 (.step 2)

set_option maxRecDepth 20000 in
/-- The double check under `mux` skips the type check and the count check. -/
theorem getFieldIDOrGenerate_double_check_unchecked :
    (∃ sys : Sys Nat, Reachable config sys ∧ (sys.threads[1]?).bind Thread.fieldGot = some ("f", .minField, 1) ∧
      (sys.shared.heap[0]?).bind (fun ms => getFromName ms.fieldsMetas "f") = some ⟨"f", 1, .sumField⟩) ∧
    (∃ sys : Sys Nat, Reachable config sys ∧ (sys.threads[1]?).bind Thread.returned = some none ∧
      (sys.shared.heap[0]?).bind (fun ms => getFromName ms.fieldsMetas "f") = some ⟨"f", 1, .sumField⟩) ∧
    (Reachable config fullFieldsSys ∧ (∀ ms ∈ fullFieldsSys.shared.heap, (ms.fieldsMetas.map (·.name)).Nodup) ∧
      fullFieldsSys.shared.heap.map (·.fieldsMetas.length) = [1023] ∧
      ∃ sys, run config fullFieldsSys fieldsCountSchedule = some sys ∧
        sys.threads.map Thread.returned = [some none, some none, some none] ∧
        sys.shared.heap.map (·.fieldsMetas.length) = [1025]) := by
  have hheap : fullFieldsSys.shared.heap = [fullStore] := rfl
  refine ⟨exists_reachable_of_run fieldTypeSchedule (by decide),
    exists_reachable_of_run (fieldTypeSchedule ++ List.replicate 5 (.step 1)) (by decide), fullFieldsSys_reachable,
    by rw [hheap]; simpa [fullStore, MStore.withTStore, Function.comp_def] using fullFields_names_nodup,
    by rw [hheap]; simp [fullStore, MStore.withTStore, fullMetas, fullFields, fullSeriesStore, newMetricStore], ?_⟩
  exact exists_of_run fullFieldsSys fieldsCountSchedule (by decide)

end Sample

end Concurrent
end Lindb.Memdb

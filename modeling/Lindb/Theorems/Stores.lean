import Lindb.Memdb.Database
import Lindb.Theorems.FieldStore

/-! What the operations of a series store and of a tag index do to the field stores they hold. -/

namespace Lindb.Memdb

variable {B : Type}

/-! ### Field stores -/

namespace FieldStore

theorem Increasing.nodup_familyTimes {fs : FieldStore B} (h : Increasing fs.sStoreNodes) : fs.familyTimes.Nodup :=
  (List.pairwise_map.mpr h).imp ne_of_lt

variable [Block B]

/-- One write of a point of family `familyTime`. -/
def WriteAt (familyTime : Int) (fs fs' : FieldStore B) : Prop :=
  ∃ f ctx, ctx.familyTime = familyTime ∧ fs' = (fs.write f ctx).1

/-- `fs'` is `fs` after writes of points of family `familyTime`. -/
def WrittenAt (familyTime : Int) : FieldStore B → FieldStore B → Prop :=
  Relation.ReflTransGen (WriteAt familyTime)

theorem write_familyTimes (fs : FieldStore B) (f : PbField) (ctx : WriteContext) :
    (fs.write f ctx).1.familyTimes = fs.familyTimes ∨
      (fs.write f ctx).1.familyTimes.Perm (fs.familyTimes ++ [ctx.familyTime]) := by
  cases hf : f.field with
  | sum v =>
    cases hg : fs.getSStore ctx.familyTime with
    | none =>
      refine .inr ?_
      rw [write_sum_new hf hg]
      have := (List.perm_insertionSort (fun a b : SStore B => a.familyTime ≤ b.familyTime)
        (fs.sStoreNodes ++ [((newSimpleFieldStore ctx.familyTime .sum : SStore B).writeFloat v ctx).1])).map
          SStore.familyTime
      simpa [familyTimes, insertSStore] using this
    | some s =>
      obtain ⟨hk, hs, -⟩ := getSStore_some hg
      refine .inl ?_
      simp only [familyTimes, write_sum_found hf hg, List.map_set, SStore.writeFloat_familyTime, ← hs]
      refine List.ext_getElem (by simp) fun i _ _ => ?_
      rw [List.getElem_set]
      split <;> simp_all
  | min v => exact .inl (by rw [write_of_not_sum (by simp [hf])])
  | max v => exact .inl (by rw [write_of_not_sum (by simp [hf])])

theorem mem_familyTimes_of_write {fs : FieldStore B} {f : PbField} {ctx : WriteContext} {x : Int}
    (hx : x ∈ (fs.write f ctx).1.familyTimes) : x ∈ fs.familyTimes ∨ x = ctx.familyTime := by
  rcases write_familyTimes fs f ctx with h | h
  · exact .inl (h ▸ hx)
  · simpa using h.subset hx

theorem familyTimes_subset_write {fs : FieldStore B} {f : PbField} {ctx : WriteContext} {x : Int}
    (hx : x ∈ fs.familyTimes) : x ∈ (fs.write f ctx).1.familyTimes := by
  rcases write_familyTimes fs f ctx with h | h
  · exact h ▸ hx
  · exact h.symm.subset (List.mem_append_left _ hx)

theorem familyTime_mem_write_sum {fs : FieldStore B} {f : PbField} {ctx : WriteContext} {v : Float}
    (hf : f.field = .sum v) : ctx.familyTime ∈ (fs.write f ctx).1.familyTimes := by
  cases hg : fs.getSStore ctx.familyTime with
  | none =>
    simp only [write_sum_new hf hg, familyTimes, insertSStore, List.mem_map, List.mem_insertionSort]
    exact ⟨_, List.mem_append_right _ (List.mem_singleton_self _), by simp⟩
  | some s =>
    obtain ⟨hmem, hs⟩ := getSStore_mem hg
    exact familyTimes_subset_write (List.mem_map.mpr ⟨s, hmem, hs⟩)

namespace WrittenAt
variable {ft : Int} {fs fs' : FieldStore B}

theorem single {f : PbField} {ctx : WriteContext} (h : ctx.familyTime = ft) : WrittenAt ft fs (fs.write f ctx).1 :=
  .single ⟨f, ctx, h, rfl⟩

theorem fieldID_eq (h : WrittenAt ft fs fs') : fs'.fieldID = fs.fieldID := by
  induction h with
  | refl => rfl
  | tail _ hw ih => obtain ⟨f, ctx, -, rfl⟩ := hw; rw [write_fieldID, ih]

theorem increasing (h : WrittenAt ft fs fs') (hs : Increasing fs.sStoreNodes) : Increasing fs'.sStoreNodes := by
  induction h with
  | refl => exact hs
  | tail _ hw ih => obtain ⟨f, ctx, -, rfl⟩ := hw; exact write_increasing ih

theorem familyTimes_sub (h : WrittenAt ft fs fs') {x : Int} (hx : x ∈ fs'.familyTimes) : x ∈ fs.familyTimes ∨ x = ft := by
  induction h with
  | refl => exact .inl hx
  | tail _ hw ih =>
    obtain ⟨f, ctx, rfl, rfl⟩ := hw
    exact (mem_familyTimes_of_write hx).elim ih .inr

theorem familyTimes_mono (h : WrittenAt ft fs fs') {x : Int} (hx : x ∈ fs.familyTimes) : x ∈ fs'.familyTimes := by
  induction h with
  | refl => exact hx
  | tail _ hw ih => obtain ⟨f, ctx, -, rfl⟩ := hw; exact familyTimes_subset_write ih

end WrittenAt

theorem flushFieldTo_familyTimes {fs : FieldStore B} (h : Increasing fs.sStoreNodes) (ft : Int) :
    (fs.flushFieldTo ft).1.familyTimes = fs.familyTimes.filter (· ≠ ft) := by
  simp only [familyTimes, flushFieldTo_nodes h, List.filter_map]
  rfl

theorem flushFieldTo_increasing {fs : FieldStore B} (h : Increasing fs.sStoreNodes) (ft : Int) :
    Increasing (fs.flushFieldTo ft).1.sStoreNodes :=
  apply_increasing h (.flushFieldTo ft)

theorem flushFieldTo_calls_length (fs : FieldStore B) (ft : Int) :
    (fs.flushFieldTo ft).2.2.length ≤ fs.familyTimes.count ft := by
  rcases flushFieldTo_calls fs ft with h | ⟨s, data, hs, h⟩
  · simp [h]
  · obtain ⟨hmem, rfl⟩ := getSStore_mem hs
    rw [h, List.length_singleton, Nat.one_le_iff_ne_zero, Ne, List.count_eq_zero, not_not]
    exact List.mem_map_of_mem _ hmem

end FieldStore

/-! ### Series stores -/

namespace TStore

/-- The field id and family time of every segment of the series. -/
def keys (ts : TStore B) : List (Nat × Int) := ts.fStoreNodes.flatMap fun fs => fs.familyTimes.map (fs.fieldID, ·)

theorem mem_keys {ts : TStore B} {k : Nat × Int} :
    k ∈ ts.keys ↔ ∃ fs ∈ ts.fStoreNodes, fs.fieldID = k.1 ∧ k.2 ∈ fs.familyTimes := by
  simp only [keys, List.mem_flatMap, List.mem_map]
  constructor
  · rintro ⟨fs, hfs, x, hx, rfl⟩
    exact ⟨fs, hfs, rfl, hx⟩
  · rintro ⟨fs, hfs, h₁, h₂⟩
    exact ⟨fs, hfs, k.2, h₂, by rw [h₁]⟩

theorem getFStore_mem {ts : TStore B} {fieldID : Nat} {fs : FieldStore B} (h : ts.getFStore fieldID = some fs) :
    fs ∈ ts.fStoreNodes ∧ fs.fieldID = fieldID :=
  ⟨List.mem_of_find?_eq_some h, by simpa using List.find?_some h⟩

theorem setFStore_nodes {ts : TStore B} {fs : FieldStore B} {fieldID : Nat} (h : fs.fieldID = fieldID) :
    (ts.setFStore fs).fStoreNodes = setFirst (·.fieldID = fieldID) fs ts.fStoreNodes := by
  subst h; rfl

theorem keys_subset_of_forth {ft : Int} {ts ts' : TStore B} [Block B]
    (h : ∀ fs ∈ ts.fStoreNodes, ∃ fs' ∈ ts'.fStoreNodes, FieldStore.WrittenAt ft fs fs') : ts.keys ⊆ ts'.keys := by
  intro k hk
  obtain ⟨fs, hfs, hid, hft⟩ := mem_keys.mp hk
  obtain ⟨fs', hfs', hw⟩ := h fs hfs
  exact mem_keys.mpr ⟨fs', hfs', hw.fieldID_eq.trans hid, hw.familyTimes_mono hft⟩

section Write
variable [Block B] {ts : TStore B} {fieldID : Nat} {f : PbField} {ctx : WriteContext}

theorem writeField_back {fs' : FieldStore B} (h : fs' ∈ (ts.writeField fieldID f ctx).1.fStoreNodes) :
    fs' ∈ ts.fStoreNodes ∨ ∃ fs, (fs ∈ ts.fStoreNodes ∨ fs = newFieldStore fieldID) ∧ fs' = (fs.write f ctx).1 := by
  unfold writeField at h
  split at h
  · rename_i fs hfs
    exact (mem_setFirst h).imp_right fun h => ⟨fs, .inl (getFStore_mem hfs).1, h⟩
  · rcases (List.mem_orderedInsert _).mp h with h | h
    · exact .inr ⟨_, .inr rfl, h⟩
    · exact .inl h

theorem writeField_forth {fs : FieldStore B} (h : fs ∈ ts.fStoreNodes) :
    fs ∈ (ts.writeField fieldID f ctx).1.fStoreNodes ∨ (fs.write f ctx).1 ∈ (ts.writeField fieldID f ctx).1.fStoreNodes := by
  unfold writeField
  split
  · rename_i fs₀ hfs
    have hid : (fs₀.write f ctx).1.fieldID = fieldID := by rw [FieldStore.write_fieldID, (getFStore_mem hfs).2]
    obtain ⟨hw, hkeep⟩ := setFirst_keeps (a := (fs₀.write f ctx).1) hfs
    rw [setFStore_nodes hid]
    rcases hkeep fs h with rfl | h
    · exact .inr hw
    · exact .inl h
  · exact .inl ((List.mem_orderedInsert _).mpr (.inr h))

theorem keys_subset_writeField : ts.keys ⊆ (ts.writeField fieldID f ctx).1.keys :=
  keys_subset_of_forth fun _ hfs => (writeField_forth hfs).elim (fun h => ⟨_, h, .refl⟩) fun h => ⟨_, h, .single rfl⟩

theorem mem_keys_writeField_sum {v : Float} (hf : f.field = .sum v) :
    (fieldID, ctx.familyTime) ∈ (ts.writeField fieldID f ctx).1.keys := by
  refine mem_keys.mpr ?_
  unfold writeField
  split
  · rename_i fs hfs
    have hid : (fs.write f ctx).1.fieldID = fieldID := by rw [FieldStore.write_fieldID, (getFStore_mem hfs).2]
    rw [setFStore_nodes hid]
    exact ⟨_, (setFirst_keeps hfs).1, hid, FieldStore.familyTime_mem_write_sum hf⟩
  · exact ⟨_, (List.mem_orderedInsert _).mpr (.inl rfl), FieldStore.write_fieldID .., FieldStore.familyTime_mem_write_sum hf⟩

variable {σ : Type} {g : σ → String → FieldType → σ × Except Err Nat} {now : Int}

theorem write_back : ∀ (fields : List PbField) (ts : TStore B) (st : σ) {fs' : FieldStore B},
    fs' ∈ (ts.write g ctx now st fields).1.fStoreNodes →
      ∃ fs, (fs ∈ ts.fStoreNodes ∨ fs = newFieldStore fs.fieldID) ∧ FieldStore.WrittenAt ctx.familyTime fs fs'
  | [], _, _, fs', h => ⟨fs', .inl h, .refl⟩
  | f :: rest, ts, st, fs', h => by
    simp only [write] at h
    split at h
    · exact ⟨fs', .inl h, .refl⟩
    · obtain ⟨fs₁, hfs₁ | hnew, hw⟩ := write_back rest _ _ h
      · rcases writeField_back hfs₁ with h₁ | ⟨fs, hfs, rfl⟩
        · exact ⟨fs₁, .inl h₁, hw⟩
        · exact ⟨fs, hfs.imp_right fun h : fs = _ => h ▸ rfl, .head ⟨f, ctx, rfl, rfl⟩ hw⟩
      · exact ⟨fs₁, .inr hnew, hw⟩

theorem write_forth : ∀ (fields : List PbField) (ts : TStore B) (st : σ) {fs : FieldStore B},
    fs ∈ ts.fStoreNodes → ∃ fs' ∈ (ts.write g ctx now st fields).1.fStoreNodes, FieldStore.WrittenAt ctx.familyTime fs fs'
  | [], _, _, fs, h => ⟨fs, h, .refl⟩
  | f :: rest, ts, st, fs, h => by
    simp only [write]
    split
    · exact ⟨fs, h, .refl⟩
    · rcases writeField_forth h with h₁ | h₁
      · exact write_forth rest _ _ h₁
      · obtain ⟨fs', h', hw⟩ := write_forth rest _ _ h₁
        exact ⟨fs', h', .head ⟨f, ctx, rfl, rfl⟩ hw⟩

theorem write_state {P : σ → Prop} (hg : ∀ st name type, P st → P (g st name type).1) :
    ∀ (fields : List PbField) (ts : TStore B) (st : σ), P st → P (ts.write g ctx now st fields).2.1
  | [], _, _, h => h
  | f :: rest, ts, st, h => by
    simp only [write]
    split
    · exact hg _ _ _ h
    · exact write_state hg rest _ _ (hg _ _ _ h)

end Write

end TStore

/-! ### Tag indexes -/

/-- A segment as a reader names it: its metric's hash, its series' tag set, its field and its family. -/
structure SegmentKey where
  metricHash : UInt64
  tags : List (String × String)
  fieldID : Nat
  familyTime : Int
  deriving DecidableEq, Repr

namespace TagIndex

/-- The field stores of the index's series stores. -/
def fieldStores (t : TagIndex B) : List (FieldStore B) := t.seriesID2TStore.flatMap (·.2.fStoreNodes)

/-- The segments the index reaches from a tag set, through its series id and series store. -/
def segments (t : TagIndex B) (metricHash : UInt64) : List SegmentKey :=
  t.tagsIDs.flatMap fun x => match t.getTStoreBySeriesID x.2 with
    | some ts => ts.keys.map fun k => ⟨metricHash, x.1, k.1, k.2⟩
    | none => []

/-- The counter gave every series id of the index. -/
def IdsFresh (t : TagIndex B) : Prop := ∀ x ∈ t.seriesID2TStore, x.1 ≤ t.idCounter

theorem mem_fieldStores {t : TagIndex B} {fs : FieldStore B} :
    fs ∈ t.fieldStores ↔ ∃ x ∈ t.seriesID2TStore, fs ∈ x.2.fStoreNodes := List.mem_flatMap

theorem mem_segments {t : TagIndex B} {h : UInt64} {s : SegmentKey} :
    s ∈ t.segments h ↔ s.metricHash = h ∧ ∃ seriesID ts, (s.tags, seriesID) ∈ t.tagsIDs ∧
      t.getTStoreBySeriesID seriesID = some ts ∧ (s.fieldID, s.familyTime) ∈ ts.keys := by
  simp only [segments, List.mem_flatMap]
  constructor
  · rintro ⟨x, hx, hs⟩
    split at hs
    · rename_i ts hts
      obtain ⟨k, hk, rfl⟩ := List.mem_map.mp hs
      exact ⟨rfl, x.2, ts, hx, hts, hk⟩
    · simp at hs
  · rintro ⟨rfl, seriesID, ts, hx, hts, hk⟩
    refine ⟨_, hx, ?_⟩
    simp only [hts]
    exact List.mem_map.mpr ⟨_, hk, rfl⟩

theorem segments_subset {t u : TagIndex B} {P : Int → Prop}
    (htags : ∀ x ∈ t.tagsIDs, ∀ ts, t.getTStoreBySeriesID x.2 = some ts → ∀ k ∈ ts.keys, P k.2 →
      x ∈ u.tagsIDs ∧ ∃ ts', u.getTStoreBySeriesID x.2 = some ts' ∧ k ∈ ts'.keys)
    {h : UInt64} {s : SegmentKey} (hs : s ∈ t.segments h) (hP : P s.familyTime) : s ∈ u.segments h := by
  obtain ⟨rfl, seriesID, ts, hx, hts, hk⟩ := mem_segments.mp hs
  obtain ⟨hx', ts', hts', hk'⟩ := htags _ hx ts hts _ hk hP
  exact mem_segments.mpr ⟨rfl, seriesID, ts', hx', hts', hk'⟩

theorem getTStoreBySeriesID_mem {t : TagIndex B} {seriesID : Nat} {ts : TStore B}
    (h : t.getTStoreBySeriesID seriesID = some ts) : (seriesID, ts) ∈ t.seriesID2TStore := by
  obtain ⟨x, hx, rfl⟩ := Option.map_eq_some'.mp h
  have hid : x.1 = seriesID := by simpa using List.find?_some hx
  exact hid ▸ List.mem_of_find?_eq_some hx

/-! #### Setting a series store -/

section SetTStore
variable {t : TagIndex B} {seriesID : Nat} {ts : TStore B}

@[simp] theorem setTStore_tagsIDs : (t.setTStore seriesID ts).tagsIDs = t.tagsIDs := rfl

@[simp] theorem setTStore_version : (t.setTStore seriesID ts).version = t.version := rfl

@[simp] theorem setTStore_idCounter : (t.setTStore seriesID ts).idCounter = t.idCounter := rfl

theorem getTStoreBySeriesID_setTStore_self (h : (t.getTStoreBySeriesID seriesID).isSome) :
    (t.setTStore seriesID ts).getTStoreBySeriesID seriesID = some ts := by
  simp only [getTStoreBySeriesID, setTStore, Option.isSome_map'] at h ⊢
  rw [find?_setFirst_self (by simp) h]
  rfl

theorem getTStoreBySeriesID_setTStore_of_ne {seriesID₀ : Nat} (hne : seriesID₀ ≠ seriesID) :
    (t.setTStore seriesID ts).getTStoreBySeriesID seriesID₀ = t.getTStoreBySeriesID seriesID₀ := by
  simp only [getTStoreBySeriesID, setTStore]
  rw [find?_setFirst_of_not (by simpa using hne.symm)]
  intro x hx
  simp only [decide_eq_true_eq] at hx
  simpa [hx] using hne.symm

theorem mem_fieldStores_setTStore {fs : FieldStore B} (h : fs ∈ (t.setTStore seriesID ts).fieldStores) :
    fs ∈ t.fieldStores ∨ fs ∈ ts.fStoreNodes := by
  obtain ⟨x, hx, hfs⟩ := mem_fieldStores.mp h
  rcases mem_setFirst hx with hx | rfl
  · exact .inl (mem_fieldStores.mpr ⟨x, hx, hfs⟩)
  · exact .inr hfs

theorem IdsFresh.setTStore (h : t.IdsFresh) : (t.setTStore seriesID ts).IdsFresh := by
  cases hf : t.seriesID2TStore.find? (·.1 = seriesID) with
  | none => simpa [IdsFresh, TagIndex.setTStore, setFirst_eq_self hf] using h
  | some y =>
    intro x hx
    rcases mem_setFirst hx with hx | rfl
    · exact h x hx
    · have hy : y.1 = seriesID := by simpa using List.find?_some hf
      exact hy ▸ h y (List.mem_of_find?_eq_some hf)

@[simp] theorem setTStore_setTStore (ts' : TStore B) :
    (t.setTStore seriesID ts).setTStore seriesID ts' = t.setTStore seriesID ts' := by
  simp only [TagIndex.setTStore]
  congr 1
  exact setFirst_setFirst (by simp) _ _

theorem setTStore_of_getTStoreBySeriesID (h : t.getTStoreBySeriesID seriesID = some ts) :
    t.setTStore seriesID ts = t := by
  obtain ⟨x, hx, rfl⟩ := Option.map_eq_some'.mp h
  have hid : x.1 = seriesID := by simpa using List.find?_some hx
  simp only [TagIndex.setTStore, ← hid, Prod.mk.eta, setFirst_of_find? (hid ▸ hx)]

end SetTStore

theorem getTStoreBySeriesID_of_getTStore {t : TagIndex B} {tags : List (String × String)} {seriesID : Nat}
    {ts : TStore B} (h : t.getTStore tags = some (seriesID, ts)) : t.getTStoreBySeriesID seriesID = some ts := by
  unfold getTStore at h
  split at h
  · obtain ⟨ts', hts', hx⟩ := Option.map_eq_some'.mp h
    cases hx; exact hts'
  · cases h

theorem mem_tagsIDs_of_getTStore {t : TagIndex B} {tags : List (String × String)} {seriesID : Nat} {ts : TStore B}
    (h : t.getTStore tags = some (seriesID, ts)) : (tags, seriesID) ∈ t.tagsIDs := by
  unfold getTStore at h
  split at h
  · rename_i seriesID' hfind
    obtain ⟨x, hx, hid⟩ := Option.map_eq_some'.mp hfind
    obtain ⟨_, -, hts⟩ := Option.map_eq_some'.mp h
    have hx1 : x.1 = tags := by simpa using List.find?_some hx
    rw [← (Prod.mk.inj hts).1, ← hid, ← hx1]
    exact List.mem_of_find?_eq_some hx
  · cases h

/-! #### Adding series -/

/-- `t'` is `t` with series added: its version, its tag sets and the store of each series are kept, and no
    field store is added. -/
structure Grows (t t' : TagIndex B) : Prop where
  version : t'.version = t.version
  tagsIDs : ∀ x ∈ t.tagsIDs, x ∈ t'.tagsIDs
  getTStore : ∀ {seriesID ts}, t.getTStoreBySeriesID seriesID = some ts → t'.getTStoreBySeriesID seriesID = some ts
  fieldStores : t'.fieldStores = t.fieldStores

theorem Grows.segments_subset {t t' : TagIndex B} (g : Grows t t') {h : UInt64} : t.segments h ⊆ t'.segments h :=
  fun _ hs => TagIndex.segments_subset (P := fun _ => True)
    (fun x hx _ hts _ hk _ => ⟨g.tagsIDs x hx, _, g.getTStore hts, hk⟩) hs trivial

section GetOrCreate
variable [Block B] {t : TagIndex B} {tags : List (String × String)} {now : Int} {r : TagIndex B × Nat × TStore B × Int}

theorem getOrCreateTStore_ok (h : t.getOrCreateTStore tags now = .ok r) :
    (r.1 = t ∧ t.getTStoreBySeriesID r.2.1 = some r.2.2.1) ∨
    (r.1.version = t.version ∧ r.1.tagsIDs = t.tagsIDs ++ [(tags, r.2.1)] ∧
      r.1.seriesID2TStore = t.seriesID2TStore ++ [(r.2.1, r.2.2.1)] ∧ r.1.idCounter = r.2.1 ∧
      r.2.1 = t.idCounter + 1 ∧ r.2.2.1.fStoreNodes = [] ∧
      r.1.tagKVEntrySets = tags.foldl (fun sets tag => addTagKV sets r.2.1 tag) t.tagKVEntrySets) := by
  unfold getOrCreateTStore at h
  split at h
  · rename_i seriesID ts hts
    cases h
    refine .inl ⟨rfl, ?_⟩
    unfold getTStore at hts
    split at hts
    · obtain ⟨_, _, h⟩ := Option.map_eq_some'.mp hts
      cases h
      assumption
    · cases hts
  · split at h
    · cases h
    · cases h
      exact .inr ⟨rfl, rfl, rfl, rfl, rfl, rfl, rfl⟩

theorem getOrCreateTStore_grows (h : t.getOrCreateTStore tags now = .ok r) : Grows t r.1 := by
  rcases getOrCreateTStore_ok h with ⟨h₁, -⟩ | ⟨hv, htags, hseries, -, -, hnodes, -⟩
  · exact h₁ ▸ ⟨rfl, fun _ hx => hx, id, rfl⟩
  · refine ⟨hv, fun x hx => htags ▸ List.mem_append_left _ hx, fun {seriesID ts} hts => ?_, ?_⟩
    · simp only [getTStoreBySeriesID, hseries, List.find?_append] at hts ⊢
      obtain ⟨y, hy, rfl⟩ := Option.map_eq_some'.mp hts
      simp [hy]
    · simp [fieldStores, hseries, hnodes]

theorem getOrCreateTStore_get (hf : t.IdsFresh) (h : t.getOrCreateTStore tags now = .ok r) :
    r.1.getTStoreBySeriesID r.2.1 = some r.2.2.1 ∧ r.1.IdsFresh := by
  rcases getOrCreateTStore_ok h with ⟨h₁, hget⟩ | ⟨-, -, hseries, hid, hnext, -, -⟩
  · exact h₁ ▸ ⟨hget, hf⟩
  · have hnone : t.seriesID2TStore.find? (·.1 = r.2.1) = none :=
      List.find?_eq_none.mpr fun x hx => by have := hf x hx; simp only [decide_eq_true_eq]; omega
    refine ⟨by simp [getTStoreBySeriesID, hseries, hnone], fun x hx => ?_⟩
    rw [hseries, List.mem_append, List.mem_singleton] at hx
    rcases hx with hx | rfl
    · have := hf x hx; omega
    · omega

theorem getOrCreateTStore_mem_tagsIDs (h : t.getOrCreateTStore tags now = .ok r) : (tags, r.2.1) ∈ r.1.tagsIDs := by
  unfold getOrCreateTStore at h
  split at h
  · cases h
    exact mem_tagsIDs_of_getTStore ‹_›
  · split at h
    · cases h
    · cases h
      exact List.mem_append_right _ (List.mem_singleton_self _)

end GetOrCreate

@[simp] theorem updateIndexTimeRange_fieldStores (t : TagIndex B) (p : Int) :
    (t.updateIndexTimeRange p).fieldStores = t.fieldStores := rfl

@[simp] theorem updateIndexTimeRange_segments (t : TagIndex B) (p : Int) (h : UInt64) :
    (t.updateIndexTimeRange p).segments h = t.segments h := rfl

@[simp] theorem updateIndexTimeRange_version (t : TagIndex B) (p : Int) : (t.updateIndexTimeRange p).version = t.version := rfl

theorem IdsFresh.updateIndexTimeRange {t : TagIndex B} (h : t.IdsFresh) (p : Int) : (t.updateIndexTimeRange p).IdsFresh := h

end TagIndex

/-! ### Removing and flushing series -/

/-- A call of `FlushField`. -/
def FlushCall.isFlushField : FlushCall → Bool
  | .flushField _ _ => true
  | _ => false

namespace TStore

theorem keys_eq_nil_of_isNoData {ts : TStore B} (h : ts.isNoData = true) : ts.keys = [] := by
  simp only [isNoData, List.all_eq_true, decide_eq_true_eq, FieldStore.segmentsCount, List.length_eq_zero] at h
  simpa [keys, FieldStore.familyTimes] using h

variable [Block B]

theorem flushSeriesTo_fst (ts : TStore B) (ft : Int) (seriesID : Nat) :
    (ts.flushSeriesTo ft seriesID).1 = { ts with fStoreNodes := ts.fStoreNodes.map fun fs => (fs.flushFieldTo ft).1 } := by
  simp [flushSeriesTo]

theorem flushSeriesTo_fieldCalls (ts : TStore B) (ft : Int) (seriesID : Nat) :
    (ts.flushSeriesTo ft seriesID).2.2.filter FlushCall.isFlushField =
      (ts.fStoreNodes.map fun fs => (fs.flushFieldTo ft).2.2).flatten := by
  simp only [flushSeriesTo, List.filter_append, List.filter_flatten, List.map_map]
  have hcalls (fs : FieldStore B) : (fs.flushFieldTo ft).2.2.filter FlushCall.isFlushField = (fs.flushFieldTo ft).2.2 := by
    rcases FieldStore.flushFieldTo_calls fs ft with h | ⟨_, _, _, h⟩ <;> simp [h, FlushCall.isFlushField]
  simp [Function.comp_def, hcalls, FlushCall.isFlushField]

end TStore

namespace TagIndex

/-- `t'` is `t` with some of the series `ids` removed: the version, the counter, the other series and
    their tag sets are kept, and no series is added. -/
structure Shrinks (ids : List Nat) (t t' : TagIndex B) : Prop where
  version : t'.version = t.version
  idCounter : t'.idCounter = t.idCounter
  series : ∀ x ∈ t'.seriesID2TStore, x ∈ t.seriesID2TStore
  tagsIDs : ∀ x ∈ t.tagsIDs, x.2 ∉ ids → x ∈ t'.tagsIDs
  getTStore : ∀ {seriesID}, seriesID ∉ ids → t'.getTStoreBySeriesID seriesID = t.getTStoreBySeriesID seriesID

namespace Shrinks
variable {ids ids' : List Nat} {t t' t'' : TagIndex B}

theorem refl (t : TagIndex B) : Shrinks ids t t := ⟨rfl, rfl, fun _ h => h, fun _ h _ => h, fun _ => rfl⟩

theorem trans (h₁ : Shrinks ids t t') (h₂ : Shrinks ids' t' t'') : Shrinks (ids ++ ids') t t'' where
  version := h₂.version.trans h₁.version
  idCounter := h₂.idCounter.trans h₁.idCounter
  series x hx := h₁.series x (h₂.series x hx)
  tagsIDs x hx hn := h₂.tagsIDs x (h₁.tagsIDs x hx fun h => hn (List.mem_append_left _ h))
    fun h => hn (List.mem_append_right _ h)
  getTStore hn := (h₂.getTStore fun h => hn (List.mem_append_right _ h)).trans
    (h₁.getTStore fun h => hn (List.mem_append_left _ h))

theorem mono (h : Shrinks ids t t') (hsub : ids ⊆ ids') : Shrinks ids' t t' :=
  { h with tagsIDs := fun x hx hn => h.tagsIDs x hx fun h => hn (hsub h)
           getTStore := fun hn => h.getTStore fun h => hn (hsub h) }

theorem idsFresh (h : Shrinks ids t t') (hf : t.IdsFresh) : t'.IdsFresh :=
  fun x hx => h.idCounter ▸ hf x (h.series x hx)

theorem fieldStores_sub (h : Shrinks ids t t') {fs : FieldStore B} (hfs : fs ∈ t'.fieldStores) : fs ∈ t.fieldStores := by
  obtain ⟨x, hx, hfs⟩ := mem_fieldStores.mp hfs
  exact mem_fieldStores.mpr ⟨x, h.series x hx, hfs⟩

end Shrinks

theorem removeSeries_shrinks (t : TagIndex B) (seriesID : Nat) : Shrinks [seriesID] t (t.removeSeries seriesID) where
  version := rfl
  idCounter := rfl
  series _ hx := (List.mem_filter.mp hx).1
  tagsIDs x hx hn := List.mem_filter.mpr ⟨hx, by simpa using hn⟩
  getTStore {seriesID₀} hn := by
    have hne : seriesID₀ ≠ seriesID := by simpa using hn
    simp only [getTStoreBySeriesID, removeSeries, List.find?_filter]
    congr 2
    funext x
    by_cases hx : x.1 = seriesID₀ <;> simp [hx, hne]

theorem removeTStores_shrinks : ∀ (ids : List Nat) (t : TagIndex B), Shrinks ids t (t.removeTStores ids).1
  | [], t => .refl t
  | seriesID :: rest, t => by
    unfold removeTStores
    split
    · exact (removeTStores_shrinks rest t).mono (List.subset_cons_self _ _)
    · exact (removeSeries_shrinks t seriesID).trans (removeTStores_shrinks rest _)

theorem segments_subset_removeTStores {ids : List Nat} {t : TagIndex B}
    (hids : ∀ seriesID ∈ ids, ∃ ts, t.getTStoreBySeriesID seriesID = some ts ∧ ts.isNoData = true) (h : UInt64) :
    t.segments h ⊆ (t.removeTStores ids).1.segments h := by
  have hsh := removeTStores_shrinks ids t
  refine fun s hs => segments_subset (P := fun _ => True) (fun x hx ts hts k hk _ => ?_) hs trivial
  have hn : x.2 ∉ ids := fun hin => by
    obtain ⟨ts', hts', hno⟩ := hids _ hin
    rw [hts, Option.some.injEq] at hts'
    subst hts'
    simp [TStore.keys_eq_nil_of_isNoData hno] at hk
  exact ⟨hsh.tagsIDs x hx hn, ts, (hsh.getTStore hn).trans hts, hk⟩

section Flush
variable [Block B] (t : TagIndex B) (ft : Int)

@[simp] theorem flushVersionDataTo_tagsIDs : (t.flushVersionDataTo ft).1.tagsIDs = t.tagsIDs := rfl

@[simp] theorem flushVersionDataTo_version : (t.flushVersionDataTo ft).1.version = t.version := rfl

theorem flushVersionDataTo_series :
    (t.flushVersionDataTo ft).1.seriesID2TStore = t.seriesID2TStore.map fun x => (x.1, (x.2.flushSeriesTo ft x.1).1) := by
  simp [flushVersionDataTo]

theorem flushVersionDataTo_getTStoreBySeriesID (seriesID : Nat) :
    (t.flushVersionDataTo ft).1.getTStoreBySeriesID seriesID =
      (t.getTStoreBySeriesID seriesID).map fun ts => (ts.flushSeriesTo ft seriesID).1 := by
  simp only [getTStoreBySeriesID, flushVersionDataTo_series, List.find?_map, Option.map_map]
  cases hx : t.seriesID2TStore.find? fun x => x.1 = seriesID with
  | none => simp [Function.comp_def, hx]
  | some x =>
    have hid : x.1 = seriesID := by simpa using List.find?_some hx
    simp [Function.comp_def, hx, hid, TStore.flushSeriesTo_fst]

theorem flushVersionDataTo_fieldStores :
    (t.flushVersionDataTo ft).1.fieldStores = t.fieldStores.map fun fs => (fs.flushFieldTo ft).1 := by
  simp [fieldStores, flushVersionDataTo_series, List.map_flatMap, List.flatMap_map, TStore.flushSeriesTo_fst]

theorem IdsFresh.flushVersionDataTo {t : TagIndex B} (h : t.IdsFresh) : (t.flushVersionDataTo ft).1.IdsFresh := by
  intro x hx
  rw [flushVersionDataTo_series, List.mem_map] at hx
  obtain ⟨y, hy, rfl⟩ := hx
  exact h y hy

theorem flushVersionDataTo_fieldCalls :
    (t.flushVersionDataTo ft).2.2.filter FlushCall.isFlushField =
      (t.fieldStores.map fun fs => (fs.flushFieldTo ft).2.2).flatten := by
  simp [flushVersionDataTo, List.filter_flatten, Function.comp_def, TStore.flushSeriesTo_fieldCalls, fieldStores,
    List.flatMap, List.flatten_flatten]

end Flush

end TagIndex

end Lindb.Memdb

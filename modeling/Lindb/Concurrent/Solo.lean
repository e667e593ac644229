import Lindb.Concurrent.Buckets

/-! A `Write` that runs alone (§4.4, §4.5, §5): from any state that keeps `SharedOk` it returns what the
    sequential `MemDB.write` returns, and leaves the reader what that leaves, section by section. -/

namespace Lindb.Memdb

variable {B : Type}

/-- The metric store `st` with the series store `ts` put back as series `seriesID` of its mutable index: what
    the heap holds while the series store's `Write` runs. -/
def MStore.withTStore (st : MStore B) (seriesID : Nat) (ts : TStore B) : MStore B :=
  { st with mutable := st.mutable.setTStore seriesID ts }

@[simp] theorem MStore.withTStore_fieldsMetas (st : MStore B) (seriesID : Nat) (ts : TStore B) :
    (st.withTStore seriesID ts).fieldsMetas = st.fieldsMetas := rfl

@[simp] theorem MStore.withTStore_metricID (st : MStore B) (seriesID : Nat) (ts : TStore B) :
    (st.withTStore seriesID ts).metricID = st.metricID := rfl

namespace Concurrent

theorem set_of_getElem? {α : Type} {l : List α} {i : Nat} {a : α} (h : l[i]? = some a) : l.set i a = l :=
  List.ext_getElem? fun j => by
    rw [List.getElem?_set]
    split_ifs with hij hi
    · subst hij; exact h.symm
    · exact absurd (List.getElem?_eq_some_iff.mp h).1 (hij ▸ hi)
    · rfl

namespace Shared
variable {s : Shared B}

@[simp] theorem setStore_setStore (a : Nat) (m m' : MStore B) : (s.setStore a m).setStore a m' = s.setStore a m' := by
  simp [setStore, List.set_set]

theorem setStore_self {a : Nat} {m : MStore B} (h : s.heap[a]? = some m) : s.setStore a m = s := by
  cases s; simp only [setStore, set_of_getElem? h]

theorem setStore_heap_self {a : Nat} (m : MStore B) (h : a < s.heap.length) : (s.setStore a m).heap[a]? = some m := by
  simp [setStore, h]

end Shared

/-- Where `Write` goes when the series store's `Write` ended with `err`. -/
def WriterPC.afterFields (addr : Nat) (written createdSize : Int) : Option Err → WriterPC
  | none => .updateIndexTimeRange addr written createdSize
  | some e => .addSize addr written createdSize (some e)

/-! ### What a reader sees -/

namespace SharedOk
variable {cfg : Config} {s : Shared B}

theorem filterMap_set_bucket {heap : List (MStore B)} {H : UInt64} {addr : Nat} (M : MStore B)
    (hlen : addr < heap.length) :
    ∀ {b : List (UInt64 × Nat)}, (b.map (·.1)).Nodup → (H, addr) ∈ b → (∀ x ∈ b, x.2 = addr → x.1 = H) →
      b.filterMap (fun x => ((heap.set addr M)[x.2]?).map (x.1, ·)) =
        setFirst (·.1 = H) (H, M) (b.filterMap fun x => (heap[x.2]?).map (x.1, ·))
  | [], _, hmem, _ => absurd hmem (List.not_mem_nil _)
  | x :: b, hkeys, hmem, haddr => by
    rw [List.map_cons, List.nodup_cons] at hkeys
    by_cases hx : x.1 = H
    · -- the entry of `H` is the first; no other entry has its address
      have hxa : x = (H, addr) := by
        rcases List.mem_cons.mp hmem with h | h
        · exact h.symm
        · exact absurd (hx ▸ List.mem_map_of_mem Prod.fst h) hkeys.1
      subst hxa
      have hrest : ∀ y ∈ b, (heap.set addr M)[y.2]? = heap[y.2]? := fun y hy =>
        List.getElem?_set_ne fun hya => hkeys.1 <| show H ∈ b.map (·.1) from
          haddr y (List.mem_cons_of_mem _ hy) hya.symm ▸ List.mem_map_of_mem (·.1) hy
      obtain ⟨ms, hms⟩ : ∃ ms, heap[addr]? = some ms := ⟨_, List.getElem?_eq_getElem hlen⟩
      simp [hms, hlen, setFirst, List.filterMap_congr fun y hy => congrArg (Option.map _) (hrest y hy)]
    · have hxa : x.2 ≠ addr := fun h => hx (haddr x (List.mem_cons_self _ _) h)
      have hmem' : (H, addr) ∈ b := (List.mem_cons.mp hmem).resolve_left fun h => hx (h ▸ rfl)
      have ih := filterMap_set_bucket M hlen hkeys.2 hmem' fun y hy => haddr y (List.mem_cons_of_mem _ hy)
      rw [List.filterMap_cons, List.filterMap_cons, List.getElem?_set_ne (Ne.symm hxa)]
      rcases heap[x.2]? with _ | m
      · exact ih
      · simp [setFirst, hx, ih]

theorem toMemDB_setStore (h : SharedOk cfg s) {H : UInt64} {addr : Nat} (ha : s.getAddr cfg H = some addr)
    (M : MStore B) : (s.setStore addr M).toMemDB = s.toMemDB.setMStore cfg H M := by
  obtain ⟨b₀, hb₀, hmem⟩ := Shared.getAddr_mem ha
  have hlen := h.lt_length (List.getElem?_mem hb₀) hmem
  simp only [Shared.toMemDB, MemDB.setMStore, Shared.setStore, MemDB.mk.injEq, and_true]
  refine List.ext_getElem? fun i => ?_
  simp only [List.getElem?_map, List.getElem?_modify]
  rcases hb : s.mStoresList[i]? with _ | b
  · rfl
  have haddr : ∀ x ∈ b, x.2 = addr → x.1 = H := fun x hx hxa =>
    h.addrs b (List.getElem?_mem hb) b₀ (List.getElem?_mem hb₀) x hx (H, addr) hmem hxa
  by_cases hi : getBucketIndex cfg H = i
  · subst hi
    cases hb₀.symm.trans hb
    simp only [Option.map_eq_map, Option.map_some', ite_true]
    exact congrArg some (filterMap_set_bucket M hlen (h.keys b₀ (List.getElem?_mem hb₀)) hmem haddr)
  · -- no entry of another bucket has the address
    have hrest : ∀ x ∈ b, (s.heap.set addr M)[x.2]? = s.heap[x.2]? := fun x hx =>
      List.getElem?_set_ne fun hxa => hi (haddr x hx hxa.symm ▸ h.placed i b hb x hx)
    simp [hi, List.filterMap_congr fun x hx => congrArg (Option.map _) (hrest x hx)]

theorem getOrCreateMStore_of_getAddr [Block B] (h : SharedOk cfg s) {name : String} {now : Int} {addr : Nat} {ms : MStore B}
    (ha : s.getAddr cfg (cfg.hash name) = some addr) (hms : s.heap[addr]? = some ms) :
    s.toMemDB.getOrCreateMStore cfg name (cfg.hash name) now = (s.toMemDB, ms) := by
  simp [MemDB.getOrCreateMStore, h.getMStoreByMetricHash, ha, hms]

theorem getOrCreateMStore_of_createMStore [Block B] (h : SharedOk cfg s) {name : String} {now : Int}
    (hnone : s.getAddr cfg (cfg.hash name) = none) :
    s.toMemDB.getOrCreateMStore cfg name (cfg.hash name) now =
      ((s.createMStore cfg name now).toMemDB, newMetricStore (cfg.generator.genMetricID name) now) := by
  simp only [MemDB.getOrCreateMStore, h.getMStoreByMetricHash, hnone, Option.none_bind, Prod.mk.injEq, and_true]
  simp only [Shared.toMemDB, Shared.createMStore, MemDB.mk.injEq, and_true]
  refine ⟨List.ext_getElem? fun i => ?_, rfl⟩
  simp only [List.getElem?_map, List.getElem?_modify]
  rcases hb : s.mStoresList[i]? with _ | b
  · rfl
  -- the old entries keep their stores
  have hold : ∀ x ∈ b, (s.heap ++ [newMetricStore (cfg.generator.genMetricID name) now])[x.2]? = s.heap[x.2]? :=
    fun x hx => List.getElem?_append_left (h.lt_length (List.getElem?_mem hb) hx)
  by_cases hi : getBucketIndex cfg (cfg.hash name) = i <;>
    simp [hi, List.filterMap_congr fun x hx => congrArg (Option.map _) (hold x hx)]

end SharedOk

theorem toMemDB_addFamilyTime (s : Shared B) (familyTime : Int) :
    (s.addFamilyTime familyTime).toMemDB = s.toMemDB.addFamilyTime familyTime := by
  simp only [Shared.addFamilyTime, MemDB.addFamilyTime, Shared.toMemDB]
  split_ifs <;> rfl

section Fields
variable {s₀ : Shared B} {addr seriesID : Nat} {st : MStore B} {ts : TStore B}

theorem getTStore_withTStore (hlen : addr < s₀.heap.length) (hid : (st.mutable.getTStoreBySeriesID seriesID).isSome) :
    (s₀.setStore addr (st.withTStore seriesID ts)).getTStore addr seriesID = some ts := by
  unfold Shared.getTStore
  rw [Shared.setStore_heap_self _ hlen]
  simp [MStore.withTStore, TagIndex.getTStoreBySeriesID_setTStore_self hid]

theorem setTStore_withTStore (hlen : addr < s₀.heap.length) (hid : (st.mutable.getTStoreBySeriesID seriesID).isSome)
    (ts' : TStore B) :
    (s₀.setStore addr (st.withTStore seriesID ts)).setTStore addr seriesID ts' = s₀.setStore addr (st.withTStore seriesID ts') := by
  unfold Shared.setTStore
  rw [Shared.setStore_heap_self _ hlen]
  simp [MStore.withTStore, TagIndex.getTStoreBySeriesID_setTStore_self hid]

end Fields

/-! ### A writer's steps -/

section Block
variable [Block B] {cfg : Config} {metric : PbMetric} {now : Int}

/-- The writer of `Write(metric)` goes from `s` at `pc` to `s'` at `pc'` by its own steps. -/
inductive Reaches (cfg : Config) (metric : PbMetric) (now : Int) : Shared B → WriterPC → Shared B → WriterPC → Prop
  | refl (s : Shared B) (pc : WriterPC) : Reaches cfg metric now s pc s pc
  | step {s s₁ s' : Shared B} {pc pc₁ pc' : WriterPC} :
      stepWriter cfg metric now s pc = some (s₁, pc₁) → Reaches cfg metric now s₁ pc₁ s' pc' → Reaches cfg metric now s pc s' pc'

namespace Reaches

theorem trans {s s₁ s' : Shared B} {pc pc₁ pc' : WriterPC} (h₁ : Reaches cfg metric now s pc s₁ pc₁)
    (h₂ : Reaches cfg metric now s₁ pc₁ s' pc') : Reaches cfg metric now s pc s' pc' := by
  induction h₁ with
  | refl => exact h₂
  | step hs _ ih => exact .step hs (ih h₂)

theorem single {s s' : Shared B} {pc pc' : WriterPC} (h : stepWriter cfg metric now s pc = some (s', pc')) :
    Reaches cfg metric now s pc s' pc' := .step h (.refl _ _)

end Reaches

/-- Thread `t` goes from `s` to `s'`, becoming `t'`, by its own steps, no other thread moving. -/
inductive Solo (cfg : Config) : Shared B → Thread → Shared B → Thread → Prop
  | refl (s : Shared B) (t : Thread) : Solo cfg s t s t
  | step {s s₁ s' : Shared B} {t t₁ t' : Thread} :
      stepThread cfg s t = some (s₁, t₁) → Solo cfg s₁ t₁ s' t' → Solo cfg s t s' t'

namespace Solo
variable {s s₁ s' : Shared B} {t t₁ t' : Thread}

theorem trans (h₁ : Solo cfg s t s₁ t₁) (h₂ : Solo cfg s₁ t₁ s' t') : Solo cfg s t s' t' := by
  induction h₁ with
  | refl => exact h₂
  | step hs _ ih => exact .step hs (ih h₂)

theorem run (h : Solo cfg s t s' t') (ts : List Thread) :
    ∃ n, Concurrent.run cfg ⟨s, ts ++ [t]⟩ (List.replicate n (.step ts.length)) = some ⟨s', ts ++ [t']⟩ := by
  induction h with
  | refl => exact ⟨0, rfl⟩
  | @step s s₁ s' t t₁ t' hs _ ih =>
    obtain ⟨n, hn⟩ := ih
    have happly : (⟨s, ts ++ [t]⟩ : Sys B).apply cfg (.step ts.length) = some ⟨s₁, ts ++ [t₁]⟩ := by
      simp [Sys.apply, hs, List.set_append_right]
    exact ⟨n + 1, by simp [List.replicate_succ, Concurrent.run, happly, hn]⟩

theorem sharedOk (h : Solo cfg s t s' t') (hs : SharedOk cfg s) : SharedOk cfg s' := by
  induction h with
  | refl => exact hs
  | step hst _ ih => exact ih (hs.stepThread hst)

end Solo

theorem Reaches.solo {s s' : Shared B} {pc pc' : WriterPC} (h : Reaches cfg metric now s pc s' pc') :
    Solo cfg s (.writer metric now pc) s' (.writer metric now pc') := by
  induction h with
  | refl => exact .refl _ _
  | step hs _ ih => exact .step (by simp [stepThread, hs]) ih

/-! ### The series store's `Write` -/

section Fields
variable {s₀ : Shared B} {addr seriesID : Nat} {st : MStore B} {ts : TStore B}

theorem step_writeField (hlen : addr < s₀.heap.length) (hid : (st.mutable.getTStoreBySeriesID seriesID).isSome)
    {ctx : WriteContext} (hctx : writeContext cfg metric st = ctx) (fieldID : Nat) (f : PbField) (fields : List PbField)
    (written createdSize : Int) :
    stepWriter cfg metric now (s₀.setStore addr (st.withTStore seriesID ts))
        (.writeField addr seriesID fieldID f fields written createdSize) =
      some (s₀.setStore addr (st.withTStore seriesID (ts.writeField fieldID f ctx).1),
        .nextField addr seriesID fields (written + (ts.writeField fieldID f ctx).2) createdSize) := by
  subst hctx
  simp only [stepWriter]
  rw [Shared.setStore_heap_self _ hlen, getTStore_withTStore hlen hid]
  dsimp only
  rw [setTStore_withTStore hlen hid]
  rfl

theorem reaches_fields (hlen : addr < s₀.heap.length) (now : Int) {ctx : WriteContext} (createdSize : Int) :
    ∀ (fields : List PbField) (ts : TStore B) (st : MStore B) (written : Int) (r : TStore B × MStore B × Int × Option Err),
      (st.mutable.getTStoreBySeriesID seriesID).isSome → writeContext cfg metric st = ctx →
      ts.write (fun m : MStore B => m.getFieldIDOrGenerate cfg.generator) ctx now st fields = r →
      Reaches cfg metric now (s₀.setStore addr (st.withTStore seriesID ts)) (.nextField addr seriesID fields written createdSize)
        (s₀.setStore addr (r.2.1.withTStore seriesID r.1)) (.afterFields addr (written + r.2.2.1) createdSize r.2.2.2)
  | [], ts, st, written, r, hid, _, hr => by
    subst hr
    refine .single ?_
    simp only [stepWriter, getTStore_withTStore hlen hid, Option.map_some', setTStore_withTStore hlen hid, TStore.write,
      WriterPC.afterFields, Int.add_zero]
  | f :: fields, ts, st, written, r, hid, hctx, hr => by
    have hM : (s₀.setStore addr (st.withTStore seriesID ts)).heap[addr]? = some (st.withTStore seriesID ts) :=
      Shared.setStore_heap_self _ hlen
    rcases hfm : getFromName st.fieldsMetas f.name with _ | fm
    · by_cases hcount : TStoreMaxFieldsCount ≤ st.fieldsMetas.length
      · -- too many fields
        simp only [TStore.write, MStore.getFieldIDOrGenerate, hfm, hcount, if_true] at hr
        subst hr
        refine .single ?_
        simp only [stepWriter, hM, Option.map_some', MStore.withTStore_fieldsMetas, hfm, hcount, if_true, WriterPC.afterFields, Int.add_zero]
      · rcases hgen : cfg.generator.genFieldID st.metricID f.name (getFieldType f.field) with e | fid
        · -- the generator fails
          simp only [TStore.write, MStore.getFieldIDOrGenerate, hfm, hcount, hgen, if_false] at hr
          subst hr
          refine .step (by simp only [stepWriter, hM, Option.map_some', MStore.withTStore_fieldsMetas, hfm, hcount, if_false]; rfl)
            (.single ?_)
          simp only [stepWriter, hM, Option.map_some', MStore.withTStore_fieldsMetas, MStore.withTStore_metricID, hfm, hgen, WriterPC.afterFields, Int.add_zero]
        · -- a new field, stored under `mux`
          simp only [TStore.write, MStore.getFieldIDOrGenerate, hfm, hcount, hgen, if_false] at hr
          subst hr
          let st' : MStore B := { st with fieldsMetas := st.fieldsMetas ++ [⟨f.name, fid, getFieldType f.field⟩] }
          have hid' : (st'.mutable.getTStoreBySeriesID seriesID).isSome := hid
          have hctx' : writeContext cfg metric st' = ctx := hctx
          have hgenerate : stepWriter cfg metric now (s₀.setStore addr (st.withTStore seriesID ts))
              (.generateField addr seriesID f fields written createdSize) =
              some (s₀.setStore addr (st'.withTStore seriesID ts), .writeField addr seriesID fid f fields written createdSize) := by
            simp only [stepWriter, hM, Option.map_some', MStore.withTStore_fieldsMetas, MStore.withTStore_metricID, hfm,
              hgen, Shared.setStore_setStore]
            rfl
          refine .step (by simp only [stepWriter, hM, Option.map_some', MStore.withTStore_fieldsMetas, hfm, hcount, if_false])
            (.step hgenerate (.step (step_writeField hlen hid' hctx' _ _ _ _ _) ?_))
          rw [← Int.add_assoc]
          exact reaches_fields hlen now createdSize fields _ _ _ _ hid' hctx' rfl
    · by_cases htype : fm.type = getFieldType f.field
      · -- a known field of the type
        simp only [TStore.write, MStore.getFieldIDOrGenerate, hfm, htype, if_true] at hr
        subst hr
        refine .step (by simp only [stepWriter, hM, Option.map_some', MStore.withTStore_fieldsMetas, hfm, htype, if_true]; rfl)
          (.step (step_writeField hlen hid hctx _ _ _ _ _) ?_)
        rw [← Int.add_assoc]
        exact reaches_fields hlen now createdSize fields _ _ _ _ hid hctx rfl
      · -- a known field of another type
        simp only [TStore.write, MStore.getFieldIDOrGenerate, hfm, htype, if_false] at hr
        subst hr
        refine .single ?_
        simp only [stepWriter, hM, Option.map_some', MStore.withTStore_fieldsMetas, hfm, htype, if_false, WriterPC.afterFields, Int.add_zero]

end Fields

/-! ### A metric store's `Write` -/

theorem reaches_afterFields {s : Shared B} {addr : Nat} {M : MStore B} (hlen : addr < s.heap.length) (metric : PbMetric)
    (now written createdSize : Int) (err : Option Err) (ctx : WriteContext)
    (hctx : (writeContext cfg metric M).pointTime = ctx.pointTime) :
    let M₃ := if err.isNone then { M with mutable := M.mutable.updateIndexTimeRange ctx.pointTime } else M
    Reaches cfg metric now (s.setStore addr M) (.afterFields addr written createdSize err)
      (s.setStore addr { M₃ with size := toInt32 (M₃.size + toInt32 written) }) (.finish (written + createdSize) err) := by
  have hM := Shared.setStore_heap_self (s := s) M hlen
  cases err with
  | none =>
    refine .step (by simp only [WriterPC.afterFields, stepWriter, hM, Option.map_some', hctx]; rfl) (.single ?_)
    simp only [stepWriter, Shared.setStore_setStore, Shared.setStore_heap_self _ hlen, Option.map_some',
      Option.isNone_none, if_true]
  | some e =>
    refine .single ?_
    simp only [WriterPC.afterFields, stepWriter, hM, Option.map_some', Shared.setStore_setStore, Option.isNone_some,
      Bool.false_eq_true, if_false]

theorem reaches_series {s : Shared B} {addr seriesID : Nat} {ms₁ : MStore B} {ts : TStore B}
    (hlen : addr < s.heap.length) (hts : ms₁.mutable.getTStoreBySeriesID seriesID = some ts) (now : Int)
    {ctx : WriteContext} (hctx : writeContext cfg metric ms₁ = ctx) (createdSize : Int) :
    let w := ts.write (fun m : MStore B => m.getFieldIDOrGenerate cfg.generator) ctx now ms₁ metric.fields
    let ms₂ : MStore B := { w.2.1 with mutable := w.2.1.mutable.setTStore seriesID w.1 }
    let ms₃ := if w.2.2.2.isNone then { ms₂ with mutable := ms₂.mutable.updateIndexTimeRange ctx.pointTime } else ms₂
    Reaches cfg metric now (s.setStore addr ms₁) (.nextField addr seriesID metric.fields 0 createdSize)
      (s.setStore addr { ms₃ with size := toInt32 (ms₃.size + toInt32 w.2.2.1) }) (.finish (w.2.2.1 + createdSize) w.2.2.2) := by
  intro w ms₂ ms₃
  have h₀ : ms₁ = ms₁.withTStore seriesID ts := by
    unfold MStore.withTStore
    rw [TagIndex.setTStore_of_getTStoreBySeriesID hts]
  have hfields := reaches_fields hlen now createdSize metric.fields ts ms₁ 0 w (Option.isSome_iff_exists.mpr ⟨ts, hts⟩)
    hctx rfl
  have hend := reaches_afterFields (s := s) (M := ms₂) hlen metric now (0 + w.2.2.1) createdSize w.2.2.2 ctx
    (by subst hctx; rfl)
  rw [← h₀] at hfields
  simpa only [Int.zero_add] using hfields.trans hend

theorem reaches_mstoreWrite {s : Shared B} {addr : Nat} {ms : MStore B} (hms : s.heap[addr]? = some ms)
    (hfresh : ms.mutable.IdsFresh) :
    Reaches cfg metric now s (.isFull addr)
      (s.setStore addr (ms.write cfg.generator metric (writeContext cfg metric ms) now).1)
      (.finish (ms.write cfg.generator metric (writeContext cfg metric ms) now).2.1
        (ms.write cfg.generator metric (writeContext cfg metric ms) now).2.2) := by
  have hlen : addr < s.heap.length := (List.getElem?_eq_some_iff.mp hms).1
  by_cases hfull : ms.isFull
  · refine .single ?_
    simp only [stepWriter, hms, Option.map_some', hfull, if_true, MStore.write, Shared.setStore_self hms]
  have hisFull : stepWriter cfg metric now s (.isFull addr) = some (s, .getTStore addr) := by
    simp only [stepWriter, hms, Option.map_some', hfull, Bool.false_eq_true, if_false]
  rcases hget : ms.mutable.getTStore metric.tags with _ | ⟨seriesID, ts⟩
  · have hlook : stepWriter cfg metric now s (.getTStore addr) = some (s, .createTStore addr) := by
      simp only [stepWriter, hms, Option.map_some', hget]
    rcases hcreate : ms.mutable.getOrCreateTStore metric.tags now with e | ⟨mutable, seriesID, ts, createdSize⟩
    · -- the tag index refuses the series
      refine .step hisFull (.step hlook (.single ?_))
      simp only [stepWriter, hms, Option.map_some', hcreate, MStore.write, hfull, Bool.false_eq_true, if_false,
        MStore.getOrCreateTStore, hget, Shared.setStore_self hms]
    · -- a new series, created under `Lock`
      have hts : mutable.getTStoreBySeriesID seriesID = some ts := (TagIndex.getOrCreateTStore_get hfresh hcreate).1
      let ms₁ : MStore B := { ms with mutable, size := toInt32 (ms.size + toInt32 createdSize) }
      have hrest := reaches_series (s := s) hlen (show ms₁.mutable.getTStoreBySeriesID seriesID = some ts from hts) now
        (show writeContext cfg metric ms₁ = writeContext cfg metric ms from rfl) createdSize
      have hcreateStep : stepWriter cfg metric now s (.createTStore addr) =
          some (s.setStore addr ms₁, .nextField addr seriesID metric.fields 0 createdSize) := by
        simp only [stepWriter, hms, Option.map_some', hcreate]
      refine .step hisFull (.step hlook (.step hcreateStep ?_))
      simpa only [MStore.write, hfull, Bool.false_eq_true, if_false, MStore.getOrCreateTStore, hget, hcreate] using hrest
  · -- the series is in the index
    have hts := TagIndex.getTStoreBySeriesID_of_getTStore hget
    have hrest := reaches_series (s := s) hlen hts now (show writeContext cfg metric ms = writeContext cfg metric ms
      from rfl) 0
    rw [Shared.setStore_self hms] at hrest
    have hlook : stepWriter cfg metric now s (.getTStore addr) = some (s, .nextField addr seriesID metric.fields 0 0) := by
      simp only [stepWriter, hms, Option.map_some', hget]
    refine .step hisFull (.step hlook ?_)
    simpa only [MStore.write, hfull, Bool.false_eq_true, if_false, MStore.getOrCreateTStore, hget, Int.add_zero]
      using hrest

/-! ### The whole `Write` -/

variable {s : Shared B}

theorem reaches_getOrCreateMStore (h : SharedOk cfg s) (metric : PbMetric) (now : Int) :
    ∃ s₁ addr, Reaches cfg metric now s .start s₁ (.isFull addr) ∧ SharedOk cfg s₁ ∧
      s₁.getAddr cfg (cfg.hash metric.name) = some addr ∧
      s₁.heap[addr]? = some (s.toMemDB.getOrCreateMStore cfg metric.name (cfg.hash metric.name) now).2 ∧
      s₁.toMemDB = (s.toMemDB.getOrCreateMStore cfg metric.name (cfg.hash metric.name) now).1 := by
  rcases ha : s.getAddr cfg (cfg.hash metric.name) with _ | addr
  · -- the store is created under the bucket's lock
    have hlen : getBucketIndex cfg (cfg.hash metric.name) < s.mStoresList.length := h.length ▸ getBucketIndex_lt cfg _
    have hstart : stepWriter cfg metric now s .start = some (s, .create) := by simp only [stepWriter, ha]
    have hcreate : stepWriter cfg metric now s .create =
        some (s.createMStore cfg metric.name now, .isFull s.heap.length) := by simp only [stepWriter, ha]
    rw [h.getOrCreateMStore_of_createMStore ha]
    refine ⟨_, _, .step hstart (.single hcreate), h.create ha, ?_, SharedOk.createMStore_heap_length, rfl⟩
    rw [Shared.getAddr_of_add hlen ha (Shared.createMStore_mStoresList _ _) _, if_pos rfl]
  · obtain ⟨ms, hms, -⟩ := h.named_of_getAddr ha
    rw [h.getOrCreateMStore_of_getAddr ha hms]
    exact ⟨s, addr, .single (by simp only [stepWriter, ha]), h, ha, hms, rfl⟩

theorem reaches_write (h : SharedOk cfg s) (metric : PbMetric) (now : Int) :
    ∃ s', Reaches cfg metric now s .start s' (.done (s.toMemDB.write cfg metric now).2) ∧
      s'.toMemDB = (s.toMemDB.write cfg metric now).1 := by
  obtain ⟨s₁, addr, h₁, hok, ha, hms, hview⟩ := reaches_getOrCreateMStore h metric now
  refine ⟨_, h₁.trans ((reaches_mstoreWrite hms (hok.idsFresh _ (List.getElem?_mem hms))).trans (.single rfl)), ?_⟩
  simp only [MemDB.write, writeContext, ← hview, ← hok.toMemDB_setStore ha, ← toMemDB_addFamilyTime]
  split_ifs <;> rfl

end Block

/-- From any reachable state, a `Write` run alone returns and ends as the sequential `MemDB.write`. -/
theorem write_alone_refines [Block B] {cfg : Config} {sys : Sys B} (h : Reachable cfg sys) (metric : PbMetric)
    (now : Int) :
    ∃ n s', run cfg sys (.write metric now :: List.replicate n (.step sys.threads.length)) =
        some ⟨s', sys.threads ++ [.writer metric now (.done (sys.shared.toMemDB.write cfg metric now).2)]⟩ ∧
      s'.toMemDB = (sys.shared.toMemDB.write cfg metric now).1 := by
  obtain ⟨s', hr, hv⟩ := reaches_write (SharedOk.of_reachable h) metric now
  obtain ⟨n, hn⟩ := hr.solo.run sys.threads
  exact ⟨n, s', by simpa only [run, Sys.apply, Option.some_bind] using hn, hv⟩

namespace Sample
open Memdb.Sample

/-- The first `Write` of `cpu`, from `NewMemoryDatabase`. -/
theorem write_alone_refines_init :
    ∃ n s', run config ⟨Shared.init config, []⟩ (.write (point "cpu" 100) 1 :: List.replicate n (.step 0)) =
        some ⟨s', [.writer (point "cpu" 100) 1
          (.done (((Shared.init config : Shared Nat).toMemDB.write config (point "cpu" 100) 1).2))]⟩ ∧
      s'.toMemDB = ((Shared.init config : Shared Nat).toMemDB.write config (point "cpu" 100) 1).1 :=
  write_alone_refines .init (point "cpu" 100) 1

end Sample

end Concurrent
end Lindb.Memdb

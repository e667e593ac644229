import Lindb.Theorems.Counter

/-! The limits of a metric store when its calls do not overlap (§4.4): its series ids and field metas. -/

namespace Lindb.Memdb

variable {B : Type}

namespace MStore

/-- The limits a metric store keeps: a limit a `uint32` holds, no more series ids given out than it, and
    field metas that name each field once, at most `TStoreMaxFieldsCount` of them. -/
structure LimitsOk (ms : MStore B) : Prop where
  maxTagsLimit : ms.maxTagsLimit < 2 ^ 32
  tagsUsed : ms.getTagsUsed ≤ ms.maxTagsLimit
  names : (ms.fieldsMetas.map (·.name)).Nodup
  fieldsCount : ms.fieldsMetas.length ≤ TStoreMaxFieldsCount

namespace LimitsOk
variable {ms ms' : MStore B}

theorem of_le (h : ms.LimitsOk) (hl : ms'.maxTagsLimit = ms.maxTagsLimit) (hc : ms'.getTagsUsed ≤ ms.getTagsUsed)
    (hm : ms'.fieldsMetas = ms.fieldsMetas) : ms'.LimitsOk :=
  ⟨hl ▸ h.maxTagsLimit, hl ▸ hc.trans h.tagsUsed, hm ▸ h.names, hm ▸ h.fieldsCount⟩

theorem isFull_eq_false (h : ms.LimitsOk) : ms.isFull = false ↔ ms.getTagsUsed < ms.maxTagsLimit := by
  rw [isFull, Nat.mod_eq_of_lt (h.tagsUsed.trans_lt h.maxTagsLimit)]
  simp

theorem getFieldIDOrGenerate (h : ms.LimitsOk) (gen : IDGenerator) (name : String) (type : FieldType) :
    (ms.getFieldIDOrGenerate gen name type).1.LimitsOk := by
  rcases getFieldIDOrGenerate_cases gen ms name type with heq | ⟨id, hname, hcount, heq⟩ <;> rw [heq]
  · exact h
  · refine ⟨h.maxTagsLimit, h.tagsUsed, ?_, by simpa using hcount⟩
    simpa [List.nodup_append, h.names] using hname

end LimitsOk

section Calls
variable [Block B] {ms : MStore B}

theorem getOrCreateTStore_limitsOk {tags : List (String × String)} {now : Int} {r : MStore B × Nat × TStore B × Int}
    (h : ms.LimitsOk) (hfull : ms.isFull = false) (hr : ms.getOrCreateTStore tags now = .ok r) : r.1.LimitsOk := by
  have hlt := h.isFull_eq_false.mp hfull
  unfold getOrCreateTStore at hr
  split at hr
  · cases hr
    exact h
  split at hr
  · cases hr
  rename_i mutable seriesID ts c hr'
  cases hr
  refine ⟨h.maxTagsLimit, ?_, h.names, h.fieldsCount⟩
  simp only [getTagsUsed, TagIndex.tagsUsed] at hlt ⊢
  rcases TagIndex.getOrCreateTStore_ok hr' with ⟨heq, -⟩ | ⟨-, -, -, hc, hid, -⟩
  · exact (congrArg TagIndex.idCounter heq).trans_le h.tagsUsed
  · simp only at hc hid
    omega

theorem write_limitsOk (h : ms.LimitsOk) (gen : IDGenerator) (metric : PbMetric) (ctx : WriteContext) (now : Int) :
    (ms.write gen metric ctx now).1.LimitsOk := by
  unfold write
  split
  · exact h
  rename_i hfull
  split
  · exact h
  rename_i ms₁ seriesID ts c hgot
  have hw : (ts.write (fun m : MStore B => m.getFieldIDOrGenerate gen) ctx now ms₁ metric.fields).2.1.LimitsOk :=
    TStore.write_state (fun st name type hst => hst.getFieldIDOrGenerate gen name type) metric.fields ts ms₁
      (getOrCreateTStore_limitsOk h (Bool.not_eq_true _ ▸ hfull) hgot)
  dsimp only
  split <;> exact hw.of_le rfl le_rfl rfl

theorem evict_limitsOk (h : ms.LimitsOk) (now d : Int) : (ms.evict now d).1.LimitsOk :=
  h.of_le rfl (TagIndex.removeTStores_shrinks _ _).idCounter.le rfl

theorem resetVersion_limitsOk (h : ms.LimitsOk) (now : Int) : (ms.resetVersion now).1.LimitsOk := by
  unfold resetVersion
  split
  · exact h
  · exact h.of_le rfl (Nat.zero_le _) rfl

theorem apply_limitsOk (h : ms.LimitsOk) : ∀ c : Call, (ms.apply c).LimitsOk
  | .write gen metric ctx now => write_limitsOk h gen metric ctx now
  | .evict now d => evict_limitsOk h now d
  | .resetVersion now => resetVersion_limitsOk h now
  | .flushMetricsDataTo .. => h.of_le rfl le_rfl rfl

/-- Both limits hold over every run of calls that do not overlap. -/
theorem run_limitsOk : ∀ (calls : List Call) {ms : MStore B}, ms.LimitsOk → (calls.foldl apply ms).LimitsOk
  | [], _, h => h
  | c :: calls, _, h => run_limitsOk calls (apply_limitsOk h c)

end Calls

end MStore

theorem newMetricStore_limitsOk [Block B] (metricID : Nat) (now : Int) : (newMetricStore metricID now : MStore B).LimitsOk :=
  ⟨show DefaultMStoreMaxTagsCount < 2 ^ 32 by decide, Nat.zero_le _, List.nodup_nil, Nat.zero_le _⟩

/-- Every store of a reachable database keeps both limits. -/
theorem Reachable.limitsOk [Block B] {cfg : Config} {md : MemDB B} (h : Reachable cfg md) :
    ∀ x ∈ md.entries, x.2.LimitsOk :=
  Reachable.forall_entries newMetricStore_limitsOk (fun _ c h => MStore.apply_limitsOk h c) h

namespace Sample

/-- A point of `cpu` of a series tagged `host`. -/
def hostPoint (host : String) : PbMetric := ⟨"cpu", 100, [("host", host)], List.pairwise_singleton _ _, [⟨"f", .sum 1⟩]⟩

/-- `cpu` limited to one series: `host=a` takes it, `host=b` is refused, and after a reset `host=b`
    takes the new index's first id. -/
def oneSeriesStore : MStore Nat := (newMetricStore 1 1).setMaxTagsLimit 1

def oneSeriesCalls : List MStore.Call :=
  [.write config.generator (hostPoint "a") ⟨1, 100, 0, 10⟩ 1, .write config.generator (hostPoint "b") ⟨1, 100, 0, 10⟩ 1,
    .resetVersion 2, .write config.generator (hostPoint "b") ⟨1, 100, 0, 10⟩ 2]

example : ((oneSeriesStore.write config.generator (hostPoint "a") ⟨1, 100, 0, 10⟩ 1).1.write config.generator
    (hostPoint "b") ⟨1, 100, 0, 10⟩ 1).2.2 = some .tooManyTags := by decide

theorem run_limitsOk_oneSeries : oneSeriesStore.LimitsOk ∧ (oneSeriesCalls.foldl MStore.apply oneSeriesStore).LimitsOk :=
  have h : oneSeriesStore.LimitsOk := ⟨by decide, by decide, by decide, by decide⟩
  ⟨h, MStore.run_limitsOk oneSeriesCalls h⟩

theorem limitsOk_writeFlushEvict : Reachable config writeFlushEvictDB ∧ ∀ x ∈ writeFlushEvictDB.entries, x.2.LimitsOk :=
  have h : Reachable config writeFlushEvictDB := Reachable.init.runOps (by decide)
  ⟨h, Reachable.limitsOk h⟩

end Sample

end Lindb.Memdb

import Lindb.Theorems.Retention

/-! The lookups of a metric store by version (§4.4): a bitmap means something only under the version of
    the index it came from. -/

namespace Lindb.Memdb

variable {B : Type}

namespace MStore

/-- The entry a lookup `find` makes of an index: its bitmap under its own version. -/
def versionEntry (find : TagIndex B → Option (List Nat)) (t : TagIndex B) : Option (Int × List Nat) :=
  (find t).map (t.version, ·)

@[simp]
theorem findSeriesIDsByExpr_versions (find : TagIndex B → Option (List Nat)) (ms : MStore B)
    (hv : ∀ t ∈ ms.atomicGetImmutable, t.version ≠ ms.mutable.version) :
    (ms.findSeriesIDsByExpr find).versions = ms.tagIndexes.filterMap (versionEntry find) := by
  simp only [findSeriesIDsByExpr, tagIndexes]
  cases hi : ms.atomicGetImmutable with
  | none => cases hm : find ms.mutable <;> simp [hm, versionEntry, MultiVerSeriesIDSet.add]
  | some t =>
    have hne : ms.mutable.version ≠ t.version := Ne.symm (hv t (by simp [hi]))
    cases hm : find ms.mutable <;> cases ht : find t <;> simp [hm, ht, versionEntry, MultiVerSeriesIDSet.add, hne]

theorem getSeriesIDsForTag_versions (ms : MStore B) (tagKey : String) :
    ∀ x ∈ (ms.getSeriesIDsForTag tagKey).versions, x.1 = ms.mutable.version := by
  intro x hx
  simp only [getSeriesIDsForTag] at hx
  cases hi : ms.atomicGetImmutable with
  | none => cases hm : ms.mutable.getSeriesIDsForTag tagKey <;> simp_all [MultiVerSeriesIDSet.add]
  | some t =>
    cases hm : ms.mutable.getSeriesIDsForTag tagKey <;> cases ht : t.getSeriesIDsForTag tagKey <;>
      simp_all [MultiVerSeriesIDSet.add]

/-- With an immutable index that has the key, `GetSeriesIDsForTag` files its bitmap under the mutable
    version. -/
theorem getSeriesIDsForTag_immutable_under_mutable_version (ms : MStore B) (tagKey : String) {t : TagIndex B}
    {bitmap : List Nat} (ht : ms.atomicGetImmutable = some t) (hv : t.version ≠ ms.mutable.version)
    (hk : t.getSeriesIDsForTag tagKey = some bitmap) :
    ms.getSeriesIDsForTag tagKey = ⟨[(ms.mutable.version, bitmap)]⟩ ∧
      (t.version, bitmap) ∈ (ms.findSeriesIDsByExpr (·.getSeriesIDsForTag tagKey)).versions ∧
      (t.version, bitmap) ∉ (ms.getSeriesIDsForTag tagKey).versions := by
  have hget : ms.getSeriesIDsForTag tagKey = ⟨[(ms.mutable.version, bitmap)]⟩ := by
    simp only [getSeriesIDsForTag, ht, hk]
    cases ms.mutable.getSeriesIDsForTag tagKey <;> simp [MultiVerSeriesIDSet.add]
  refine ⟨hget, ?_, by simp [hget, hv]⟩
  simp only [findSeriesIDsByExpr, ht, hk]
  cases ms.mutable.getSeriesIDsForTag tagKey <;> simp [MultiVerSeriesIDSet.add, Ne.symm hv]

end MStore

/-! ### GetTagValues -/

namespace TagIndex

/-- Index `t` files series `s` under value `v` of key `k`. -/
def FiledUnder (t : TagIndex B) (k v : String) (s : Nat) : Prop :=
  ∃ e, t.getTagKVEntrySet k = some e ∧ ∃ bitmap, (v, bitmap) ∈ e.values ∧ s ∈ bitmap

/-- Index `t` files every series under at most one value of each key. -/
def FiledOnce (t : TagIndex B) : Prop :=
  ∀ k v v' s, t.FiledUnder k v s → t.FiledUnder k v' s → v = v'

/-- What `GetTagValues` reads from index `t` for one series: per key, the first value whose bitmap holds
    the series, or `""`. -/
def seriesTagValues (t : TagIndex B) (tagKeys : List String) (seriesID : Nat) : List String :=
  tagKeys.map fun k => match t.getTagKVEntrySet k with
    | none => ""
    | some e => ((e.values.find? fun v => v.2.contains seriesID).map (·.1)).getD ""

variable {t : TagIndex B}

theorem filedOnce_of_entrySets
    (h : ∀ e ∈ t.tagKVEntrySets, ∀ x ∈ e.values, ∀ y ∈ e.values, ∀ s ∈ x.2, s ∈ y.2 → x.1 = y.1) : t.FiledOnce :=
  fun _ _ _ _ ⟨e, he, bm, hm, hs⟩ ⟨e', he', bm', hm', hs'⟩ => by
    cases he.symm.trans he'
    exact h e (List.mem_of_find?_eq_some he) _ hm _ hm' _ hs hs'

theorem seriesTagValue_eq_iff (ht : t.FiledOnce) {k : String} {e : TagKVEntrySet} (he : t.getTagKVEntrySet k = some e)
    (s : Nat) (v : String) :
    ((e.values.find? fun x => x.2.contains s).map (·.1)).getD "" = v ↔
      t.FiledUnder k v s ∨ (v = "" ∧ ∀ v', ¬t.FiledUnder k v' s) := by
  have hfiled : ∀ v', t.FiledUnder k v' s ↔ ∃ bitmap, (v', bitmap) ∈ e.values ∧ s ∈ bitmap := by
    simp [FiledUnder, he]
  simp only [hfiled]
  cases hf : e.values.find? fun x => x.2.contains s with
  | some x =>
    have hx := List.mem_of_find?_eq_some hf
    have hs : s ∈ x.2 := by simpa using List.find?_some hf
    simp only [Option.map_some', Option.getD_some]
    constructor
    · rintro rfl
      exact .inl ⟨x.2, hx, hs⟩
    · rintro (⟨bm, hm, hsb⟩ | ⟨-, h⟩)
      · exact ht k x.1 _ s ⟨e, he, x.2, hx, hs⟩ ⟨e, he, bm, hm, hsb⟩
      · exact absurd ⟨x.2, hx, hs⟩ (h x.1)
  | none =>
    have hnone := List.find?_eq_none.mp hf
    simp only [Option.map_none', Option.getD_none]
    constructor
    · rintro rfl
      exact .inr ⟨rfl, fun v' ⟨bm, hm, hsb⟩ => hnone _ hm (by simpa using hsb)⟩
    · rintro (⟨bm, hm, hsb⟩ | ⟨h, -⟩)
      · exact absurd (by simpa using hsb) (hnone _ hm)
      · exact h.symm

end TagIndex

namespace MStore

/-- `t` is the index `GetTagValues(…, version, …)` reads: the mutable index when its version matches,
    else the immutable index a reader sees when its version does. -/
def IndexOfVersion (ms : MStore B) (version : Int) (t : TagIndex B) : Prop :=
  (ms.mutable.version = version ∧ t = ms.mutable) ∨
    (ms.mutable.version ≠ version ∧ ms.atomicGetImmutable = some t ∧ t.version = version)

variable {ms : MStore B} {tagKeys : List String} {version : Int} {seriesIDs : List Nat}

theorem getTagValues_of_index {t : TagIndex B} (h : ms.IndexOfVersion version t) :
    ms.getTagValues tagKeys version seriesIDs =
      match tagKeys.find? fun k => (t.getTagKVEntrySet k).isNone with
      | some k => .error (.tagKeyNotExist k)
      | none => .ok (seriesIDs.map fun s => (s, t.seriesTagValues tagKeys s)) := by
  rcases h with ⟨hv, rfl⟩ | ⟨hv, hi, htv⟩
  · simp only [getTagValues, hv, if_true]
    rfl
  · simp only [getTagValues, hv, if_false, hi, Option.filter, htv, decide_True]
    rfl

theorem getTagValues_of_no_index (h : ∀ t, ¬ms.IndexOfVersion version t) :
    ms.getTagValues tagKeys version seriesIDs = .error .notFound := by
  have hv : ms.mutable.version ≠ version := fun hv => h _ (.inl ⟨hv, rfl⟩)
  cases hi : ms.atomicGetImmutable with
  | none => simp [getTagValues, hv, hi]
  | some t =>
    have htv : t.version ≠ version := fun htv => h t (.inr ⟨hv, hi, htv⟩)
    simp [getTagValues, hv, hi, htv, Option.filter]

theorem getTagValues_ne_notFound {t : TagIndex B} (h : ms.IndexOfVersion version t) :
    ms.getTagValues tagKeys version seriesIDs ≠ .error .notFound := by
  rw [getTagValues_of_index h]
  split <;> simp

/-- `GetTagValues`: not found when no index has the version; on that index, an error for a missing key,
    else each series' value per key. -/
theorem getTagValues_spec (ms : MStore B) (tagKeys : List String) (version : Int) (seriesIDs : List Nat) :
    (ms.getTagValues tagKeys version seriesIDs = .error .notFound ↔
      ms.mutable.version ≠ version ∧ ∀ t ∈ ms.atomicGetImmutable, t.version ≠ version) ∧
    ∀ t, ms.IndexOfVersion version t →
      ((∃ err, ms.getTagValues tagKeys version seriesIDs = .error err) ↔ ∃ k ∈ tagKeys, t.getTagKVEntrySet k = none) ∧
      (t.FiledOnce → (∀ k ∈ tagKeys, t.getTagKVEntrySet k ≠ none) →
        ∃ m, ms.getTagValues tagKeys version seriesIDs = .ok m ∧ m.map (·.1) = seriesIDs ∧
          ∀ p ∈ m, p.2.length = tagKeys.length ∧ ∀ (i : Nat) k, tagKeys[i]? = some k →
            ∀ v, p.2[i]? = some v ↔ t.FiledUnder k v p.1 ∨ (v = "" ∧ ∀ v', ¬t.FiledUnder k v' p.1)) := by
  refine ⟨⟨fun h => ⟨fun hv => getTagValues_ne_notFound (.inl ⟨hv, rfl⟩) h, fun t ht htv => ?_⟩, ?_⟩,
    fun t hidx => ⟨?_, fun hfiled hkeys => ?_⟩⟩
  · by_cases hv : ms.mutable.version = version
    · exact getTagValues_ne_notFound (.inl ⟨hv, rfl⟩) h
    · exact getTagValues_ne_notFound (.inr ⟨hv, ht, htv⟩) h
  · rintro ⟨hv, hi⟩
    exact getTagValues_of_no_index fun t h => h.elim (fun h1 => hv h1.1) fun h2 => hi t h2.2.1 h2.2.2
  · rw [getTagValues_of_index hidx]
    cases hf : tagKeys.find? fun k => (t.getTagKVEntrySet k).isNone with
    | some k => simpa using ⟨k, List.mem_of_find?_eq_some hf, by simpa using List.find?_some hf⟩
    | none => simpa using fun k hk => by simpa using List.find?_eq_none.mp hf k hk
  · rw [getTagValues_of_index hidx, List.find?_eq_none.mpr fun k hk => by simpa using hkeys k hk]
    refine ⟨_, rfl, by simp [Function.comp_def], ?_⟩
    simp only [List.mem_map]
    rintro _ ⟨s, -, rfl⟩
    refine ⟨by simp [TagIndex.seriesTagValues], fun i k hk v => ?_⟩
    obtain ⟨e, he⟩ := Option.ne_none_iff_exists'.mp (hkeys k (List.getElem?_mem hk))
    simp only [TagIndex.seriesTagValues, List.getElem?_map, hk, Option.map_some', he, Option.some.injEq]
    exact TagIndex.seriesTagValue_eq_iff hfiled he s v

end MStore

namespace Sample

/-- `cpu`'s store after a point at clock `1`, `ResetMetricStore` at `2` and a point at `3`. -/
def twoVersionStore : MStore Nat :=
  ((runOps config (newMemoryDatabase config)
    [.write (point "cpu" 100) 1, .resetMetricStore "cpu" 2, .write (point "cpu" 100) 3]).getMStore config "cpu").getD
    (newMetricStore 0 0)

theorem getSeriesIDsForTag_immutable_under_mutable_version_twoVersionStore :
    twoVersionStore.atomicGetImmutable.map TagIndex.version = some 1 ∧ twoVersionStore.mutable.version = 2 ∧
      twoVersionStore.getSeriesIDsForTag "host" = ⟨[(2, [1])]⟩ ∧
      (1, [1]) ∈ (twoVersionStore.findSeriesIDsByExpr (·.getSeriesIDsForTag "host")).versions ∧
      (1, [1]) ∉ (twoVersionStore.getSeriesIDsForTag "host").versions :=
  have ht : twoVersionStore.atomicGetImmutable = some (twoVersionStore.atomicGetImmutable.getD (newTagIndex 0)) := rfl
  ⟨by decide, by decide,
    MStore.getSeriesIDsForTag_immutable_under_mutable_version twoVersionStore "host" ht (by decide) (by decide)⟩

theorem getTagValues_spec_twoVersionStore :
    twoVersionStore.IndexOfVersion 2 twoVersionStore.mutable ∧ twoVersionStore.mutable.FiledOnce ∧
      ∃ m, twoVersionStore.getTagValues ["host"] 2 [1] = .ok m ∧ m.map (·.1) = [1] :=
  have hidx : twoVersionStore.IndexOfVersion 2 twoVersionStore.mutable := .inl ⟨by decide, rfl⟩
  have hf : twoVersionStore.mutable.FiledOnce := TagIndex.filedOnce_of_entrySets (by decide)
  let ⟨m, hm, hk, _⟩ := ((MStore.getTagValues_spec twoVersionStore ["host"] 2 [1]).2 _ hidx).2 hf (by decide)
  ⟨hidx, hf, m, hm, hk⟩

example : twoVersionStore.getTagValues ["host"] 2 [1, 5] = .ok [(1, ["a"]), (5, [""])] ∧
    twoVersionStore.getTagValues ["host", "zone"] 1 [1] = .error (.tagKeyNotExist "zone") ∧
    twoVersionStore.getTagValues ["host"] 3 [1] = .error .notFound :=
  ⟨rfl, rfl, rfl⟩

end Sample

end Lindb.Memdb

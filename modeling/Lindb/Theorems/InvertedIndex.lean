import Lindb.Theorems.Suggest

/-! `FlushInvertedIndexTo` (§6): on indexes with distinct keys, one group of calls per key and one block
    per value, up to the key whose `FlushTagKeyID` failed. -/

namespace Lindb.Memdb

variable {B : Type}

namespace TagIndex

/-- The entry sets have distinct keys, as the keys of the Go map they stand for. -/
def KeysDistinct (t : TagIndex B) : Prop := (t.tagKVEntrySets.map (·.key)).Nodup

/-- Index `t` holds value `v` of key `k`, with bitmap `bitmap`. -/
def HoldsValue (t : TagIndex B) (k v : String) (bitmap : List Nat) : Prop :=
  ∃ e ∈ t.tagKVEntrySets, e.key = k ∧ (v, bitmap) ∈ e.values

/-- What value `v` of key `k` gets from index `t` before its `FlushTagValue`: one `FlushVersion` with the
    index's version, its time range and the value's bitmap when the index holds the value, else nothing. -/
def VersionCalls (t : TagIndex B) (k v : String) (calls : List InvertedCall) : Prop :=
  (∃ bitmap, t.HoldsValue k v bitmap ∧ calls = [.flushVersion t.version t.indexTimeRange bitmap]) ∨
    ((∀ bitmap, ¬t.HoldsValue k v bitmap) ∧ calls = [])

variable {t : TagIndex B}

theorem getTagKVEntrySet_eq_some_iff (ht : t.KeysDistinct) {k : String} {e : TagKVEntrySet} :
    t.getTagKVEntrySet k = some e ↔ e ∈ t.tagKVEntrySets ∧ e.key = k := by
  refine ⟨fun h => ⟨List.mem_of_find?_eq_some h, by simpa using List.find?_some h⟩, fun ⟨hm, hk⟩ => ?_⟩
  cases h : t.getTagKVEntrySet k with
  | none => exact absurd hk (by simpa using List.find?_eq_none.mp h e hm)
  | some e' =>
    have hm' := List.mem_of_find?_eq_some h
    have hk' : e'.key = k := by simpa using List.find?_some h
    rw [List.inj_on_of_nodup_map ht hm' hm (hk'.trans hk.symm)]

theorem flushInvertedIndex_versionCalls (ht : t.KeysDistinct) (k v : String) :
    t.VersionCalls k v (MStore.flushInvertedIndex t k v) := by
  unfold MStore.flushInvertedIndex
  cases he : t.getTagKVEntrySet k with
  | none =>
    refine .inr ⟨fun bm ⟨e, hm, hk, _⟩ => ?_, rfl⟩
    simpa [hk] using List.find?_eq_none.mp he e hm
  | some e =>
    obtain ⟨hm, hk⟩ := (getTagKVEntrySet_eq_some_iff ht).mp he
    cases hx : e.values.find? (·.1 = v) with
    | none =>
      refine .inr ⟨fun bm ⟨e', hm', hk', hv⟩ => ?_, by simp [hx]⟩
      cases List.inj_on_of_nodup_map ht hm' hm (hk'.trans hk.symm)
      simpa using List.find?_eq_none.mp hx _ hv
    | some x =>
      have hxv : x.1 = v := by simpa using List.find?_some hx
      refine .inl ⟨x.2, ⟨e, hm, hk, hxv ▸ List.mem_of_find?_eq_some hx⟩, by simp [hx]⟩

end TagIndex

/-! ### Distinct keys -/

@[simp] theorem TagKVEntrySet.key_addSeries (e : TagKVEntrySet) (value : String) (seriesID : Nat) :
    (e.addSeries value seriesID).key = e.key := by
  unfold TagKVEntrySet.addSeries
  split <;> rfl

theorem keys_nodup_addTagKV {sets : List TagKVEntrySet} (h : (sets.map (·.key)).Nodup) (seriesID : Nat)
    (tag : String × String) : ((addTagKV sets seriesID tag).map (·.key)).Nodup := by
  unfold addTagKV
  split
  · simpa [Function.comp_def, apply_ite TagKVEntrySet.key] using h
  · rename_i hany
    rw [List.map_append, List.map_singleton, ← List.concat_eq_append]
    refine h.concat fun hk => hany ?_
    obtain ⟨e, he, hek⟩ := List.mem_map.mp hk
    exact List.any_eq_true.mpr ⟨e, he, by simpa using hek⟩

theorem keys_nodup_foldl_addTagKV (seriesID : Nat) : ∀ (tags : List (String × String)) {sets : List TagKVEntrySet},
    (sets.map (·.key)).Nodup → ((tags.foldl (fun sets tag => addTagKV sets seriesID tag) sets).map (·.key)).Nodup
  | [], _, h => h
  | tag :: tags, _, h => keys_nodup_foldl_addTagKV seriesID tags (keys_nodup_addTagKV h seriesID tag)

namespace TagIndex

theorem removeTStores_keys : ∀ (ids : List Nat) (t : TagIndex B),
    (t.removeTStores ids).1.tagKVEntrySets.map (·.key) = t.tagKVEntrySets.map (·.key)
  | [], _ => rfl
  | seriesID :: rest, t => by
    unfold removeTStores
    split
    · exact removeTStores_keys rest t
    · simp [removeTStores_keys rest, removeSeries, TagKVEntrySet.removeSeries, Function.comp_def]

theorem getOrCreateTStore_keysDistinct [Block B] {t : TagIndex B} {tags : List (String × String)} {now : Int}
    {r : TagIndex B × Nat × TStore B × Int} (ht : t.KeysDistinct) (h : t.getOrCreateTStore tags now = .ok r) :
    r.1.KeysDistinct := by
  rcases getOrCreateTStore_ok h with ⟨h₁, -⟩ | ⟨-, -, -, -, -, -, hkv⟩
  · exact h₁ ▸ ht
  · unfold KeysDistinct
    rw [hkv]
    exact keys_nodup_foldl_addTagKV _ tags ht

end TagIndex

namespace MStore

/-- Both indexes of a metric store, the one in the cell whether or not a reader sees it, have distinct
    keys. -/
structure KeysDistinct (ms : MStore B) : Prop where
  /-- The mutable index's keys are distinct. -/
  mutable : ms.mutable.KeysDistinct
  /-- So are the keys of the index in the immutable cell. -/
  immutable : ∀ t ∈ ms.immutable, t.KeysDistinct

variable {ms : MStore B}

theorem KeysDistinct.tagIndexes (h : ms.KeysDistinct) : ∀ t ∈ ms.tagIndexes, t.KeysDistinct := by
  intro t ht
  rcases List.mem_cons.mp ht with rfl | ht
  · exact h.mutable
  · simp only [atomicGetImmutable, Option.mem_toList, Option.mem_def, Option.filter_eq_some] at ht
    exact h.immutable t ht.1

variable [Block B]

theorem newMetricStore_keysDistinct (metricID : Nat) (now : Int) : (newMetricStore metricID now : MStore B).KeysDistinct :=
  ⟨List.nodup_nil, fun _ h => nomatch h⟩

theorem getOrCreateTStore_keysDistinct {tags : List (String × String)} {now : Int} {r : MStore B × Nat × TStore B × Int}
    (hk : ms.KeysDistinct) (h : ms.getOrCreateTStore tags now = .ok r) : r.1.KeysDistinct := by
  unfold getOrCreateTStore at h
  split at h
  · cases h
    exact hk
  · split at h
    · cases h
    · rename_i hr
      cases h
      exact ⟨TagIndex.getOrCreateTStore_keysDistinct hk.mutable hr, hk.immutable⟩

theorem write_keysDistinct (gen : IDGenerator) (metric : PbMetric) (ctx : WriteContext) (now : Int)
    (hk : ms.KeysDistinct) : (ms.write gen metric ctx now).1.KeysDistinct := by
  rcases write_cases ms gen metric ctx now with heq | ⟨ms₁, _, _, _, _, hgot, -, himm, hmut⟩
  · rwa [heq]
  have h₁ := getOrCreateTStore_keysDistinct hk hgot
  refine ⟨?_, himm ▸ hk.immutable⟩
  rcases hmut with hmut | hmut <;> rw [hmut] <;> exact h₁.mutable

theorem evict_keysDistinct (now d : Int) (hk : ms.KeysDistinct) : (ms.evict now d).1.KeysDistinct := by
  obtain ⟨ids, -, hmut, himm⟩ := evict_cases ms now d
  refine ⟨?_, himm ▸ hk.immutable⟩
  unfold TagIndex.KeysDistinct
  rw [hmut, TagIndex.removeTStores_keys]
  exact hk.mutable

theorem resetVersion_keysDistinct (now : Int) (hk : ms.KeysDistinct) : (ms.resetVersion now).1.KeysDistinct := by
  rcases resetVersion_cases ms now with heq | ⟨-, himm, hmut⟩
  · rwa [heq]
  · refine ⟨hmut ▸ List.nodup_nil, ?_⟩
    rw [himm]
    rintro t ⟨⟩
    exact hk.mutable

theorem apply_keysDistinct (hk : ms.KeysDistinct) : ∀ c : Call, (ms.apply c).KeysDistinct
  | .write gen metric ctx now => write_keysDistinct gen metric ctx now hk
  | .evict now d => evict_keysDistinct now d hk
  | .resetVersion now => resetVersion_keysDistinct now hk
  | .flushMetricsDataTo .. => ⟨hk.mutable, by rintro t ⟨⟩; exact List.nodup_nil⟩

end MStore

theorem Reachable.keysDistinct [Block B] {cfg : Config} {md : MemDB B} (h : Reachable cfg md) :
    ∀ x ∈ md.entries, ∀ t ∈ x.2.tagIndexes, t.KeysDistinct := fun x hx =>
  (h.forall_entries MStore.newMetricStore_keysDistinct (fun _ c hk => MStore.apply_keysDistinct hk c) x hx).tagIndexes

namespace MStore

/-! ### `tagKeyValues` -/

theorem foldl_addValue : ∀ (values : List (String × List Nat)) (vs : List String), vs.Nodup →
    (values.foldl (fun vs v => if vs.contains v.1 then vs else vs ++ [v.1]) vs).Nodup ∧
      ∀ v, v ∈ values.foldl (fun vs v => if vs.contains v.1 then vs else vs ++ [v.1]) vs ↔
        v ∈ vs ∨ ∃ bitmap, (v, bitmap) ∈ values
  | [], _, h => ⟨h, by simp⟩
  | (k, bm) :: xs, vs, h => by
    have step : (if vs.contains k then vs else vs ++ [k]).Nodup ∧
        ∀ v, v ∈ (if vs.contains k then vs else vs ++ [k]) ↔ v ∈ vs ∨ v = k := by
      split_ifs with hc
      · exact ⟨h, fun v => ⟨.inl, by rintro (h | rfl) <;> simp_all⟩⟩
      · exact ⟨nodup_concat_of_contains h (by simpa using hc), by simp⟩
    obtain ⟨hn, hm⟩ := foldl_addValue xs _ step.1
    refine ⟨hn, fun v => ?_⟩
    rw [List.foldl_cons, hm, step.2]
    simp only [List.mem_cons, Prod.mk.injEq, exists_or, exists_and_left, exists_eq_right, exists_eq, and_true, or_assoc]

/-- `tagKeyValues` after the entry sets `S`: its keys are distinct and are the keys of `S`, and each key's
    values are distinct and are the values of that key in `S`. -/
def KeyValuesOf (S : List TagKVEntrySet) (kvs : List (String × List String)) : Prop :=
  (kvs.map (·.1)).Nodup ∧ (∀ k, k ∈ kvs.map (·.1) ↔ ∃ e ∈ S, e.key = k) ∧
    ∀ x ∈ kvs, x.2.Nodup ∧ ∀ v, v ∈ x.2 ↔ ∃ e ∈ S, e.key = x.1 ∧ ∃ bitmap, (v, bitmap) ∈ e.values

theorem keyValuesOf_nil : KeyValuesOf [] [] := ⟨List.nodup_nil, by simp, by simp⟩

theorem exists_mem_concat {α : Type} (S : List α) (e : α) (Q : α → Prop) :
    (∃ e' ∈ S ++ [e], Q e') ↔ (∃ e' ∈ S, Q e') ∨ Q e := by
  simp [or_and_right, exists_or]

theorem map_fst_update {α : Type} (kvs : List (String × α)) (k : String) (g : String × α → α) :
    (kvs.map fun x => if x.1 = k then (x.1, g x) else x).map (·.1) = kvs.map (·.1) := by
  simp only [List.map_map]
  exact List.map_congr_left fun x _ => by by_cases h : x.1 = k <;> simp [h]

theorem keyValuesOf_add {S : List TagKVEntrySet} {kvs : List (String × List String)} (h : KeyValuesOf S kvs)
    (e : TagKVEntrySet) (fresh : Bool) (hfresh : fresh = true → e.key ∉ S.map (·.key)) :
    KeyValuesOf (S ++ [e]) (addKeyValues kvs e fresh) := by
  obtain ⟨hn, hk, hv⟩ := h
  have hvS : ∀ k v, (∃ e' ∈ S ++ [e], e'.key = k ∧ ∃ bm, (v, bm) ∈ e'.values) ↔
      (∃ e' ∈ S, e'.key = k ∧ ∃ bm, (v, bm) ∈ e'.values) ∨ (e.key = k ∧ ∃ bm, (v, bm) ∈ e.values) :=
    fun k v => exists_mem_concat S e _
  -- `e`'s key: its values in `S`, with `e`'s values added
  have hnew : ∀ vs : List String, vs.Nodup → (∀ v, v ∈ vs ↔ ∃ e' ∈ S, e'.key = e.key ∧ ∃ bm, (v, bm) ∈ e'.values) →
      (e.values.foldl (fun vs v => if vs.contains v.1 then vs else vs ++ [v.1]) vs).Nodup ∧
      ∀ v, v ∈ e.values.foldl (fun vs v => if vs.contains v.1 then vs else vs ++ [v.1]) vs ↔
        ∃ e' ∈ S ++ [e], e'.key = e.key ∧ ∃ bm, (v, bm) ∈ e'.values := fun vs hvn hvs =>
    let ⟨hn', hm'⟩ := foldl_addValue e.values vs hvn
    ⟨hn', fun v => by rw [hm', hvs, hvS]; simp⟩
  -- another key: its values in `S`
  have hother : ∀ x ∈ kvs, x.1 ≠ e.key → x.2.Nodup ∧
      ∀ v, v ∈ x.2 ↔ ∃ e' ∈ S ++ [e], e'.key = x.1 ∧ ∃ bm, (v, bm) ∈ e'.values := fun x hx hx1 =>
    ⟨(hv x hx).1, fun v => by rw [(hv x hx).2, hvS]; simp [Ne.symm hx1]⟩
  unfold addKeyValues
  by_cases hany : kvs.any (·.1 = e.key)
  · rw [if_pos hany]
    obtain ⟨x₀, hx₀, hx₀k⟩ := List.any_eq_true.mp hany
    have hin : e.key ∈ S.map (·.key) := by
      obtain ⟨e', he', hk'⟩ := (hk _).mp (List.mem_map.mpr ⟨x₀, hx₀, rfl⟩)
      exact List.mem_map.mpr ⟨e', he', hk'.trans (of_decide_eq_true hx₀k)⟩
    cases fresh
    · simp only [Bool.false_eq_true, if_false]
      refine ⟨by rwa [map_fst_update], fun k => ?_, fun x' hx' => ?_⟩
      · rw [map_fst_update, hk, exists_mem_concat]
        exact ⟨.inl, fun h => h.elim id fun hk' => hk' ▸ by simpa using hin⟩
      · obtain ⟨x, hx, rfl⟩ := List.mem_map.mp hx'
        split_ifs with hx1
        · exact hx1 ▸ hnew x.2 (hv x hx).1 (hx1 ▸ (hv x hx).2)
        · exact hother x hx hx1
    · exact absurd hin (hfresh rfl)
  · rw [if_neg hany]
    have hout : e.key ∉ kvs.map (·.1) := fun h => by
      obtain ⟨x, hx, hx1⟩ := List.mem_map.mp h
      exact absurd (List.any_eq_true.mpr ⟨x, hx, decide_eq_true hx1⟩) hany
    refine ⟨by simpa using hn.append (List.nodup_singleton _) (by simpa using hout), fun k => ?_, fun x hx => ?_⟩
    · rw [List.map_append, List.mem_append, exists_mem_concat, ← hk]
      simp only [List.map_cons, List.map_nil, List.mem_singleton]
      exact or_congr_right eq_comm
    · rcases List.mem_append.mp hx with hx | hx
      · exact hother x hx fun h => hout (h ▸ List.mem_map.mpr ⟨x, hx, rfl⟩)
      · obtain rfl := List.mem_singleton.mp hx
        exact hnew [] List.nodup_nil fun v =>
          ⟨fun h => absurd h (List.not_mem_nil v), fun ⟨e', he', hk', _⟩ => (hout ((hk _).mpr ⟨e', he', hk'⟩)).elim⟩

theorem keyValuesOf_foldl (fresh : Bool) : ∀ (l S : List TagKVEntrySet) (kvs : List (String × List String)),
    KeyValuesOf S kvs → (fresh = true → (l.map (·.key)).Nodup ∧ ∀ e ∈ l, e.key ∉ S.map (·.key)) →
      KeyValuesOf (S ++ l) (l.foldl (fun kvs e => addKeyValues kvs e fresh) kvs)
  | [], S, _, h, _ => by simpa using h
  | e :: l, S, kvs, h, hf => by
    have h' := keyValuesOf_add h e fresh fun hfr => (hf hfr).2 e (List.mem_cons_self _ _)
    have := keyValuesOf_foldl fresh l (S ++ [e]) _ h' fun hfr => by
      obtain ⟨hn, hS⟩ := hf hfr
      rw [List.map_cons, List.nodup_cons] at hn
      refine ⟨hn.2, fun e' he' => ?_⟩
      simp only [List.map_append, List.map_cons, List.map_nil, List.mem_append, List.mem_singleton, not_or]
      exact ⟨hS e' (List.mem_cons_of_mem _ he'), fun hk => hn.1 (hk ▸ List.mem_map.mpr ⟨e', he', rfl⟩)⟩
    simpa using this

/-- `tagKeyValues` of `FlushInvertedIndexTo`: the immutable index's keys with their values, then the mutable
    index's added. -/
def tagKeyValues (ms : MStore B) : List (String × List String) :=
  ms.mutable.tagKVEntrySets.foldl (fun kvs e => addKeyValues kvs e false)
    (match ms.atomicGetImmutable with
      | some t => t.tagKVEntrySets.foldl (fun kvs e => addKeyValues kvs e true) []
      | none => [])

theorem flushInvertedIndexTo_eq (fl : InvertedFlusher) (gen : IDGenerator) (ms : MStore B) (history : List InvertedCall) :
    ms.flushInvertedIndexTo fl gen history = flushInvertedIndexTo.go fl gen ms history ms.tagKeyValues := rfl

theorem keyValuesOf_tagKeyValues (ms : MStore B) (hkeys : ∀ t ∈ ms.tagIndexes, t.KeysDistinct) :
    KeyValuesOf ((ms.atomicGetImmutable.map (·.tagKVEntrySets)).getD [] ++ ms.mutable.tagKVEntrySets)
      ms.tagKeyValues := by
  refine keyValuesOf_foldl false _ _ _ ?_ (by simp)
  cases hi : ms.atomicGetImmutable with
  | none => exact keyValuesOf_nil
  | some t =>
    simpa using keyValuesOf_foldl true t.tagKVEntrySets [] [] keyValuesOf_nil
      fun _ => ⟨hkeys t (by simp [tagIndexes, hi]), by simp⟩

/-! ### The calls -/

/-- The calls `FlushInvertedIndexTo` makes for value `v` of key `k`: the immutable index's bitmap, the
    mutable index's, then `FlushTagValue(v)`. -/
def valueCalls (ms : MStore B) (k v : String) : List InvertedCall :=
  (match ms.atomicGetImmutable with
    | some t => flushInvertedIndex t k v
    | none => []) ++ flushInvertedIndex ms.mutable k v ++ [.flushTagValue v]

/-- Key `x.1`'s group as `FlushInvertedIndexTo` makes it: each value of the key with the value's calls. -/
def keyGroup (ms : MStore B) (x : String × List String) : String × List (String × List InvertedCall) :=
  (x.1, x.2.map fun v => (v, ms.valueCalls x.1 v))

/-- The calls of a key's group: its values' calls, then `FlushTagKeyID` of the key's id. -/
def groupCalls (gen : IDGenerator) (ms : MStore B) (g : String × List (String × List InvertedCall)) :
    List InvertedCall :=
  (g.2.map (·.2)).flatten ++ [.flushTagKeyID (gen.genTagKeyID ms.metricID g.1)]

/-- Each group's `FlushTagKeyID` returned nil, given the calls before it. -/
def KeyIDsFlushed (fl : InvertedFlusher) (gen : IDGenerator) (ms : MStore B) :
    List InvertedCall → List (String × List (String × List InvertedCall)) → Prop
  | _, [] => True
  | history, g :: groups => fl.flushTagKeyID (history ++ (g.2.map (·.2)).flatten) (gen.genTagKeyID ms.metricID g.1) = none ∧
    KeyIDsFlushed fl gen ms (history ++ groupCalls gen ms g) groups

theorem keyGroup_calls (ms : MStore B) (x : String × List String) :
    ((ms.keyGroup x).2.map (·.2)).flatten = (x.2.map (ms.valueCalls x.1)).flatten := by
  simp [keyGroup, Function.comp_def]

theorem flushInvertedIndexTo_go (fl : InvertedFlusher) (gen : IDGenerator) (ms : MStore B) :
    ∀ (kvs : List (String × List String)) (history : List InvertedCall),
    (flushInvertedIndexTo.go fl gen ms history kvs = (((kvs.map ms.keyGroup).map (groupCalls gen ms)).flatten, none) ∧
        KeyIDsFlushed fl gen ms history (kvs.map ms.keyGroup)) ∨
      ∃ pre x post e, kvs = pre ++ x :: post ∧ KeyIDsFlushed fl gen ms history (pre.map ms.keyGroup) ∧
        fl.flushTagKeyID (history ++ ((pre.map ms.keyGroup).map (groupCalls gen ms)).flatten ++
          ((ms.keyGroup x).2.map (·.2)).flatten) (gen.genTagKeyID ms.metricID x.1) = some e ∧
        flushInvertedIndexTo.go fl gen ms history kvs =
          (((pre.map ms.keyGroup).map (groupCalls gen ms)).flatten ++ groupCalls gen ms (ms.keyGroup x), some (.flusher e))
  | [], _ => .inl ⟨rfl, trivial⟩
  | (k, vs) :: rest, history => by
    have hgroup : groupCalls gen ms (ms.keyGroup (k, vs)) =
        (vs.map (ms.valueCalls k)).flatten ++ [.flushTagKeyID (gen.genTagKeyID ms.metricID k)] := by
      rw [groupCalls, keyGroup_calls]; rfl
    have hgo : flushInvertedIndexTo.go fl gen ms history ((k, vs) :: rest) =
        match fl.flushTagKeyID (history ++ (vs.map (ms.valueCalls k)).flatten) (gen.genTagKeyID ms.metricID k) with
        | some e => (groupCalls gen ms (ms.keyGroup (k, vs)), some (.flusher e))
        | none =>
          let r := flushInvertedIndexTo.go fl gen ms (history ++ groupCalls gen ms (ms.keyGroup (k, vs))) rest
          (groupCalls gen ms (ms.keyGroup (k, vs)) ++ r.1, r.2) := by
      rw [hgroup, ← List.append_assoc]
      rfl
    rw [hgo]
    cases hk : fl.flushTagKeyID (history ++ (vs.map (ms.valueCalls k)).flatten) (gen.genTagKeyID ms.metricID k) with
    | some e =>
      -- the key's `FlushTagKeyID` failed: the flush ends with its group
      exact .inr ⟨[], (k, vs), rest, e, rfl, trivial, by simpa [keyGroup_calls] using hk, by simp⟩
    | none =>
      have hk' : fl.flushTagKeyID (history ++ ((ms.keyGroup (k, vs)).2.map (·.2)).flatten)
          (gen.genTagKeyID ms.metricID (ms.keyGroup (k, vs)).1) = none := by rw [keyGroup_calls]; exact hk
      rcases flushInvertedIndexTo_go fl gen ms rest (history ++ groupCalls gen ms (ms.keyGroup (k, vs))) with
        ⟨h, hf⟩ | ⟨pre, x, post, e, rfl, hf, he, h⟩
      · exact .inl ⟨by rw [h]; simp, hk', hf⟩
      · exact .inr ⟨(k, vs) :: pre, x, post, e, rfl, ⟨hk', hf⟩, by simpa using he, by rw [h]; simp⟩

/-- `groups` are the keys of both indexes, each once, with each of their values once and its calls. -/
structure KeyGroups (ms : MStore B) (groups : List (String × List (String × List InvertedCall))) : Prop where
  keys_nodup : (groups.map (·.1)).Nodup
  keys : ∀ k, k ∈ groups.map (·.1) ↔ ∃ t ∈ ms.tagIndexes, ∃ e ∈ t.tagKVEntrySets, e.key = k
  values_nodup : ∀ g ∈ groups, (g.2.map (·.1)).Nodup
  values : ∀ g ∈ groups, ∀ v, v ∈ g.2.map (·.1) ↔ ∃ t ∈ ms.tagIndexes, ∃ bitmap, t.HoldsValue g.1 v bitmap
  calls : ∀ g ∈ groups, ∀ x ∈ g.2, ∃ ci cm, x.2 = ci ++ cm ++ [.flushTagValue x.1] ∧
    (∀ t, ms.atomicGetImmutable = some t → t.VersionCalls g.1 x.1 ci) ∧ (ms.atomicGetImmutable = none → ci = []) ∧
    ms.mutable.VersionCalls g.1 x.1 cm

theorem keyGroups_tagKeyValues (ms : MStore B) (hkeys : ∀ t ∈ ms.tagIndexes, t.KeysDistinct) :
    ms.KeyGroups (ms.tagKeyValues.map ms.keyGroup) := by
  obtain ⟨hn, hk, hv⟩ := keyValuesOf_tagKeyValues ms hkeys
  -- an entry set of the two indexes, read as an index of `ms.tagIndexes`
  have hS : ∀ P : TagKVEntrySet → Prop, (∃ e ∈ (ms.atomicGetImmutable.map (·.tagKVEntrySets)).getD [] ++
      ms.mutable.tagKVEntrySets, P e) ↔ ∃ t ∈ ms.tagIndexes, ∃ e ∈ t.tagKVEntrySets, P e := fun P => by
    cases hi : ms.atomicGetImmutable <;> simp [tagIndexes, hi, or_comm, or_and_right, exists_or]
  refine ⟨by simpa [keyGroup, Function.comp_def] using hn,
    by simpa [keyGroup, Function.comp_def] using fun k => (hk k).trans (hS _), fun g hg => ?_, fun g hg v => ?_,
    fun g hg => ?_⟩ <;> obtain ⟨x, hx, rfl⟩ := List.mem_map.mp hg
  · simpa [keyGroup, Function.comp_def] using (hv x hx).1
  · simp only [keyGroup, List.map_map, Function.comp_def, List.map_id', (hv x hx).2, hS, TagIndex.HoldsValue]
    exact ⟨fun ⟨t, ht, e, he, hk, bm, hb⟩ => ⟨t, ht, bm, e, he, hk, hb⟩,
      fun ⟨t, ht, bm, e, he, hk, hb⟩ => ⟨t, ht, e, he, hk, bm, hb⟩⟩
  · intro y hy
    obtain ⟨v, -, rfl⟩ := List.mem_map.mp hy
    refine ⟨_, _, rfl, fun t ht => ?_, fun hi => by simp only [hi], ?_⟩
    · simp only [ht]
      exact TagIndex.flushInvertedIndex_versionCalls (hkeys t (by simp [tagIndexes, ht])) _ _
    · exact TagIndex.flushInvertedIndex_versionCalls (hkeys _ (List.mem_cons_self _ _)) _ _

/-- For any flusher, the calls are whole key groups up to the first `FlushTagKeyID` that fails. -/
theorem flushInvertedIndexTo_groups (fl : InvertedFlusher) (gen : IDGenerator) (ms : MStore B)
    (history : List InvertedCall) (hkeys : ∀ t ∈ ms.tagIndexes, t.KeysDistinct) :
    ∃ groups, ms.KeyGroups groups ∧
      ((ms.flushInvertedIndexTo fl gen history = ((groups.map (groupCalls gen ms)).flatten, none) ∧
          KeyIDsFlushed fl gen ms history groups) ∨
        ∃ pre g post e, groups = pre ++ g :: post ∧ KeyIDsFlushed fl gen ms history pre ∧
          fl.flushTagKeyID (history ++ (pre.map (groupCalls gen ms)).flatten ++ (g.2.map (·.2)).flatten)
            (gen.genTagKeyID ms.metricID g.1) = some e ∧
          ms.flushInvertedIndexTo fl gen history = ((pre.map (groupCalls gen ms)).flatten ++ groupCalls gen ms g,
            some (.flusher e))) ∧
      ((∀ calls id, fl.flushTagKeyID calls id = none) → (ms.flushInvertedIndexTo fl gen history).2 = none) := by
  rw [flushInvertedIndexTo_eq]
  rcases flushInvertedIndexTo_go fl gen ms ms.tagKeyValues history with ⟨h, hf⟩ | ⟨pre, x, post, e, hkv, hf, he, h⟩
  · exact ⟨_, keyGroups_tagKeyValues ms hkeys, .inl ⟨by rw [h, List.map_map], hf⟩, fun _ => by rw [h]⟩
  · refine ⟨_, keyGroups_tagKeyValues ms hkeys, .inr ⟨pre.map ms.keyGroup, ms.keyGroup x, post.map ms.keyGroup, e,
      by rw [hkv, List.map_append, List.map_cons], hf, he, h⟩, fun hfl => ?_⟩
    rw [hfl] at he
    cases he

end MStore

namespace Sample

/-- An inverted-index flusher none of whose calls fails. -/
def okInvertedFlusher : InvertedFlusher := ⟨fun _ _ => none⟩

/-- A flusher whose `FlushTagKeyID` fails. -/
def closedInvertedFlusher : InvertedFlusher := ⟨fun _ _ => some "closed"⟩

theorem flushInvertedIndexTo_groups_twoVersionStore :
    (∀ t ∈ twoVersionStore.tagIndexes, t.KeysDistinct) ∧
      (twoVersionStore.flushInvertedIndexTo okInvertedFlusher config.generator []).2 = none :=
  have hkeys : ∀ t ∈ twoVersionStore.tagIndexes, t.KeysDistinct := by
    show ∀ t ∈ twoVersionStore.tagIndexes, (t.tagKVEntrySets.map (·.key)).Nodup
    decide
  let ⟨_, _, _, hnil⟩ := MStore.flushInvertedIndexTo_groups okInvertedFlusher config.generator twoVersionStore [] hkeys
  ⟨hkeys, hnil fun _ _ => rfl⟩

/-- `zonedStore`, reachable, has the keys `host` and `zone`. With a flusher whose `FlushTagKeyID` fails, the
    flush makes the group of `host` alone, and none for `zone`. -/
theorem flushInvertedIndexTo_stops_at_failed_key :
    Reachable config zonedDB ∧ zonedDB.getMStore config "cpu" = some zonedStore ∧
      zonedStore.tagIndexes.map (·.tagKVEntrySets.map (·.key)) = [["host", "zone"]] ∧
      zonedStore.flushInvertedIndexTo closedInvertedFlusher config.generator [] =
        ([.flushVersion 1 ⟨1, 100⟩ [1], .flushTagValue "b", .flushVersion 1 ⟨1, 100⟩ [2], .flushTagValue "c",
          .flushTagKeyID 1], some (.flusher "closed")) :=
  ⟨Reachable.init.runOps (by decide), rfl, by decide, by decide⟩

example : twoVersionStore.flushInvertedIndexTo okInvertedFlusher config.generator [] =
    ([.flushVersion 1 ⟨1, 100⟩ [1], .flushVersion 2 ⟨2, 100⟩ [1], .flushTagValue "a", .flushTagKeyID 1], none) := by
  decide

end Sample

end Lindb.Memdb

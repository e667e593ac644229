import Lindb.Theorems.Query

/-! The suggesters of a metric store (§4.4): prefix scans over the entry sets of both indexes. -/

namespace Lindb.Memdb

variable {B : Type}

theorem isPrefixOf_empty (s : String) : "".isPrefixOf s = true := by
  have h0 : "".endPos.byteIdx = 0 := rfl
  simp only [String.isPrefixOf, String.substrEq]
  rw [String.substrEq.loop]
  simp [h0]

theorem nodup_concat_of_contains {acc : List String} {x : String} (hn : acc.Nodup) (hx : acc.contains x = false) :
    (acc ++ [x]).Nodup := by
  rw [← List.concat_eq_append]
  exact hn.concat (by simpa using hx)

theorem length_foldl_concat_le {α : Type} (c : List String → α → Bool) (f : α → String) :
    ∀ (l : List α) (acc : List String), (l.foldl (fun acc v => if c acc v then acc ++ [f v] else acc) acc).length ≤
      acc.length + l.length
  | [], _ => by simp
  | v :: l, acc => by
    simp only [List.foldl_cons, List.length_cons]
    refine (length_foldl_concat_le c f l _).trans ?_
    split
    · simp only [List.length_append, List.length_singleton]; omega
    · omega

theorem prefix_foldl {α : Type} {f : List String → α → List String} (hf : ∀ acc x, acc <+: f acc x) :
    ∀ (l : List α) (acc : List String), acc <+: l.foldl f acc
  | [], _ => List.prefix_refl _
  | x :: l, acc => (hf acc x).trans (prefix_foldl hf l _)

theorem mem_foldl_of_lt {α : Type} {f : List String → α → List String} (hf : ∀ acc x, acc <+: f acc x) {n : Int}
    {Q : α → String → Prop} (hq : ∀ acc x s, Q x s → ((f acc x).length : Int) < n → s ∈ f acc x) :
    ∀ (l : List α) (acc : List String), ((l.foldl f acc).length : Int) < n → ∀ x ∈ l, ∀ s, Q x s → s ∈ l.foldl f acc
  | [], _, _, x, hx => by cases hx
  | y :: l, acc, hlt, x, hx => by
    rw [List.foldl_cons] at hlt ⊢
    rcases List.mem_cons.mp hx with rfl | hx
    · intro s hs
      have hle := (prefix_foldl hf l (f acc x)).length_le
      exact (prefix_foldl hf l _).subset (hq acc x s hs (by omega))
    · exact mem_foldl_of_lt hf hq l _ hlt x hx

namespace MStore

theorem mem_scans_of_lt (ms : MStore B) {f : List String → TagKVEntrySet → List String}
    (hf : ∀ acc x, acc <+: f acc x) {n : Int} {Q : TagKVEntrySet → String → Prop}
    (hq : ∀ acc x s, Q x s → ((f acc x).length : Int) < n → s ∈ f acc x) :
    let r := match ms.atomicGetImmutable with
      | some t => t.tagKVEntrySets.foldl f (ms.mutable.tagKVEntrySets.foldl f [])
      | none => ms.mutable.tagKVEntrySets.foldl f []
    (r.length : Int) < n → ∀ t ∈ ms.tagIndexes, ∀ e ∈ t.tagKVEntrySets, ∀ s, Q e s → s ∈ r := by
  intro r hlt t ht e he s hs
  simp only [r] at hlt ⊢
  cases hi : ms.atomicGetImmutable with
  | none =>
    simp only [hi] at hlt ⊢
    simp only [tagIndexes, hi, Option.toList_none, List.mem_singleton] at ht
    subst ht
    exact mem_foldl_of_lt hf hq _ [] hlt e he s hs
  | some t₁ =>
    simp only [hi] at hlt ⊢
    simp only [tagIndexes, hi, Option.toList_some, List.mem_cons, List.mem_singleton, List.not_mem_nil,
      or_false] at ht
    have hpre := prefix_foldl hf t₁.tagKVEntrySets (ms.mutable.tagKVEntrySets.foldl f [])
    rcases ht with rfl | rfl
    · -- the immutable index's scan keeps what the mutable one's took
      exact hpre.subset (mem_foldl_of_lt hf hq _ [] (lt_of_le_of_lt (Int.ofNat_le.mpr hpre.length_le) hlt) e he s hs)
    · exact mem_foldl_of_lt hf hq _ _ hlt e he s hs

/-! ### SuggestTagKeys -/

section Keys
variable (ms : MStore B) (tagKeyPrefix : String) (limit : Int)

/-- What `SuggestTagKeys(tagKeyPrefix, limit)` keeps of the keys it has collected: at most `limit` of them,
    pairwise distinct, each with the prefix and the key of an entry set of an index a reader sees. -/
def KeySuggestions (acc : List String) : Prop :=
  acc.Nodup ∧ (acc.length : Int) ≤ limit ∧
    ∀ k ∈ acc, tagKeyPrefix.isPrefixOf k = true ∧ ∃ t ∈ ms.tagIndexes, ∃ e ∈ t.tagKVEntrySets, e.key = k

theorem keySuggestions_scan {t : TagIndex B} (ht : t ∈ ms.tagIndexes) {acc : List String}
    (h : ms.KeySuggestions tagKeyPrefix limit acc) :
    ms.KeySuggestions tagKeyPrefix limit (t.tagKVEntrySets.foldl (fun acc e =>
      if limit ≤ acc.length then acc
      else if tagKeyPrefix.isPrefixOf e.key && !acc.contains e.key then acc ++ [e.key] else acc) acc) := by
  refine List.foldlRecOn _ _ _ h fun acc ⟨hn, hl, hk⟩ e he => ?_
  split_ifs with hlim hadd
  · exact ⟨hn, hl, hk⟩
  · simp only [Bool.and_eq_true, Bool.not_eq_true'] at hadd
    refine ⟨nodup_concat_of_contains hn hadd.2, by simp; omega, ?_⟩
    simp only [List.mem_append, List.mem_singleton]
    rintro k (hk' | rfl)
    · exact hk k hk'
    · exact ⟨hadd.1, t, ht, e, he, rfl⟩
  · exact ⟨hn, hl, hk⟩

theorem keySuggestions_suggestTagKeys (hlim : 0 < limit) :
    ms.KeySuggestions tagKeyPrefix limit (ms.suggestTagKeys tagKeyPrefix limit) := by
  have h₀ := ms.keySuggestions_scan tagKeyPrefix limit (List.mem_cons_self _ _)
    ⟨List.nodup_nil, by simp only [List.length_nil, Nat.cast_zero]; omega, by simp⟩
  simp only [suggestTagKeys, if_neg (not_le.mpr hlim)]
  cases hi : ms.atomicGetImmutable with
  | none => exact h₀
  | some t => exact ms.keySuggestions_scan tagKeyPrefix limit (by simp [tagIndexes, hi]) h₀

/-- `SuggestTagKeys` returns at most `limit` distinct keys of the indexes with the prefix. -/
theorem suggestTagKeys_sound :
    (ms.suggestTagKeys tagKeyPrefix limit).Nodup ∧ ((ms.suggestTagKeys tagKeyPrefix limit).length : Int) ≤ max limit 0 ∧
      ∀ k ∈ ms.suggestTagKeys tagKeyPrefix limit,
        tagKeyPrefix.isPrefixOf k = true ∧ ∃ t ∈ ms.tagIndexes, ∃ e ∈ t.tagKVEntrySets, e.key = k := by
  by_cases hlim : 0 < limit
  · obtain ⟨hn, hl, hk⟩ := ms.keySuggestions_suggestTagKeys tagKeyPrefix limit hlim
    exact ⟨hn, le_max_of_le_left hl, hk⟩
  · simp [suggestTagKeys, not_lt.mp hlim]

theorem keys_step_extends (acc : List String) (e : TagKVEntrySet) :
    acc <+: (if limit ≤ acc.length then acc
      else if tagKeyPrefix.isPrefixOf e.key && !acc.contains e.key then acc ++ [e.key] else acc) := by
  split_ifs <;> simp

theorem keys_step_takes (acc : List String) {e : TagKVEntrySet} (hp : tagKeyPrefix.isPrefixOf e.key = true)
    (hlt : ((if limit ≤ acc.length then acc
      else if tagKeyPrefix.isPrefixOf e.key && !acc.contains e.key then acc ++ [e.key] else acc).length : Int) < limit) :
    e.key ∈ (if limit ≤ acc.length then acc
      else if tagKeyPrefix.isPrefixOf e.key && !acc.contains e.key then acc ++ [e.key] else acc) := by
  split_ifs at hlt ⊢ with hfull hadd
  · omega
  · simp
  · simpa [hp] using hadd

/-- `SuggestTagKeys` is complete below its limit. -/
theorem suggestTagKeys_complete (hlt : ((ms.suggestTagKeys tagKeyPrefix limit).length : Int) < limit) :
    ∀ t ∈ ms.tagIndexes, ∀ e ∈ t.tagKVEntrySets, tagKeyPrefix.isPrefixOf e.key = true →
      e.key ∈ ms.suggestTagKeys tagKeyPrefix limit := by
  have hlim : 0 < limit := by
    by_contra h
    simp [suggestTagKeys, not_lt.mp h] at hlt
    omega
  simp only [suggestTagKeys, if_neg (not_le.mpr hlim)] at hlt ⊢
  exact fun t ht e he hp => ms.mem_scans_of_lt (keys_step_extends tagKeyPrefix limit)
    (Q := fun e s => tagKeyPrefix.isPrefixOf e.key = true ∧ s = e.key)
    (fun acc _ _ ⟨hp, hs⟩ hlt => by subst hs; exact keys_step_takes tagKeyPrefix limit acc hp hlt) hlt t ht e he _ ⟨hp, rfl⟩

end Keys

/-! ### SuggestTagValues -/

section Values
variable (ms : MStore B) (tagValuePrefix : String)

/-- What `SuggestTagValues(tagKey, tagValuePrefix, limit)` keeps of the values it has collected: pairwise
    distinct, each with the prefix and a value of an entry set of an index a reader sees, of any key. -/
def ValueSuggestions (acc : List String) : Prop :=
  acc.Nodup ∧ ∀ v ∈ acc, tagValuePrefix.isPrefixOf v = true ∧
    ∃ t ∈ ms.tagIndexes, ∃ e ∈ t.tagKVEntrySets, ∃ bitmap, (v, bitmap) ∈ e.values

theorem valueSuggestions_values {t : TagIndex B} (ht : t ∈ ms.tagIndexes) {e : TagKVEntrySet}
    (he : e ∈ t.tagKVEntrySets) {acc : List String} (h : ms.ValueSuggestions tagValuePrefix acc) :
    ms.ValueSuggestions tagValuePrefix (e.values.foldl (fun acc v =>
      if tagValuePrefix.isPrefixOf v.1 && !acc.contains v.1 then acc ++ [v.1] else acc) acc) := by
  refine List.foldlRecOn _ _ _ h fun acc ⟨hn, hv⟩ x hx => ?_
  split_ifs with hadd
  · simp only [Bool.and_eq_true, Bool.not_eq_true'] at hadd
    refine ⟨nodup_concat_of_contains hn hadd.2, ?_⟩
    simp only [List.mem_append, List.mem_singleton]
    rintro v (hv' | rfl)
    · exact hv v hv'
    · exact ⟨hadd.1, t, ht, e, he, x.2, hx⟩
  · exact ⟨hn, hv⟩

theorem valueSuggestions_scan (limit : Int) (w : Nat) {t : TagIndex B} (ht : t ∈ ms.tagIndexes)
    (hw : ∀ e ∈ t.tagKVEntrySets, e.values.length ≤ w) {acc : List String}
    (h : ms.ValueSuggestions tagValuePrefix acc ∧ (acc.length : Int) < limit + w) :
    let r := t.tagKVEntrySets.foldl (fun acc e =>
      if limit ≤ acc.length then acc
      else e.values.foldl (fun acc v =>
        if tagValuePrefix.isPrefixOf v.1 && !acc.contains v.1 then acc ++ [v.1] else acc) acc) acc
    ms.ValueSuggestions tagValuePrefix r ∧ (r.length : Int) < limit + w := by
  refine List.foldlRecOn (motive := fun r => ms.ValueSuggestions tagValuePrefix r ∧ (r.length : Int) < limit + w)
    _ _ _ h fun acc ⟨hs, hl⟩ e he => ?_
  split_ifs with hlim
  · exact ⟨hs, hl⟩
  · have hlen := length_foldl_concat_le (fun acc v => tagValuePrefix.isPrefixOf v.1 && !acc.contains v.1)
      Prod.fst e.values acc
    exact ⟨ms.valueSuggestions_values tagValuePrefix ht he hs, by have := hw e he; omega⟩

/-- `SuggestTagValues` returns distinct values of any key, past the limit by less than one entry set. -/
theorem suggestTagValues_sound (tagKey : String) (limit : Int) (w : Nat)
    (hw : ∀ t ∈ ms.tagIndexes, ∀ e ∈ t.tagKVEntrySets, e.values.length ≤ w) :
    (ms.suggestTagValues tagKey tagValuePrefix limit).Nodup ∧
      (∀ v ∈ ms.suggestTagValues tagKey tagValuePrefix limit, tagValuePrefix.isPrefixOf v = true ∧
        ∃ t ∈ ms.tagIndexes, ∃ e ∈ t.tagKVEntrySets, ∃ bitmap, (v, bitmap) ∈ e.values) ∧
      (0 < limit → ((ms.suggestTagValues tagKey tagValuePrefix limit).length : Int) < min limit MaxSuggestions + w) := by
  by_cases hlim : 0 < limit
  · have hcap : (if (MaxSuggestions : Int) < limit then (MaxSuggestions : Int) else limit) = min limit MaxSuggestions := by
      split <;> omega
    have hmut : ms.mutable ∈ ms.tagIndexes := List.mem_cons_self _ _
    have h₀ := ms.valueSuggestions_scan tagValuePrefix
      (if (MaxSuggestions : Int) < limit then (MaxSuggestions : Int) else limit) w hmut (hw _ hmut)
      ⟨⟨List.nodup_nil, by simp⟩, by rw [hcap]; simp only [List.length_nil, Nat.cast_zero, MaxSuggestions]; omega⟩
    have h : ms.ValueSuggestions tagValuePrefix (ms.suggestTagValues tagKey tagValuePrefix limit) ∧
        ((ms.suggestTagValues tagKey tagValuePrefix limit).length : Int) < min limit MaxSuggestions + w := by
      rw [← hcap]
      simp only [suggestTagValues, if_neg (not_le.mpr hlim)]
      cases hi : ms.atomicGetImmutable with
      | none => exact h₀
      | some t =>
        have ht : t ∈ ms.tagIndexes := by simp [tagIndexes, hi]
        exact ms.valueSuggestions_scan tagValuePrefix _ w ht (hw t ht) h₀
    exact ⟨h.1.1, h.1.2, fun _ => h.2⟩
  · simp [suggestTagValues, not_lt.mp hlim]

theorem values_step_extends (limit : Int) (acc : List String) (e : TagKVEntrySet) :
    acc <+: (if limit ≤ acc.length then acc else e.values.foldl (fun acc v =>
      if tagValuePrefix.isPrefixOf v.1 && !acc.contains v.1 then acc ++ [v.1] else acc) acc) := by
  split_ifs
  · exact List.prefix_refl _
  · exact prefix_foldl (fun acc v => by split_ifs <;> simp) _ _

theorem values_entry_complete (e : TagKVEntrySet) (acc : List String) {v : String} {bitmap : List Nat}
    (hv : (v, bitmap) ∈ e.values) (hp : tagValuePrefix.isPrefixOf v = true) :
    v ∈ e.values.foldl (fun acc v =>
      if tagValuePrefix.isPrefixOf v.1 && !acc.contains v.1 then acc ++ [v.1] else acc) acc :=
  mem_foldl_of_lt (fun acc v => by split_ifs <;> simp) (Q := fun x s => tagValuePrefix.isPrefixOf x.1 = true ∧ s = x.1)
    (fun acc x s ⟨hp, hs⟩ _ => by
      subst hs
      split_ifs with hadd
      · simp
      · simpa [hp] using hadd) _ acc (lt_add_one _) _ hv v ⟨hp, rfl⟩

theorem values_step_takes (limit : Int) (acc : List String) {e : TagKVEntrySet} {v : String} {bitmap : List Nat}
    (hv : (v, bitmap) ∈ e.values) (hp : tagValuePrefix.isPrefixOf v = true)
    (hlt : ((if limit ≤ acc.length then acc else e.values.foldl (fun acc v =>
      if tagValuePrefix.isPrefixOf v.1 && !acc.contains v.1 then acc ++ [v.1] else acc) acc).length : Int) < limit) :
    v ∈ (if limit ≤ acc.length then acc else e.values.foldl (fun acc v =>
      if tagValuePrefix.isPrefixOf v.1 && !acc.contains v.1 then acc ++ [v.1] else acc) acc) := by
  split_ifs at hlt ⊢ with hfull
  · omega
  · exact values_entry_complete tagValuePrefix e acc hv hp

/-- `SuggestTagValues` is complete below its limit, capped at `MaxSuggestions`. -/
theorem suggestTagValues_complete (tagKey : String) (limit : Int)
    (hlt : ((ms.suggestTagValues tagKey tagValuePrefix limit).length : Int) < min limit MaxSuggestions) :
    ∀ t ∈ ms.tagIndexes, ∀ e ∈ t.tagKVEntrySets, ∀ v bitmap, (v, bitmap) ∈ e.values →
      tagValuePrefix.isPrefixOf v = true → v ∈ ms.suggestTagValues tagKey tagValuePrefix limit := by
  have hlim : 0 < limit := by
    by_contra h
    simp [suggestTagValues, not_lt.mp h] at hlt
    simp only [MaxSuggestions] at hlt
    omega
  have hcap : (if (MaxSuggestions : Int) < limit then (MaxSuggestions : Int) else limit) = min limit MaxSuggestions := by
    split <;> omega
  rw [← hcap] at hlt
  simp only [suggestTagValues, if_neg (not_le.mpr hlim)] at hlt ⊢
  exact fun t ht e he v bitmap hv hp => ms.mem_scans_of_lt (values_step_extends tagValuePrefix _)
    (Q := fun e s => tagValuePrefix.isPrefixOf s = true ∧ ∃ bitmap, (s, bitmap) ∈ e.values)
    (fun acc _ _ ⟨hp, _, hv⟩ hlt => values_step_takes tagValuePrefix _ acc hv hp hlt) hlt t ht e he v ⟨hp, bitmap, hv⟩

end Values

end MStore

namespace Sample

/-- Points of `cpu` tagged `host = b, zone = a` and `host = c, zone = a`, at clock `1`. -/
def zonedDB : MemDB Nat :=
  runOps config (newMemoryDatabase config)
    [.write ⟨"cpu", 100, [("host", "b"), ("zone", "a")], by decide, [⟨"f", .sum 1⟩]⟩ 1,
     .write ⟨"cpu", 100, [("host", "c"), ("zone", "a")], by decide, [⟨"f", .sum 1⟩]⟩ 1]

/-- The metric store of `cpu` in `zonedDB`. -/
def zonedStore : MStore Nat := (zonedDB.getMStore config "cpu").getD (newMetricStore 0 0)

/-- Asked for values of `host`, `SuggestTagValues` also gives `a`, a value of `zone` only; with limit `1` it
    gives both values of `host`, as it checks the limit only between entry sets. -/
theorem suggestTagValues_other_key_over_limit :
    zonedStore.mutable.tagKVEntrySets = [⟨"host", [("b", [1]), ("c", [2])]⟩, ⟨"zone", [("a", [1, 2])]⟩] ∧
      zonedStore.atomicGetImmutable.isNone ∧
      zonedStore.suggestTagValues "host" "" 10 = ["b", "c", "a"] ∧
      zonedStore.suggestTagValues "host" "" 1 = ["b", "c"] := by
  simp only [MStore.suggestTagValues, isPrefixOf_empty, Bool.true_and]
  decide

theorem suggestTagValues_sound_zonedStore :
    (∀ t ∈ zonedStore.tagIndexes, ∀ e ∈ t.tagKVEntrySets, e.values.length ≤ 2) ∧
      ((zonedStore.suggestTagValues "host" "" 1).length : Int) < min 1 MaxSuggestions + 2 :=
  have hw : ∀ t ∈ zonedStore.tagIndexes, ∀ e ∈ t.tagKVEntrySets, e.values.length ≤ 2 := by decide
  ⟨hw, (MStore.suggestTagValues_sound zonedStore "" "host" 1 2 hw).2.2 (by decide)⟩

theorem suggestTagKeys_complete_zonedStore :
    ((zonedStore.suggestTagKeys "" 10).length : Int) < 10 ∧ ∀ t ∈ zonedStore.tagIndexes, ∀ e ∈ t.tagKVEntrySets,
      "".isPrefixOf e.key = true → e.key ∈ zonedStore.suggestTagKeys "" 10 :=
  have h : ((zonedStore.suggestTagKeys "" 10).length : Int) < 10 := by
    simp only [MStore.suggestTagKeys, isPrefixOf_empty, Bool.true_and]
    decide
  ⟨h, MStore.suggestTagKeys_complete zonedStore "" 10 h⟩

theorem suggestTagValues_complete_zonedStore :
    ((zonedStore.suggestTagValues "host" "" 10).length : Int) < min 10 MaxSuggestions ∧
      ∀ t ∈ zonedStore.tagIndexes, ∀ e ∈ t.tagKVEntrySets, ∀ v bitmap, (v, bitmap) ∈ e.values →
        "".isPrefixOf v = true → v ∈ zonedStore.suggestTagValues "host" "" 10 :=
  have h : ((zonedStore.suggestTagValues "host" "" 10).length : Int) < min 10 MaxSuggestions := by
    simp only [MStore.suggestTagValues, isPrefixOf_empty, Bool.true_and]
    decide
  ⟨h, MStore.suggestTagValues_complete zonedStore "" "host" 10 h⟩

end Sample

end Lindb.Memdb

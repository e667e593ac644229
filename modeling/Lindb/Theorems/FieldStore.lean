import Lindb.Memdb.FieldStore

/-! A field store as a finite map from family time to segment (§4.2): sorted under `Write` and
    `FlushFieldTo`, the size reports, and `TimeRange`'s reading of `0` as unset. -/

namespace Lindb.Memdb
namespace FieldStore

variable {B : Type}

/-! ### Lists of segments -/

/-- Strictly increasing in family time. -/
def Increasing (l : List (SStore B)) : Prop := l.Sorted fun a b => a.familyTime < b.familyTime

instance familyTime_lt_antisymm : IsAntisymm (SStore B) fun a b => a.familyTime < b.familyTime :=
  ⟨fun _ _ h h' => absurd (h.trans h') (lt_irrefl _)⟩

instance familyTime_le_total : IsTotal (SStore B) fun a b => a.familyTime ≤ b.familyTime :=
  ⟨fun _ _ => le_total _ _⟩

instance familyTime_le_trans : IsTrans (SStore B) fun a b => a.familyTime ≤ b.familyTime :=
  ⟨fun _ _ _ => le_trans⟩

theorem eraseIdx_eq_filter {α : Type} (p : α → Bool) :
    ∀ (l : List α) (k : Nat), k < l.length → (∀ i (hi : i < l.length), p l[i] = false ↔ i = k) →
      l.eraseIdx k = l.filter p
  | a :: l, 0, _, hp => by
    have ha : p a = false := (hp 0 (Nat.succ_pos _)).mpr rfl
    have hl : ∀ x ∈ l, p x = true := fun x hx => by
      obtain ⟨i, hi, rfl⟩ := List.mem_iff_getElem.mp hx
      have := hp (i + 1) (by simp [hi])
      cases hpx : p l[i] <;> simp_all
    rw [List.eraseIdx_cons_zero, List.filter_cons_of_neg (by simp [ha]), List.filter_eq_self.mpr hl]
  | a :: l, k + 1, hk, hp => by
    have ha : p a = true := by
      have := hp 0 (Nat.succ_pos _)
      cases hpa : p a <;> simp_all
    rw [List.eraseIdx_cons_succ, List.filter_cons_of_pos ha,
      eraseIdx_eq_filter p l k (by simpa using hk) fun i hi => by simpa using hp (i + 1) (by simp [hi])]

namespace Increasing
variable {l : List (SStore B)}

theorem index_eq (h : Increasing l) {i k : Nat} (hi : i < l.length) (hk : k < l.length)
    (heq : l[i].familyTime = l[k].familyTime) : i = k := by
  rcases Nat.lt_trichotomy i k with hlt | rfl | hgt
  · exact absurd heq (ne_of_lt (List.pairwise_iff_getElem.mp h i k hi hk hlt))
  · rfl
  · exact absurd heq (ne_of_gt (List.pairwise_iff_getElem.mp h k i hk hi hgt))

theorem set (h : Increasing l) {k : Nat} {s : SStore B} (hft : ∀ hk : k < l.length, s.familyTime = l[k].familyTime) :
    Increasing (l.set k s) := by
  refine List.pairwise_iff_getElem.mpr fun i j hi hj hij => ?_
  have hi' : i < l.length := by simpa using hi
  have hj' : j < l.length := by simpa using hj
  have hlt := List.pairwise_iff_getElem.mp h i j hi' hj' hij
  simp only [List.getElem_set]
  split_ifs with h1 h2 <;> subst_vars <;> simp_all

theorem of_perm {l' : List (SStore B)} (hp : l.Perm l') (hl : l.Pairwise fun a b => a.familyTime ≠ b.familyTime)
    (hs : l'.Sorted fun a b => a.familyTime ≤ b.familyTime) : Increasing l' :=
  (hs.and ((hp.pairwise_iff Ne.symm).mp hl)).imp fun h => lt_of_le_of_ne h.1 h.2

theorem insertionSort_append (h : Increasing l) {s : SStore B} (hs : ∀ x ∈ l, x.familyTime ≠ s.familyTime) :
    Increasing ((l ++ [s]).insertionSort fun a b => a.familyTime ≤ b.familyTime) ∧
      ∃ l₁ l₂, l = l₁ ++ l₂ ∧
        (l ++ [s]).insertionSort (fun a b => a.familyTime ≤ b.familyTime) = l₁ ++ s :: l₂ := by
  have distinct : (l ++ [s]).Pairwise fun a b => a.familyTime ≠ b.familyTime :=
    List.pairwise_append.mpr ⟨h.imp ne_of_lt, List.pairwise_singleton _ _, fun a ha b hb => by
      rw [List.mem_singleton.mp hb]; exact hs a ha⟩
  have hins : Increasing (l.orderedInsert (fun a b => a.familyTime ≤ b.familyTime) s) :=
    of_perm ((List.perm_append_singleton s l).trans (List.perm_orderedInsert _ _ _).symm) distinct
      (List.Sorted.orderedInsert _ _ (h.imp le_of_lt))
  have heq : (l ++ [s]).insertionSort (fun a b => a.familyTime ≤ b.familyTime) =
      l.orderedInsert (fun a b => a.familyTime ≤ b.familyTime) s :=
    List.eq_of_perm_of_sorted (r := fun a b : SStore B => a.familyTime < b.familyTime)
      ((List.perm_insertionSort _ _).trans
        ((List.perm_append_singleton s l).trans (List.perm_orderedInsert _ _ _).symm))
      (of_perm (List.perm_insertionSort _ _).symm distinct (List.sorted_insertionSort _ _)) hins
  rw [heq]
  exact ⟨hins, _, _, (List.takeWhile_append_dropWhile _ l).symm, List.orderedInsert_eq_take_drop _ _ _⟩

end Increasing

/-! ### The binary searches -/

theorem familyAtLeast_of_lt {nodes : List (SStore B)} {ft : Int} {i : Nat} (hi : i < nodes.length) :
    familyAtLeast nodes ft i = decide (ft ≤ nodes[i].familyTime) := by
  simp [familyAtLeast, List.getElem?_eq_getElem hi]

section Sorted
variable {fs : FieldStore B} {ft : Int}

theorem searchSStore_spec (h : Increasing fs.sStoreNodes) (ft : Int) :
    fs.searchSStore ft ≤ fs.sStoreNodes.length ∧
    (∀ i (hi : i < fs.sStoreNodes.length), i < fs.searchSStore ft → fs.sStoreNodes[i].familyTime < ft) ∧
    ∀ i (hi : i < fs.sStoreNodes.length), fs.searchSStore ft ≤ i → ft ≤ fs.sStoreNodes[i].familyTime := by
  have mono : ∀ a b, a ≤ b → b < fs.sStoreNodes.length →
      familyAtLeast fs.sStoreNodes ft a = true → familyAtLeast fs.sStoreNodes ft b = true := by
    intro a b hab hb ha
    rw [familyAtLeast_of_lt (by omega)] at ha
    rw [familyAtLeast_of_lt hb]
    simp only [decide_eq_true_eq] at ha ⊢
    rcases hab.lt_or_eq with hab | rfl
    · exact ha.trans (List.pairwise_iff_getElem.mp h a b (by omega) hb hab).le
    · exact ha
  obtain ⟨h1, h2, h3⟩ := search_spec mono
  refine ⟨h1, fun i hi hlt => ?_, fun i hi hle => ?_⟩
  · simpa [familyAtLeast_of_lt hi] using h2 i hlt
  · simpa [familyAtLeast_of_lt hi] using h3 i hle hi

theorem searchSStore_eq (h : Increasing fs.sStoreNodes) {k : Nat} (hk : k < fs.sStoreNodes.length)
    (hft : fs.sStoreNodes[k].familyTime = ft) : fs.searchSStore ft = k := by
  obtain ⟨-, h2, h3⟩ := searchSStore_spec h ft
  by_contra hne
  rcases Nat.lt_or_gt_of_ne hne with hlt | hgt
  · have hidx : fs.searchSStore ft < fs.sStoreNodes.length := by omega
    have := List.pairwise_iff_getElem.mp h _ _ hidx hk hlt
    have := h3 _ hidx le_rfl
    omega
  · have := h2 k hk hgt
    omega

theorem getSStore_some {s : SStore B} (hs : fs.getSStore ft = some s) :
    ∃ hk : fs.searchSStore ft < fs.sStoreNodes.length, fs.sStoreNodes[fs.searchSStore ft] = s ∧ s.familyTime = ft := by
  unfold getSStore at hs
  split at hs
  · rename_i s' hs'
    split_ifs at hs with hft
    cases hs
    obtain ⟨hk, rfl⟩ := List.getElem?_eq_some_iff.mp hs'
    exact ⟨hk, rfl, hft⟩
  · cases hs

theorem getSStore_mem {s : SStore B} (hs : fs.getSStore ft = some s) : s ∈ fs.sStoreNodes ∧ s.familyTime = ft := by
  obtain ⟨hk, rfl, hft⟩ := getSStore_some hs
  exact ⟨List.getElem_mem hk, hft⟩

theorem getSStore_eq_some_iff (h : Increasing fs.sStoreNodes) {s : SStore B} :
    fs.getSStore ft = some s ↔ s ∈ fs.sStoreNodes ∧ s.familyTime = ft := by
  refine ⟨getSStore_mem, ?_⟩
  rintro ⟨hmem, rfl⟩
  obtain ⟨k, hk, rfl⟩ := List.mem_iff_getElem.mp hmem
  simp [getSStore, searchSStore_eq h hk rfl, List.getElem?_eq_getElem hk]

theorem getSStore_eq_none_iff (h : Increasing fs.sStoreNodes) : fs.getSStore ft = none ↔ fs.hasFamily ft = false := by
  simp only [Option.eq_none_iff_forall_not_mem, Option.mem_def, getSStore_eq_some_iff h, hasFamily,
    List.any_eq_false, beq_iff_eq, not_and]

theorem removeSStore_nodes (h : Increasing fs.sStoreNodes) :
    (fs.removeSStore ft).sStoreNodes = fs.sStoreNodes.filter fun s => s.familyTime ≠ ft := by
  by_cases hex : ∃ k, ∃ hk : k < fs.sStoreNodes.length, fs.sStoreNodes[k].familyTime = ft
  · obtain ⟨k, hk, hft⟩ := hex
    simp only [removeSStore, searchSStore_eq h hk hft, List.getElem?_eq_getElem hk, hft, ite_true]
    refine eraseIdx_eq_filter _ _ _ hk fun i hi => ?_
    simp only [decide_eq_false_iff_not, not_not]
    exact ⟨fun hi' => h.index_eq hi hk (hi'.trans hft.symm), fun hik => by subst hik; exact hft⟩
  · push_neg at hex
    have hkeep : fs.removeSStore ft = fs := by
      unfold removeSStore
      split
      · rename_i s hs
        obtain ⟨hlt, hget⟩ := List.getElem?_eq_some_iff.mp hs
        rw [if_neg (hget ▸ hex _ hlt)]
      · rfl
    rw [hkeep, eq_comm, List.filter_eq_self]
    intro s hs
    obtain ⟨k, hk, rfl⟩ := List.mem_iff_getElem.mp hs
    simpa using hex k hk

end Sorted

/-! ### Write and FlushFieldTo -/

section Calls
variable [Block B] {fs : FieldStore B} {f : PbField} {ctx : WriteContext}

theorem write_of_not_sum (hf : ∀ v, f.field ≠ .sum v) : fs.write f ctx = (fs, 0) := by
  unfold write
  split
  · rename_i v hv
    exact absurd hv (hf v)
  · rfl

theorem write_sum_new {v : Float} (hf : f.field = .sum v) (hg : fs.getSStore ctx.familyTime = none) :
    (fs.write f ctx).1 = fs.insertSStore ((newSimpleFieldStore ctx.familyTime .sum : SStore B).writeFloat v ctx).1 := by
  simp [write, hf, hg]

theorem write_sum_found {v : Float} {s : SStore B} (hf : f.field = .sum v) (hg : fs.getSStore ctx.familyTime = some s) :
    (fs.write f ctx).1.sStoreNodes = fs.sStoreNodes.set (fs.searchSStore ctx.familyTime) (s.writeFloat v ctx).1 := by
  simp [write, hf, hg]

theorem write_sum_new_spec (h : Increasing fs.sStoreNodes) {v : Float} (hf : f.field = .sum v)
    (hg : fs.getSStore ctx.familyTime = none) :
    Increasing (fs.write f ctx).1.sStoreNodes ∧ ∃ l₁ l₂ s, fs.sStoreNodes = l₁ ++ l₂ ∧
      (fs.write f ctx).1.sStoreNodes = l₁ ++ s :: l₂ ∧ s.familyTime = ctx.familyTime := by
  have hnew : ∀ x ∈ fs.sStoreNodes, x.familyTime ≠ ctx.familyTime := by
    simpa [hasFamily] using (getSStore_eq_none_iff h).mp hg
  obtain ⟨hinc, l₁, l₂, hl, heq⟩ := h.insertionSort_append (s := ((newSimpleFieldStore ctx.familyTime .sum :
    SStore B).writeFloat v ctx).1) (by simpa using hnew)
  rw [write_sum_new hf hg]
  exact ⟨hinc, l₁, l₂, _, hl, heq, by simp⟩

theorem write_increasing (h : Increasing fs.sStoreNodes) : Increasing (fs.write f ctx).1.sStoreNodes := by
  cases hf : f.field with
  | sum v =>
    cases hg : fs.getSStore ctx.familyTime with
    | none => exact (write_sum_new_spec h hf hg).1
    | some s =>
      obtain ⟨hk, hs, -⟩ := getSStore_some hg
      rw [write_sum_found hf hg]
      exact h.set fun _ => by simp [← hs]
  | min v => rwa [write_of_not_sum (by simp [hf])]
  | max v => rwa [write_of_not_sum (by simp [hf])]

theorem flushFieldTo_nodes (h : Increasing fs.sStoreNodes) (ft : Int) :
    (fs.flushFieldTo ft).1.sStoreNodes = fs.sStoreNodes.filter fun s => s.familyTime ≠ ft := by
  unfold flushFieldTo
  cases hg : fs.getSStore ft with
  | none =>
    refine (List.filter_eq_self.mpr fun s hs => ?_).symm
    simpa [hasFamily] using (List.any_eq_false.mp ((getSStore_eq_none_iff h).mp hg)) s hs
  | some s =>
    simp only
    split <;> exact removeSStore_nodes h

theorem flushFieldTo_calls (fs : FieldStore B) (ft : Int) :
    (fs.flushFieldTo ft).2.2 = [] ∨ ∃ s data, fs.getSStore ft = some s ∧ (fs.flushFieldTo ft).2.2 = [.flushField fs.fieldID data] := by
  unfold flushFieldTo
  cases hg : fs.getSStore ft with
  | none => exact .inl rfl
  | some s =>
    simp only
    split
    · exact .inl rfl
    · exact .inr ⟨s, _, rfl, rfl⟩

end Calls

/-! ### Sizes -/

/-- Each segment's `WriteFloat` reports exactly how much the segment's `MemSize()` grew. -/
def WriteExact (B : Type) [Block B] : Prop :=
  ∀ (s : SStore B) (v : Float) (ctx : WriteContext), (s.writeFloat v ctx).2 = (s.writeFloat v ctx).1.memSize - s.memSize

/-- Each segment's `Bytes(true)` keeps its `MemSize()`, and fails only on an empty segment: what
    `FlushFieldTo` returns for a segment is the segment's size. -/
def FlushExact (B : Type) [Block B] : Prop :=
  ∀ s : SStore B, s.memSize = match s.bytes with
    | (.ok _, s') => s'.memSize
    | (.error _, _) => 0

section Sizes
variable [Block B]

theorem write_memSize (hw : WriteExact B) (fs : FieldStore B) (f : PbField) (ctx : WriteContext) :
    (fs.write f ctx).2 = (fs.write f ctx).1.memSize - fs.memSize := by
  cases hf : f.field with
  | sum v =>
    cases hg : fs.getSStore ctx.familyTime with
    | none =>
      -- the new slice is the sorted permutation of the old one and the new segment
      have hperm := ((List.perm_insertionSort (fun a b : SStore B => a.familyTime ≤ b.familyTime)
        (fs.sStoreNodes ++ [((newSimpleFieldStore ctx.familyTime .sum : SStore B).writeFloat v ctx).1])).map
        SStore.memSize).sum_eq
      simp only [write, hf, hg, memSize, insertSStore, hperm, List.map_append, List.sum_append,
        hw _ v ctx]
      simp only [List.map_cons, List.map_nil, List.sum_cons, List.sum_nil]
      split <;> omega
    | some s =>
      obtain ⟨hk, hs, -⟩ := getSStore_some hg
      simp only [write, hf, hg, memSize, List.map_set, List.sum_set', List.length_map, hk, dite_true,
        List.getElem_map, hs, hw s v ctx]
      omega
  | min v => simp [write, hf]
  | max v => simp [write, hf]

theorem sum_map_eraseIdx {α : Type} (f : α → Int) :
    ∀ {l : List α} {k : Nat} (hk : k < l.length), ((l.eraseIdx k).map f).sum = (l.map f).sum - f l[k]
  | _ :: _, 0, _ => by simp
  | _ :: _, k + 1, hk => by
    simp [sum_map_eraseIdx f (Nat.lt_of_succ_lt_succ hk)]
    omega

theorem flushFieldTo_memSize (fs : FieldStore B) (ft : Int) :
    fs.memSize - (fs.flushFieldTo ft).1.memSize = ((fs.getSStore ft).map SStore.memSize).getD 0 := by
  cases hg : fs.getSStore ft with
  | none => simp [flushFieldTo, hg]
  | some s =>
    obtain ⟨hk, hs, hft⟩ := getSStore_some hg
    have hrm : (fs.flushFieldTo ft).1 = fs.removeSStore ft := by
      simp only [flushFieldTo, hg]
      split <;> rfl
    simp only [hrm, memSize, removeSStore, List.getElem?_eq_getElem hk, hs, hft, ite_true,
      sum_map_eraseIdx _ hk, Option.map_some', Option.getD_some]
    omega

theorem flushFieldTo_exact (hf : FlushExact B) (fs : FieldStore B) (ft : Int) :
    (fs.flushFieldTo ft).2.1 = fs.memSize - (fs.flushFieldTo ft).1.memSize := by
  rw [flushFieldTo_memSize]
  unfold flushFieldTo
  cases hg : fs.getSStore ft with
  | none => rfl
  | some s =>
    have := hf s
    simp only [Option.map_some', Option.getD_some]
    split <;> simp_all

end Sizes

/-! ### TimeRange -/

section TimeRange
variable [Block B]

/-- A segment's start and end times in `TimeRange(interval)`, when its `SlotRange()` succeeds. -/
def slotTimesOf (s : SStore B) (interval : Int) : Option (Int × Int) :=
  match s.slotRange with
  | .ok (startSlot, endSlot) => some (s.familyTime + startSlot * interval, s.familyTime + endSlot * interval)
  | .error _ => none

/-- The start and end times of the segments whose `SlotRange()` succeeds, in slice order. -/
def slotTimes (fs : FieldStore B) (interval : Int) : List (Int × Int) :=
  fs.sStoreNodes.filterMap (slotTimesOf · interval)

/-- `TimeRange`'s loop body on one segment's times; `0` stands for an unset bound. -/
def widen (r : TimeRange) (t : Int × Int) : TimeRange :=
  ⟨if r.start = 0 ∨ t.1 < r.start then t.1 else r.start, if r.«end» = 0 ∨ r.«end» < t.2 then t.2 else r.«end»⟩

theorem timeRange_eq (fs : FieldStore B) (interval : Int) :
    fs.timeRange interval = ((fs.slotTimes interval).foldl widen ⟨0, 0⟩, !(fs.slotTimes interval).isEmpty) := by
  suffices ∀ (l : List (SStore B)) (acc : TimeRange × Bool), l.foldl (fun acc s => match s.slotRange with
      | .error _ => acc
      | .ok (startSlot, endSlot) =>
        (widen acc.1 (s.familyTime + startSlot * interval, s.familyTime + endSlot * interval), true)) acc =
      ((l.filterMap (slotTimesOf · interval)).foldl widen acc.1,
        acc.2 || !(l.filterMap (slotTimesOf · interval)).isEmpty) from
    this fs.sStoreNodes _
  intro l
  induction l with
  | nil => simp
  | cons s l ih =>
    intro acc
    rcases hs : s.slotRange with _ | ⟨a, b⟩ <;> simp [slotTimesOf, hs, ih]

theorem foldl_widen_start : ∀ (ts : List (Int × Int)) (r : TimeRange), (∀ t ∈ ts, t.1 ≠ 0) → r.start ≠ 0 →
    (ts.foldl widen r).start = (ts.map (·.1)).foldl min r.start
  | [], _, _, _ => rfl
  | t :: ts, r, h, hr => by
    have hmin : (widen r t).start = min r.start t.1 := by
      simp only [widen, hr, false_or]
      split_ifs <;> omega
    have ht := h t (List.mem_cons_self _ _)
    rw [List.foldl_cons, List.map_cons, List.foldl_cons, ← hmin]
    exact foldl_widen_start ts _ (fun t' h' => h t' (List.mem_cons_of_mem _ h')) (by omega)

theorem foldl_widen_end : ∀ (ts : List (Int × Int)) (r : TimeRange), (∀ t ∈ ts, t.2 ≠ 0) → r.«end» ≠ 0 →
    (ts.foldl widen r).«end» = (ts.map (·.2)).foldl max r.«end»
  | [], _, _, _ => rfl
  | t :: ts, r, h, hr => by
    have hmax : (widen r t).«end» = max r.«end» t.2 := by
      simp only [widen, hr, false_or]
      split_ifs <;> omega
    have ht := h t (List.mem_cons_self _ _)
    rw [List.foldl_cons, List.map_cons, List.foldl_cons, ← hmax]
    exact foldl_widen_end ts _ (fun t' h' => h t' (List.mem_cons_of_mem _ h')) (by omega)

/-- `TimeRange(interval)` is ok exactly when some segment's `SlotRange()` succeeds. -/
theorem timeRange_ok (fs : FieldStore B) (interval : Int) :
    (fs.timeRange interval).2 = true ↔ ∃ s ∈ fs.sStoreNodes, ∃ r, s.slotRange = .ok r := by
  rw [timeRange_eq]
  simp only [slotTimes, Bool.not_eq_true', List.isEmpty_eq_false, ne_eq, List.filterMap_eq_nil_iff, not_forall]
  refine exists_congr fun s => ?_
  simp only [slotTimesOf]
  cases s.slotRange <;> simp

/-- When no segment's start or end time is `0`, `TimeRange(interval)` gives the least start time and the
    greatest end time of the segments whose `SlotRange()` succeeds. -/
theorem timeRange_bounds (fs : FieldStore B) (interval : Int) (h : ∀ t ∈ fs.slotTimes interval, t.1 ≠ 0 ∧ t.2 ≠ 0) :
    fs.timeRange interval = (⟨((fs.slotTimes interval).map (·.1)).min?.getD 0,
      ((fs.slotTimes interval).map (·.2)).max?.getD 0⟩, !(fs.slotTimes interval).isEmpty) := by
  rw [timeRange_eq]
  congr 1
  cases hts : fs.slotTimes interval with
  | nil => rfl
  | cons t ts =>
    have hall : ∀ t' ∈ ts, t'.1 ≠ 0 ∧ t'.2 ≠ 0 := fun t' h' => h t' (hts ▸ List.mem_cons_of_mem _ h')
    have ht := h t (hts ▸ List.mem_cons_self _ _)
    have hw : widen ⟨0, 0⟩ t = ⟨t.1, t.2⟩ := by simp [widen]
    simp only [List.foldl_cons, hw, List.map_cons, List.min?_cons', List.max?_cons', Option.getD_some]
    rw [← foldl_widen_start ts ⟨t.1, t.2⟩ (fun t' h' => (hall t' h').1) ht.1,
      ← foldl_widen_end ts ⟨t.1, t.2⟩ (fun t' h' => (hall t' h').2) ht.2]

end TimeRange

/-! ### Runs -/

/-- A call a field store receives. -/
inductive Call
  | write (f : PbField) (ctx : WriteContext)
  | flushFieldTo (familyTime : Int)

/-- The field store after a call. -/
def apply [Block B] (fs : FieldStore B) : Call → FieldStore B
  | .write f ctx => (fs.write f ctx).1
  | .flushFieldTo ft => (fs.flushFieldTo ft).1

section Runs
variable [Block B]

theorem apply_increasing {fs : FieldStore B} (h : Increasing fs.sStoreNodes) : ∀ c, Increasing (fs.apply c).sStoreNodes
  | .write _ _ => write_increasing h
  | .flushFieldTo ft => by
    rw [apply, flushFieldTo_nodes h]
    exact List.Sorted.filter _ h

theorem run_increasing : ∀ (calls : List Call) {fs : FieldStore B}, Increasing fs.sStoreNodes →
    Increasing (calls.foldl apply fs).sStoreNodes
  | [], _, h => h
  | c :: calls, _, h => run_increasing calls (apply_increasing h c)

/-- After any calls from `newFieldStore` the field store is a finite map that `Write` and `FlushFieldTo`
    update at one family. -/
theorem run_finite_map (fieldID : Nat) (calls : List Call) :
    let fs := calls.foldl apply (newFieldStore fieldID : FieldStore B)
    Increasing fs.sStoreNodes ∧
    (∀ ft s, fs.getSStore ft = some s ↔ s ∈ fs.sStoreNodes ∧ s.familyTime = ft) ∧
    (∀ f v ctx, f.field = .sum v → fs.getSStore ctx.familyTime = none →
      ∃ l₁ l₂ s, fs.sStoreNodes = l₁ ++ l₂ ∧ (fs.write f ctx).1.sStoreNodes = l₁ ++ s :: l₂ ∧
        s.familyTime = ctx.familyTime) ∧
    (∀ f ctx, (∀ v, f.field ≠ .sum v) → (fs.write f ctx).1 = fs) ∧
    ∀ ft, (fs.flushFieldTo ft).1.sStoreNodes = fs.sStoreNodes.filter (fun s => s.familyTime ≠ ft) ∧
      ((fs.flushFieldTo ft).2.2 ≠ [] → fs.hasFamily ft = true) := by
  intro fs
  have h : Increasing fs.sStoreNodes := run_increasing calls List.sorted_nil
  refine ⟨h, fun _ _ => getSStore_eq_some_iff h, fun _ _ _ hf hg => (write_sum_new_spec h hf hg).2,
    fun _ _ hf => by rw [write_of_not_sum hf], fun ft => ⟨flushFieldTo_nodes h ft, fun hc => ?_⟩⟩
  rcases flushFieldTo_calls fs ft with h0 | ⟨s, -, hs, -⟩
  · exact absurd h0 hc
  · obtain ⟨hmem, hft⟩ := getSStore_mem hs
    exact List.any_eq_true.mpr ⟨s, hmem, by simp [hft]⟩

end Runs

end FieldStore

namespace Sample
open FieldStore

/-- A block of eight bytes a point whose `Bytes(true)` hands its buffer back to the pool, leaving it empty. -/
structure PooledBlock where
  points : Nat
  deriving DecidableEq

instance pooledBlock : Block PooledBlock where
  empty := ⟨0⟩
  writeFloat b _ _ _ := (⟨b.points + 1⟩, 8)
  bytes _ := (.ok [], ⟨0⟩)
  slotRange b := if b.points = 0 then .error "empty" else .ok (0, 0)
  memSize b := 8 * (b.points : Int)
  growslice cap n := max n (2 * cap)

theorem pooledBlock_writeExact : WriteExact PooledBlock := fun s _ _ => by
  show (8 : Int) = 8 * ((s.block.points + 1 : Nat) : Int) - 8 * (s.block.points : Int)
  omega

/-- Field 1 after one Sum point in slot 0 of family 100. -/
def writtenFieldStore : FieldStore PooledBlock := ((newFieldStore 1).write ⟨"f", .sum 1⟩ ⟨1, 100, 0, 10⟩).1

/-- `FlushFieldTo` reports the flushed segment's size after `Bytes(true)` has emptied it: `0`, while
    `MemSize()` falls by the segment's 8 bytes, although every `WriteFloat` reports exactly. -/
theorem flushFieldTo_reports_emptied_size :
    WriteExact PooledBlock ∧ (writtenFieldStore.flushFieldTo 100).2.1 = 0 ∧
      writtenFieldStore.memSize - (writtenFieldStore.flushFieldTo 100).1.memSize = 8 :=
  ⟨pooledBlock_writeExact, by decide, by decide⟩

/-- Field 1 after Sum points in slot 0 of families 100 and 0. -/
def twoFamilies : FieldStore PooledBlock := (writtenFieldStore.write ⟨"f", .sum 1⟩ ⟨1, 0, 0, 10⟩).1

/-- The segment of family 0 starts at time 0, the least start, but `TimeRange` reads that `0` as unset and
    reports the next segment's start. -/
theorem timeRange_zero_start_overwritten :
    twoFamilies.slotTimes 10 = [(0, 0), (100, 100)] ∧ twoFamilies.timeRange 10 = (⟨100, 100⟩, true) :=
  ⟨by decide, by decide⟩

/-- Field 1 after Sum points of families 200, 100 and 300, in that order. -/
def threeFamilies : FieldStore PooledBlock :=
  [200, 100, 300].foldl (fun fs ft => (fs.write ⟨"f", .sum 1⟩ ⟨1, ft, 0, 10⟩).1) (newFieldStore 1)

theorem timeRange_bounds_written : (∀ t ∈ threeFamilies.slotTimes 10, t.1 ≠ 0 ∧ t.2 ≠ 0) ∧
    threeFamilies.timeRange 10 = (⟨100, 300⟩, true) :=
  ⟨by decide, (timeRange_bounds _ _ (by decide)).trans (by decide)⟩

end Sample

end Lindb.Memdb

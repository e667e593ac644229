import Lindb.Theorems.Database

/-! `FlushForwardIndexTo` (§6) as a stream that `decodeForward` reads back into each metric store's id and
    indexes, in bucket order, up to the store whose `FlushMetricID` failed. -/

namespace Lindb.Memdb

variable {B : Type}

/-- What a reader of the forward-index stream rebuilds of one index. -/
structure ForwardIndex where
  entrySets : List TagKVEntrySet
  version : Int
  timeRange : TimeRange
  deriving DecidableEq, Repr

/-- A reader of the forward-index stream: values gather until their key, entry sets until a version,
    indexes until a metric id. -/
def decodeForward : List ForwardCall → List (String × List Nat) → List TagKVEntrySet → List ForwardIndex →
    List (Nat × List ForwardIndex) → Option (List (Nat × List ForwardIndex))
  | [], [], [], [], stores => some stores
  | [], _, _, _, _ => none
  | .flushTagValue value bitmap :: cs, values, sets, indexes, stores =>
    decodeForward cs (values ++ [(value, bitmap)]) sets indexes stores
  | .flushTagKey key :: cs, values, sets, indexes, stores => decodeForward cs [] (sets ++ [⟨key, values⟩]) indexes stores
  | .flushVersion version timeRange :: cs, [], sets, indexes, stores =>
    decodeForward cs [] [] (indexes ++ [⟨sets, version, timeRange⟩]) stores
  | .flushVersion .. :: _, _ :: _, _, _, _ => none
  | .flushMetricID metricID :: cs, [], [], indexes, stores => decodeForward cs [] [] [] (stores ++ [(metricID, indexes)])
  | .flushMetricID .. :: _, _, _, _, _ => none

/-- An index as the forward-index stream carries it. -/
def TagIndex.forwardIndex (t : TagIndex B) : ForwardIndex := ⟨t.tagKVEntrySets, t.version, t.indexTimeRange⟩

/-- A metric store as the forward-index stream carries it: its id and the indexes a reader sees. -/
def MStore.forwardView (ms : MStore B) : Nat × List ForwardIndex := (ms.metricID, ms.tagIndexes.map TagIndex.forwardIndex)

section Chunks
variable (cs : List ForwardCall) (indexes : List ForwardIndex) (stores : List (Nat × List ForwardIndex))

theorem decodeForward_values : ∀ (vs values : List (String × List Nat)) (sets : List TagKVEntrySet),
    decodeForward (vs.map (fun v => ForwardCall.flushTagValue v.1 v.2) ++ cs) values sets indexes stores =
      decodeForward cs (values ++ vs) sets indexes stores
  | [], _, _ => by simp
  | v :: vs, values, sets => by
    rw [List.map_cons, List.cons_append, decodeForward, decodeForward_values vs, List.append_assoc,
      List.singleton_append]

theorem decodeForward_entrySets : ∀ (es sets : List TagKVEntrySet),
    decodeForward ((es.map fun e => e.values.map (fun v => ForwardCall.flushTagValue v.1 v.2) ++
      [.flushTagKey e.key]).flatten ++ cs) [] sets indexes stores = decodeForward cs [] (sets ++ es) indexes stores
  | [], _ => by simp
  | e :: es, sets => by
    rw [List.map_cons, List.flatten_cons, List.append_assoc, List.append_assoc, decodeForward_values, List.nil_append,
      List.singleton_append, decodeForward, decodeForward_entrySets es, List.append_assoc, List.singleton_append]

theorem decodeForward_index (t : TagIndex B) :
    decodeForward (MStore.flushForwardIndex t ++ cs) [] [] indexes stores =
      decodeForward cs [] [] (indexes ++ [t.forwardIndex]) stores := by
  rw [MStore.flushForwardIndex, List.append_assoc, decodeForward_entrySets, List.nil_append, List.singleton_append,
    decodeForward]
  rfl

end Chunks

section Stores

theorem decodeForward_flushForwardIndexTo (fl : ForwardFlusher) (ms : MStore B) (history cs : List ForwardCall)
    (stores : List (Nat × List ForwardIndex)) :
    decodeForward ((ms.flushForwardIndexTo fl history).1 ++ cs) [] [] [] stores =
      decodeForward cs [] [] [] (stores ++ [ms.forwardView]) := by
  simp only [MStore.flushForwardIndexTo, MStore.forwardView, MStore.tagIndexes]
  cases ms.atomicGetImmutable <;>
    simp only [List.append_nil, List.append_assoc, decodeForward_index, List.nil_append, List.singleton_append,
      decodeForward, Option.toList, List.map_cons, List.map_nil]

/-- One metric store of `FlushForwardIndexTo`'s loop: skipped after an error, else flushed after the calls
    so far. -/
def MemDB.forwardStep (fl : ForwardFlusher) (acc : List ForwardCall × Option Err) (x : UInt64 × MStore B) :
    List ForwardCall × Option Err :=
  match acc.2 with
  | some _ => acc
  | none => let r := x.2.flushForwardIndexTo fl acc.1; (acc.1 ++ r.1, r.2)

theorem MemDB.flushForwardIndexTo_eq (md : MemDB B) (fl : ForwardFlusher) :
    md.flushForwardIndexTo fl = md.entries.foldl (MemDB.forwardStep fl) ([], none) := rfl

theorem foldl_forwardStep_error (fl : ForwardFlusher) (calls : List ForwardCall) (e : Err) :
    ∀ xs : List (UInt64 × MStore B), xs.foldl (MemDB.forwardStep fl) (calls, some e) = (calls, some e)
  | [] => rfl
  | _ :: xs => foldl_forwardStep_error fl calls e xs

theorem foldl_forwardStep_cases (fl : ForwardFlusher) : ∀ (xs : List (UInt64 × MStore B)) (calls : List ForwardCall)
    (stores : List (Nat × List ForwardIndex)),
    (∀ cs, decodeForward (calls ++ cs) [] [] [] [] = decodeForward cs [] [] [] stores) →
    ((xs.foldl (MemDB.forwardStep fl) (calls, none)).2 = none ∧
        ∀ cs, decodeForward ((xs.foldl (MemDB.forwardStep fl) (calls, none)).1 ++ cs) [] [] [] [] =
          decodeForward cs [] [] [] (stores ++ xs.map (·.2.forwardView))) ∨
      ∃ pre x post e, xs = pre ++ x :: post ∧ (xs.foldl (MemDB.forwardStep fl) (calls, none)).2 = some (.flusher e) ∧
        fl.flushMetricID (xs.foldl (MemDB.forwardStep fl) (calls, none)).1.dropLast x.2.metricID = some e ∧
        ∀ cs, decodeForward ((xs.foldl (MemDB.forwardStep fl) (calls, none)).1 ++ cs) [] [] [] [] =
          decodeForward cs [] [] [] (stores ++ (pre ++ [x]).map (·.2.forwardView))
  | [], _, _, h => .inl ⟨rfl, by simpa using h⟩
  | x :: xs, calls, stores, h => by
    have h' : ∀ cs, decodeForward ((calls ++ (x.2.flushForwardIndexTo fl calls).1) ++ cs) [] [] [] [] =
        decodeForward cs [] [] [] (stores ++ [x.2.forwardView]) := fun cs => by
      rw [List.append_assoc, h, decodeForward_flushForwardIndexTo]
    have hstep : MemDB.forwardStep fl (calls, none) x =
        (calls ++ (x.2.flushForwardIndexTo fl calls).1, (x.2.flushForwardIndexTo fl calls).2) := rfl
    rw [List.foldl_cons, hstep]
    cases herr : (x.2.flushForwardIndexTo fl calls).2 with
    | some err =>
      -- the store's `FlushMetricID` failed: the loop skips the rest
      obtain ⟨e, he, rfl⟩ := Option.map_eq_some'.mp herr
      refine .inr ⟨[], x, xs, e, rfl, by rw [foldl_forwardStep_error], ?_, fun cs => by rw [foldl_forwardStep_error, h']; rfl⟩
      rw [foldl_forwardStep_error, MStore.flushForwardIndexTo, ← List.append_assoc, List.dropLast_concat]
      exact he
    | none =>
      rcases foldl_forwardStep_cases fl xs _ _ h' with ⟨hn, hk⟩ | ⟨pre, y, post, e, rfl, he, hy, hk⟩
      · exact .inl ⟨hn, fun cs => by rw [hk]; simp⟩
      · exact .inr ⟨x :: pre, y, post, e, rfl, he, hy, fun cs => by rw [hk]; simp⟩

/-- `decodeForward` rebuilds every store from the calls when the flush returns nil, else the stores up to
    the one whose `FlushMetricID` failed. -/
theorem MemDB.flushForwardIndexTo_decode (md : MemDB B) (fl : ForwardFlusher) :
    ((md.flushForwardIndexTo fl).2 = none ∧
        decodeForward (md.flushForwardIndexTo fl).1 [] [] [] [] = some (md.entries.map (·.2.forwardView))) ∨
      ∃ pre x post e, md.entries = pre ++ x :: post ∧ (md.flushForwardIndexTo fl).2 = some (.flusher e) ∧
        fl.flushMetricID (md.flushForwardIndexTo fl).1.dropLast x.2.metricID = some e ∧
        decodeForward (md.flushForwardIndexTo fl).1 [] [] [] [] = some ((pre ++ [x]).map (·.2.forwardView)) := by
  rw [MemDB.flushForwardIndexTo_eq]
  rcases foldl_forwardStep_cases fl md.entries [] [] fun cs => rfl with ⟨hn, hk⟩ | ⟨pre, x, post, e, hx, he, hfl, hk⟩
  · exact .inl ⟨hn, by simpa [decodeForward] using hk []⟩
  · exact .inr ⟨pre, x, post, e, hx, he, hfl, by simpa [decodeForward] using hk []⟩

end Stores

end Lindb.Memdb

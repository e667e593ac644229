import Lindb.Concurrent.Background

/-! Operations that do not overlap (§4.5, §5): calls started one after another, each run alone, behave as
    the sequential model runs them. -/

namespace Lindb.Memdb
namespace Concurrent

variable {B : Type}

/-- A call a thread of the model runs: `Write(metric)`, an evictor pass, or `setLimitations`. -/
inductive Call
  | write (metric : PbMetric) (now : Int)
  | evict (now : Int)
  | limit (limitations : List (String × Nat))

namespace Call

/-- The event that starts the call. -/
def start : Call → Event
  | .write metric now => .write metric now
  | .evict now => .evict now
  | .limit limitations => .limit limitations

/-- The call can start: an evictor pass once the last one ended, a `setLimitations` once the last one
    ended. -/
def CanStart (ts : List Thread) : Call → Prop
  | .write .. => True
  | .evict _ => ts.any Thread.isEvicting = false
  | .limit _ => ts.any Thread.isLimiting = false

/-- The call run to its end by the sequential model: the database a reader then sees, and the thread as
    it ends, with what a `Write` returned. -/
def seq [Block B] (cfg : Config) (md : MemDB B) : Call → MemDB B × Thread
  | .write metric now => ((md.write cfg metric now).1, .writer metric now (.done (md.write cfg metric now).2))
  | .evict now => (md.evict cfg now, .evictor now .done)
  | .limit limitations => (md.setLimitations cfg limitations, .limiter .done)

theorem seq_idle [Block B] (cfg : Config) (md : MemDB B) (c : Call) :
    (c.seq cfg md).2.isEvicting = false ∧ (c.seq cfg md).2.isLimiting = false := by
  cases c <;> exact ⟨rfl, rfl⟩

end Call

/-- The schedule that starts each call as the next thread, numbered from `k`, and gives it the steps of
    `ns` before the next call starts. -/
def serialSchedule : Nat → List Call → List Nat → List Event
  | k, c :: cs, n :: ns => c.start :: List.replicate n (.step k) ++ serialSchedule (k + 1) cs ns
  | _, _, _ => []

/-- The calls run one after the other by the sequential model: the database a reader sees after them,
    and the threads as they end. -/
def serialRun [Block B] (cfg : Config) : MemDB B → List Call → MemDB B × List Thread
  | md, [] => (md, [])
  | md, c :: cs => ((serialRun cfg (c.seq cfg md).1 cs).1, (c.seq cfg md).2 :: (serialRun cfg (c.seq cfg md).1 cs).2)

theorem run_append [Block B] (cfg : Config) :
    ∀ (sys : Sys B) (es es' : List Event), run cfg sys (es ++ es') = (run cfg sys es).bind fun sys' => run cfg sys' es'
  | _, [], _ => rfl
  | sys, e :: es, es' => by
    simp only [List.cons_append, run]
    cases sys.apply cfg e with
    | none => rfl
    | some sys₁ => exact run_append cfg sys₁ es es'

section Block
variable [Block B] {cfg : Config}

theorem Call.alone {sys : Sys B} (h : Reachable cfg sys) (c : Call) (hc : c.CanStart sys.threads) :
    ∃ n s', run cfg sys (c.start :: List.replicate n (.step sys.threads.length)) =
        some ⟨s', sys.threads ++ [(c.seq cfg sys.shared.toMemDB).2]⟩ ∧ s'.toMemDB = (c.seq cfg sys.shared.toMemDB).1 := by
  have hok := SharedOk.of_reachable h
  cases c with
  | write metric now =>
    obtain ⟨s', hr, hv⟩ := reaches_write hok metric now
    obtain ⟨n, hn⟩ := hr.solo.run sys.threads
    exact ⟨n, s', by simpa only [run, Sys.apply, Option.some_bind] using hn, hv⟩
  | evict now =>
    have hidle : sys.threads.any Thread.isEvicting = false := hc
    obtain ⟨s', hsolo, hview⟩ := solo_evictPass now _ [] sys.shared hok rfl
    obtain ⟨n, hn⟩ := hsolo.run sys.threads
    refine ⟨n, s', by simpa only [run, Sys.apply, Call.start, hidle, Bool.false_eq_true, if_false, Option.some_bind]
      using hn, ?_⟩
    rw [hview]
    rfl
  | limit limitations =>
    have hidle : sys.threads.any Thread.isLimiting = false := hc
    obtain ⟨s', hsolo, hview⟩ := solo_setLimitations limitations sys.shared hok
    obtain ⟨n, hn⟩ := hsolo.run sys.threads
    exact ⟨n, s', by simpa only [run, Sys.apply, Call.start, hidle, Bool.false_eq_true, if_false, Option.some_bind]
      using hn, hview⟩

/-- Calls run one after another from a reachable state end as the sequential model runs them. -/
theorem serial_refines {sys : Sys B} (h : Reachable cfg sys) (hevict : sys.threads.any Thread.isEvicting = false)
    (hlimit : sys.threads.any Thread.isLimiting = false) (cs : List Call) :
    ∃ ns s', ns.length = cs.length ∧
      run cfg sys (serialSchedule sys.threads.length cs ns) =
        some ⟨s', sys.threads ++ (serialRun cfg sys.shared.toMemDB cs).2⟩ ∧
      s'.toMemDB = (serialRun cfg sys.shared.toMemDB cs).1 := by
  induction cs generalizing sys with
  | nil => exact ⟨[], sys.shared, rfl, by simp [serialSchedule, run, serialRun], rfl⟩
  | cons c cs ih =>
    have hc : c.CanStart sys.threads := by cases c <;> simp [Call.CanStart, hevict, hlimit]
    obtain ⟨n, s₁, hrun₁, hview₁⟩ := Call.alone h c hc
    obtain ⟨hev, hlim⟩ := Call.seq_idle cfg sys.shared.toMemDB c
    obtain ⟨ns, s', hlen, hrun, hview⟩ := ih (h.run hrun₁) (by simp [hevict, hev]) (by simp [hlimit, hlim])
    rw [hview₁, List.length_append, List.length_singleton] at *
    refine ⟨n :: ns, s', by simp [hlen], ?_, hview⟩
    rw [serialSchedule, run_append, hrun₁, Option.some_bind, hrun, List.append_assoc]
    rfl

end Block

namespace Sample
open Memdb.Sample

/-- A `Write` of `cpu`, an evictor pass and a limit for `cpu`, each run alone in turn from
    `NewMemoryDatabase`. -/
theorem serial_refines_init :
    Reachable config (⟨Shared.init config, []⟩ : Sys Nat) ∧ ([] : List Thread).any Thread.isEvicting = false ∧
      ([] : List Thread).any Thread.isLimiting = false ∧
      ∃ ns s', ns.length = 3 ∧
        run config (⟨Shared.init config, []⟩ : Sys Nat)
            (serialSchedule 0 [.write (point "cpu" 100) 1, .evict 200, .limit [("cpu", 5)]] ns) =
          some ⟨s', (serialRun config (Shared.init config : Shared Nat).toMemDB
            [.write (point "cpu" 100) 1, .evict 200, .limit [("cpu", 5)]]).2⟩ ∧
        s'.toMemDB = (serialRun config (Shared.init config : Shared Nat).toMemDB
            [.write (point "cpu" 100) 1, .evict 200, .limit [("cpu", 5)]]).1 :=
  ⟨.init, rfl, rfl, serial_refines .init rfl rfl [.write (point "cpu" 100) 1, .evict 200, .limit [("cpu", 5)]]⟩

end Sample

end Concurrent
end Lindb.Memdb

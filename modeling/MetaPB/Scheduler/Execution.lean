import MetaPB.Executor.Completion
import MetaPB.Scheduler.Baselines
import MetaPB.Scheduler.BestOfThree
import MetaPB.Scheduler.GreedyScheduler
import MetaPB.Scheduler.RankOrder

/-! The schedulers and the pool together: what they return, and what is tried on the way
to it, is executed to its end by the threads when no ties in HEFT's ranks can put a task
before one it depends on. -/
namespace MetaPB.Scheduler
open Executor Operator Lib.Sorting Lib.Transition

/-- The schedules for a graph that are handed to a pool. -/
inductive Scheduled (om : PerfModel) (g : TaskGraph) : Schedule → Prop
  | heft {sort sched} (contract : StdSort sort) (returned : schedule sort om g = some sched) :
    Scheduled om g sched
  | proposed {sort alpha beta optIterMax m} (contract : StdSort sort)
    (made : MetaScheduler.construct sort om alpha beta optIterMax g = some m) (size : Nat)
    (ratioVec : List ℚ) : Scheduled om g (m.proposedSchedule size ratioVec)
  | best {sort alpha beta optIterMax m t sched optInfo} (contract : StdSort sort)
    (made : MetaScheduler.construct sort om alpha beta optIterMax g = some m)
    (returned : MetaScheduler.schedule m t = some (sched,optInfo)) : Scheduled om g sched
  | greedy {order} (orders : g.Orders order) (sorted : g.Topological order) :
    Scheduled om g (GreedyScheduler.schedule order g)
  | cpuOnly {order} (orders : g.Orders order) (sorted : g.Topological order) :
    Scheduled om g (CPUOnlyScheduler.schedule order)
  | dpuOnly {order sched} (orders : g.Orders order) (sorted : g.Topological order)
    (returned : DPUOnlyScheduler.schedule order = some sched) : Scheduled om g sched

section Order
variable {om : PerfModel} {g : TaskGraph} {sort : (Nat → Nat → Bool) → List Nat → List Nat}

theorem heft_ordered (nonneg : om.Nonneg) (acyclic : g.Acyclic) (contract : StdSort sort) :
    ∃ sched, schedule sort om g = some sched ∧ g.Orders sched.order ∧
      ((∀ tn, ¬ FreeInner om g tn) → g.Topological sched.order) := by
  obtain ⟨table,filled,ranked,all⟩ :=
    exactRanks_spec (initialInfo_nonneg nonneg) acyclic (fun _ => rfl)
  have sorted := contract (byRank table) (List.range g.numVertices) (byRank_strictWeak table)
  obtain ⟨sched,returned,order⟩ := scheduleIn_returns filled sort
  refine ⟨sched,returned,?_,?_⟩
  · rw [order]
    exact sorted.perm
  intro costly
  rw [order]
  exact sorted_topological (initialInfo_nonneg nonneg) acyclic ranked all costly sorted

theorem construct_order {alpha beta : ℚ} {optIterMax : Nat} {m : MetaScheduler}
    (made : MetaScheduler.construct sort om alpha beta optIterMax g = some m) :
    ∃ heSchedule, schedule sort om g = some heSchedule ∧ m.heftOrder = heSchedule.order := by
  rw [MetaScheduler.construct] at made
  split at made
  next =>
    obtain ⟨heSchedule,heft,rfl⟩ := Option.map_eq_some_iff.mp made
    exact ⟨heSchedule,heft,rfl⟩
  next => contradiction

theorem scheduled_sorted (nonneg : om.Nonneg) (acyclic : g.Acyclic) (costly : ∀ tn, ¬ FreeInner om g tn)
    {sched : Schedule} (scheduled : Scheduled om g sched) :
    g.Orders sched.order ∧ g.Topological sched.order := by
  have heft {sort : (Nat → Nat → Bool) → List Nat → List Nat} {result : Schedule} (contract : StdSort sort)
      (returned : schedule sort om g = some result) :
      g.Orders result.order ∧ g.Topological result.order := by
    obtain ⟨one,same,ordered,sorted⟩ := heft_ordered nonneg acyclic contract
    rw [Option.some.inj (returned.symm.trans same)]
    exact ⟨ordered,sorted costly⟩
  cases scheduled with
  | heft contract returned => exact heft contract returned
  | @proposed _ _ _ _ m contract made size ratioVec =>
    obtain ⟨heSchedule,returned,order⟩ := construct_order made
    have same : (m.proposedSchedule size ratioVec).order = heSchedule.order := order
    rw [same]
    exact heft contract returned
  | best contract made returned =>
    obtain ⟨heSchedule,ordered,order⟩ := construct_order made
    rw [(MetaScheduler.schedule_returned returned).1,order]
    exact heft contract ordered
  | greedy orders sorted => exact ⟨orders,sorted⟩
  | cpuOnly orders sorted => exact ⟨orders,sorted⟩
  | dpuOnly orders sorted returned =>
    obtain ⟨_,-,rfl⟩ := Option.map_eq_some_iff.mp returned
    exact ⟨orders,sorted⟩

theorem finishes_of_costly (nonneg : om.Nonneg) (acyclic : g.Acyclic) (costly : ∀ tn, ¬ FreeInner om g tn)
    (heapBasePtr : Nat) (eT : ExecType) {sched : Schedule} (scheduled : Scheduled om g sched) :
    ThreadsFinish om heapBasePtr g sched eT := by
  obtain ⟨orders,sorted⟩ := scheduled_sorted nonneg acyclic costly scheduled
  exact finishes_of_topological om heapBasePtr eT orders sorted

/-- Ties in HEFT's ranks let some sort put a successor first, on which the threads wait forever. -/
theorem exists_unfinished (nonneg : om.Nonneg) (acyclic : g.Acyclic) {u : Nat} (free : FreeInner om g u)
    (heapBasePtr : Nat) (eT : ExecType) :
    ∃ sched, Scheduled om g sched ∧ ¬ ThreadsFinish om heapBasePtr g sched eT := by
  obtain ⟨sort,contract,unsorted⟩ := exists_unsorted nonneg acyclic free
  obtain ⟨result,returned,orders,-⟩ := heft_ordered nonneg acyclic contract
  refine ⟨result,.heft contract returned,fun finishes => ?_⟩
  obtain ⟨more,final,-,ran,joined⟩ := finishes [] _ rfl
  exact unsorted result returned (topological_of_joined orders ran joined)

/-- The pool finishes every schedule of every scheduler, from wherever its threads are, exactly when
no vertex other than the entry is free and has a successor. -/
theorem scheduled_finishes_iff (om : PerfModel) (g : TaskGraph) (nonneg : om.Nonneg) (acyclic : g.Acyclic)
    (heapBasePtr : Nat) (eT : ExecType) :
    (∀ sched, Scheduled om g sched → ThreadsFinish om heapBasePtr g sched eT) ↔ ∀ tn, ¬ FreeInner om g tn := by
  constructor
  · intro every u free
    obtain ⟨sched,scheduled,stuck⟩ := exists_unfinished nonneg acyclic free heapBasePtr eT
    exact stuck (every sched scheduled)
  · intro costly sched scheduled
    exact finishes_of_costly nonneg acyclic costly heapBasePtr eT scheduled

theorem scheduled_finishes_iff_chain :
    ThreadsFinish chainPerf 0 chain (GreedyScheduler.schedule [0,1,2] chain) .MIMIC ∧
      ThreadsFinish chainPerf 0 chain (CPUOnlyScheduler.schedule [0,1,2]) .MIMIC := by
  have sorted : chain.Topological [0,1,2] := by decide
  have orders : chain.Orders [0,1,2] := by decide
  have all := (scheduled_finishes_iff chainPerf chain chainPerf_nonneg sorted.acyclic 0 .MIMIC).mpr (by
    intro tn found
    obtain ⟨inner,successors,free⟩ := found
    rcases tn with _ | _ | tn
    · exact inner rfl
    · norm_num [initialInfo,chainPerf,chain,TaskGraph.properties] at free
    · have childless : chain.successors (tn + 2) = [] := by simp [TaskGraph.successors,TaskGraph.outEdges,chain]
      exact successors childless)
  exact ⟨all _ (.greedy orders sorted),all _ (.cpuOnly orders sorted)⟩

end Order
end MetaPB.Scheduler

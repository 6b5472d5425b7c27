import MetaPB.Executor.Sensitivity
import MetaPB.Executor.TransferPlan
import MetaPB.Executor.DataMovement
import MetaPB.Workloads.EntryExit

/-! The two baselines: everything on the CPU, and everything but the last task on the DPUs. With
all costs on one device nothing overlaps and no interleaving matters, so the pool returns the sum
of what the model answers, task by task. -/
namespace MetaPB.Scheduler
open Executor Operator Utils Workloads Lib.Loop Lib.Word

namespace CPUOnlyScheduler

-- `order` is what `topoSort` returns
def schedule (order : List Nat) : Schedule where
  isAlwaysWrittingBack := true
  order := order
  offloadRatio := List.replicate order.length 0

end CPUOnlyScheduler
namespace DPUOnlyScheduler

-- the last ratio is written, and there is none without tasks
def schedule (order : List Nat) : Option Schedule :=
  (write (List.replicate order.length 1) (order.length - 1) 0).map fun offloadRatio =>
    { isAlwaysWrittingBack := true, order := order, offloadRatio := offloadRatio }

end DPUOnlyScheduler

section Subtasks
variable {om : PerfModel} {heapBasePtr : Nat} {g : TaskGraph} {sched : Schedule} {task : Nat}

theorem subtaskPerf_eq (member : task ∈ sched.order) (worker : Worker) :
    subtaskPerf om heapBasePtr g sched (worker,task) =
      let plan := planTask g sched (sched.order.idxOf task)
      let op := (g.properties task).op
      match worker with
      | .cpu => perf om .cpu op plan.cpuPageBlkCnt
      | .dpu => perf om .dpu op plan.dpuPageBlkCnt
      | .map => if isLogic op then {} else perf om .map .MAP plan.mapPageBlkCnt
      | .reduce => if isLogic op then {} else perf om .reduce .REDUCE plan.reducePageBlkCnt := by
  have named : (planTask g sched (sched.order.idxOf task)).taskId = task := taskAt_idxOf member
  cases worker with
  | cpu => simp [subtaskPerf,plannedSubtask,plannedTask,genComputeTask,Closure.perf,named,memPlan]
  | dpu => simp [subtaskPerf,plannedSubtask,plannedTask,genComputeTask,Closure.perf,named,memPlan]
  | map =>
    simp only [subtaskPerf,plannedSubtask,plannedTask,genXferTask,named,memPlan]
    split <;> rfl
  | reduce =>
    simp only [subtaskPerf,plannedSubtask,plannedTask,genXferTask,named,memPlan]
    split <;> rfl

theorem perf_zero (om : PerfModel) (worker : Worker) (opTag : OperatorTag) : perf om worker opTag 0 = {} := rfl

theorem sum_subtasks (n : Nat) (value : Subtask → ℚ) :
    ((subtasks n).map value).sum = ((List.range n).map fun task =>
      value (.cpu,task) + value (.dpu,task) + value (.map,task) + value (.reduce,task)).sum := by
  simp only [subtasks,List.flatMap_cons,List.flatMap_nil,List.append_nil,List.map_append,List.sum_append,
    List.map_map,List.sum_map_add,Function.comp_def]
  ring

/-- Forced write-back: a task that is on the DPUs at all is reduced as a whole. -/
theorem planTask_writesBack (always : sched.isAlwaysWrittingBack = true) (i : Nat) :
    let size := (g.properties (sched.taskAt i)).inputSizeMiB
    (planTask g sched i).reducePageBlkCnt = getNearestPageBlkCnt (if sched.ratioAt i = 0 then 0 else size) ∧
      (planTask g sched i).mapPageBlkCnt =
        getNearestPageBlkCnt (truncate64 ((succBounds (successorRatios g sched i)).1 * size)) := by
  have reduced : (planTask g sched i).reducePageBlkCnt = getNearestPageBlkCnt
      (transferWork sched.isAlwaysWrittingBack (sched.ratioAt i) (succBounds (successorRatios g sched i)).1
        (succBounds (successorRatios g sched i)).2 (g.properties (sched.taskAt i)).inputSizeMiB).1 := rfl
  have mapped : (planTask g sched i).mapPageBlkCnt = getNearestPageBlkCnt
      (transferWork sched.isAlwaysWrittingBack (sched.ratioAt i) (succBounds (successorRatios g sched i)).1
        (succBounds (successorRatios g sched i)).2 (g.properties (sched.taskAt i)).inputSizeMiB).2 := rfl
  rw [reduced,mapped,always]
  exact ⟨rfl,rfl⟩

theorem succBounds_binary {ratios : List ℚ} (each : ∀ ratio ∈ ratios, ratio = 0 ∨ ratio = 1) :
    (succBounds ratios).1 = if 1 ∈ ratios then 1 else 0 := by
  split
  next offloaded =>
    refine succBounds_greatest zero_le_one ⟨offloaded,?_⟩
    intro ratio member
    rcases each ratio member with rfl | rfl
    · exact zero_le_one
    · exact le_rfl
  next absent =>
    have zero (ratio : ℚ) (member : ratio ∈ ratios) : ratio = 0 :=
      (each ratio member).resolve_right fun one => absent (one ▸ member)
    cases ratios with
    | nil => rfl
    | cons ratio rest =>
      obtain rfl := zero ratio (by simp)
      exact succBounds_greatest le_rfl ⟨by simp,fun other member => (zero other member).le⟩

theorem mem_successorRatios {i : Nat} {ratio : ℚ} :
    ratio ∈ successorRatios g sched i ↔ ∃ succ, g.Linked (sched.taskAt i) succ ∧ ratio = sched.ratioAt succ := by
  constructor
  · intro member
    obtain ⟨⟨succ,_⟩,listed,rfl⟩ := List.mem_map.mp member
    exact ⟨succ,(mem_succOffloadRatio i succ _).mp listed⟩
  · intro found
    obtain ⟨succ,linked,rfl⟩ := found
    exact List.mem_map.mpr ⟨(succ,sched.ratioAt succ),(mem_succOffloadRatio i succ _).mpr ⟨linked,rfl⟩,rfl⟩

end Subtasks
section CPUOnly
variable {om : PerfModel} {heapBasePtr : Nat} {g : TaskGraph} {order : List Nat}

theorem cpuOnly_ratioAt (order : List Nat) (i : Nat) : (CPUOnlyScheduler.schedule order).ratioAt i = 0 := by
  rw [CPUOnlyScheduler.schedule,Schedule.ratioAt,List.getD_eq_getElem?_getD,List.getElem?_replicate]
  split <;> rfl

theorem cpuOnly_plan (g : TaskGraph) (order : List Nat) (i : Nat) :
    let plan := planTask g (CPUOnlyScheduler.schedule order) i
    plan.cpuPageBlkCnt = plan.totalPageBlkCnt ∧ plan.dpuPageBlkCnt = 0 ∧ plan.mapPageBlkCnt = 0 ∧
      plan.reducePageBlkCnt = 0 := by
  obtain ⟨cpu,dpu⟩ := planTask_onCPU (g := g) (cpuOnly_ratioAt order i)
  obtain ⟨reduce,map⟩ := planTask_writesBack (g := g)
    (rfl : (CPUOnlyScheduler.schedule order).isAlwaysWrittingBack = true) i
  have kept : (succBounds (successorRatios g (CPUOnlyScheduler.schedule order) i)).1 = 0 := by
    have each (ratio : ℚ) (member : ratio ∈ successorRatios g (CPUOnlyScheduler.schedule order) i) :
        ratio = 0 := by
      obtain ⟨succ,-,rfl⟩ := mem_successorRatios.mp member
      exact cpuOnly_ratioAt order succ
    rw [succBounds_binary fun ratio member => Or.inl (each ratio member)]
    exact if_neg fun one => zero_ne_one (each 1 one).symm
  rw [kept,truncate64_zero_mul] at map
  rw [cpuOnly_ratioAt,if_pos rfl] at reduce
  exact ⟨cpu,dpu,map,reduce⟩

theorem cpuOnly_subtaskPerf {task : Nat} (member : task ∈ order) (worker : Worker) :
    subtaskPerf om heapBasePtr g (CPUOnlyScheduler.schedule order) (worker,task) =
      if worker = .cpu then perf om .cpu (g.properties task).op (totalPageBlkCnt (g.properties task)) else {} := by
  have named : (planTask g (CPUOnlyScheduler.schedule order)
      ((CPUOnlyScheduler.schedule order).order.idxOf task)).taskId = task := taskAt_idxOf member
  obtain ⟨cpu,dpu,map,reduce⟩ := cpuOnly_plan g order (order.idxOf task)
  have total : (planTask g (CPUOnlyScheduler.schedule order) (order.idxOf task)).totalPageBlkCnt =
      totalPageBlkCnt (g.properties task) := congrArg (fun id => totalPageBlkCnt (g.properties id)) named
  have position : (CPUOnlyScheduler.schedule order).order.idxOf task = order.idxOf task := rfl
  rw [subtaskPerf_eq member,position]
  cases worker with
  | cpu => simp only [cpu,total,if_true]
  | dpu => simp only [dpu,perf_zero,reduceCtorEq,if_false]
  | map => simp only [map,perf_zero,ite_self,reduceCtorEq,if_false]
  | reduce => simp only [reduce,perf_zero,ite_self,reduceCtorEq,if_false]

/-- Everything on the CPU: a complete run takes the sum of the CPU's times and energies, and moves
nothing, whatever the interleaving. -/
theorem cpuOnly_execWorkload (nonneg : om.Nonneg) (orders : g.Orders order) (events : List Event)
    (stats : PerfStats)
    (returned : execWorkload om heapBasePtr g (CPUOnlyScheduler.schedule order) events = some stats) :
    let answer := fun task => perf om .cpu (g.properties task).op (totalPageBlkCnt (g.properties task))
    stats.timeCostSecond = ((List.range g.numVertices).map fun task => (answer task).timeCostSecond).sum ∧
      stats.energyCostJoule = ((List.range g.numVertices).map fun task => (answer task).energyCostJoule).sum ∧
      stats.dataMovementMiB = 0 := by
  intro answer
  have priced (worker : Worker) {task : Nat} (inside : task < g.numVertices) :
      subtaskPerf om heapBasePtr g (CPUOnlyScheduler.schedule order) (worker,task) =
        if worker = .cpu then answer task else {} :=
    cpuOnly_subtaskPerf ((orders.mem_iff task).mpr inside) worker
  refine ⟨?_,?_,?_⟩
  · rw [execWorkload_alone .cpu nonneg orders returned,sum_subtasks]
    · congr 1
      apply List.map_congr_left
      intro task member
      simp [priced _ (List.mem_range.mp member)]
    · intro subtask inside elsewhere
      obtain ⟨worker,task⟩ := subtask
      rw [priced worker inside,if_neg]
      rintro rfl
      exact elsewhere rfl
  · rw [execWorkload_energy nonneg orders returned,sum_subtasks]
    congr 1
    apply List.map_congr_left
    intro task member
    simp [priced _ (List.mem_range.mp member)]
  · have reported := execWorkload_dataMovement heapBasePtr g (CPUOnlyScheduler.schedule order) om events
    rw [returned,Option.map_some] at reported
    rw [reportedMovementMiB_eq_some heapBasePtr g _ .MIMIC reported.symm]
    apply Finset.sum_eq_zero
    intro i _
    obtain ⟨-,-,map,reduce⟩ := cpuOnly_plan g order i
    have unmoved : movedBytes g (CPUOnlyScheduler.schedule order) i = 0 := by
      simp [movedBytes,xferPageBlkCnt,map,reduce]
    rw [plannedMovement_eq,unmoved,wrap32,Nat.zero_mod,Nat.zero_div,Nat.cast_zero]

theorem cpuOnly_execWorkload_chain : ∃ stats,
    execWorkload chainPerf 0 chain (CPUOnlyScheduler.schedule [0,1,2])
      (chainRun [(.cpu,1),(.dpu,1),(.map,1),(.reduce,1)]) = some stats ∧ stats.timeCostSecond = 10 := by
  obtain ⟨stats,returned⟩ := Option.isSome_iff_exists.mp (by decide +kernel :
    (execWorkload chainPerf 0 chain (CPUOnlyScheduler.schedule [0,1,2])
      (chainRun [(.cpu,1),(.dpu,1),(.map,1),(.reduce,1)])).isSome = true)
  refine ⟨stats,returned,?_⟩
  rw [(cpuOnly_execWorkload chainPerf_nonneg (by decide) _ stats returned).1]
  decide +kernel

end CPUOnly
section DPUOnly
variable {om : PerfModel} {heapBasePtr : Nat} {g : TaskGraph} {order : List Nat} {sched : Schedule}

theorem dpuOnly_schedule (scheduled : DPUOnlyScheduler.schedule order = some sched) :
    0 < order.length ∧ sched.isAlwaysWrittingBack = true ∧ sched.order = order ∧
      ∀ i, sched.ratioAt i = if i + 1 < order.length then 1 else 0 := by
  obtain ⟨ratios,written,rfl⟩ := Option.map_eq_some_iff.mp scheduled
  obtain ⟨inside,rfl⟩ := write_eq_some.mp written
  rw [List.length_replicate] at inside
  refine ⟨by omega,rfl,rfl,?_⟩
  intro i
  simp only [Schedule.ratioAt,List.getD_eq_getElem?_getD,List.getElem?_set,List.length_replicate,
    List.getElem?_replicate]
  rcases Nat.lt_trichotomy (i + 1) order.length with inner | last | beyond
  · rw [if_neg (by omega),if_pos (by omega),if_pos inner]
    rfl
  · rw [if_pos (by omega),if_pos (by omega),if_neg (by omega)]
    rfl
  · rw [if_neg (by omega),if_neg (by omega),if_neg (by omega)]
    rfl

/-- Every order that respects the edges ends with the exit. -/
theorem exit_last (workload : EntryExit g) (orders : g.Orders order) (topological : g.Topological order)
    (filled : 0 < order.length) : order.idxOf (g.numVertices - 1) + 1 = order.length := by
  have size := orders.length
  have exit : g.numVertices - 1 ∈ order := (orders.mem_iff _).mpr (by omega)
  have inside := List.idxOf_lt_length_of_mem exit
  set last := order[order.length - 1] with named
  have lastMember : last ∈ order := List.getElem_mem _
  have position : order.idxOf last = order.length - 1 := orders.nodup.idxOf_getElem _ _
  rcases Relation.reflTransGen_iff_eq_or_transGen.mp
      (workload.between last ((orders.mem_iff last).mp lastMember)).2 with same | path
  · rw [same,position]
    omega
  · have before := topological.ancestor path
    omega

/-- Blocks mapped for a task: all of them where some successor is not the exit. -/
def mappedBlocks (g : TaskGraph) (task : Nat) : Nat :=
  if ∃ succ ∈ g.successors task, succ ≠ g.numVertices - 1 then totalPageBlkCnt (g.properties task) else 0

/-- What a task costs off the CPU: its own work and, unless it is logical, both transfers. -/
def offloaded (om : PerfModel) (g : TaskGraph) (value : PerfStats → ℚ) (task : Nat) : ℚ :=
  let tp := g.properties task
  let blocks := totalPageBlkCnt tp
  value (perf om .dpu tp.op blocks) + if isLogic tp.op then 0
    else value (perf om .map .MAP (mappedBlocks g task)) + value (perf om .reduce .REDUCE blocks)

theorem dpuOnly_omax (ratios : ∀ i, sched.ratioAt i = if i + 1 < order.length then 1 else 0)
    (count : order.length = g.numVertices) (i : Nat) :
    (succBounds (successorRatios g sched i)).1 =
      if ∃ succ ∈ g.successors (sched.taskAt i), succ ≠ g.numVertices - 1 then 1 else 0 := by
  have each (ratio : ℚ) (member : ratio ∈ successorRatios g sched i) : ratio = 0 ∨ ratio = 1 := by
    obtain ⟨succ,-,rfl⟩ := mem_successorRatios.mp member
    rw [ratios]
    split
    · exact Or.inr rfl
    · exact Or.inl rfl
  rw [succBounds_binary each]
  refine if_congr ?_ rfl rfl
  rw [mem_successorRatios]
  constructor
  · intro found
    obtain ⟨succ,linked,one⟩ := found
    refine ⟨succ,(g.mem_successors _ _).mpr linked,?_⟩
    rw [ratios] at one
    split at one
    next inner => omega
    next => exact absurd one one_ne_zero
  · intro found
    obtain ⟨succ,member,inner⟩ := found
    have linked := (g.mem_successors _ _).mp member
    have bound := linked.bounds.2
    exact ⟨succ,linked,by rw [ratios,if_pos (by omega)]⟩

theorem dpuOnly_exit (scheduled : DPUOnlyScheduler.schedule order = some sched) (workload : EntryExit g)
    (orders : g.Orders order) (topological : g.Topological order) (worker : Worker) :
    subtaskPerf om heapBasePtr g sched (worker,g.numVertices - 1) =
      if worker = .cpu then
        perf om .cpu .LOGIC_END (totalPageBlkCnt (g.properties (g.numVertices - 1)))
      else {} := by
  obtain ⟨filled,-,rfl,ratios⟩ := dpuOnly_schedule scheduled
  have last := exit_last workload orders topological filled
  have member : g.numVertices - 1 ∈ sched.order := (orders.mem_iff _).mpr (by have := orders.length; omega)
  have onCPU : sched.ratioAt (sched.order.idxOf (g.numVertices - 1)) = 0 := by
    rw [ratios,if_neg (by omega)]
  obtain ⟨cpu,dpu⟩ := planTask_onCPU (g := g) onCPU
  have total : (planTask g sched (sched.order.idxOf (g.numVertices - 1))).totalPageBlkCnt =
      totalPageBlkCnt (g.properties (g.numVertices - 1)) :=
    congrArg (fun id => totalPageBlkCnt (g.properties id)) (taskAt_idxOf member)
  rw [subtaskPerf_eq member,workload.exit]
  cases worker with
  | cpu => simp only [cpu,total,if_true]
  | dpu => simp only [dpu,perf_zero,reduceCtorEq,if_false]
  | map => simp [isLogic]
  | reduce => simp [isLogic]

theorem dpuOnly_subtaskPerf (scheduled : DPUOnlyScheduler.schedule order = some sched)
    (workload : EntryExit g) (orders : g.Orders order) (topological : g.Topological order) {task : Nat}
    (inner : task < g.numVertices - 1) (size : (g.properties task).inputSizeMiB < 2^64) (worker : Worker) :
    subtaskPerf om heapBasePtr g sched (worker,task) =
      let op := (g.properties task).op
      let blocks := totalPageBlkCnt (g.properties task)
      match worker with
      | .cpu => {}
      | .dpu => perf om .dpu op blocks
      | .map => if isLogic op then {} else perf om .map .MAP (mappedBlocks g task)
      | .reduce => if isLogic op then {} else perf om .reduce .REDUCE blocks := by
  obtain ⟨filled,always,rfl,ratios⟩ := dpuOnly_schedule scheduled
  have last := exit_last workload orders topological filled
  have count := orders.length
  have member : task ∈ sched.order := (orders.mem_iff _).mpr (by omega)
  have named : sched.taskAt (sched.order.idxOf task) = task := taskAt_idxOf member
  have position : sched.order.idxOf task + 1 < sched.order.length := by
    have inside := List.idxOf_lt_length_of_mem member
    have apart : sched.order.idxOf task ≠ sched.order.idxOf (g.numVertices - 1) := by
      intro same
      exact inner.ne ((List.idxOf_inj member).mp same)
    omega
  have onDPU : sched.ratioAt (sched.order.idxOf task) = 1 := by rw [ratios,if_pos position]
  obtain ⟨cpu,dpu⟩ := planTask_onDPU (g := g) onDPU
  obtain ⟨reduce,map⟩ := planTask_writesBack (g := g) always (sched.order.idxOf task)
  have total : (planTask g sched (sched.order.idxOf task)).totalPageBlkCnt =
      totalPageBlkCnt (g.properties task) := congrArg (fun id => totalPageBlkCnt (g.properties id)) named
  rw [named,onDPU,if_neg one_ne_zero] at reduce
  rw [named,dpuOnly_omax ratios count (sched.order.idxOf task),named] at map
  have whole : getNearestPageBlkCnt (g.properties task).inputSizeMiB = totalPageBlkCnt (g.properties task) := rfl
  have mapped : (planTask g sched (sched.order.idxOf task)).mapPageBlkCnt = mappedBlocks g task := by
    rw [map,mappedBlocks]
    split
    · rw [one_mul,truncate64,Nat.floor_natCast,wrap64_of_lt size,whole]
    · rw [truncate64_zero_mul]
      rfl
  rw [whole] at reduce
  rw [subtaskPerf_eq member]
  cases worker with
  | cpu => simp only [cpu,perf_zero]
  | dpu => simp only [dpu,total]
  | map => simp only [mapped]
  | reduce => simp only [reduce]

theorem dpuOnly_sum (scheduled : DPUOnlyScheduler.schedule order = some sched) (workload : EntryExit g)
    (sizes : ∀ task < g.numVertices, (g.properties task).inputSizeMiB < 2^64) (orders : g.Orders order)
    (topological : g.Topological order) (value : PerfStats → ℚ) (blank : value {} = 0) :
    ((subtasks g.numVertices).map fun subtask => value (subtaskPerf om heapBasePtr g sched subtask)).sum =
      ((List.range (g.numVertices - 1)).map (offloaded om g value)).sum +
        value (perf om .cpu .LOGIC_END (totalPageBlkCnt (g.properties (g.numVertices - 1)))) := by
  have filled := (dpuOnly_schedule scheduled).1
  have split : g.numVertices = g.numVertices - 1 + 1 := by
    have count := orders.length
    omega
  rw [sum_subtasks]
  conv_lhs => rw [split]
  rw [List.range_succ,List.map_append,List.sum_append]
  congr 1
  · congr 1
    apply List.map_congr_left
    intro task member
    have inner := List.mem_range.mp member
    simp only [dpuOnly_subtaskPerf scheduled workload orders topological inner (sizes task (by omega)),
      offloaded,blank]
    split
    · rw [blank]
      ring
    · ring
  · simp [dpuOnly_exit scheduled workload orders topological,blank]

/-- Everything but the exit on the DPUs: a complete run takes the sum of what the tasks cost there,
one after the other, whatever the interleaving. -/
theorem dpuOnly_execWorkload (nonneg : om.Nonneg)
    (free : ∀ cnt, (om.deducePerfCPU .LOGIC_END cnt).timeCostSecond = 0) (workload : EntryExit g)
    (sizes : ∀ task < g.numVertices, (g.properties task).inputSizeMiB < 2^64) (orders : g.Orders order)
    (topological : g.Topological order) (scheduled : DPUOnlyScheduler.schedule order = some sched)
    (events : List Event) (stats : PerfStats)
    (returned : execWorkload om heapBasePtr g sched events = some stats) :
    stats.timeCostSecond =
        ((List.range (g.numVertices - 1)).map (offloaded om g (·.timeCostSecond))).sum ∧
      stats.energyCostJoule =
        ((List.range (g.numVertices - 1)).map (offloaded om g (·.energyCostJoule))).sum +
          (perf om .cpu .LOGIC_END
            (totalPageBlkCnt (g.properties (g.numVertices - 1)))).energyCostJoule := by
  obtain ⟨filled,-,rfl,-⟩ := dpuOnly_schedule scheduled
  have exitFree : (perf om .cpu .LOGIC_END
      (totalPageBlkCnt (g.properties (g.numVertices - 1)))).timeCostSecond = 0 := by
    unfold perf
    split
    · rfl
    · exact free _
  constructor
  · rw [execWorkload_alone .dpu nonneg orders returned,
      dpuOnly_sum scheduled workload sizes orders topological (·.timeCostSecond) rfl,exitFree,add_zero]
    intro subtask inside elsewhere
    obtain ⟨worker,task⟩ := subtask
    obtain rfl : worker = .cpu := by
      cases worker with
      | cpu => rfl
      | _ => exact absurd rfl elsewhere
    rcases Nat.lt_or_ge task (g.numVertices - 1) with inner | exit
    · rw [dpuOnly_subtaskPerf scheduled workload orders topological inner (sizes task inside)]
    · have bound : task < g.numVertices := inside
      obtain rfl : task = g.numVertices - 1 := by omega
      rw [dpuOnly_exit scheduled workload orders topological,if_pos rfl,exitFree]
  · rw [execWorkload_energy nonneg orders returned]
    exact dpuOnly_sum scheduled workload sizes orders topological (·.energyCostJoule) rfl

theorem chain_entryExit : EntryExit chain := by
  apply entryExit_of_neighbours
  · intro u v linked
    obtain ⟨edge,member,rfl,rfl⟩ := linked
    have each : ∀ edge ∈ chain.edges, edge.source < edge.target := by decide
    exact each edge member
  · intro v inside inner
    have each : ∀ v < chain.numVertices, v ≠ 0 → chain.Linked (v - 1) v := by decide
    exact ⟨v - 1,each v inside inner⟩
  · intro v inside inner
    have each : ∀ v < chain.numVertices, v ≠ chain.numVertices - 1 → chain.Linked v (v + 1) := by decide
    exact ⟨v + 1,each v inside inner⟩
  · rfl

theorem dpuOnly_execWorkload_chain : ∃ sched stats, DPUOnlyScheduler.schedule [0,1,2] = some sched ∧
    execWorkload chainPerf 0 chain sched
      (chainRun [(.cpu,1),(.dpu,1),(.map,1),(.reduce,1)]) = some stats ∧ stats.timeCostSecond = 6 := by
  have scheduled : DPUOnlyScheduler.schedule [0,1,2] = some ⟨true,[0,1,2],[1,1,0]⟩ := rfl
  obtain ⟨stats,returned⟩ := Option.isSome_iff_exists.mp (by decide +kernel :
    (execWorkload chainPerf 0 chain ⟨true,[0,1,2],[1,1,0]⟩
      (chainRun [(.cpu,1),(.dpu,1),(.map,1),(.reduce,1)])).isSome = true)
  refine ⟨_,stats,scheduled,returned,?_⟩
  rw [(dpuOnly_execWorkload chainPerf_nonneg (fun _ => rfl) chain_entryExit (by decide) (by decide)
    (by decide) scheduled _ stats returned).1]
  decide +kernel

end DPUOnly
end MetaPB.Scheduler

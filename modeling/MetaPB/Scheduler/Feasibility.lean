import MetaPB.Scheduler.Placement

/-! HEFT's placement is a feasible schedule: the intervals it books on a processor take
turns, and a task starts after its predecessors have ended and their data have arrived.
Times at or above the largest double are the exception, since none is chosen over it. -/
namespace MetaPB.Scheduler
open Executor Operator Lib Lib.Sorting Lib.Sequence Lib.Timetable

/-- The interval a placed task occupies on its processor. -/
def slots (table : SchedulingInfo) (tn : Nat) : Slot Int ℚ where
  machine := (table tn).assignedProcessor
  start := (table tn).endTime - computationCost (table tn) (table tn).assignedProcessor
  finish := (table tn).endTime

structure Feasible (om : PerfModel) (g : TaskGraph) (table : SchedulingInfo) : Prop where
  side : ∀ tn < g.numVertices, (slots table tn).machine = 0 ∨ (slots table tn).machine = 1
  disjoint : ∀ u < g.numVertices, ∀ v < g.numVertices, u ≠ v →
    (slots table u).machine = (slots table v).machine →
      Disjoint (Set.Ioo (slots table u).start (slots table u).finish)
        (Set.Ioo (slots table v).start (slots table v).finish)
  precede : ∀ edge ∈ g.edges, (slots table edge.source).finish ≤ (slots table edge.target).start
  transfer : ∀ edge ∈ g.edges,
    (slots table edge.source).machine ≠ (slots table edge.target).machine →
      (slots table edge.source).finish + transferCost om g edge ≤ (slots table edge.target).start

/-- The placement loop after some of the tasks. -/
structure Placed (om : PerfModel) (g : TaskGraph) (placed : List Nat) (table : SchedulingInfo)
    (nextAvailable : Int → ℚ) : Prop where
  costs : SameCosts (initialInfo om g) table
  side : ∀ tn ∈ placed, (slots table tn).machine = 0 ∨ (slots table tn).machine = 1
  turns : InTurn (slots table) placed
  free : ∀ processor, FreeFrom (slots table) placed processor (nextAvailable processor)
  waits : ∀ edge ∈ g.edges, edge.source ∈ placed → edge.target ∈ placed →
    (slots table edge.source).machine ≠ (slots table edge.target).machine →
      (slots table edge.source).finish + transferCost om g edge ≤ (slots table edge.target).start

section Step
variable {om : PerfModel} {g : TaskGraph} {before after : List Nat} {tn : Nat} {table : SchedulingInfo}
  {nextAvailable : Int → ℚ} {processor : Int} {finish : ℚ}

/-- The slot of the task placed last starts when the processor and the data are there. -/
theorem Chosen.slot (chosen : Chosen om g tn table nextAvailable processor finish)
    (below : finish < doubleMax) :
    let next := Function.update table tn (placedInfo (table tn) processor (nextAvailable processor) finish)
    slots next tn =
      ⟨processor,earliestStartTime om g tn table ⟨processor,nextAvailable processor⟩,finish⟩ := by
  intro next
  have same := chosen.exact_of_lt below
  have read : slots next tn = ⟨processor,finish - computationCost (table tn) processor,finish⟩ := by
    simp only [slots,next,Function.update_self]
    rfl
  rw [read,same,finishTime,add_sub_cancel_right]

theorem slots_update_of_ne (info : TaskSchedulingInfo) {u : Nat} (apart : u ≠ tn) :
    slots (Function.update table tn info) u = slots table u := by
  simp [slots,apart]

theorem Placed.next (placed : Placed om g before table nextAvailable) (nonneg : om.Nonneg)
    (topological : g.Topological (before ++ tn::after)) (nodup : (before ++ tn::after).Nodup)
    (chosen : Chosen om g tn table nextAvailable processor finish) (below : finish < doubleMax) :
    Placed om g (before ++ [tn])
      (Function.update table tn (placedInfo (table tn) processor (nextAvailable processor) finish))
      (Function.update nextAvailable processor finish) := by
  obtain ⟨costs,side,turns,free,waits⟩ := placed
  have slot := chosen.slot below
  have reached := le_earliestStartTime om g tn table ⟨processor,nextAvailable processor⟩
  have ends := chosen.exact_of_lt below
  set next := Function.update table tn (placedInfo (table tn) processor (nextAvailable processor) finish)
  have others : ∀ u ∈ before, slots next u = slots table u := by
    intro u member
    apply slots_update_of_ne
    rintro rfl
    exact List.disjoint_of_nodup_append nodup member (by simp)
  have long : earliestStartTime om g tn table ⟨processor,nextAvailable processor⟩ ≤ finish := by
    have cost : computationCost (table tn) processor = computationCost (initialInfo om g tn) processor :=
      costs tn processor
    rw [ends,finishTime,cost]
    exact le_add_of_nonneg_right (computationCost_nonneg nonneg tn processor)
  refine ⟨costs.update _ _ _ _,?_,?_,?_,?_⟩
  · intro v member
    rcases List.mem_append.mp member with earlier | last
    · rw [others v earlier]
      exact side v earlier
    · rw [List.mem_singleton.mp last,slot]
      exact chosen.side
  · apply (turns.congr others).snoc
    rw [slot]
    exact ((free processor).congr others).mono reached.1
  · intro other
    rcases eq_or_ne other processor with rfl | apart
    · rw [Function.update_self]
      apply FreeFrom.snoc
      · exact ((free other).congr others).mono (reached.1.trans long)
      · rw [slot]
        exact fun _ => le_rfl
    · rw [Function.update_of_ne apart]
      apply ((free other).congr others).snoc
      rw [slot]
      exact fun same => absurd same.symm apart
  · intro edge member sourcePlaced targetPlaced
    rcases List.mem_append.mp targetPlaced with earlier | last
    · have ahead := topological edge member
      have sourceEarlier : edge.source ∈ before := by
        apply (mem_served_iff rfl edge.source).mpr
        exact ahead.trans ((mem_served_iff rfl edge.target).mp earlier)
      rw [others _ sourceEarlier,others _ earlier]
      exact waits edge member sourceEarlier earlier
    · have target := List.mem_singleton.mp last
      have incoming : edge ∈ g.inEdges tn := by simp [TaskGraph.inEdges,member,target]
      rw [target,slot,others _ (inEdges_placed topological nodup edge incoming)]
      exact reached.2 edge incoming

end Step

section Loop
variable {om : PerfModel} {g : TaskGraph} {order : List Nat} {table : SchedulingInfo}
  {nextAvailable : Int → ℚ}

theorem placeTasks_placed (nonneg : om.Nonneg) (costs : SameCosts (initialInfo om g) table)
    (topological : g.Topological order) (nodup : order.Nodup) :
    ∃ ratios final available,
      placeTasks om g order table (processorsOf nextAvailable) = (ratios,final,processorsOf available) ∧
        ((∀ tn ∈ order, (final tn).endTime < doubleMax) → Placed om g order final available) := by
  refine placeTasks_invariant (fun placed _ table available =>
    (∀ tn ∈ placed, (table tn).endTime < doubleMax) → Placed om g placed table available) ?_ ?_
  · intro _
    exact ⟨costs,by simp,List.Pairwise.nil,by simp [FreeFrom],by simp⟩
  · intro before tn after _ table available processor finish split ih chosen below
    subst split
    have fresh : ∀ u ∈ before, u ≠ tn := by
      rintro u member rfl
      exact List.disjoint_of_nodup_append nodup member (by simp)
    have last : finish < doubleMax := by simpa [placedInfo] using below tn (by simp)
    refine (ih ?_).next nonneg topological nodup chosen last
    intro u member
    simpa [fresh u member] using below u (by simp [member])

theorem placeTasks_within (nonneg : om.Nonneg) {bound : ℚ}
    (within : Within om g bound table nextAvailable) :
    ∃ ratios final available,
      placeTasks om g order table (processorsOf nextAvailable) = (ratios,final,processorsOf available) ∧
        Within om g (bound + (order.map (spent om g)).sum) final available := by
  refine placeTasks_invariant (fun placed _ table available =>
    Within om g (bound + (placed.map (spent om g)).sum) table available) ?_ ?_
  · simpa using within
  · intro before tn _ _ table available processor finish _ held chosen
    have step := held.next nonneg chosen
    rw [List.map_append,List.sum_append,List.map_singleton,List.sum_singleton,← add_assoc]
    exact step

theorem Placed.feasible {available : Int → ℚ} (placed : Placed om g order table available)
    (nonneg : om.Nonneg) (orders : g.Orders order) (topological : g.Topological order) :
    Feasible om g table := by
  have listed (tn : Nat) (inside : tn < g.numVertices) : tn ∈ order := (orders.mem_iff tn).mpr inside
  refine ⟨fun tn inside => placed.side tn (listed tn inside),?_,?_,?_⟩
  · intro u uInside v vInside distinct same
    exact placed.turns.disjoint (listed u uInside) (listed v vInside) distinct same
  · intro edge member
    obtain ⟨sourceInside,targetInside⟩ := g.inside edge member
    rcases eq_or_ne (slots table edge.source).machine (slots table edge.target).machine with same | other
    · exact placed.turns.finish_le (listed _ sourceInside) (listed _ targetInside)
        (topological edge member) same
    · have waits := placed.waits edge member (listed _ sourceInside) (listed _ targetInside) other
      exact (le_add_of_nonneg_right (transferCost_nonneg nonneg edge)).trans waits
  · intro edge member other
    obtain ⟨sourceInside,targetInside⟩ := g.inside edge member
    exact placed.waits edge member (listed _ sourceInside) (listed _ targetInside) other

end Loop

/-- CPU costs and transfer costs of the whole graph. -/
def totalSpent (om : PerfModel) (g : TaskGraph) : ℚ :=
  ((List.range g.numVertices).map (spent om g)).sum

theorem Ranked.topological {om : PerfModel} {g : TaskGraph} {table : SchedulingInfo} {order : List Nat}
    (ranked : Ranked g (initialInfo om g) table) (acyclic : g.Acyclic)
    (all : ∀ tn < g.numVertices, (table tn).upwardRank ≠ -1)
    (sorted : Sorted (byRank table) (List.range g.numVertices) order)
    (positive : ∀ tn < g.numVertices, 0 < (initialInfo om g tn).computationCostCPU ∧
      0 < (initialInfo om g tn).computationCostDPU) : g.Topological order := by
  have nonneg : ∀ tn < g.numVertices, 0 ≤ (initialInfo om g tn).computationCostCPU ∧
      0 ≤ (initialInfo om g tn).computationCostDPU :=
    fun tn inside => (positive tn inside).imp le_of_lt le_of_lt
  apply sorted_topological nonneg acyclic ranked all _ sorted
  intro tn free
  obtain ⟨-,successors,sum⟩ := free
  obtain ⟨succ,member⟩ := List.exists_mem_of_ne_nil _ successors
  obtain ⟨cpu,dpu⟩ := positive tn ((g.mem_successors tn succ).mp member).bounds.1
  exact (add_pos cpu dpu).ne' sum

/-- A call on a fresh scheduler places every task. With positive costs the order puts
predecessors first; with costs that sum to less than the largest double every end time is
below it; and under both conditions the placement is feasible. -/
theorem schedule_feasible (sort : (Nat → Nat → Bool) → List Nat → List Nat) (om : PerfModel)
    (g : TaskGraph) (contract : StdSort sort) (nonneg : om.Nonneg) (acyclic : g.Acyclic) :
    ∃ placement, scheduleOn sort om g freshProcessors = some placement ∧
      g.Orders placement.result.order ∧
      ((∀ tn < g.numVertices, 0 < (initialInfo om g tn).computationCostCPU ∧
        0 < (initialInfo om g tn).computationCostDPU) → g.Topological placement.result.order) ∧
      (totalSpent om g < doubleMax → ∀ tn, (placement.table tn).endTime < doubleMax) ∧
      (g.Topological placement.result.order →
        (∀ tn < g.numVertices, (placement.table tn).endTime < doubleMax) →
          Feasible om g placement.table) := by
  obtain ⟨table,order,ranked,all,sorted,called⟩ := scheduleOn_spec contract nonneg acyclic
  have orders : g.Orders order := sorted.perm
  refine ⟨_,called freshProcessors,orders,ranked.topological acyclic all sorted,?_,?_⟩
  · intro small tn
    have start : Within om g 0 table fun _ => 0 :=
      ⟨ranked.sameCosts,fun _ _ => le_rfl,fun tn => (ranked.unplaced tn).le⟩
    obtain ⟨_,_,_,looped,within⟩ := placeTasks_within nonneg start
    have total : (order.map (spent om g)).sum = totalSpent om g :=
      List.Perm.sum_eq (List.Perm.map (spent om g) orders)
    rw [total,zero_add] at within
    rw [freshProcessors,looped]
    exact (within.ended tn).trans_lt small
  · intro topological below
    have ahead : g.Topological order := topological
    obtain ⟨_,_,_,looped,placed⟩ := placeTasks_placed nonneg ranked.sameCosts ahead orders.nodup
    rw [freshProcessors,looped] at below ⊢
    apply Placed.feasible (placed _) nonneg orders ahead
    intro tn member
    exact below tn ((orders.mem_iff tn).mp member)

/-- Every operator takes the same time on every workload. -/
def uniformPerf (seconds : ℚ) : PerfModel where
  deducePerfCPU _ _ := {timeCostSecond := seconds}
  deducePerfDPU _ _ := {timeCostSecond := seconds}

private theorem uniformPerf_nonneg {seconds : ℚ} (nonneg : 0 ≤ seconds) : (uniformPerf seconds).Nonneg :=
  ⟨fun _ _ => nonneg,fun _ _ => nonneg⟩

theorem le_doubleMax : 2^53 - 1 ≤ doubleMax := by
  apply le_mul_of_one_le_right (by norm_num)
  exact one_le_pow₀ (by norm_num)

theorem schedule_feasible_pipeline : ∃ placement,
    scheduleOn (favour 1) (uniformPerf 1) pipeline freshProcessors = some placement ∧
      pipeline.Orders placement.result.order ∧ Feasible (uniformPerf 1) pipeline placement.table := by
  have acyclic : pipeline.Acyclic := (by decide : pipeline.Topological [0,2,1]).acyclic
  obtain ⟨placement,returned,orders,ahead,small,feasible⟩ := schedule_feasible (favour 1) (uniformPerf 1)
    pipeline (favour_stdSort 1) (uniformPerf_nonneg zero_le_one) acyclic
  have topological := ahead fun tn _ => by norm_num [initialInfo,uniformPerf]
  have total : totalSpent (uniformPerf 1) pipeline < doubleMax := by
    refine lt_of_lt_of_le ?_ le_doubleMax
    norm_num [totalSpent,spent,transferCost,computationCost,initialInfo,uniformPerf,pipeline,
      TaskGraph.numVertices,TaskGraph.inEdges,List.range_succ]
  exact ⟨placement,returned,orders,feasible topological fun tn _ => small total tn⟩

section Sentinel

/-- Two tasks with no edge between them. -/
def twoTasks : TaskGraph := ⟨[⟨.MAC,.MemoryBound,1⟩,⟨.MAC,.MemoryBound,1⟩],[],by simp⟩

theorem doubleMax_pos : 0 < doubleMax := lt_of_lt_of_le (by norm_num) le_doubleMax

/-- A step that can only finish at the largest double or later books the CPU up to it. -/
theorem Chosen.saturated {om : PerfModel} {g : TaskGraph} {tn : Nat} {table : SchedulingInfo}
    {nextAvailable : Int → ℚ} {processor : Int} {finish : ℚ}
    (chosen : Chosen om g tn table nextAvailable processor finish)
    (late : ∀ side, doubleMax ≤ finishTime om g tn table ⟨side,nextAvailable side⟩) :
    processor = 0 ∧ finish = doubleMax := by
  have whole : finish = doubleMax := by
    apply le_antisymm chosen.capped
    by_contra below
    have same := chosen.exact_of_lt (not_le.mp below)
    exact below (same ▸ late processor)
  refine ⟨chosen.side.resolve_right ?_,whole⟩
  intro dpu
  exact absurd whole (chosen.dpu_lt dpu).ne

theorem placeTasks_saturated {om : PerfModel} {g : TaskGraph} {order : List Nat} {table : SchedulingInfo}
    (costs : SameCosts (initialInfo om g) table)
    (late : ∀ tn side, doubleMax ≤ computationCost (initialInfo om g tn) side) :
    ∃ ratios final available,
      placeTasks om g order table freshProcessors = (ratios,final,processorsOf available) ∧
        SameCosts (initialInfo om g) final ∧ (∀ side, 0 ≤ available side) ∧
        ∀ tn ∈ order, (slots final tn).machine = 0 ∧ (slots final tn).finish = doubleMax := by
  refine placeTasks_invariant (fun placed _ table available => SameCosts (initialInfo om g) table ∧
    (∀ side, 0 ≤ available side) ∧
      ∀ tn ∈ placed, (slots table tn).machine = 0 ∧ (slots table tn).finish = doubleMax) ?_ ?_
  · exact ⟨costs,fun _ => le_rfl,by simp⟩
  · intro before tn _ _ table available processor finish _ held chosen
    obtain ⟨same,nonneg,all⟩ := held
    have saturated := chosen.saturated fun side => by
      have start := (le_earliestStartTime om g tn table ⟨side,available side⟩).1
      rw [finishTime,same tn side]
      exact (late tn side).trans (le_add_of_nonneg_left ((nonneg side).trans start))
    obtain ⟨rfl,rfl⟩ := saturated
    refine ⟨same.update _ _ _ _,?_,?_⟩
    · exact (Function.forall_update_iff available fun _ time => 0 ≤ time).mpr
        ⟨doubleMax_pos.le,fun side _ => nonneg side⟩
    · intro v member
      rcases eq_or_ne v tn with rfl | apart
      · simp [slots,placedInfo]
      · rw [slots_update_of_ne _ apart]
        exact all v (by simpa [apart] using member)

/-- With costs of the largest double both tasks are booked on the CPU for all of its time. -/
theorem schedule_not_feasible : ¬ ∀ (sort : (Nat → Nat → Bool) → List Nat → List Nat) (om : PerfModel)
    (g : TaskGraph) (placement : Placement), StdSort sort → om.Nonneg → g.Acyclic →
      scheduleOn sort om g freshProcessors = some placement →
      g.Topological placement.result.order → Feasible om g placement.table := by
  intro always
  have nonneg := uniformPerf_nonneg doubleMax_pos.le
  have acyclic : twoTasks.Acyclic := (by decide : twoTasks.Topological [0,1]).acyclic
  have cost (tn : Nat) (side : Int) :
      computationCost (initialInfo (uniformPerf doubleMax) twoTasks tn) side = doubleMax := by
    simp [computationCost,initialInfo,uniformPerf]
  obtain ⟨table,order,ranked,-,sorted,called⟩ := scheduleOn_spec (favour_stdSort 0) nonneg acyclic
  have feasible := always _ _ _ _ (favour_stdSort 0) nonneg acyclic (called _)
    (by simp [twoTasks,TaskGraph.Topological])
  obtain ⟨_,final,_,looped,costs,-,all⟩ :=
    placeTasks_saturated ranked.sameCosts fun tn side => (cost tn side).ge
  rw [looped] at feasible
  have overlapping : Feasible (uniformPerf doubleMax) twoTasks final := feasible
  have member (tn : Nat) (inside : tn < 2) : tn ∈ order :=
    (sorted.perm.mem_iff).mpr (List.mem_range.mpr inside)
  have booked (tn : Nat) (inside : tn < 2) : slots final tn = ⟨0,0,doubleMax⟩ := by
    obtain ⟨onCPU,whole⟩ := all tn (member tn inside)
    have start : (slots final tn).start = (slots final tn).finish -
        computationCost (final tn) (slots final tn).machine := rfl
    rw [whole,costs,cost,sub_self] at start
    rw [← onCPU,← whole,← start]
  have apart := overlapping.disjoint 0 (by decide) 1 (by decide) (by decide)
  rw [booked 0 (by decide),booked 1 (by decide)] at apart
  have half : doubleMax / 2 ∈ Set.Ioo 0 doubleMax :=
    ⟨half_pos doubleMax_pos,half_lt_self doubleMax_pos⟩
  exact Set.disjoint_left.mp (apart rfl) half half

end Sentinel
end MetaPB.Scheduler

import MetaPB.Scheduler.RankOrder
import MetaPB.Lib.Best
import MetaPB.Lib.Timetable
import Mathlib.Algebra.Order.BigOperators.Group.List
import Mathlib.Data.List.Induction

/-! The placement loop over what a scheduler object keeps between calls, its processors.
One step is described once: the processor it chooses, the finish time it stores and the
bounds on both. The intervals of placed tasks are then a timetable in which the tasks of a
processor take turns. -/
namespace MetaPB.Scheduler
open Executor Operator Lib Lib.Sorting Lib.Sequence

/-- The member `processors` with these availability times. -/
def processorsOf (nextAvailable : Int → ℚ) : List Processor := [⟨0,nextAvailable 0⟩,⟨1,nextAvailable 1⟩]

def freshProcessors : List Processor := processorsOf fun _ => 0

/-- What a call returns, and the table and processors it leaves behind. -/
structure Placement where
  result : Schedule
  table : SchedulingInfo
  processors : List Processor

abbrev PlacementLoop := List ℚ × SchedulingInfo × List Processor

section Machine
variable (ar : Arithmetic)

def placeTaskIn (om : PerfModel) (g : TaskGraph) (state : PlacementLoop) (tn : Nat) : PlacementLoop :=
  let (ratios,table,processors) := state
  let (table,processors) := scheduleTaskIn ar om g tn table processors
  (ratios ++ [if (table tn).assignedProcessor = 1 then 1 else 0],table,processors)

def placeTasksIn (om : PerfModel) (g : TaskGraph) (sortedTasks : List Nat) (table : SchedulingInfo)
    (processors : List Processor) : PlacementLoop :=
  sortedTasks.foldl (placeTaskIn ar om g) ([],table,processors)

/-- `schedule()` on an object whose processors have been used before. -/
def scheduleOnIn (sort : (Nat → Nat → Bool) → List Nat → List Nat) (om : PerfModel) (g : TaskGraph)
    (processors : List Processor) : Option Placement :=
  (calculateUpwardRanksIn ar g (initialInfo om g)).map fun table =>
    let sortedTasks := sort (byRank table) (List.range g.numVertices)
    let (ratios,table,processors) := placeTasksIn ar om g sortedTasks table processors
    { result :=
        { isAlwaysWrittingBack := false
          order := sortedTasks
          offloadRatio := ratios.set (g.numVertices - 1) 0 }
      table := table
      processors := processors }

theorem scheduleIn_eq_scheduleOnIn (sort : (Nat → Nat → Bool) → List Nat → List Nat) (om : PerfModel)
    (g : TaskGraph) :
    scheduleIn ar sort om g = (scheduleOnIn ar sort om g freshProcessors).map (·.result) := by
  rw [scheduleIn,scheduleOnIn,Option.map_map]
  rfl

end Machine

abbrev placeTask := placeTaskIn .exact

abbrev placeTasks := placeTasksIn .exact

abbrev scheduleOn := scheduleOnIn .exact

theorem schedule_eq_scheduleOn (sort : (Nat → Nat → Bool) → List Nat → List Nat) (om : PerfModel)
    (g : TaskGraph) :
    schedule sort om g = (scheduleOn sort om g freshProcessors).map (·.result) :=
  scheduleIn_eq_scheduleOnIn .exact sort om g

/-- The cost of a task on a processor. -/
def computationCost (info : TaskSchedulingInfo) (processor : Int) : ℚ :=
  if processor = 0 then info.computationCostCPU else info.computationCostDPU

def finishTime (om : PerfModel) (g : TaskGraph) (tn : Nat) (table : SchedulingInfo)
    (processor : Processor) : ℚ :=
  earliestStartTime om g tn table processor + computationCost (table tn) processor.id

/-- When data of predecessors on the other processor arrive. -/
def arrivals (om : PerfModel) (g : TaskGraph) (tn : Nat) (table : SchedulingInfo) (processor : Int) :
    List ℚ :=
  ((g.inEdges tn).filter fun edge => (table edge.source).assignedProcessor ≠ processor).map
    fun edge => (table edge.source).endTime + transferCost om g edge

/-- What one step of the loop decides. -/
structure Chosen (om : PerfModel) (g : TaskGraph) (tn : Nat) (table : SchedulingInfo)
    (nextAvailable : Int → ℚ) (processor : Int) (finish : ℚ) : Prop where
  side : processor = 0 ∨ processor = 1
  least : finish ≤ finishTime om g tn table ⟨0,nextAvailable 0⟩
  capped : finish ≤ doubleMax
  dpu_lt : processor = 1 → finish < doubleMax
  exact_of_lt : finish < doubleMax → finish = finishTime om g tn table ⟨processor,nextAvailable processor⟩
  dpu_iff : finishTime om g tn table ⟨0,nextAvailable 0⟩ < doubleMax → (processor = 1 ↔
    finishTime om g tn table ⟨1,nextAvailable 1⟩ < finishTime om g tn table ⟨0,nextAvailable 0⟩)

/-- The entry the step stores. -/
def placedInfo (info : TaskSchedulingInfo) (processor : Int) (start finish : ℚ) : TaskSchedulingInfo :=
  { info with
    assignedProcessor := processor
    startTime := start
    endTime := finish }

theorem processorsOf_set_cpu (nextAvailable : Int → ℚ) (finish : ℚ) :
    (processorsOf nextAvailable).set 0 ⟨0,finish⟩ = processorsOf (Function.update nextAvailable 0 finish) := by
  simp [processorsOf,Function.update]

theorem processorsOf_set_dpu (nextAvailable : Int → ℚ) (finish : ℚ) :
    (processorsOf nextAvailable).set 1 ⟨1,finish⟩ = processorsOf (Function.update nextAvailable 1 finish) := by
  simp [processorsOf,Function.update]

section Step
variable (om : PerfModel) (g : TaskGraph) (tn : Nat) (table : SchedulingInfo)

theorem earliestStartTime_eq (processor : Processor) : earliestStartTime om g tn table processor =
    (arrivals om g tn table processor.id).foldl max processor.nextAvailableTime := by
  simp [earliestStartTimeIn,Arithmetic.exact,arrivals,List.foldl_map,List.foldl_filter]

theorem le_earliestStartTime (processor : Processor) :
    processor.nextAvailableTime ≤ earliestStartTime om g tn table processor ∧
      ∀ edge ∈ g.inEdges tn, (table edge.source).assignedProcessor ≠ processor.id →
        (table edge.source).endTime + transferCost om g edge ≤
          earliestStartTime om g tn table processor := by
  rw [earliestStartTime_eq]
  obtain ⟨above,each⟩ := Best.foldl_le_max (arrivals om g tn table processor.id)
    processor.nextAvailableTime
  refine ⟨above,?_⟩
  intro edge member other
  apply each
  apply List.mem_map_of_mem
  simp [member,other]

theorem bestProcessor_processorsOf (nextAvailable : Int → ℚ) :
    bestProcessor om g tn table (processorsOf nextAvailable) =
      if finishTime om g tn table ⟨1,nextAvailable 1⟩ <
          min (finishTime om g tn table ⟨0,nextAvailable 0⟩) doubleMax then
        (1,finishTime om g tn table ⟨1,nextAvailable 1⟩)
      else (0,min (finishTime om g tn table ⟨0,nextAvailable 0⟩) doubleMax) := by
  have first : (if finishTime om g tn table ⟨0,nextAvailable 0⟩ < doubleMax then
      ((0 : Nat),finishTime om g tn table ⟨0,nextAvailable 0⟩) else (0,doubleMax)) =
      (0,min (finishTime om g tn table ⟨0,nextAvailable 0⟩) doubleMax) := by
    split
    next below => rw [min_eq_left below.le]
    next above => rw [min_eq_right (not_lt.mp above)]
  have unfolded : bestProcessor om g tn table (processorsOf nextAvailable) =
      (let best := if finishTime om g tn table ⟨0,nextAvailable 0⟩ < doubleMax then
          ((0 : Nat),finishTime om g tn table ⟨0,nextAvailable 0⟩) else (0,doubleMax)
        if finishTime om g tn table ⟨1,nextAvailable 1⟩ < best.2 then
          (1,finishTime om g tn table ⟨1,nextAvailable 1⟩) else best) := rfl
  rw [unfolded,first]

theorem scheduleTask_cases (nextAvailable : Int → ℚ) : ∃ processor finish,
    Chosen om g tn table nextAvailable processor finish ∧
      scheduleTask om g tn table (processorsOf nextAvailable) =
        (Function.update table tn
            (placedInfo (table tn) processor (nextAvailable processor) finish),
          processorsOf (Function.update nextAvailable processor finish)) := by
  have best := bestProcessor_processorsOf om g tn table nextAvailable
  rcases lt_or_ge (finishTime om g tn table ⟨1,nextAvailable 1⟩)
      (min (finishTime om g tn table ⟨0,nextAvailable 0⟩) doubleMax) with dpu | cpu
  · rw [if_pos dpu] at best
    have sooner := dpu.trans_le (min_le_left _ _)
    have below := dpu.trans_le (min_le_right _ _)
    refine ⟨1,_,⟨Or.inr rfl,sooner.le,below.le,fun _ => below,fun _ => rfl,
      fun _ => ⟨fun _ => sooner,fun _ => rfl⟩⟩,?_⟩
    simp only [scheduleTaskIn,best]
    exact Prod.ext rfl (processorsOf_set_dpu nextAvailable _)
  · rw [if_neg (not_lt.mpr cpu)] at best
    refine ⟨0,_,⟨Or.inl rfl,min_le_left _ _,min_le_right _ doubleMax,fun wrong => absurd wrong (by decide),
      ?_,?_⟩,?_⟩
    · intro below
      exact min_eq_left ((min_lt_iff.mp below).resolve_right (lt_irrefl _)).le
    · intro below
      rw [min_eq_left below.le] at cpu
      exact ⟨fun wrong => absurd wrong (by decide),fun sooner => absurd sooner cpu.not_gt⟩
    · simp only [scheduleTaskIn,best]
      exact Prod.ext rfl (processorsOf_set_cpu nextAvailable _)

end Step

theorem inEdges_placed {g : TaskGraph} {before after : List Nat} {tn : Nat}
    (topological : g.Topological (before ++ tn::after)) (nodup : (before ++ tn::after).Nodup) :
    ∀ edge ∈ g.inEdges tn, edge.source ∈ before := by
  intro edge member
  obtain ⟨listed,target⟩ := List.mem_filter.mp member
  have ahead := topological edge listed
  rw [of_decide_eq_true target] at ahead
  exact (mem_served_head nodup rfl edge.source).mpr ahead

section LoopRule
variable {om : PerfModel} {g : TaskGraph}

theorem placeTasks_snoc (tasks : List Nat) (tn : Nat) (table : SchedulingInfo)
    (processors : List Processor) : placeTasks om g (tasks ++ [tn]) table processors =
      placeTask om g (placeTasks om g tasks table processors) tn := by
  rw [placeTasks,placeTasksIn,List.foldl_append]
  rfl

theorem placeTask_cases (ratios : List ℚ) (tn : Nat) (table : SchedulingInfo) (nextAvailable : Int → ℚ) :
    ∃ processor finish, Chosen om g tn table nextAvailable processor finish ∧
      placeTask om g (ratios,table,processorsOf nextAvailable) tn =
        (ratios ++ [if processor = 1 then 1 else 0],
          Function.update table tn (placedInfo (table tn) processor (nextAvailable processor) finish),
          processorsOf (Function.update nextAvailable processor finish)) := by
  obtain ⟨processor,finish,chosen,stepped⟩ := scheduleTask_cases om g tn table nextAvailable
  refine ⟨processor,finish,chosen,?_⟩
  simp only [placeTaskIn,stepped,Function.update_self]
  rfl

theorem placeTasks_invariant (holds : List Nat → List ℚ → SchedulingInfo → (Int → ℚ) → Prop)
    {tasks : List Nat} {table : SchedulingInfo} {nextAvailable : Int → ℚ}
    (start : holds [] [] table nextAvailable)
    (kept : ∀ before tn after ratios table nextAvailable processor finish,
      tasks = before ++ tn::after → holds before ratios table nextAvailable →
      Chosen om g tn table nextAvailable processor finish →
      holds (before ++ [tn]) (ratios ++ [if processor = 1 then 1 else 0])
        (Function.update table tn (placedInfo (table tn) processor (nextAvailable processor) finish))
        (Function.update nextAvailable processor finish)) :
    ∃ ratios final available,
      placeTasks om g tasks table (processorsOf nextAvailable) = (ratios,final,processorsOf available) ∧
        holds tasks ratios final available := by
  have loop (before after : List Nat) (split : tasks = before ++ after) : ∃ ratios final available,
      placeTasks om g before table (processorsOf nextAvailable) = (ratios,final,processorsOf available) ∧
        holds before ratios final available := by
    induction before using List.reverseRecOn generalizing after with
    | nil => exact ⟨[],table,nextAvailable,rfl,start⟩
    | append_singleton before tn ih =>
      have longer : tasks = before ++ tn::after := by simp [split]
      obtain ⟨ratios,middle,available,looped,held⟩ := ih (tn::after) longer
      obtain ⟨processor,finish,chosen,stepped⟩ := placeTask_cases ratios tn middle available
      refine ⟨_,_,_,?_,kept before tn after ratios middle available _ _ longer held chosen⟩
      rw [placeTasks_snoc,looped,stepped]
  exact loop tasks [] (by simp)

end LoopRule

/-- The loop never touches the computation costs. -/
def SameCosts (costs table : SchedulingInfo) : Prop :=
  ∀ tn processor, computationCost (table tn) processor = computationCost (costs tn) processor

theorem SameCosts.update {costs table : SchedulingInfo} (same : SameCosts costs table) (tn : Nat)
    (processor : Int) (start finish : ℚ) :
    SameCosts costs (Function.update table tn (placedInfo (table tn) processor start finish)) := by
  refine (Function.forall_update_iff table fun v info =>
    ∀ side, computationCost info side = computationCost (costs v) side).mpr ⟨?_,fun v _ => same v⟩
  exact same tn

/-- The placement a finished loop stands for. -/
def placementOf (g : TaskGraph) (order : List Nat) (state : PlacementLoop) : Placement :=
  ⟨⟨false,order,state.1.set (g.numVertices - 1) 0⟩,state.2.1,state.2.2⟩

theorem scheduleOnIn_placed {ar : Arithmetic} {om : PerfModel} {g : TaskGraph} {ranks : SchedulingInfo}
    (filled : calculateUpwardRanksIn ar g (initialInfo om g) = some ranks)
    (sort : (Nat → Nat → Bool) → List Nat → List Nat) (processors : List Processor) :
    scheduleOnIn ar sort om g processors =
      some (placementOf g (sort (byRank ranks) (List.range g.numVertices))
        (placeTasksIn ar om g (sort (byRank ranks) (List.range g.numVertices)) ranks processors)) := by
  rw [scheduleOnIn,filled]
  rfl

/-- A call ranks and sorts as any other, and then places on the processors it finds. -/
theorem scheduleOn_spec {sort : (Nat → Nat → Bool) → List Nat → List Nat} {om : PerfModel}
    {g : TaskGraph} (contract : StdSort sort) (nonneg : om.Nonneg) (acyclic : g.Acyclic) :
    ∃ table order, Ranked g (initialInfo om g) table ∧
      (∀ tn < g.numVertices, (table tn).upwardRank ≠ -1) ∧
      Sorted (byRank table) (List.range g.numVertices) order ∧
      ∀ processors, scheduleOn sort om g processors =
        some (placementOf g order (placeTasks om g order table processors)) := by
  obtain ⟨table,filled,ranked,all⟩ :=
    exactRanks_spec (initialInfo_nonneg nonneg) acyclic (fun _ => rfl)
  exact ⟨table,_,ranked,all,contract _ _ (byRank_strictWeak table),scheduleOnIn_placed filled sort⟩

theorem Ranked.sameCosts {om : PerfModel} {g : TaskGraph} {table : SchedulingInfo}
    (ranked : Ranked g (initialInfo om g) table) : SameCosts (initialInfo om g) table := by
  intro tn processor
  rw [ranked.frame tn]
  rfl

theorem Ranked.unplaced {om : PerfModel} {g : TaskGraph} {table : SchedulingInfo}
    (ranked : Ranked g (initialInfo om g) table) (tn : Nat) : (table tn).endTime = 0 := by
  rw [ranked.frame tn]
  rfl

section Spent
variable {om : PerfModel} {g : TaskGraph} (nonneg : om.Nonneg)

/-- What a task can add to the time at which both processors are free. -/
def spent (om : PerfModel) (g : TaskGraph) (tn : Nat) : ℚ :=
  computationCost (initialInfo om g tn) 0 + ((g.inEdges tn).map (transferCost om g)).sum

include nonneg in
theorem transferCost_nonneg (edge : Transfer) : 0 ≤ transferCost om g edge := nonneg.cpu _ _

include nonneg in
theorem computationCost_nonneg (tn : Nat) (processor : Int) :
    0 ≤ computationCost (initialInfo om g tn) processor := by
  unfold computationCost
  split
  · exact nonneg.cpu _ _
  · exact nonneg.dpu _ _

include nonneg in
theorem spent_nonneg (tn : Nat) : 0 ≤ spent om g tn := by
  apply add_nonneg (computationCost_nonneg nonneg tn 0)
  apply List.sum_nonneg
  intro cost member
  obtain ⟨edge,-,rfl⟩ := List.mem_map.mp member
  exact transferCost_nonneg nonneg edge

include nonneg in
theorem finishTime_le {tn : Nat} {table : SchedulingInfo} {nextAvailable : ℚ} {bound : ℚ}
    (costs : SameCosts (initialInfo om g) table) (free : nextAvailable ≤ bound)
    (ended : ∀ u, (table u).endTime ≤ bound) :
    finishTime om g tn table ⟨0,nextAvailable⟩ ≤ bound + spent om g tn := by
  have moved : ∀ cost ∈ (g.inEdges tn).map (transferCost om g), 0 ≤ cost := by
    intro cost member
    obtain ⟨edge,-,rfl⟩ := List.mem_map.mp member
    exact transferCost_nonneg nonneg edge
  have start : earliestStartTime om g tn table ⟨0,nextAvailable⟩ ≤
      bound + ((g.inEdges tn).map (transferCost om g)).sum := by
    rw [earliestStartTime_eq]
    rcases Best.foldl_max_attained (arrivals om g tn table 0) nextAvailable with same | attained
    · rw [same]
      exact free.trans (le_add_of_nonneg_right (List.sum_nonneg moved))
    · obtain ⟨edge,listed,same⟩ := List.mem_map.mp attained
      rw [← same]
      apply add_le_add (ended _)
      apply List.single_le_sum moved
      exact List.mem_map_of_mem (List.mem_of_mem_filter listed)
  have own : computationCost (table tn) 0 = computationCost (initialInfo om g tn) 0 := costs tn 0
  rw [finishTime,own,spent]
  linarith

/-- Both processors are free and every end is past by this time. -/
structure Within (om : PerfModel) (g : TaskGraph) (bound : ℚ) (table : SchedulingInfo)
    (nextAvailable : Int → ℚ) : Prop where
  costs : SameCosts (initialInfo om g) table
  free : ∀ processor, processor = 0 ∨ processor = 1 → nextAvailable processor ≤ bound
  ended : ∀ tn, (table tn).endTime ≤ bound

include nonneg in
theorem Within.next {tn : Nat} {bound : ℚ} {table : SchedulingInfo} {nextAvailable : Int → ℚ}
    {processor : Int} {finish : ℚ} (within : Within om g bound table nextAvailable)
    (chosen : Chosen om g tn table nextAvailable processor finish) :
    Within om g (bound + spent om g tn)
      (Function.update table tn (placedInfo (table tn) processor (nextAvailable processor) finish))
      (Function.update nextAvailable processor finish) := by
  have later : bound ≤ bound + spent om g tn := le_add_of_nonneg_right (spent_nonneg nonneg tn)
  have ends : finish ≤ bound + spent om g tn :=
    chosen.least.trans (finishTime_le nonneg within.costs (within.free 0 (Or.inl rfl)) within.ended)
  refine ⟨within.costs.update _ _ _ _,?_,?_⟩
  · refine (Function.forall_update_iff nextAvailable fun side time =>
      side = 0 ∨ side = 1 → time ≤ bound + spent om g tn).mpr ⟨fun _ => ends,?_⟩
    intro other _ side
    exact (within.free other side).trans later
  · refine (Function.forall_update_iff table fun _ info => info.endTime ≤ bound + spent om g tn).mpr
      ⟨ends,?_⟩
    intro v _
    exact (within.ended v).trans later

end Spent
end MetaPB.Scheduler

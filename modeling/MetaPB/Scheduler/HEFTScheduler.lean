import MetaPB.Executor.TaskGraph
import MetaPB.Lib.Rounding
import MetaPB.Lib.Sorting

/-! The HEFT scheduler: deduced costs, upward ranks memoised in the scheduling table
and filled by recursion over successors, the sort by rank and the assignment of each
task to the processor that finishes it first. The sort is a parameter, and so is the
arithmetic costs are added up in: that of `double`, or exact. -/
namespace MetaPB.Scheduler
open Executor Operator Utils Lib Lib.Rounding Lib.Word

structure Processor where
  id : Int
  nextAvailableTime : ℚ := 0

structure TaskSchedulingInfo where
  computationCostCPU : ℚ
  computationCostDPU : ℚ
  upwardRank : ℚ := -1
  assignedProcessor : Int := -1
  startTime : ℚ := 0
  endTime : ℚ := 0

abbrev SchedulingInfo := Nat → TaskSchedulingInfo

/-- The largest finite double, which no finish time is taken to reach. -/
def doubleMax : ℚ := (2^53 - 1) * 2^971

def initialInfo (om : PerfModel) (g : TaskGraph) : SchedulingInfo := fun tn =>
  let tp := g.properties tn
  { computationCostCPU := (om.deducePerfCPU tp.op (wrap32 tp.inputSizeMiB)).timeCostSecond
    computationCostDPU := (om.deducePerfDPU tp.op (wrap32 tp.inputSizeMiB)).timeCostSecond }

/-- The arithmetic costs are added up in, on numbers that are not negative. -/
structure Arithmetic where
  add : ℚ → ℚ → ℚ
  half : ℚ → ℚ
  mono_add : ∀ x, Monotone (add x)
  nonneg_add : ∀ x y, 0 ≤ x → 0 ≤ y → 0 ≤ add x y
  nonneg_half : ∀ x, 0 ≤ x → 0 ≤ half x

def Arithmetic.exact : Arithmetic where
  add x y := x + y
  half x := x / 2
  mono_add _ := add_right_mono
  nonneg_add _ _ one two := add_nonneg one two
  nonneg_half _ nonneg := div_nonneg nonneg zero_le_two

/-- The arithmetic of `double`, in which half of infinity is infinity. -/
def Arithmetic.double : Arithmetic where
  add x y := binary64.saturated (x + y)
  half x := if x = binary64.infinity then x else binary64.saturated (x / 2)
  mono_add x _ _ below := binary64.saturated_mono (add_le_add_right below x)
  nonneg_add _ _ one two := Format.saturated_nonneg (add_nonneg one two)
  nonneg_half x nonneg := by
    split
    · exact nonneg
    · exact Format.saturated_nonneg (by linarith)

section Machine
variable (ar : Arithmetic)

def rankOver (info : TaskSchedulingInfo) (tn : Nat) (maxSuccessorRank : ℚ) : ℚ :=
  if tn = 0 then ar.add 10 maxSuccessorRank
  else ar.add (ar.half (ar.add info.computationCostCPU info.computationCostDPU)) maxSuccessorRank

def calculateUpwardRank (g : TaskGraph) : Nat → Nat → SchedulingInfo → Option (ℚ × SchedulingInfo)
  | 0, _, _ => none
  | fuel + 1, tn, table =>
    if (table tn).upwardRank ≠ -1 then some ((table tn).upwardRank,table)
    else
      ((g.successors tn).foldlM (fun reached succ =>
        (calculateUpwardRank g fuel succ reached.2).map fun result =>
          (max reached.1 result.1,result.2)) (0,table)).map fun (maxSuccessorRank,table) =>
        let upwardRank := rankOver ar (table tn) tn maxSuccessorRank
        (upwardRank,Function.update table tn { table tn with upwardRank := upwardRank })

def calculateUpwardRanksIn (g : TaskGraph) (table : SchedulingInfo) : Option SchedulingInfo :=
  (List.range g.numVertices).foldlM (fun table tn =>
    (calculateUpwardRank ar g g.numVertices tn table).map (·.2)) table

def transferCost (om : PerfModel) (g : TaskGraph) (edge : Transfer) : ℚ :=
  let source := g.properties edge.source
  let size := if source.op ≠ .LOGIC_START then source.inputSizeMiB else 0
  (om.deducePerfCPU .MAP (truncate32 (edge.dataSizeRatio * size))).timeCostSecond

def earliestStartTimeIn (om : PerfModel) (g : TaskGraph) (tn : Nat) (table : SchedulingInfo)
    (processor : Processor) : ℚ :=
  (g.inEdges tn).foldl (fun start edge =>
    let predInfo := table edge.source
    if predInfo.assignedProcessor ≠ processor.id then
      max start (ar.add predInfo.endTime (transferCost om g edge))
    else start) processor.nextAvailableTime

/-- The index of the processor that finishes the task first, and when it does. -/
def bestProcessorIn (om : PerfModel) (g : TaskGraph) (tn : Nat) (table : SchedulingInfo)
    (processors : List Processor) : Nat × ℚ :=
  processors.zipIdx.foldl (fun best candidate =>
    let computationCost :=
      if candidate.1.id = 0 then (table tn).computationCostCPU else (table tn).computationCostDPU
    let finishTime := ar.add (earliestStartTimeIn ar om g tn table candidate.1) computationCost
    if finishTime < best.2 then (candidate.2,finishTime) else best) (0,doubleMax)

def scheduleTaskIn (om : PerfModel) (g : TaskGraph) (tn : Nat) (table : SchedulingInfo)
    (processors : List Processor) : SchedulingInfo × List Processor :=
  let (best,earliestFinishTime) := bestProcessorIn ar om g tn table processors
  let processor := processors.getD best ⟨0,0⟩
  (Function.update table tn
    { table tn with
      assignedProcessor := processor.id
      startTime := processor.nextAvailableTime
      endTime := earliestFinishTime },
    processors.set best { processor with nextAvailableTime := earliestFinishTime })

def assignRatiosIn (om : PerfModel) (g : TaskGraph) (sortedTasks : List Nat) (table : SchedulingInfo) :
    List ℚ :=
  (sortedTasks.foldl (fun (ratios,table,processors) tn =>
    let (table,processors) := scheduleTaskIn ar om g tn table processors
    (ratios ++ [if (table tn).assignedProcessor = 1 then 1 else 0],table,processors))
    (([] : List ℚ),table,[⟨0,0⟩,⟨1,0⟩])).1

def byRank (table : SchedulingInfo) (a b : Nat) : Bool := (table a).upwardRank > (table b).upwardRank

def scheduleIn (sort : (Nat → Nat → Bool) → List Nat → List Nat) (om : PerfModel) (g : TaskGraph) :
    Option Schedule :=
  (calculateUpwardRanksIn ar g (initialInfo om g)).map fun table =>
    let sortedTasks := sort (byRank table) (List.range g.numVertices)
    { isAlwaysWrittingBack := false
      order := sortedTasks
      offloadRatio := (assignRatiosIn ar om g sortedTasks table).set (g.numVertices - 1) 0 }

end Machine

abbrev calculateUpwardRanks := calculateUpwardRanksIn .exact

abbrev earliestStartTime := earliestStartTimeIn .exact

abbrev bestProcessor := bestProcessorIn .exact

abbrev scheduleTask := scheduleTaskIn .exact

abbrev schedule := scheduleIn .exact

end MetaPB.Scheduler

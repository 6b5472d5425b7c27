import MetaPB.Executor.ParseGraph
import MetaPB.Lib.Transition
import Mathlib.Data.Fintype.EquivFin

/-! The pool of four workers. `parseGraph` fills the queues; each worker then pops
its front task, waits for its dependencies, takes `dpuMutex_` for DPU-related tasks,
executes, and publishes completion. A run is a list of worker events in the order
they happen, so every interleaving is one list. Wall-clock timings are left out. -/
namespace MetaPB.Executor
open Operator Utils Lib.Word

inductive ExecType where
  | MIMIC | DO
  deriving DecidableEq, Repr

inductive Worker where
  | cpu | dpu | map | reduce
  deriving DecidableEq, Repr

instance : Fintype Worker := ⟨{.cpu,.dpu,.map,.reduce},by intro worker; cases worker <;> decide⟩

/-- What a task's `execute` closure does with the arguments it captured. In `DO`
mode it runs an operator on memory, which no field of the pool records. -/
inductive Closure where
  | nothing
  | execCPU (opTag : OperatorTag) (cpuTCB : CpuTcb)
  | execDPU (opTag : OperatorTag) (dpuTCB : DpuTcb)
  | mimic (worker : Worker) (opTag : OperatorTag) (pageBlkCnt : Nat)
  deriving DecidableEq

structure Task where
  isDPURelated : Bool := false
  id : Nat
  execute : Closure
  deriving DecidableEq

structure CompleteSgn where
  isCompleted : Bool := false
  completeTimeMs : ℚ := 0

inductive Phase where
  | idle
  | waiting (task : Task)
  | ready (task : Task)
  | executing (task : Task)
  | executed (task : Task)
  deriving DecidableEq

structure Pool where
  dependencies : Nat → List Nat := fun _ => []
  completed : Worker → Nat → CompleteSgn := fun _ _ => {}
  lastWakerTimeMs : Worker → Nat → ℚ := fun _ _ => 0
  queue : Worker → List Task := fun _ => []
  cpuMIMICTimeMs : ℚ := 0
  dpuMIMICTimeMs : ℚ := 0
  totalEnergyCostJoule : ℚ := 0
  totalTransferMb : ℚ := 0
  phase : Worker → Phase := fun _ => .idle
  dpuMutex : Option Worker := none

def genComputeTask (taskId : Nat) (opTag : OperatorTag) (cpuTCB : CpuTcb) (dpuTCB : DpuTcb) :
    ExecType → Task × Task
  | .DO =>
    (⟨false,taskId,if cpuTCB.pageBlkCnt ≠ 0 then .execCPU opTag cpuTCB else .nothing⟩,
      ⟨true,taskId,if dpuTCB.pageCnt ≠ 0 then .execDPU opTag dpuTCB else .nothing⟩)
  | .MIMIC =>
    (⟨false,taskId,.mimic .cpu opTag cpuTCB.pageBlkCnt⟩,⟨true,taskId,.mimic .dpu opTag dpuTCB.pageCnt⟩)

def isLogic (opTag : OperatorTag) : Bool := opTag = .LOGIC_END ∨ opTag = .LOGIC_START

def genXferTask (taskId : Nat) (opTag : OperatorTag) (mapTCB reduceTCB : CpuTcb)
    (eT : ExecType) : Task × Task :=
  if isLogic opTag then (⟨true,taskId,.nothing⟩,⟨true,taskId,.nothing⟩)
  else match eT with
    | .DO => (⟨true,taskId,.execCPU .MAP mapTCB⟩,⟨true,taskId,.execCPU .REDUCE reduceTCB⟩)
    | .MIMIC =>
      (⟨true,taskId,.mimic .map .MAP mapTCB.sgInfo.pageBlkCnt⟩,
        ⟨true,taskId,.mimic .reduce .REDUCE reduceTCB.sgInfo.pageBlkCnt⟩)

/-- What `genXferTask` adds to `totalTransfer_mb`, in 32-bit arithmetic. -/
def xferMovement (opTag : OperatorTag) (mapTCB reduceTCB : CpuTcb) : Nat :=
  if isLogic opTag then 0
  else wrap32 (wrap32 (reduceTCB.sgInfo.pageBlkCnt * pageBlkSize) +
    wrap32 (mapTCB.sgInfo.pageBlkCnt * pageBlkSize)) / 2^20

def plannedTask (heapBasePtr : Nat) (g : TaskGraph) (sched : Schedule) (eT : ExecType)
    (i : Nat) (worker : Worker) : Task :=
  let plan := planTask g sched i
  let mem := memPlan heapBasePtr plan
  let op := (g.properties plan.taskId).op
  let compute := genComputeTask plan.taskId op mem.cpuTCB mem.dpuTCB eT
  let xfer := genXferTask plan.taskId op mem.mapTCB mem.reduceTCB eT
  match worker with
  | .cpu => compute.1
  | .dpu => compute.2
  | .map => xfer.1
  | .reduce => xfer.2

def cleanStatus : Pool := {}

def parseStep (heapBasePtr : Nat) (g : TaskGraph) (sched : Schedule) (eT : ExecType)
    (pool : Pool) (i : Nat) : Pool :=
  let plan := planTask g sched i
  let mem := memPlan heapBasePtr plan
  let op := (g.properties plan.taskId).op
  { pool with
    dependencies := Function.update pool.dependencies plan.taskId
      (pool.dependencies plan.taskId ++ g.predecessors plan.taskId)
    queue := fun worker => pool.queue worker ++ [plannedTask heapBasePtr g sched eT i worker]
    totalTransferMb := pool.totalTransferMb + xferMovement op mem.mapTCB mem.reduceTCB }

def parseGraph (heapBasePtr : Nat) (g : TaskGraph) (sched : Schedule) (eT : ExecType) : Pool :=
  (List.range sched.order.length).foldl (parseStep heapBasePtr g sched eT) cleanStatus

/-- The vector a worker's dependency check reads belongs to another worker. -/
def Worker.awaits : Worker → Worker
  | .cpu => .reduce
  | .dpu => .map
  | .map => .cpu
  | .reduce => .dpu

namespace Pool

def waitList (pool : Pool) : Worker → Nat → List Nat
  | .cpu, id => pool.dependencies id
  | .dpu, id => pool.dependencies id
  | .map, id => [id]
  | .reduce, id => [id]

/-- A failed check keeps the waker times it gathered before the failure. -/
def allDependenciesMet (completed : Nat → CompleteSgn) : List Nat → ℚ → Bool × ℚ
  | [], lastWakerTimeMs => (true,lastWakerTimeMs)
  | dep::deps, lastWakerTimeMs =>
    if (completed dep).isCompleted = false then (false,lastWakerTimeMs)
    else allDependenciesMet completed deps (max lastWakerTimeMs (completed dep).completeTimeMs)

def put {β : Type} (table : Worker → Nat → β) (worker : Worker) (id : Nat) (value : β) :
    Worker → Nat → β :=
  Function.update table worker (Function.update (table worker) id value)

end Pool

def perf (om : PerfModel) (worker : Worker) (opTag : OperatorTag) (pageBlkCnt : Nat) : PerfStats :=
  if pageBlkCnt = 0 then {}
  else match worker with
    | .dpu => om.deducePerfDPU opTag pageBlkCnt
    | _ => om.deducePerfCPU opTag pageBlkCnt

namespace Pool

def clock (pool : Pool) : Worker → ℚ
  | .cpu => pool.cpuMIMICTimeMs
  | _ => pool.dpuMIMICTimeMs

/-- The critical zone of a `MIMIC` closure: the DPU, MAP and REDUCE workers share
one clock. Times and energies are added exactly. -/
def criticalZone (pool : Pool) (worker : Worker) (id : Nat) (stats : PerfStats) : Pool :=
  let now := max (pool.clock worker) (pool.lastWakerTimeMs worker id) + stats.timeCostSecond * 1000
  let signal := { pool.completed worker id with completeTimeMs := now }
  { pool with
    cpuMIMICTimeMs := if worker = .cpu then now else pool.cpuMIMICTimeMs
    dpuMIMICTimeMs := if worker = .cpu then pool.dpuMIMICTimeMs else now
    completed := put pool.completed worker id signal
    totalEnergyCostJoule := pool.totalEnergyCostJoule + stats.energyCostJoule }

def runClosure (om : PerfModel) (pool : Pool) (task : Task) : Pool :=
  match task.execute with
  | .mimic worker opTag pageBlkCnt =>
    pool.criticalZone worker task.id (perf om worker opTag pageBlkCnt)
  | _ => pool

end Pool

inductive Action where
  | pop | check | start | execute | publish
  deriving DecidableEq, Repr

structure Event where
  worker : Worker
  action : Action
  id : Nat
  deriving DecidableEq, Repr

namespace Pool

def enter (pool : Pool) (worker : Worker) (phase : Phase) : Pool :=
  { pool with phase := Function.update pool.phase worker phase }

/-- `processTasks`, one statement of one worker at a time. A failed check leaves the
worker waiting; a taken `dpuMutex_` refuses the start. -/
def step (om : PerfModel) (pool : Pool) (event : Event) : Option Pool :=
  let worker := event.worker
  match event.action,pool.phase worker with
  | .pop,.idle =>
    match pool.queue worker with
    | task::rest =>
      if task.id = event.id then
        some ({ pool with queue := Function.update pool.queue worker rest }.enter worker (.waiting task))
      else none
    | [] => none
  | .check,.waiting task =>
    if task.id = event.id then
      let checked := allDependenciesMet (pool.completed worker.awaits) (pool.waitList worker task.id)
        (pool.lastWakerTimeMs worker task.id)
      some ({ pool with lastWakerTimeMs := put pool.lastWakerTimeMs worker task.id checked.2 }.enter
        worker (if checked.1 then .ready task else .waiting task))
    else none
  | .start,.ready task =>
    if task.id = event.id ∧ (task.isDPURelated = true → pool.dpuMutex = none) then
      some ({ pool with dpuMutex := if task.isDPURelated then some worker else pool.dpuMutex }.enter
        worker (.executing task))
    else none
  | .execute,.executing task =>
    if task.id = event.id then
      some ({ pool.runClosure om task with
        dpuMutex := if task.isDPURelated then none else pool.dpuMutex }.enter worker (.executed task))
    else none
  | .publish,.executed task =>
    if task.id = event.id then
      let signal := { pool.completed worker task.id with isCompleted := true }
      some ({ pool with completed := put pool.completed worker task.id signal }.enter worker .idle)
    else none
  | _,_ => none

def cycle (subtask : Worker × Nat) : List Event :=
  [Action.pop,.check,.start,.execute,.publish].map (⟨subtask.1,·,subtask.2⟩)

/-- All four threads have left `processTasks`, so every `join` returns. -/
def Joined (pool : Pool) : Prop := ∀ worker, pool.phase worker = .idle ∧ pool.queue worker = []

def result (pool : Pool) : PerfStats :=
  { timeCostSecond := max pool.cpuMIMICTimeMs pool.dpuMIMICTimeMs / 1000
    energyCostJoule := pool.totalEnergyCostJoule
    dataMovementMiB := pool.totalTransferMb }

end Pool

instance (pool : Pool) : Decidable pool.Joined :=
  inferInstanceAs (Decidable (∀ worker, pool.phase worker = .idle ∧ pool.queue worker = []))

/-- `execWorkload` in `MIMIC` mode when its workers interleave as `events` says, or
`none` when the events are not a run that lets every thread finish. -/
def execWorkload (om : PerfModel) (heapBasePtr : Nat) (g : TaskGraph) (sched : Schedule)
    (events : List Event) : Option PerfStats :=
  (Lib.Transition.run (Pool.step om) (parseGraph heapBasePtr g sched .MIMIC) events).bind fun pool =>
    if pool.Joined then some pool.result else none

theorem execWorkload_eq_some (om : PerfModel) (heapBasePtr : Nat) (g : TaskGraph) (sched : Schedule)
    (events : List Event) (stats : PerfStats) :
    execWorkload om heapBasePtr g sched events = some stats ↔
      ∃ pool, Lib.Transition.run (Pool.step om) (parseGraph heapBasePtr g sched .MIMIC) events =
        some pool ∧ pool.Joined ∧ pool.result = stats := by
  simp [execWorkload,Option.bind_eq_some_iff]

end MetaPB.Executor

import MetaPB.Lib.Loop
import MetaPB.Operator.OperatorBase

/-! The operator manager: one operator for every tag, trained in bulk. A training call
rounds the largest workload of its task to page blocks, trains every operator the task
names with that one bound, and then always makes and trains new transfer operators. -/
namespace MetaPB.Operator
open Utils Lib.Loop Lib.Word

/-- Every tag, in the order a map keyed by tags is walked. -/
def allOPSet : List OperatorTag :=
  [.AFFINE,.EUDIST,.CONV_1D,.LOOKUP,.ELEW_PROD,.ELEW_ADD,.LOGIC_START,.LOGIC_END,.MAP,.REDUCE,
    .MAC,.FILTER,.UNDEFINED]

def computeBoundOPSet : List OperatorTag := [.FILTER,.CONV_1D]

def memoryBoundOPSet : List OperatorTag := [.AFFINE,.MAC,.EUDIST,.LOOKUP,.ELEW_PROD,.ELEW_ADD]

def xferOPSet : List OperatorTag := [.MAP,.REDUCE]

def allPerfRelOPSet : List OperatorTag := computeBoundOPSet ++ memoryBoundOPSet ++ xferOPSet

/-- `checkIfIsTrainable` and `checkIfIsCPUOnly` of each operator class. -/
def operatorKind : OperatorTag → OperatorKind
  | .LOGIC_START | .LOGIC_END | .UNDEFINED => ⟨false,true⟩
  | .MAP | .REDUCE => ⟨true,true⟩
  | _ => ⟨true,false⟩

/-- Largest workload in MiB of each operator that a graph uses. -/
abbrev RegressionTask := OperatorTag → Option Nat

/-- What the n-th training finds in the cache directory and measures when it probes. -/
structure Machine where
  cache : Nat → ModelCache
  probeCPU : Nat → Nat → PerfStats
  probeDPU : Nat → Nat → PerfStats

-- the constructor fills the map for every tag, so no look-up in it fails
structure OperatorManager where
  opMap : OperatorTag → OperatorBase := fun _ => {}
  trainings : Nat := 0

def getOperator (_opTag : OperatorTag) : OperatorBase := {}

namespace RegressionTask

def maxBlk (task : RegressionTask) : Nat :=
  allOPSet.foldl (fun maxBlk opTag =>
    match task opTag with
    | some dataSizeUpperBoundMiB =>
      let blkNum := getNearestPageBlkCnt dataSizeUpperBoundMiB
      if blkNum > maxBlk then blkNum else maxBlk
    | none => maxBlk) 0

end RegressionTask

namespace OperatorManager

def trainOperator (machine : Machine) (pageBlkUpperBound : Nat) (om : OperatorManager)
    (opTag : OperatorTag) : Option OperatorManager :=
  (OperatorBase.trainModel (operatorKind opTag) (machine.cache om.trainings)
    (machine.probeCPU om.trainings) (machine.probeDPU om.trainings) pageBlkUpperBound
    (om.opMap opTag)).map fun op =>
      { opMap := Function.update om.opMap opTag op, trainings := om.trainings + 1 }

def trainModel (machine : Machine) (task : RegressionTask) (om : OperatorManager) :
    Option OperatorManager := do
  let om ← (allOPSet.filter fun opTag => (task opTag).isSome).foldlM
    (trainOperator machine task.maxBlk) om
  let xfer := Function.update (Function.update om.opMap .MAP (getOperator .MAP)) .REDUCE
    (getOperator .REDUCE)
  let om ← trainOperator machine task.maxBlk { om with opMap := xfer } .MAP
  trainOperator machine task.maxBlk om .REDUCE

-- the sets of operators are walked in the order of their smallest tags
def trainAll (machine : Machine) (pageBlkUpperBound : Nat) (om : OperatorManager) :
    Option OperatorManager :=
  [.AFFINE,.EUDIST,.LOOKUP,.ELEW_PROD,.ELEW_ADD,.MAC,.CONV_1D,.FILTER,.MAP,.REDUCE].foldlM
    (trainOperator machine pageBlkUpperBound) om

/-- The managers that calls of `trainModel` and `trainAll` on some machines lead to. -/
inductive ReachedOn (machines : Machine → Prop) : OperatorManager → Prop
  | fresh : ReachedOn machines {}
  | trainModel {om trained : OperatorManager} (machine : Machine) (task : RegressionTask)
    (reached : ReachedOn machines om) (one : machines machine)
    (ran : om.trainModel machine task = some trained) : ReachedOn machines trained
  | trainAll {om trained : OperatorManager} (machine : Machine) (pageBlkUpperBound : Nat)
    (reached : ReachedOn machines om) (one : machines machine)
    (ran : om.trainAll machine pageBlkUpperBound = some trained) : ReachedOn machines trained

def Reached : OperatorManager → Prop := ReachedOn fun _ => True

/-- A manager that was trained at least once. -/
def Trained (trained : OperatorManager) : Prop :=
  ∃ om, Reached om ∧ ((∃ machine task, om.trainModel machine task = some trained) ∨
    ∃ machine pageBlkUpperBound, om.trainAll machine pageBlkUpperBound = some trained)

def deducePerfCPU (om : OperatorManager) (opTag : OperatorTag) (pageBlkCnt : Nat) : Option PerfStats :=
  (om.opMap opTag).deducePerfCPU pageBlkCnt

def deducePerfDPU (om : OperatorManager) (opTag : OperatorTag) (pageBlkCnt : Nat) : Option PerfStats :=
  (om.opMap opTag).deducePerfDPU pageBlkCnt

def upperBound (om : OperatorManager) (opTag : OperatorTag) : Nat :=
  (om.opMap opTag).deducePageBlkUpperBound

end OperatorManager

theorem mem_allOPSet (opTag : OperatorTag) : opTag ∈ allOPSet := by cases opTag <;> decide

section Bounds
variable {machine : Machine} {om trained : OperatorManager}

theorem OperatorBase.loadModelCacheIfExist_bound {kind : OperatorKind} {cache : ModelCache} {bound : Nat}
    {op after : OperatorBase} {loaded : Bool}
    (ran : OperatorBase.loadModelCacheIfExist kind cache bound op = some (loaded,after)) :
    loaded = true ∧ after.deducePageBlkUpperBound = bound ∨ loaded = false ∧ kind.isTrainable = true := by
  unfold OperatorBase.loadModelCacheIfExist at ran
  split at ran
  next trainable =>
    split at ran
    · cases Option.some.inj ran
      exact Or.inr ⟨rfl,trainable⟩
    · obtain ⟨cpu,-,rest⟩ := Option.bind_eq_some_iff.mp ran
      split at rest
      · cases Option.some.inj rest
        exact Or.inl ⟨rfl,rfl⟩
      · split at rest
        · cases Option.some.inj rest
          exact Or.inr ⟨rfl,trainable⟩
        · obtain ⟨dpu,-,same⟩ := Option.map_eq_some_iff.mp rest
          cases same
          exact Or.inl ⟨rfl,rfl⟩
  · cases Option.some.inj ran
    exact Or.inl ⟨rfl,rfl⟩

theorem OperatorBase.trainModel_bound {kind : OperatorKind} {cache : ModelCache}
    {probeCPU probeDPU : Nat → PerfStats} {bound : Nat} {op trained : OperatorBase}
    (ran : OperatorBase.trainModel kind cache probeCPU probeDPU bound op = some trained) :
    trained.deducePageBlkUpperBound = bound := by
  obtain ⟨⟨loaded,before⟩,looked,rest⟩ := Option.bind_eq_some_iff.mp ran
  dsimp only at rest
  split at rest
  · obtain ⟨points,-,more⟩ := Option.bind_eq_some_iff.mp rest
    obtain ⟨filled,-,rfl⟩ := Option.map_eq_some_iff.mp more
    rfl
  next kept =>
    cases Option.some.inj rest
    rcases OperatorBase.loadModelCacheIfExist_bound looked with ⟨-,known⟩ | missing
    · exact known
    · exact absurd missing kept

theorem OperatorManager.trainOperator_upperBound {bound : Nat} {opTag : OperatorTag}
    (ran : om.trainOperator machine bound opTag = some trained) (other : OperatorTag) :
    trained.upperBound other = if other = opTag then bound else om.upperBound other := by
  obtain ⟨op,learnt,rfl⟩ := Option.map_eq_some_iff.mp ran
  rcases eq_or_ne other opTag with rfl | apart
  · simp [OperatorManager.upperBound,OperatorBase.trainModel_bound learnt]
  · simp [OperatorManager.upperBound,apart]

theorem OperatorManager.trainOperators_upperBound {bound : Nat} {opTags : List OperatorTag}
    (ran : opTags.foldlM (OperatorManager.trainOperator machine bound) om = some trained)
    (other : OperatorTag) :
    trained.upperBound other = if other ∈ opTags then bound else om.upperBound other := by
  induction opTags generalizing om with
  | nil =>
    cases Option.some.inj ran
    simp
  | cons opTag rest ih =>
    rw [List.foldlM_cons] at ran
    obtain ⟨middle,first,later⟩ := Option.bind_eq_some_iff.mp ran
    rw [ih later,OperatorManager.trainOperator_upperBound first]
    rcases eq_or_ne other opTag with rfl | apart
    · simp
    · simp [apart]

theorem OperatorManager.trainModel_upperBound {task : RegressionTask}
    (ran : om.trainModel machine task = some trained) (opTag : OperatorTag) :
    trained.upperBound opTag =
      if opTag ∈ xferOPSet ∨ (task opTag).isSome then task.maxBlk else om.upperBound opTag := by
  simp only [OperatorManager.trainModel,Option.bind_eq_bind,Option.bind_eq_some_iff] at ran
  obtain ⟨first,operators,second,mapped,reduced⟩ := ran
  rw [OperatorManager.trainOperator_upperBound reduced,OperatorManager.trainOperator_upperBound mapped]
  have kept := OperatorManager.trainOperators_upperBound operators opTag
  have remade (tag : OperatorTag) (compute : tag ≠ .MAP ∧ tag ≠ .REDUCE) :
      OperatorManager.upperBound { first with
        opMap := Function.update (Function.update first.opMap .MAP (getOperator .MAP)) .REDUCE
          (getOperator .REDUCE) } tag = first.upperBound tag := by
    simp [OperatorManager.upperBound,compute]
  rcases eq_or_ne opTag .REDUCE with rfl | notReduce
  · simp [xferOPSet]
  rcases eq_or_ne opTag .MAP with rfl | notMap
  · simp [xferOPSet]
  rw [if_neg notReduce,if_neg notMap,remade opTag ⟨notMap,notReduce⟩,kept]
  simp [List.mem_filter,mem_allOPSet,xferOPSet,notReduce,notMap]

end Bounds
section Operators
variable {machine : Machine} {om trained : OperatorManager} {opTag : OperatorTag}
  {holds : OperatorTag → OperatorBase → Prop}

/-- What every training on a machine keeps of an operator. -/
def Machine.Keeps (machine : Machine) (holds : OperatorTag → OperatorBase → Prop) : Prop :=
  ∀ opTag training bound op trained, holds opTag op →
    OperatorBase.trainModel (operatorKind opTag) (machine.cache training) (machine.probeCPU training)
      (machine.probeDPU training) bound op = some trained → holds opTag trained

theorem OperatorManager.trainOperator_holds (keeps : machine.Keeps holds) {bound : Nat}
    (all : ∀ tag, holds tag (om.opMap tag)) (ran : om.trainOperator machine bound opTag = some trained) :
    ∀ tag, holds tag (trained.opMap tag) := by
  obtain ⟨op,learnt,rfl⟩ := Option.map_eq_some_iff.mp ran
  exact (Function.forall_update_iff om.opMap holds).mpr
    ⟨keeps _ _ _ _ _ (all opTag) learnt,fun tag _ => all tag⟩

theorem OperatorManager.trainOperators_holds (keeps : machine.Keeps holds) {bound : Nat}
    {opTags : List OperatorTag} (all : ∀ tag, holds tag (om.opMap tag))
    (ran : opTags.foldlM (OperatorManager.trainOperator machine bound) om = some trained) :
    ∀ tag, holds tag (trained.opMap tag) :=
  foldlM_invariant all (fun _ _ _ _ before stepped =>
    OperatorManager.trainOperator_holds keeps before stepped) ran

theorem OperatorManager.trainModel_holds (keeps : machine.Keeps holds) (fresh : ∀ tag, holds tag {})
    {task : RegressionTask} (all : ∀ tag, holds tag (om.opMap tag))
    (ran : om.trainModel machine task = some trained) : ∀ tag, holds tag (trained.opMap tag) := by
  simp only [OperatorManager.trainModel,Option.bind_eq_bind,Option.bind_eq_some_iff] at ran
  obtain ⟨first,operators,second,mapped,reduced⟩ := ran
  apply OperatorManager.trainOperator_holds keeps _ reduced
  apply OperatorManager.trainOperator_holds keeps _ mapped
  have kept := OperatorManager.trainOperators_holds keeps all operators
  have mapRemade := (Function.forall_update_iff first.opMap holds).mpr
    ⟨fresh .MAP,fun tag _ => kept tag⟩
  exact (Function.forall_update_iff _ holds).mpr ⟨fresh .REDUCE,fun tag _ => mapRemade tag⟩

/-- What a new operator has and every training keeps, the operators of every reached manager have. -/
theorem OperatorManager.ReachedOn.operators {machines : Machine → Prop}
    (holds : OperatorTag → OperatorBase → Prop) (reached : om.ReachedOn machines)
    (fresh : ∀ tag, holds tag {})
    (keeps : ∀ machine, machines machine → machine.Keeps holds) : ∀ tag, holds tag (om.opMap tag) := by
  induction reached with
  | fresh => exact fresh
  | trainModel machine _ _ one ran ih =>
    exact OperatorManager.trainModel_holds (keeps machine one) fresh ih ran
  | trainAll machine _ _ one ran ih =>
    exact OperatorManager.trainOperators_holds (keeps machine one) ih ran

/-- An operator that was never probed or loaded. -/
def OperatorBase.Blank (op : OperatorBase) : Prop :=
  op.cpuPerfSamples = (fun _ => 0) ∧ op.dpuPerfSamples = fun _ => 0

theorem OperatorBase.trainModel_untrainable {kind : OperatorKind} {cache : ModelCache}
    {probeCPU probeDPU : Nat → PerfStats} {bound : Nat} {op trained : OperatorBase}
    (logical : kind.isTrainable = false)
    (ran : OperatorBase.trainModel kind cache probeCPU probeDPU bound op = some trained) :
    trained = { op with deducePageBlkUpperBound := bound } := by
  simp only [OperatorBase.trainModel,OperatorBase.loadModelCacheIfExist,logical,Bool.false_eq_true,
    if_false,Option.bind_some,and_false] at ran
  exact (Option.some.inj ran).symm

theorem OperatorManager.Reached.blank (reached : om.Reached)
    (logical : (operatorKind opTag).isTrainable = false) : (om.opMap opTag).Blank := by
  refine reached.operators (fun tag op => (operatorKind tag).isTrainable = false → op.Blank) ?_ ?_ opTag logical
  · intro _ _
    exact ⟨rfl,rfl⟩
  · intro machine _ tag training bound op trained blank ran untrainable
    rw [OperatorBase.trainModel_untrainable untrainable ran]
    exact blank untrainable

theorem OperatorManager.Trained.reached (trained : om.Trained) : om.Reached := by
  obtain ⟨before,reached,⟨machine,task,ran⟩ | ⟨machine,bound,ran⟩⟩ := trained
  · exact ReachedOn.trainModel machine task reached trivial ran
  · exact ReachedOn.trainAll machine bound reached trivial ran

end Operators
section Timed

/-- Times in the cache files and of the probes are not negative. -/
structure Machine.Timed (machine : Machine) : Prop where
  cpuRows : ∀ training, ∀ rows ∈ (machine.cache training).cpuRows, ∀ row ∈ rows, 0 ≤ row.timeCostSecond
  dpuRows : ∀ training, ∀ rows ∈ (machine.cache training).dpuRows, ∀ row ∈ rows, 0 ≤ row.timeCostSecond
  probeCPU : ∀ training pageBlkCnt, 0 ≤ (machine.probeCPU training pageBlkCnt).timeCostSecond
  probeDPU : ∀ training pageBlkCnt, 0 ≤ (machine.probeDPU training pageBlkCnt).timeCostSecond

def PerfSamples.Timed (samples : PerfSamples) : Prop := ∀ i, 0 ≤ (samples i).timeCostSecond

def OperatorBase.Timed (op : OperatorBase) : Prop := op.cpuPerfSamples.Timed ∧ op.dpuPerfSamples.Timed

variable {samples filled : PerfSamples}

theorem PerfSamples.Timed.write (timed : samples.Timed) {index : Nat} {stats : PerfStats}
    (nonneg : 0 ≤ stats.timeCostSecond) (stored : samples.write index stats = some filled) :
    filled.Timed := by
  obtain ⟨inside,rfl⟩ := PerfSamples.write_eq_some.mp stored
  exact (Function.forall_update_iff samples fun _ stats => 0 ≤ stats.timeCostSecond).mpr
    ⟨nonneg,fun i _ => timed i⟩

theorem PerfSamples.Timed.load (timed : samples.Timed) {rows : List PerfStats}
    (nonneg : ∀ row ∈ rows, 0 ≤ row.timeCostSecond)
    (loaded : OperatorBase.loadPerfSamples samples rows = some filled) : filled.Timed := by
  refine foldlM_invariant timed ?_ loaded
  intro row member middle next before stored
  exact before.write (nonneg _ (List.fst_mem_of_mem_zipIdx member)) stored

theorem OperatorBase.Timed.load {op after : OperatorBase} (timed : op.Timed) {kind : OperatorKind}
    {cache : ModelCache} {bound : Nat} {loaded : Bool}
    (cpuRows : ∀ rows ∈ cache.cpuRows, ∀ row ∈ rows, 0 ≤ row.timeCostSecond)
    (dpuRows : ∀ rows ∈ cache.dpuRows, ∀ row ∈ rows, 0 ≤ row.timeCostSecond)
    (ran : OperatorBase.loadModelCacheIfExist kind cache bound op = some (loaded,after)) : after.Timed := by
  unfold OperatorBase.loadModelCacheIfExist at ran
  split at ran
  · split at ran
    · cases Option.some.inj ran
      exact timed
    next rows given =>
      obtain ⟨cpu,filled,rest⟩ := Option.bind_eq_some_iff.mp ran
      have cpuTimed := timed.1.load (cpuRows rows given) filled
      split at rest
      · cases Option.some.inj rest
        exact ⟨cpuTimed,timed.2⟩
      · split at rest
        · cases Option.some.inj rest
          exact ⟨cpuTimed,timed.2⟩
        next rows given =>
          obtain ⟨dpu,filled,same⟩ := Option.map_eq_some_iff.mp rest
          cases same
          exact ⟨cpuTimed,timed.2.load (dpuRows rows given) filled⟩
  · cases Option.some.inj ran
    exact timed

theorem OperatorBase.Timed.train {op trained : OperatorBase} (timed : op.Timed) {kind : OperatorKind}
    {probeCPU probeDPU : Nat → PerfStats} {point : Nat × Nat}
    (cpu : ∀ pageBlkCnt, 0 ≤ (probeCPU pageBlkCnt).timeCostSecond)
    (dpu : ∀ pageBlkCnt, 0 ≤ (probeDPU pageBlkCnt).timeCostSecond)
    (ran : OperatorBase.train kind probeCPU probeDPU op point = some trained) : trained.Timed := by
  obtain ⟨filled,stored,rest⟩ := Option.bind_eq_some_iff.mp ran
  have cpuTimed := timed.1.write (cpu point.1) stored
  split at rest
  · cases Option.some.inj rest
    exact ⟨cpuTimed,timed.2⟩
  · obtain ⟨_,storedDpu,rfl⟩ := Option.map_eq_some_iff.mp rest
    exact ⟨cpuTimed,timed.2.write (dpu point.1) storedDpu⟩

theorem Machine.Timed.keeps {machine : Machine} (timed : machine.Timed) :
    machine.Keeps fun _ op => op.Timed := by
  intro _ training bound op trained before ran
  obtain ⟨⟨loaded,middle⟩,looked,rest⟩ := Option.bind_eq_some_iff.mp ran
  have read := before.load (timed.cpuRows training) (timed.dpuRows training) looked
  dsimp only at rest
  split at rest
  · obtain ⟨points,-,more⟩ := Option.bind_eq_some_iff.mp rest
    obtain ⟨probed,turned,rfl⟩ := Option.map_eq_some_iff.mp more
    have all : probed.Timed := foldlM_invariant read (fun _ _ _ _ earlier stepped =>
      earlier.train (timed.probeCPU training) (timed.probeDPU training) stepped) turned
    exact all
  · cases Option.some.inj rest
    exact read

/-- Managers trained on such machines deduce no negative time. -/
theorem OperatorManager.ReachedOn.deducePerf_nonneg {om : OperatorManager}
    (reached : om.ReachedOn Machine.Timed) {opTag : OperatorTag} {pageBlkCnt : Nat} {stats : PerfStats}
    (deduced : om.deducePerfCPU opTag pageBlkCnt = some stats ∨
      om.deducePerfDPU opTag pageBlkCnt = some stats) : 0 ≤ stats.timeCostSecond := by
  have timed : (om.opMap opTag).Timed := by
    refine reached.operators (fun _ op => op.Timed) ?_ (fun _ one => one.keeps) opTag
    exact fun _ => ⟨fun _ => le_rfl,fun _ => le_rfl⟩
  rcases deduced with cpu | dpu
  · exact Operator.deducePerf_nonneg timed.1 cpu
  · exact Operator.deducePerf_nonneg timed.2 dpu

end Timed
end MetaPB.Operator

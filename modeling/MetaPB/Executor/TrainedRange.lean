import MetaPB.Operator.OperatorManager
import MetaPB.Executor.HeteroComputePool
import MetaPB.Executor.TransferPlan
import Mathlib.Tactic.Linarith
import Mathlib.Tactic.FieldSimp

/-! Which page-block counts execution asks the performance models for, against the bounds
the models were trained to. Training a further graph replaces the bounds of the operators
it uses and always those of the transfer operators, upwards or downwards. -/
namespace MetaPB.Executor
open Operator Utils Lib.Word

def recordSize (rt : RegressionTask) (tp : TaskProperties) : RegressionTask :=
  match rt tp.op with
  | none => Function.update rt tp.op (some tp.inputSizeMiB)
  | some size => if tp.inputSizeMiB > size then Function.update rt tp.op (some tp.inputSizeMiB) else rt

def genRegressionTask (g : TaskGraph) : RegressionTask := g.vertices.foldl recordSize fun _ => none

def trainGraphs (machine : Machine) (graphs : List TaskGraph) (om : OperatorManager) :
    Option OperatorManager :=
  graphs.foldlM (fun om g => om.trainModel machine (genRegressionTask g)) om

/-- Every count a planned closure hands to a performance-related operator is at most the
bound that operator was trained to, for every schedule with ratios in the unit interval. -/
def CoversExecution (om : OperatorManager) (g : TaskGraph) : Prop :=
  ∀ heapBasePtr sched, g.Orders sched.order → sched.offloadRatio.length = g.numVertices →
    (∀ ratio ∈ sched.offloadRatio, 0 ≤ ratio ∧ ratio ≤ 1) → ∀ i < sched.order.length,
      ∀ worker side opTag pageBlkCnt,
        (plannedTask heapBasePtr g sched .MIMIC i worker).execute = .mimic side opTag pageBlkCnt →
          opTag ∈ allPerfRelOPSet → pageBlkCnt ≤ om.upperBound opTag

def TaskGraph.Trains (g : TaskGraph) (opTag : OperatorTag) : Prop :=
  opTag ∈ xferOPSet ∨ ∃ tp ∈ g.vertices, tp.op = opTag

instance (g : TaskGraph) (opTag : OperatorTag) : Decidable (g.Trains opTag) :=
  inferInstanceAs (Decidable (opTag ∈ xferOPSet ∨ ∃ tp ∈ g.vertices, tp.op = opTag))

/-- Blocks of the largest workload in the last graph that trains the operator. -/
def lastBound (graphs : List TaskGraph) (opTag : OperatorTag) : Nat :=
  match graphs.reverse.find? (·.Trains opTag) with
  | some g => (genRegressionTask g).maxBlk
  | none => 0

/-- The graphs trained last for an operator are large enough for every vertex that runs it,
and the last graph for every transfer. -/
def TrainedRange (graphs : List TaskGraph) : Prop :=
  ∀ g ∈ graphs, ∀ tp ∈ g.vertices,
    (tp.op ∈ allPerfRelOPSet → getNearestPageBlkCnt tp.inputSizeMiB ≤ lastBound graphs tp.op) ∧
      (isLogic tp.op = false → ∀ workMiB ≤ tp.inputSizeMiB,
        getNearestPageBlkCnt workMiB ≤ lastBound graphs .MAP)

section Bound
variable {machine : Machine} {om trained : OperatorManager}

theorem recordSize_isSome (rt : RegressionTask) (tp : TaskProperties) (opTag : OperatorTag) :
    (recordSize rt tp opTag).isSome = true ↔ (rt opTag).isSome = true ∨ tp.op = opTag := by
  rcases eq_or_ne opTag tp.op with rfl | apart
  · cases known : rt tp.op with
    | none => simp [recordSize,known]
    | some size =>
      simp only [recordSize,known]
      split
      · simp
      · simp [known]
  · cases known : rt tp.op with
    | none => simp [recordSize,known,apart,apart.symm]
    | some size =>
      simp only [recordSize,known]
      split
      · simp [apart,apart.symm]
      · simp [apart.symm]

theorem genRegressionTask_isSome (g : TaskGraph) (opTag : OperatorTag) :
    (genRegressionTask g opTag).isSome = true ↔ ∃ tp ∈ g.vertices, tp.op = opTag := by
  have loop (vertices : List TaskProperties) (rt : RegressionTask) :
      (vertices.foldl recordSize rt opTag).isSome = true ↔
        (rt opTag).isSome = true ∨ ∃ tp ∈ vertices, tp.op = opTag := by
    induction vertices generalizing rt with
    | nil => simp
    | cons tp rest ih => simp [ih,recordSize_isSome,or_assoc]
  simp [genRegressionTask,loop]

theorem lastBound_snoc (graphs : List TaskGraph) (g : TaskGraph) (opTag : OperatorTag) :
    lastBound (graphs ++ [g]) opTag =
      if g.Trains opTag then (genRegressionTask g).maxBlk else lastBound graphs opTag := by
  unfold lastBound
  rw [List.reverse_append,List.reverse_singleton,List.singleton_append]
  rcases Classical.em (g.Trains opTag) with hit | missed
  · rw [List.find?_cons_of_pos (by simpa using hit),if_pos hit]
  · rw [List.find?_cons_of_neg (by simpa using missed),if_neg missed]

theorem trainGraphs_upperBound (graphs : List TaskGraph)
    (ran : trainGraphs machine graphs {} = some trained) (opTag : OperatorTag) :
    trained.upperBound opTag = lastBound graphs opTag := by
  induction graphs using List.reverseRecOn generalizing trained with
  | nil =>
    cases Option.some.inj ran
    rfl
  | append_singleton graphs g ih =>
    rw [trainGraphs,List.foldlM_append] at ran
    obtain ⟨middle,before,last⟩ := Option.bind_eq_some_iff.mp ran
    rw [List.foldlM_cons] at last
    obtain ⟨_,one,same⟩ := Option.bind_eq_some_iff.mp last
    cases Option.some.inj same
    rw [OperatorManager.trainModel_upperBound one,lastBound_snoc,ih before]
    apply if_congr _ rfl rfl
    rw [genRegressionTask_isSome,TaskGraph.Trains]

end Bound

section Counts
variable {g : TaskGraph} {sched : Schedule}

theorem getNearestPageBlkCnt_wrap64 (workMiB : Nat) :
    getNearestPageBlkCnt (wrap64 workMiB) = getNearestPageBlkCnt workMiB := by
  simp [getNearestPageBlkCnt,wrap64,Nat.mod_mul_mod]

theorem succBounds_within {ratios : List ℚ} (within : ∀ ratio ∈ ratios, 0 ≤ ratio ∧ ratio ≤ 1) :
    (succBounds ratios).1 ≤ 1 ∧ 0 ≤ (succBounds ratios).2 := by
  rcases eq_or_ne ratios [] with rfl | filled
  · norm_num [succBounds]
  · obtain ⟨greatest,least⟩ := succBounds_extremes filled within
    exact ⟨(within _ greatest.1).2,(within _ least.1).1⟩

/-- A share of at most the whole workload, converted to a size. -/
theorem truncate64_share {share : ℚ} (inputSizeMiB : Nat) (few : share ≤ 1) :
    ∃ workMiB ≤ inputSizeMiB, truncate64 (share * inputSizeMiB) = wrap64 workMiB :=
  ⟨⌊share * inputSizeMiB⌋₊,floor_share_le inputSizeMiB few,rfl⟩

theorem transferWork_le (isAlwaysWrittingBack : Bool) {offloadRatio omax omin : ℚ}
    (inputSizeMiB : Nat) (nonneg : 0 ≤ offloadRatio) (few : offloadRatio ≤ 1) (most : omax ≤ 1)
    (least : 0 ≤ omin) :
    (∃ workMiB ≤ inputSizeMiB, getNearestPageBlkCnt
        (transferWork isAlwaysWrittingBack offloadRatio omax omin inputSizeMiB).1 =
          getNearestPageBlkCnt workMiB) ∧
      ∃ workMiB ≤ inputSizeMiB, getNearestPageBlkCnt
        (transferWork isAlwaysWrittingBack offloadRatio omax omin inputSizeMiB).2 =
          getNearestPageBlkCnt workMiB := by
  have share {part : ℚ} (small : part ≤ 1) : ∃ workMiB ≤ inputSizeMiB,
      getNearestPageBlkCnt (truncate64 (part * inputSizeMiB)) = getNearestPageBlkCnt workMiB := by
    obtain ⟨workMiB,bound,same⟩ := truncate64_share inputSizeMiB small
    exact ⟨workMiB,bound,by rw [same,getNearestPageBlkCnt_wrap64]⟩
  have nothing : ∃ workMiB ≤ inputSizeMiB, getNearestPageBlkCnt 0 = getNearestPageBlkCnt workMiB :=
    ⟨0,Nat.zero_le _,rfl⟩
  unfold transferWork
  split
  · refine ⟨?_,share most⟩
    split
    · exact nothing
    · exact ⟨inputSizeMiB,le_rfl,rfl⟩
  · split
    · exact ⟨share (by linarith),nothing⟩
    · split
      · exact ⟨share (by linarith),share (by linarith)⟩
      · exact ⟨nothing,share (by linarith)⟩

theorem ratioAt_within (within : ∀ ratio ∈ sched.offloadRatio, 0 ≤ ratio ∧ ratio ≤ 1) (index : Nat) :
    0 ≤ sched.ratioAt index ∧ sched.ratioAt index ≤ 1 := by
  unfold Schedule.ratioAt
  rw [List.getD_eq_getElem?_getD]
  cases read : sched.offloadRatio[index]? with
  | none => norm_num
  | some ratio => exact within ratio (List.mem_of_getElem? read)

/-- The counts planned for a task: its split is at most its own block count, and its
transfers are the blocks of at most its own workload. -/
theorem planTask_counts (within : ∀ ratio ∈ sched.offloadRatio, 0 ≤ ratio ∧ ratio ≤ 1) (i : Nat) :
    let plan := planTask g sched i
    let inputSizeMiB := (g.properties (sched.taskAt i)).inputSizeMiB
    plan.cpuPageBlkCnt ≤ getNearestPageBlkCnt inputSizeMiB ∧
      plan.dpuPageBlkCnt ≤ getNearestPageBlkCnt inputSizeMiB ∧
      (∃ workMiB ≤ inputSizeMiB, plan.reducePageBlkCnt = getNearestPageBlkCnt workMiB) ∧
      ∃ workMiB ≤ inputSizeMiB, plan.mapPageBlkCnt = getNearestPageBlkCnt workMiB := by
  intro plan inputSizeMiB
  obtain ⟨nonneg,few⟩ := ratioAt_within within i
  have total : plan.totalPageBlkCnt = getNearestPageBlkCnt inputSizeMiB := rfl
  have cpu : plan.cpuPageBlkCnt ≤ plan.totalPageBlkCnt :=
    (wrap32_le _).trans (floor_share_le plan.totalPageBlkCnt (by linarith))
  have dpu : plan.dpuPageBlkCnt ≤ plan.totalPageBlkCnt := by
    rw [planTask_dpuPageBlkCnt cpu]
    exact Nat.sub_le _ _
  have bounds : plan.omax ≤ 1 ∧ 0 ≤ plan.omin := by
    apply succBounds_within
    intro ratio member
    obtain ⟨read,listed,rfl⟩ := List.mem_map.mp member
    obtain ⟨succ,-,rfl⟩ := List.mem_map.mp listed
    exact ratioAt_within within succ
  have xfer := transferWork_le sched.isAlwaysWrittingBack inputSizeMiB nonneg few bounds.1 bounds.2
  exact ⟨total ▸ cpu,total ▸ dpu,xfer.1,xfer.2⟩

end Counts

section Cover
variable {machine : Machine} {om : OperatorManager} {graphs : List TaskGraph} {g : TaskGraph}

theorem properties_mem {task : Nat} (inside : task < g.numVertices) : g.properties task ∈ g.vertices := by
  have bound : task < g.vertices.length := inside
  simp [TaskGraph.properties,List.getD_eq_getElem?_getD,bound]

theorem mimic_xfer (heapBasePtr : Nat) (g : TaskGraph) (sched : Schedule) (i : Nat) :
    let plan := planTask g sched i
    (plannedTask heapBasePtr g sched .MIMIC i .map).execute =
        (if isLogic (g.properties (sched.taskAt i)).op then .nothing
        else .mimic .map .MAP plan.mapPageBlkCnt) ∧
      (plannedTask heapBasePtr g sched .MIMIC i .reduce).execute =
        if isLogic (g.properties (sched.taskAt i)).op then .nothing
        else .mimic .reduce .REDUCE plan.reducePageBlkCnt := by
  intro plan
  have named : plan.taskId = sched.taskAt i := rfl
  simp only [plannedTask,genXferTask,← named]
  constructor <;> split <;> rfl

theorem lastBound_xfer (graphs : List TaskGraph) : lastBound graphs .REDUCE = lastBound graphs .MAP := by
  rcases List.eq_nil_or_concat graphs with rfl | ⟨earlier,g,rfl⟩
  · rfl
  · rw [List.concat_eq_append,lastBound_snoc,lastBound_snoc]
    simp [TaskGraph.Trains,xferOPSet]

theorem TrainedRange.covers (trained : trainGraphs machine graphs {} = some om)
    (enough : TrainedRange graphs) (member : g ∈ graphs) : CoversExecution om g := by
  intro heapBasePtr sched orders _ within i inside worker side opTag pageBlkCnt handed related
  obtain ⟨cpu,dpu,⟨reduceMiB,reduceFits,reduce⟩,mapMiB,mapFits,map⟩ :=
    planTask_counts (g := g) within i
  have task : sched.taskAt i < g.numVertices := by
    apply (orders.mem_iff _).mp
    simp [Schedule.taskAt,inside]
  obtain ⟨compute,xfer⟩ := enough g member _ (properties_mem task)
  rw [trainGraphs_upperBound graphs trained]
  cases worker with
  | cpu =>
    cases handed
    exact cpu.trans (compute related)
  | dpu =>
    cases handed
    exact dpu.trans (compute related)
  | map =>
    rw [(mimic_xfer heapBasePtr g sched i).1] at handed
    split at handed
    · contradiction
    next moves =>
      cases handed
      rw [map]
      exact xfer (by simpa using moves) mapMiB mapFits
  | reduce =>
    rw [(mimic_xfer heapBasePtr g sched i).2] at handed
    split at handed
    · contradiction
    next moves =>
      cases handed
      rw [reduce,lastBound_xfer]
      exact xfer (by simpa using moves) reduceMiB reduceFits

/-- The schedule that gives every task the same ratio, in id order. -/
def uniformSchedule (g : TaskGraph) (isAlwaysWrittingBack : Bool) (ratio : ℚ) : Schedule :=
  ⟨isAlwaysWrittingBack,List.range g.numVertices,List.replicate g.numVertices ratio⟩

section Uniform
variable {writeBack : Bool} {ratio : ℚ} {task : Nat}

theorem uniformSchedule_taskAt (inside : task < g.numVertices) :
    (uniformSchedule g writeBack ratio).taskAt task = task := by
  simp [uniformSchedule,Schedule.taskAt,inside]

theorem uniformSchedule_ratioAt (inside : task < g.numVertices) :
    (uniformSchedule g writeBack ratio).ratioAt task = ratio := by
  simp [uniformSchedule,Schedule.ratioAt,inside]

theorem uniformSchedule_within (nonneg : 0 ≤ ratio) (few : ratio ≤ 1) :
    ∀ read ∈ (uniformSchedule g writeBack ratio).offloadRatio, 0 ≤ read ∧ read ≤ 1 := by
  intro read member
  rw [List.eq_of_mem_replicate member]
  exact ⟨nonneg,few⟩

theorem succBounds_constant (nonneg : 0 ≤ ratio) (few : ratio ≤ 1) {ratios : List ℚ}
    (filled : ratios ≠ []) (constant : ∀ read ∈ ratios, read = ratio) :
    succBounds ratios = (ratio,ratio) := by
  have within : ∀ read ∈ ratios, 0 ≤ read ∧ read ≤ 1 := by
    intro read member
    rw [constant read member]
    exact ⟨nonneg,few⟩
  obtain ⟨greatest,least⟩ := succBounds_extremes filled within
  exact Prod.ext (constant _ greatest.1) (constant _ least.1)

theorem uniformSchedule_omax (nonneg : 0 ≤ ratio) (few : ratio ≤ 1) (inside : task < g.numVertices)
    (succs : g.successors task ≠ []) :
    (planTask g (uniformSchedule g writeBack ratio) task).omax = ratio := by
  have bounds : succBounds ((planTask g (uniformSchedule g writeBack ratio) task).succOffloadRatio.map
      (·.2)) = (ratio,ratio) := by
    apply succBounds_constant nonneg few
    · simpa [planTask,uniformSchedule_taskAt inside] using succs
    · intro read member
      obtain ⟨⟨succ,_⟩,listed,rfl⟩ := List.mem_map.mp member
      obtain ⟨linked,rfl⟩ := (mem_succOffloadRatio task succ _).mp listed
      exact uniformSchedule_ratioAt linked.bounds.2
  exact congrArg Prod.fst bounds

theorem truncate64_part {workMiB inputSizeMiB : Nat} (positive : 0 < inputSizeMiB) :
    truncate64 ((workMiB : ℚ) / inputSizeMiB * inputSizeMiB) = wrap64 workMiB := by
  have size : (inputSizeMiB : ℚ) ≠ 0 := by exact_mod_cast positive.ne'
  rw [div_mul_cancel₀ _ size,truncate64,Nat.floor_natCast]

end Uniform

theorem CoversExecution.compute (covers : CoversExecution om g) {task : Nat} (inside : task < g.numVertices)
    (related : (g.properties task).op ∈ allPerfRelOPSet) :
    getNearestPageBlkCnt (g.properties task).inputSizeMiB ≤ om.upperBound (g.properties task).op := by
  let sched := uniformSchedule g false 0
  have here : sched.taskAt task = task := uniformSchedule_taskAt inside
  have total : (planTask g sched task).totalPageBlkCnt =
      getNearestPageBlkCnt (g.properties (sched.taskAt task)).inputSizeMiB := rfl
  have kept : sched.ratioAt task = 0 := uniformSchedule_ratioAt inside
  have whole := (planTask_onCPU (g := g) kept).1
  rw [total,here] at whole
  rw [← whole]
  have listed : task < sched.order.length := by simpa [sched,uniformSchedule] using inside
  have op : (g.properties (sched.taskAt task)).op = (g.properties task).op := by rw [here]
  rw [← op] at related ⊢
  exact covers 0 sched (List.Perm.refl _) (by simp [sched,uniformSchedule])
    (uniformSchedule_within le_rfl zero_le_one) task listed .cpu .cpu _ _ rfl related

theorem CoversExecution.xfer (covers : CoversExecution om g) {task : Nat} (inside : task < g.numVertices)
    (moves : isLogic (g.properties task).op = false) {workMiB : Nat}
    (fits : workMiB ≤ (g.properties task).inputSizeMiB) :
    getNearestPageBlkCnt workMiB ≤ om.upperBound .MAP ∨
      getNearestPageBlkCnt workMiB ≤ om.upperBound .REDUCE := by
  rcases Nat.eq_zero_or_pos workMiB with rfl | worked
  · exact Or.inl (Nat.zero_le _)
  let share : ℚ := workMiB / (g.properties task).inputSizeMiB
  have size : (0 : ℚ) < (g.properties task).inputSizeMiB := by exact_mod_cast worked.trans_le fits
  have positive : 0 < share := div_pos (by exact_mod_cast worked) size
  have few : share ≤ 1 := (div_le_one size).mpr (by exact_mod_cast fits)
  have listed (writeBack : Bool) : task < (uniformSchedule g writeBack share).order.length := by
    simpa [uniformSchedule] using inside
  have here (writeBack : Bool) : (uniformSchedule g writeBack share).taskAt task = task :=
    uniformSchedule_taskAt inside
  have sized : 0 < (g.properties task).inputSizeMiB := worked.trans_le fits
  cases succs : g.successors task with
  | nil =>
    let plan := planTask g (uniformSchedule g false share) task
    have bounds : plan.omax = 0 ∧ plan.omin = 0 := by
      have childless : plan.succOffloadRatio = [] := by simp [plan,planTask,here,succs]
      have both : (plan.omax,plan.omin) = succBounds (plan.succOffloadRatio.map (·.2)) := rfl
      rw [childless] at both
      exact ⟨congrArg Prod.fst both,congrArg Prod.snd both⟩
    have work : plan.reduceWorkMiB = wrap64 workMiB := by
      have planned : plan.reduceWorkMiB = (transferWork false
          ((uniformSchedule g false share).ratioAt task) plan.omax plan.omin
          (g.properties ((uniformSchedule g false share).taskAt task)).inputSizeMiB).1 := rfl
      rw [planned,bounds.1,bounds.2,here,uniformSchedule_ratioAt inside]
      simp only [transferWork,Bool.false_eq_true,if_false,if_pos positive,sub_zero]
      exact truncate64_part sized
    have handed := (mimic_xfer 0 g (uniformSchedule g false share) task).2
    rw [here,if_neg (by simp [moves])] at handed
    have covered := covers 0 (uniformSchedule g false share) (List.Perm.refl _)
      (by simp [uniformSchedule]) (uniformSchedule_within positive.le few) task (listed false) .reduce
      .reduce .REDUCE _ handed (by decide)
    have count : plan.reducePageBlkCnt = getNearestPageBlkCnt plan.reduceWorkMiB := rfl
    rw [count,work,getNearestPageBlkCnt_wrap64] at covered
    exact Or.inr covered
  | cons succ rest =>
    let plan := planTask g (uniformSchedule g true share) task
    have most : plan.omax = share :=
      uniformSchedule_omax positive.le few inside (by simp [succs])
    have work : plan.mapWorkMiB = wrap64 workMiB := by
      have planned : plan.mapWorkMiB = truncate64 (plan.omax *
          (g.properties ((uniformSchedule g true share).taskAt task)).inputSizeMiB) := rfl
      rw [planned,most,here]
      exact truncate64_part sized
    have handed := (mimic_xfer 0 g (uniformSchedule g true share) task).1
    rw [here,if_neg (by simp [moves])] at handed
    have covered := covers 0 (uniformSchedule g true share) (List.Perm.refl _)
      (by simp [uniformSchedule]) (uniformSchedule_within positive.le few) task (listed true) .map
      .map .MAP _ handed (by decide)
    have count : plan.mapPageBlkCnt = getNearestPageBlkCnt plan.mapWorkMiB := rfl
    rw [count,work,getNearestPageBlkCnt_wrap64] at covered
    exact Or.inl covered

theorem exists_task {tp : TaskProperties} (member : tp ∈ g.vertices) :
    ∃ task < g.numVertices, g.properties task = tp := by
  obtain ⟨task,inside,rfl⟩ := List.mem_iff_getElem.mp member
  exact ⟨task,inside,by simp [TaskGraph.properties,inside]⟩

/-- Training covers the execution of every trained graph under every schedule exactly when
the last bound of each operator does. -/
theorem trained_range_covers_iff (machine : Machine) (graphs : List TaskGraph) (om : OperatorManager)
    (trained : trainGraphs machine graphs {} = some om) :
    (∀ g ∈ graphs, CoversExecution om g) ↔ TrainedRange graphs := by
  have bound := trainGraphs_upperBound graphs trained
  constructor
  · intro covers g member tp listed
    obtain ⟨task,inside,rfl⟩ := exists_task listed
    constructor
    · intro related
      rw [← bound]
      exact (covers g member).compute inside related
    · intro moves workMiB fits
      rcases (covers g member).xfer inside moves fits with mapped | reduced
      · rwa [← bound]
      · rwa [bound,lastBound_xfer] at reduced
  · intro enough g member
    exact enough.covers trained member

instance (graphs : List TaskGraph) : Decidable (TrainedRange graphs) :=
  inferInstanceAs (Decidable (∀ g ∈ graphs, ∀ tp ∈ g.vertices,
    (tp.op ∈ allPerfRelOPSet → getNearestPageBlkCnt tp.inputSizeMiB ≤ lastBound graphs tp.op) ∧
      (isLogic tp.op = false → ∀ workMiB ≤ tp.inputSizeMiB,
        getNearestPageBlkCnt workMiB ≤ lastBound graphs .MAP)))

/-- A machine whose cache directory has a sample file for every bound. -/
def cachedMachine : Machine := ⟨fun _ => ⟨some [],some []⟩,fun _ _ => 0,fun _ _ => 0⟩

/-- Trained in growing order, both graphs are covered. -/
theorem trained_range_covers_iff_growing : ∃ om,
    trainGraphs cachedMachine [singleTask 20,singleTask 40] {} = some om ∧
      CoversExecution om (singleTask 20) ∧ CoversExecution om (singleTask 40) := by
  have returns : (trainGraphs cachedMachine [singleTask 20,singleTask 40] {}).isSome = true := by
    decide +kernel
  obtain ⟨om,trained⟩ := Option.isSome_iff_exists.mp returns
  have covers := (trained_range_covers_iff cachedMachine _ om trained).mpr (by decide +kernel)
  exact ⟨om,trained,covers _ (by simp),covers _ (by simp)⟩

/-- A large graph followed by a small one: MAC and the transfer operators end with the bound
of the small one. -/
theorem trained_range_not_covering : ¬ ∀ (machine : Machine) (graphs : List TaskGraph)
    (om : OperatorManager), trainGraphs machine graphs {} = some om →
      ∀ g ∈ graphs, CoversExecution om g := by
  intro always
  let graphs := [singleTask 3000,singleTask 1500]
  have returns : (trainGraphs cachedMachine graphs {}).isSome = true := by decide +kernel
  obtain ⟨om,trained⟩ := Option.isSome_iff_exists.mp returns
  have covers := always cachedMachine graphs om trained (singleTask 3000) (by simp [graphs])
  have few : 0 < (singleTask 3000).numVertices := by decide
  have read : (singleTask 3000).properties 0 = ⟨.MAC,.MemoryBound,3000⟩ := rfl
  have large := covers.compute few (by rw [read]; decide)
  rw [read] at large
  have small : lastBound graphs .MAC = getNearestPageBlkCnt 1500 := by decide +kernel
  simp only [trainGraphs_upperBound graphs trained,small] at large
  exact absurd large (by decide +kernel)

end Cover
end MetaPB.Executor

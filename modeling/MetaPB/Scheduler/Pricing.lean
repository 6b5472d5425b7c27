import MetaPB.Executor.ParseGraph
import MetaPB.Operator.OperatorManager
import MetaPB.Scheduler.HEFTScheduler

/-! Two cost models of one graph. Deductions count page blocks; the pool hands them page
blocks, and HEFT hands them sizes in MiB. A manager trained on graded samples tells any
two counts apart, so the prices agree under every manager only where the numbers do. -/
namespace MetaPB.Scheduler
open Executor Operator Utils Lib.Word

/-- The model answers as the manager deduces. -/
def Answers (om : OperatorManager) (perf : PerfModel) : Prop :=
  ∀ opTag pageBlkCnt,
    om.deducePerfCPU opTag pageBlkCnt = some (perf.deducePerfCPU opTag pageBlkCnt) ∧
      om.deducePerfDPU opTag pageBlkCnt = some (perf.deducePerfDPU opTag pageBlkCnt)

/-- What an edge moves, in MiB before any conversion. -/
def transferredMiB (g : TaskGraph) (edge : Transfer) : ℚ :=
  let source := g.properties edge.source
  let size := if source.op ≠ .LOGIC_START then source.inputSizeMiB else 0
  edge.dataSizeRatio * size

/-- HEFT's costs are the times predicted for the page blocks the pool would execute on one
side alone, and for the page blocks of what an edge moves. -/
structure SamePrices (perf : PerfModel) (g : TaskGraph) : Prop where
  cpu : ∀ tn < g.numVertices, (initialInfo perf g tn).computationCostCPU =
    (perf.deducePerfCPU (g.properties tn).op (totalPageBlkCnt (g.properties tn))).timeCostSecond
  dpu : ∀ tn < g.numVertices, (initialInfo perf g tn).computationCostDPU =
    (perf.deducePerfDPU (g.properties tn).op (totalPageBlkCnt (g.properties tn))).timeCostSecond
  transfer : ∀ edge ∈ g.edges, transferCost perf g edge = (perf.deducePerfCPU .MAP
    (getNearestPageBlkCnt (truncate64 (transferredMiB g edge)))).timeCostSecond

/-- Sizes in MiB that are the same number as their page blocks. -/
structure SameUnits (g : TaskGraph) : Prop where
  computed : ∀ tn < g.numVertices, (g.properties tn).op ∈ allPerfRelOPSet →
    wrap32 (g.properties tn).inputSizeMiB = totalPageBlkCnt (g.properties tn)
  moved : ∀ edge ∈ g.edges,
    truncate32 (transferredMiB g edge) = getNearestPageBlkCnt (truncate64 (transferredMiB g edge))

/-- Only sizes of at most 1 MiB are as many page blocks. -/
theorem wrap32_eq_pageBlkCnt_iff {sizeMiB : Nat} (word : sizeMiB < 2^32) :
    wrap32 sizeMiB = getNearestPageBlkCnt sizeMiB ↔ sizeMiB ≤ 1 := by
  have bytes : wrap64 (sizeMiB * 2^20) = sizeMiB * 2^20 := wrap64_of_lt (by omega)
  have padded : wrap64 (sizeMiB * 2^20 + pageBlkSize - 1) = sizeMiB * 1048576 + 10362879 := by
    rw [wrap64_of_lt (by simp only [pageBlkSize,dpuNum,pageSizeByte]; omega)]
    simp only [pageBlkSize,dpuNum,pageSizeByte]
    omega
  have size : pageBlkSize = 10362880 := rfl
  have blocks : getNearestPageBlkCnt sizeMiB = (sizeMiB * 1048576 + 10362879) / 10362880 := by
    rw [getNearestPageBlkCnt,bytes,padded,size]
    exact wrap32_of_lt (by omega)
  rw [wrap32_of_lt word,blocks]
  omega

/-- Below the word size the units agree on tasks and edges of at most 1 MiB, and on no others. -/
theorem sameUnits_iff_small {g : TaskGraph}
    (words : ∀ tn < g.numVertices, (g.properties tn).inputSizeMiB < 2^32)
    (moves : ∀ edge ∈ g.edges, ⌊transferredMiB g edge⌋₊ < 2^32) : SameUnits g ↔
      (∀ tn < g.numVertices, (g.properties tn).op ∈ allPerfRelOPSet →
        (g.properties tn).inputSizeMiB ≤ 1) ∧
      ∀ edge ∈ g.edges, ⌊transferredMiB g edge⌋₊ ≤ 1 := by
  have computed (tn : Nat) (inside : tn < g.numVertices) :
      wrap32 (g.properties tn).inputSizeMiB = totalPageBlkCnt (g.properties tn) ↔
        (g.properties tn).inputSizeMiB ≤ 1 := wrap32_eq_pageBlkCnt_iff (words tn inside)
  have moved (edge : Transfer) (member : edge ∈ g.edges) : truncate32 (transferredMiB g edge) =
      getNearestPageBlkCnt (truncate64 (transferredMiB g edge)) ↔ ⌊transferredMiB g edge⌋₊ ≤ 1 := by
    have word := moves edge member
    rw [truncate64,wrap64_of_lt (word.trans (by decide))]
    exact wrap32_eq_pageBlkCnt_iff word
  constructor
  · intro same
    exact ⟨fun tn inside related => (computed tn inside).mp (same.computed tn inside related),
      fun edge member => (moved edge member).mp (same.moved edge member)⟩
  · intro small
    exact ⟨fun tn inside related => (computed tn inside).mpr (small.1 tn inside related),
      fun edge member => (moved edge member).mpr (small.2 edge member)⟩

section Graded
variable {samples : PerfSamples} {step : Nat}

/-- Sample files with one more second at each point. -/
def gradedRows : List PerfStats := (List.range 16).map fun (i : Nat) => {timeCostSecond := i + 1}

def gradedMachine : Machine := ⟨fun _ => ⟨some gradedRows,some gradedRows⟩,fun _ _ => 0,fun _ _ => 0⟩

def Graded (samples : PerfSamples) : Prop :=
  ∀ i, samples i = if i.val < 16 then {timeCostSecond := i.val + 1} else 0

theorem deducePerf_isSome {upperBound : Nat}
    (bound : upperBound = 0 ∨ ∃ step, 0 < step ∧ upperBound = 15 * step) (pageBlkCnt : Nat) :
    (deducePerf samples upperBound pageBlkCnt).isSome = true := by
  rcases Nat.eq_zero_or_pos pageBlkCnt with rfl | counted
  · rw [deducePerf,if_pos rfl]
    rfl
  rcases Nat.lt_or_ge pageBlkCnt upperBound with below | above
  · obtain ⟨step,positive,rfl⟩ := bound.resolve_left (by omega)
    have split := Nat.div_add_mod' pageBlkCnt step
    have small := Nat.mod_lt pageBlkCnt positive
    have slot : pageBlkCnt / step < 15 := Nat.div_lt_of_lt_mul (by rwa [Nat.mul_comm])
    rw [← split] at counted below
    rw [← split,deducePerf_inside (by omega) _ _ small counted below,samples.read_of_le (by rw [perfSamplePoint]; omega),
      samples.read_of_le (by rw [perfSamplePoint]; omega)]
    rfl
  · rw [deducePerf,if_neg counted.ne',if_pos above,samples.read_of_le le_rfl]
    rfl

theorem Graded.price (graded : Graded samples) (positive : 0 < step) {pageBlkCnt : Nat}
    {stats : PerfStats} (deduced : deducePerf samples (15 * step) pageBlkCnt = some stats) :
    stats.timeCostSecond = if pageBlkCnt < 15 * step then 1 + (pageBlkCnt : ℚ) / step else 0 := by
  have point (index : Nat) (inside : index < 16) :
      samples.read index = some {timeCostSecond := index + 1} := by
    rw [samples.read_of_le inside.le,graded,if_pos inside]
  rcases Nat.lt_or_ge pageBlkCnt (15 * step) with below | above
  · rw [if_pos below]
    rcases Nat.eq_zero_or_pos pageBlkCnt with rfl | counted
    · rw [deducePerf,if_pos rfl,point 0 (by decide)] at deduced
      cases Option.some.inj deduced
      simp
    · have split := Nat.div_add_mod' pageBlkCnt step
      have small := Nat.mod_lt pageBlkCnt positive
      have slot : pageBlkCnt / step < 15 := Nat.div_lt_of_lt_mul (by rwa [Nat.mul_comm])
      have size : (step : ℚ) ≠ 0 := by exact_mod_cast positive.ne'
      have cast : (pageBlkCnt : ℚ) = (pageBlkCnt / step : Nat) * step + (pageBlkCnt % step : Nat) := by
        exact_mod_cast split.symm
      rw [← split] at counted below
      rw [← split,deducePerf_inside (by omega) _ _ small counted below,point _ (by omega),
        point _ (by omega)] at deduced
      cases Option.some.inj deduced
      change ((pageBlkCnt / step : Nat) + 1 : ℚ) +
        (((pageBlkCnt / step + 1 : Nat) : ℚ) + 1 - ((pageBlkCnt / step : Nat) + 1)) *
          (pageBlkCnt % step : Nat) / step = 1 + (pageBlkCnt : ℚ) / step
      rw [cast]
      push_cast
      field_simp
      ring
  · rw [if_neg (not_lt.mpr above)]
    rw [deducePerf,if_neg (by omega),if_pos above,samples.read_of_le le_rfl,graded] at deduced
    rw [← Option.some.inj deduced]
    rfl

theorem Graded.price_injective (positive : 0 < step) {first second : Nat} (firstFits : first ≤ 15 * step)
    (secondFits : second ≤ 15 * step)
    (same : (if first < 15 * step then 1 + (first : ℚ) / step else 0) =
      if second < 15 * step then 1 + (second : ℚ) / step else 0) : first = second := by
  have size : (0 : ℚ) < step := by exact_mod_cast positive
  have visible (cnt : Nat) : (0 : ℚ) < 1 + cnt / step := by positivity
  rcases Nat.lt_or_eq_of_le firstFits with below | whole
  · rcases Nat.lt_or_eq_of_le secondFits with inside | top
    · rw [if_pos below,if_pos inside] at same
      have equal := add_left_cancel same
      rw [div_left_inj' size.ne'] at equal
      exact_mod_cast equal
    · rw [if_pos below,if_neg (by omega)] at same
      exact absurd same (visible first).ne'
  · rcases Nat.lt_or_eq_of_le secondFits with inside | top
    · rw [if_neg (by omega),if_pos inside] at same
      exact absurd same.symm (visible second).ne'
    · exact whole.trans top.symm

theorem graded_trainOperator (om : OperatorManager) (bound : Nat) {opTag : OperatorTag}
    (related : opTag ∈ allPerfRelOPSet) (untouched : ∀ tag, (om.opMap tag).cpuPerfSamples 16 = 0) :
    ∃ trained, om.trainOperator gradedMachine bound opTag = some trained ∧
      Graded (trained.opMap opTag).cpuPerfSamples ∧
      (∀ tag ≠ opTag, trained.opMap tag = om.opMap tag) ∧
      ∀ tag, (trained.opMap tag).cpuPerfSamples 16 = 0 := by
  obtain ⟨cpu,cpuLoaded,cpuRead⟩ :=
    loadPerfSamples_spec (om.opMap opTag).cpuPerfSamples gradedRows (by decide)
  obtain ⟨dpu,dpuLoaded,-⟩ :=
    loadPerfSamples_spec (om.opMap opTag).dpuPerfSamples gradedRows (by decide)
  have graded : Graded cpu := by
    intro i
    rw [cpuRead]
    rcases Nat.lt_or_ge i.val 16 with inside | outside
    · rw [if_pos inside]
      simp [gradedRows,inside]
    · have bound : i.val < 17 := i.isLt
      have last : i = 16 := Fin.ext (by change i.val = 16; omega)
      rw [if_neg (by omega),last]
      exact untouched opTag
  have trainable : (operatorKind opTag).isTrainable = true := by
    cases opTag <;> first | rfl | exact absurd related (by decide)
  obtain ⟨op,ran,own⟩ : ∃ op, OperatorBase.trainModel (operatorKind opTag)
      ⟨some gradedRows,some gradedRows⟩ (fun _ => 0) (fun _ => 0) bound (om.opMap opTag) = some op ∧
        op.cpuPerfSamples = cpu := ⟨_,OperatorBase.trainModel_cached trainable cpuLoaded dpuLoaded,rfl⟩
  refine ⟨⟨Function.update om.opMap opTag op,om.trainings + 1⟩,?_,?_,?_,?_⟩
  · exact Option.map_eq_some_iff.mpr ⟨op,ran,rfl⟩
  · change Graded (Function.update om.opMap opTag op opTag).cpuPerfSamples
    rw [Function.update_self,own]
    exact graded
  · intro tag other
    exact Function.update_of_ne other _ _
  · refine (Function.forall_update_iff om.opMap fun _ op => op.cpuPerfSamples 16 = 0).mpr
      ⟨?_,fun tag _ => untouched tag⟩
    rw [own,graded]
    rfl

theorem graded_trainOperators (bound : Nat) (opTags : List OperatorTag)
    (related : ∀ opTag ∈ opTags, opTag ∈ allPerfRelOPSet) (om : OperatorManager)
    (untouched : ∀ tag, (om.opMap tag).cpuPerfSamples 16 = 0) :
    ∃ trained, opTags.foldlM (OperatorManager.trainOperator gradedMachine bound) om = some trained ∧
      (∀ tag, Graded (om.opMap tag).cpuPerfSamples ∨ tag ∈ opTags →
        Graded (trained.opMap tag).cpuPerfSamples) := by
  induction opTags generalizing om with
  | nil => exact ⟨om,rfl,fun tag known => known.resolve_right (by simp)⟩
  | cons opTag rest ih =>
    obtain ⟨middle,first,own,others,still⟩ :=
      graded_trainOperator om bound (related opTag (by simp)) untouched
    obtain ⟨trained,later,graded⟩ := ih (fun tag member => related tag (by simp [member])) middle still
    refine ⟨trained,?_,?_⟩
    · rw [List.foldlM_cons,first]
      exact later
    · intro tag known
      apply graded
      rcases eq_or_ne tag opTag with rfl | other
      · exact Or.inl own
      · rw [others tag other]
        exact known.imp_right fun member => (List.mem_cons.mp member).resolve_left other

/-- A trained manager all of whose performance-related operators are graded. -/
theorem exists_graded (positive : 0 < step) : ∃ om perf, OperatorManager.Trained om ∧ Answers om perf ∧
    ∀ opTag ∈ allPerfRelOPSet, ∀ pageBlkCnt, (perf.deducePerfCPU opTag pageBlkCnt).timeCostSecond =
      if pageBlkCnt < 15 * step then 1 + (pageBlkCnt : ℚ) / step else 0 := by
  obtain ⟨om,trained,graded⟩ := graded_trainOperators (15 * step)
    [.AFFINE,.EUDIST,.LOOKUP,.ELEW_PROD,.ELEW_ADD,.MAC,.CONV_1D,.FILTER,.MAP,.REDUCE] (by decide) {}
    (fun _ => rfl)
  have bounds := OperatorManager.trainOperators_upperBound trained
  have whole (opTag : OperatorTag) : om.upperBound opTag = 0 ∨
      ∃ step, 0 < step ∧ om.upperBound opTag = 15 * step := by
    rw [bounds opTag]
    split
    · exact Or.inr ⟨step,positive,rfl⟩
    · exact Or.inl rfl
  let perf : PerfModel := ⟨fun opTag pageBlkCnt => (om.deducePerfCPU opTag pageBlkCnt).getD 0,
    fun opTag pageBlkCnt => (om.deducePerfDPU opTag pageBlkCnt).getD 0⟩
  have answers : Answers om perf := by
    intro opTag pageBlkCnt
    have cpu : (om.deducePerfCPU opTag pageBlkCnt).isSome = true :=
      deducePerf_isSome (whole opTag) pageBlkCnt
    have dpu : (om.deducePerfDPU opTag pageBlkCnt).isSome = true :=
      deducePerf_isSome (whole opTag) pageBlkCnt
    have read {found : Option PerfStats} (given : found.isSome = true) : found = some (found.getD 0) := by
      obtain ⟨stats,rfl⟩ := Option.isSome_iff_exists.mp given
      rfl
    exact ⟨read cpu,read dpu⟩
  refine ⟨om,perf,⟨{},.fresh,Or.inr ⟨gradedMachine,15 * step,trained⟩⟩,answers,?_⟩
  intro opTag related pageBlkCnt
  have listed : opTag ∈ [.AFFINE,.EUDIST,.LOOKUP,.ELEW_PROD,.ELEW_ADD,.MAC,.CONV_1D,.FILTER,.MAP,.REDUCE] := by
    cases opTag <;> first | decide | exact absurd related (by decide)
  have deduced := (answers opTag pageBlkCnt).1
  have bound : (om.opMap opTag).deducePageBlkUpperBound = 15 * step := (bounds opTag).trans (if_pos listed)
  rw [OperatorManager.deducePerfCPU,OperatorBase.deducePerfCPU,bound] at deduced
  exact (graded opTag (Or.inr listed)).price positive deduced

end Graded

/-- Operators that are never trained are free on both sides. -/
theorem Answers.free {om : OperatorManager} {perf : PerfModel} (answers : Answers om perf)
    (reached : om.Reached) {opTag : OperatorTag} (logical : opTag ∉ allPerfRelOPSet) (pageBlkCnt : Nat) :
    (perf.deducePerfCPU opTag pageBlkCnt).timeCostSecond = 0 ∧
      (perf.deducePerfDPU opTag pageBlkCnt).timeCostSecond = 0 := by
  have untrainable : (operatorKind opTag).isTrainable = false := by
    cases opTag <;> first | rfl | exact absurd (by decide) logical
  obtain ⟨cpuBlank,dpuBlank⟩ := reached.blank untrainable
  obtain ⟨cpu,dpu⟩ := answers opTag pageBlkCnt
  rw [OperatorManager.deducePerfCPU,OperatorBase.deducePerfCPU,cpuBlank] at cpu
  rw [OperatorManager.deducePerfDPU,OperatorBase.deducePerfDPU,dpuBlank] at dpu
  exact ⟨deducePerf_zero cpu,deducePerf_zero dpu⟩

/-- What is assumed of the costs of a schedule holds under every manager that was trained on
times that are not negative. -/
theorem Answers.nonneg {om : OperatorManager} {perf : PerfModel} (answers : Answers om perf)
    (reached : om.ReachedOn Machine.Timed) : perf.Nonneg where
  cpu opTag pageBlkCnt := reached.deducePerf_nonneg (Or.inl (answers opTag pageBlkCnt).1)
  dpu opTag pageBlkCnt := reached.deducePerf_nonneg (Or.inr (answers opTag pageBlkCnt).2)

theorem SameUnits.samePrices {g : TaskGraph} (same : SameUnits g) {om : OperatorManager}
    {perf : PerfModel} (reached : om.Reached) (answers : Answers om perf) : SamePrices perf g := by
  have priced (tn : Nat) (inside : tn < g.numVertices) :
      (perf.deducePerfCPU (g.properties tn).op (wrap32 (g.properties tn).inputSizeMiB)).timeCostSecond =
        (perf.deducePerfCPU (g.properties tn).op (totalPageBlkCnt (g.properties tn))).timeCostSecond ∧
      (perf.deducePerfDPU (g.properties tn).op (wrap32 (g.properties tn).inputSizeMiB)).timeCostSecond =
        (perf.deducePerfDPU (g.properties tn).op (totalPageBlkCnt (g.properties tn))).timeCostSecond := by
    rcases Classical.em ((g.properties tn).op ∈ allPerfRelOPSet) with related | logical
    · rw [same.computed tn inside related]
      exact ⟨rfl,rfl⟩
    · have heft := answers.free reached logical (wrap32 (g.properties tn).inputSizeMiB)
      have pool := answers.free reached logical (totalPageBlkCnt (g.properties tn))
      exact ⟨heft.1.trans pool.1.symm,heft.2.trans pool.2.symm⟩
  refine ⟨fun tn inside => (priced tn inside).1,fun tn inside => (priced tn inside).2,?_⟩
  intro edge member
  rw [← same.moved edge member]
  rfl

/-- HEFT and the pool price a graph alike under every trained manager exactly when each size
HEFT hands over is the same number as its page blocks. -/
theorem samePrices_iff (g : TaskGraph) :
    (∀ om perf, OperatorManager.Trained om → Answers om perf → SamePrices perf g) ↔ SameUnits g := by
  constructor
  · intro always
    -- fifteen such steps make up the largest 32-bit count
    obtain ⟨om,perf,trained,answers,price⟩ := exists_graded (by decide : 0 < 286331153)
    have same := always om perf trained answers
    have word {cnt : Nat} (small : cnt < 2^32) : cnt ≤ 15 * 286331153 := by omega
    constructor
    · intro tn inside related
      have agree := same.cpu tn inside
      change (perf.deducePerfCPU (g.properties tn).op
        (wrap32 (g.properties tn).inputSizeMiB)).timeCostSecond = _ at agree
      rw [price _ related,price _ related] at agree
      exact Graded.price_injective (by decide) (word (wrap32_lt _)) (word (wrap32_lt _)) agree
    · intro edge member
      have agree := same.transfer edge member
      change (perf.deducePerfCPU .MAP (truncate32 (transferredMiB g edge))).timeCostSecond = _ at agree
      rw [price _ (by decide),price _ (by decide)] at agree
      exact Graded.price_injective (by decide) (word (wrap32_lt _)) (word (wrap32_lt _)) agree
  · intro same om perf trained answers
    exact same.samePrices trained.reached answers

/-- A task of 100 MiB is 11 page blocks, and HEFT prices 100. -/
theorem not_samePrices : ¬ ∀ om perf g, OperatorManager.Trained om → Answers om perf →
    SamePrices perf g := by
  intro always
  obtain ⟨om,perf,trained,answers,price⟩ := exists_graded (by decide : 0 < 10)
  let task : TaskGraph := ⟨[⟨.MAC,.MemoryBound,100⟩],[],by simp⟩
  have same := (always om perf task trained answers).cpu 0 (by decide)
  change (perf.deducePerfCPU .MAC (wrap32 100)).timeCostSecond =
    (perf.deducePerfCPU .MAC (getNearestPageBlkCnt 100)).timeCostSecond at same
  rw [price _ (by decide),price _ (by decide)] at same
  have counts := Graded.price_injective (by decide) (by decide) (by decide) same
  exact absurd counts (by decide)

end MetaPB.Scheduler

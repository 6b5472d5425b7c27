import MetaPB.Lib.Counter
import MetaPB.Operator.OperatorManager

/-! The slots of the sample arrays that training, saving and deducing use. Sampling and
saving step through the same page counts, a fifteenth of the bound apart; deducing reads
the slot at which an interval starts and the next, or the last slot from the bound on. -/
namespace MetaPB.Operator
open Utils Lib.Counter Lib.Loop Lib.Word

inductive Side where
  | cpu | dpu
  deriving DecidableEq

/-- The page counts of the loops in `trainModel` and `savePerfSamples`, when these end. -/
def SamplingVisits (pageBlkUpperBound : Nat) (points : List Nat) : Prop :=
  Visits (· ≤ pageBlkUpperBound)
    (fun pageBlkCnt => wrap32 (pageBlkCnt + pageBlkUpperBound / (perfSamplePoint - 1))) 0 points

/-- The values of `sampleIdx` in either loop. -/
def sampleSlots (points : List Nat) : List Nat := List.range points.length

namespace OperatorKind

/-- Whether `trainModel` samples an operator on one side. -/
def samples (kind : OperatorKind) : Side → Bool
  | .cpu => kind.isTrainable
  | .dpu => kind.isTrainable && !kind.isCPUOnly

def trainedSlots (kind : OperatorKind) (points : List Nat) (side : Side) : List Nat :=
  if kind.samples side then sampleSlots points else []

end OperatorKind

/-- The slots that deducing reads, or `none` for a division by zero. -/
def deduceSlots (upperBound pageBlkCnt : Nat) : Option (List Nat) :=
  let pageBlkStep := upperBound / (perfSamplePoint - 1)
  if pageBlkCnt = 0 then some [0]
  else if upperBound ≤ pageBlkCnt then some [perfSamplePoint]
  else if pageBlkStep = 0 then none
  else some [pageBlkCnt / pageBlkStep,pageBlkCnt / pageBlkStep + 1]

section Traces
variable {samples other : PerfSamples} {upperBound pageBlkCnt : Nat}

theorem PerfSamples.read_isSome {slot : Nat} : (samples.read slot).isSome ↔ slot ≤ perfSamplePoint := by
  rw [← Nat.lt_succ_iff]
  unfold PerfSamples.read
  split
  next inside => exact iff_of_true rfl inside
  next outside => exact iff_of_false Bool.false_ne_true outside

private theorem both_isSome {α β γ : Type} (x : Option α) (y : Option β) (f : α → β → γ) :
    (x.bind fun a => y.map (f a)).isSome ↔ x.isSome ∧ y.isSome := by
  cases x <;> cases y <;> simp

theorem deducePerf_isSome : (deducePerf samples upperBound pageBlkCnt).isSome ↔
    ∃ slots, deduceSlots upperBound pageBlkCnt = some slots ∧ ∀ slot ∈ slots, slot ≤ perfSamplePoint := by
  simp only [deducePerf,deduceSlots]
  split
  · simp [PerfSamples.read_isSome]
  · split
    · simp [PerfSamples.read_isSome]
    · split
      · simp
      · rw [both_isSome,PerfSamples.read_isSome,PerfSamples.read_isSome]
        simp

theorem deducePerf_congr (same : ∀ slots ∈ deduceSlots upperBound pageBlkCnt, ∀ slot ∈ slots,
      samples.read slot = other.read slot) :
    deducePerf samples upperBound pageBlkCnt = deducePerf other upperBound pageBlkCnt := by
  simp only [deduceSlots] at same
  simp only [deducePerf]
  split
  next zero =>
    rw [if_pos zero] at same
    exact same _ rfl 0 (by simp)
  next counted =>
    rw [if_neg counted] at same
    split
    next above =>
      rw [if_pos above] at same
      exact same _ rfl perfSamplePoint (by simp)
    next below =>
      rw [if_neg below] at same
      split
      · rfl
      next moving =>
        rw [if_neg moving] at same
        rw [same _ rfl _ (by simp),same _ rfl (pageBlkCnt / (upperBound / (perfSamplePoint - 1)) + 1) (by simp)]

end Traces

section Training
variable {kind : OperatorKind} {cache : ModelCache} {probeCPU probeDPU : Nat → PerfStats}
  {upperBound : Nat} {op loaded trained : OperatorBase} {points : List Nat}

theorem trainingPoints_eq_some : OperatorBase.trainingPoints upperBound = some points ↔
    SamplingVisits upperBound points ∧ ∀ slot ∈ sampleSlots points, slot ≤ perfSamplePoint := by
  rw [OperatorBase.trainingPoints,counters_eq_some_iff]
  apply and_congr_right
  intro _
  simp only [sampleSlots,List.mem_range]
  constructor
  · intro few slot inside
    omega
  · intro few
    by_contra many
    exact absurd (few (perfSamplePoint + 1) (by omega)) (by omega)

theorem train_cpuOnly (only : kind.isCPUOnly = true) {items : List (Nat × Nat)}
    (ran : items.foldlM (OperatorBase.train kind probeCPU probeDPU) op = some trained) :
    trained.dpuPerfSamples = op.dpuPerfSamples := by
  induction items generalizing op with
  | nil =>
    cases Option.some.inj ran
    rfl
  | cons item rest ih =>
    rw [List.foldlM_cons] at ran
    obtain ⟨middle,turn,later⟩ := Option.bind_eq_some_iff.mp ran
    obtain ⟨filled,-,kept⟩ := Option.bind_eq_some_iff.mp turn
    rw [if_pos only] at kept
    cases Option.some.inj kept
    have untouched := ih later
    exact untouched

theorem trainModel_slots (trainable : kind.isTrainable = true)
    (uncached : OperatorBase.loadModelCacheIfExist kind cache upperBound op = some (false,loaded))
    (ran : OperatorBase.trainModel kind cache probeCPU probeDPU upperBound op = some trained) :
    ∃ points, SamplingVisits upperBound points ∧
      (∀ i, trained.cpuPerfSamples i = if i.val ∈ kind.trainedSlots points .cpu
        then probeCPU (points.getD i 0) else loaded.cpuPerfSamples i) ∧
      ∀ i, trained.dpuPerfSamples i = if i.val ∈ kind.trainedSlots points .dpu
        then probeDPU (points.getD i 0) else loaded.dpuPerfSamples i := by
  simp only [OperatorBase.trainModel,uncached,Option.bind_some,trainable,and_self,if_true] at ran
  obtain ⟨points,visited,rest⟩ := Option.bind_eq_some_iff.mp ran
  obtain ⟨filled,looped,rfl⟩ := Option.map_eq_some_iff.mp rest
  have listed : points = (List.range points.length).map (points.getD · 0) := by
    apply List.ext_getElem
    · simp
    · intro i inside _
      simp [inside]
  rw [listed] at looped
  obtain ⟨cpu,dpu⟩ := train_spec (points.getD · 0) points.length looped
  refine ⟨points,(trainingPoints_eq_some.mp visited).1,?_,?_⟩
  · intro i
    simp only [OperatorKind.trainedSlots,OperatorKind.samples,trainable,if_true,sampleSlots,List.mem_range]
    exact cpu i
  · intro i
    rcases Bool.eq_false_or_eq_true kind.isCPUOnly with only | dual
    · rw [OperatorKind.trainedSlots,OperatorKind.samples,only,Bool.not_true,Bool.and_false]
      exact congrFun (train_cpuOnly only looped) i
    · rw [OperatorKind.trainedSlots,OperatorKind.samples,trainable,dual,Bool.not_false,Bool.and_true,
        if_pos rfl]
      simpa only [sampleSlots,List.mem_range] using dpu dual i

end Training

section Range
variable {kind : OperatorKind} {side : Side} {upperBound : Nat} {points : List Nat}

/-- Sampling and saving count existing slots, and every later deduction reads existing
slots that training filled. -/
structure SlotsInRange (kind : OperatorKind) (side : Side) (upperBound : Nat) (points : List Nat) : Prop where
  visited : SamplingVisits upperBound points
  indexed : ∀ slot ∈ sampleSlots points, slot ≤ perfSamplePoint
  deduced : ∀ pageBlkCnt < 2^32, ∃ slots, deduceSlots upperBound pageBlkCnt = some slots ∧
    ∀ slot ∈ slots, slot ≤ perfSamplePoint ∧ slot ∈ kind.trainedSlots points side

theorem samplingVisits_multiples (large : 15 ≤ upperBound)
    (fits : (upperBound / (upperBound / 15) + 1) * (upperBound / 15) < 2^32) :
    SamplingVisits upperBound
      ((List.range (upperBound / (upperBound / 15) + 1)).map (· * (upperBound / 15))) :=
  visits_multiples (Nat.div_pos large (by decide)) fits

theorem deduceSlots_saturated (large : 15 ≤ upperBound) {pageBlkCnt : Nat} (above : upperBound ≤ pageBlkCnt) :
    deduceSlots upperBound pageBlkCnt = some [perfSamplePoint] := by
  rw [deduceSlots,if_neg (by omega),if_pos above]

theorem deduceSlots_inside (large : 15 ≤ upperBound) {pageBlkCnt : Nat} (positive : 0 < pageBlkCnt)
    (below : pageBlkCnt < upperBound) : deduceSlots upperBound pageBlkCnt =
      some [pageBlkCnt / (upperBound / 15),pageBlkCnt / (upperBound / 15) + 1] := by
  have moving : upperBound / (perfSamplePoint - 1) ≠ 0 := (Nat.div_pos large (by decide)).ne'
  simp only [deduceSlots]
  rw [if_neg positive.ne',if_neg below.not_ge,if_neg moving]
  rfl

theorem SlotsInRange.sixteen (inRange : SlotsInRange kind side upperBound points) (large : 15 ≤ upperBound)
    (word : upperBound < 2^31) : kind.samples side = true ∧ 16 * (upperBound / 15) = upperBound := by
  have positive : 0 < upperBound / 15 := Nat.div_pos large (by decide)
  have last := Nat.div_mul_le_self upperBound (upperBound / 15)
  have fits : (upperBound / (upperBound / 15) + 1) * (upperBound / 15) < 2^32 := by
    rw [Nat.succ_mul]
    omega
  cases inRange.visited.unique (samplingVisits_multiples large fits)
  obtain ⟨slots,read,inside⟩ := inRange.deduced upperBound (by omega)
  cases Option.some.inj ((deduceSlots_saturated large le_rfl).symm.trans read)
  obtain ⟨-,filled⟩ := inside perfSamplePoint (List.mem_singleton_self _)
  rw [OperatorKind.trainedSlots] at filled
  split at filled
  next sampled =>
    -- slot 16 was filled, so there are sixteen steps, and the last may not start an interval
    simp only [sampleSlots,List.length_map,List.length_range,List.mem_range,perfSamplePoint] at filled
    refine ⟨sampled,?_⟩
    have reached := (Nat.mul_le_mul_right (upperBound / 15) (Nat.le_of_lt_succ filled)).trans last
    by_contra short
    obtain ⟨slots,read,inside⟩ := inRange.deduced (16 * (upperBound / 15)) (by omega)
    have interval : deduceSlots upperBound (16 * (upperBound / 15)) = _ :=
      deduceSlots_inside large (by omega) (by omega)
    rw [Nat.mul_div_cancel _ positive] at interval
    cases Option.some.inj (interval.symm.trans read)
    have beyond := (inside 17 (by simp)).1
    exact absurd beyond (by decide)
  next => exact absurd filled List.not_mem_nil

theorem slotsInRange_sixteen (large : 15 ≤ upperBound) (word : upperBound < 2^31)
    (sampled : kind.samples side = true) (whole : 16 * (upperBound / 15) = upperBound) :
    SlotsInRange kind side upperBound ((List.range 17).map (· * (upperBound / 15))) := by
  have positive : 0 < upperBound / 15 := Nat.div_pos large (by decide)
  have steps : upperBound / (upperBound / 15) = 16 := Nat.div_eq_of_eq_mul_left positive whole.symm
  have filled : kind.trainedSlots ((List.range 17).map (· * (upperBound / 15))) side = List.range 17 := by
    rw [OperatorKind.trainedSlots,if_pos sampled,sampleSlots,List.length_map,List.length_range]
  constructor
  · have visits := samplingVisits_multiples large (by rw [steps]; omega)
    rw [steps] at visits
    exact visits
  · intro slot member
    rw [sampleSlots,List.length_map,List.length_range,List.mem_range] at member
    exact Nat.le_of_lt_succ member
  · rw [filled]
    intro pageBlkCnt _
    have slotted {slot : Nat} (few : slot ≤ 16) : slot ≤ perfSamplePoint ∧ slot ∈ List.range 17 :=
      ⟨few,List.mem_range.mpr (Nat.lt_succ_of_le few)⟩
    rcases Nat.eq_zero_or_pos pageBlkCnt with rfl | counted
    · exact ⟨[0],rfl,by simp [perfSamplePoint]⟩
    rcases Nat.lt_or_ge pageBlkCnt upperBound with below | above
    · have index : pageBlkCnt / (upperBound / 15) < 16 := by
        rw [Nat.div_lt_iff_lt_mul positive]
        omega
      refine ⟨_,deduceSlots_inside large counted below,?_⟩
      intro slot member
      simp only [List.mem_cons,List.not_mem_nil,or_false] at member
      rcases member with rfl | rfl
      · exact slotted index.le
      · exact slotted index
    · refine ⟨_,deduceSlots_saturated large above,?_⟩
      intro slot member
      rw [List.mem_singleton.mp member]
      exact slotted le_rfl

/-- The conventions of the arrays fit together where the bound is sixteen steps. -/
theorem slotsInRange_iff (large : 15 ≤ upperBound) (word : upperBound < 2^31) :
    (∃ points, SlotsInRange kind side upperBound points) ↔
      kind.samples side = true ∧ 16 * (upperBound / 15) = upperBound := by
  constructor
  · intro found
    obtain ⟨points,inRange⟩ := found
    exact inRange.sixteen large word
  · intro both
    exact ⟨_,slotsInRange_sixteen large word both.1 both.2⟩

theorem slotsInRange_iff_mac : ∃ points, SlotsInRange (operatorKind .MAC) .dpu 224 points :=
  (slotsInRange_iff (by decide) (by decide)).mpr ⟨rfl,rfl⟩

/-- With 415 blocks there are fifteen steps, and the last slot is read without being filled. -/
theorem slots_not_inRange : ¬ ∀ (kind : OperatorKind) (side : Side) (upperBound : Nat),
    15 ≤ upperBound → upperBound < 2^31 → kind.samples side = true →
      ∃ points, SlotsInRange kind side upperBound points := by
  intro always
  obtain ⟨points,inRange⟩ := always (operatorKind .MAC) .cpu 415 (by decide) (by decide) rfl
  exact absurd (inRange.sixteen (by decide) (by decide)).2 (by decide)

end Range

section Ends

theorem samplingVisits_iff (pageBlkUpperBound : Nat) : (∃ points, SamplingVisits pageBlkUpperBound points) ↔
    pageBlkUpperBound + Nat.gcd (pageBlkUpperBound / 15) (2^32) < 2^32 :=
  addMod_ends_iff (by decide)

theorem deduceSlots_eq_none {upperBound pageBlkCnt : Nat} :
    deduceSlots upperBound pageBlkCnt = none ↔
      0 < pageBlkCnt ∧ pageBlkCnt < upperBound ∧ upperBound / 15 = 0 := by
  have same : upperBound / 15 = upperBound / (perfSamplePoint - 1) := rfl
  rw [same]
  simp only [deduceSlots]
  split
  · simp only [reduceCtorEq,false_iff]
    omega
  · split
    · simp only [reduceCtorEq,false_iff]
      omega
    · split
      · simp only [true_iff]
        omega
      · simp only [reduceCtorEq,false_iff]
        omega

theorem exists_workload {pageBlkUpperBound : Nat} (word : pageBlkUpperBound < 2^32) :
    ∃ inputSizeMiB, getNearestPageBlkCnt inputSizeMiB = pageBlkUpperBound := by
  refine ⟨pageBlkUpperBound * pageBlkSize / 2^20,?_⟩
  rw [getNearestPageBlkCnt_eq]
  · simp only [pageBlkSize,dpuNum,pageSizeByte]
    omega
  · simp only [pageBlkSize,dpuNum,pageSizeByte]
    omega

/-- The sampling loop ends within the arrays from fifteen blocks on, unless it has more than
sixteen steps or its counter wraps around before it passes the bound. -/
theorem trainingPoints_iff {upperBound : Nat} {points : List Nat} :
    OperatorBase.trainingPoints upperBound = some points ↔
      (15 ≤ upperBound ∧ upperBound / (upperBound / 15) ≤ 16 ∧
        (upperBound / (upperBound / 15) + 1) * (upperBound / 15) < 2^32) ∧
      points = (List.range (upperBound / (upperBound / 15) + 1)).map (· * (upperBound / 15)) := by
  constructor
  · intro counted
    have room := (samplingVisits_iff upperBound).mp ⟨points,(trainingPoints_eq_some.mp counted).1⟩
    have large : 15 ≤ upperBound := by
      by_contra small
      have still : upperBound / 15 = 0 := Nat.div_eq_of_lt (by omega)
      rw [still,Nat.gcd_zero_left] at room
      omega
    obtain ⟨few,fits,listed⟩ := trainingPoints_spec large (by omega) counted
    exact ⟨⟨large,few,fits⟩,listed⟩
  · rintro ⟨⟨large,few,fits⟩,rfl⟩
    apply trainingPoints_eq_some.mpr
    refine ⟨samplingVisits_multiples large fits,?_⟩
    intro slot member
    rw [sampleSlots,List.length_map,List.length_range,List.mem_range] at member
    exact (Nat.le_of_lt_succ member).trans few

/-- A turn of the loop goes through where its slot exists. -/
theorem exists_trained {points : List Nat} (few : points.length ≤ perfSamplePoint + 1)
    (kind : OperatorKind) (probeCPU probeDPU : Nat → PerfStats) (op : OperatorBase) :
    ∃ trained, points.zipIdx.foldlM (OperatorBase.train kind probeCPU probeDPU) op = some trained := by
  apply foldlM_returns
  intro point member op
  have slot : point.2 < perfSamplePoint + 1 := by
    obtain ⟨-,inside,-⟩ := List.mem_zipIdx (Prod.eta point ▸ member)
    omega
  have stored (samples : PerfSamples) (stats : PerfStats) :
      ∃ filled, samples.write point.2 stats = some filled :=
    ⟨_,PerfSamples.write_eq_some.mpr ⟨slot,rfl⟩⟩
  obtain ⟨cpu,cpuStored⟩ := stored op.cpuPerfSamples (probeCPU point.1)
  obtain ⟨dpu,dpuStored⟩ := stored op.dpuPerfSamples (probeDPU point.1)
  rw [OperatorBase.train,cpuStored,Option.bind_some,dpuStored]
  split
  · exact ⟨_,rfl⟩
  · exact ⟨_,rfl⟩

end Ends
end MetaPB.Operator

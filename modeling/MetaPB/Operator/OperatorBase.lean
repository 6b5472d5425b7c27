import MetaPB.Operator.Registry
import Mathlib.Data.List.Induction
import Mathlib.Tactic.Linarith
import Mathlib.Tactic.FieldSimp

/-! The performance model of one operator: the sample arrays `trainModel` fills at
multiples of a fifteenth of its upper bound, and the interpolation that deduces from
them. An access outside an array, or a division by zero, is no result at all. -/
namespace MetaPB.Operator
open Utils Lib.Word

def perfSamplePoint : Nat := 16

abbrev PerfSamples := Fin (perfSamplePoint + 1) → PerfStats

namespace PerfSamples

def read (samples : PerfSamples) (index : Nat) : Option PerfStats :=
  if inside : index < perfSamplePoint + 1 then some (samples ⟨index,inside⟩) else none

def write (samples : PerfSamples) (index : Nat) (stats : PerfStats) : Option PerfSamples :=
  if inside : index < perfSamplePoint + 1 then some (Function.update samples ⟨index,inside⟩ stats)
  else none

end PerfSamples

structure OperatorBase where
  cpuPerfSamples : PerfSamples := fun _ => 0
  dpuPerfSamples : PerfSamples := fun _ => 0
  deducePageBlkUpperBound : Nat := 0

structure OperatorKind where
  isTrainable : Bool
  isCPUOnly : Bool

structure ModelCache where
  cpuRows : Option (List PerfStats) := none
  dpuRows : Option (List PerfStats) := none

def deducePerf (samples : PerfSamples) (upperBound pageBlkCnt : Nat) : Option PerfStats :=
  let pageBlkStep := upperBound / (perfSamplePoint - 1)
  if pageBlkCnt = 0 then samples.read 0
  else if upperBound ≤ pageBlkCnt then samples.read perfSamplePoint
  else if pageBlkStep = 0 then none
  else
    let index := pageBlkCnt / pageBlkStep
    let x0 := index * pageBlkStep
    let x1 := x0 + pageBlkStep
    (samples.read index).bind fun y0 => (samples.read (index + 1)).map fun y1 =>
      y0 + ((y1 - y0).mul (pageBlkCnt - x0)).div (x1 - x0)

namespace OperatorBase

def deducePerfCPU (op : OperatorBase) (pageBlkCnt : Nat) : Option PerfStats :=
  deducePerf op.cpuPerfSamples op.deducePageBlkUpperBound pageBlkCnt

def deducePerfDPU (op : OperatorBase) (pageBlkCnt : Nat) : Option PerfStats :=
  deducePerf op.dpuPerfSamples op.deducePageBlkUpperBound pageBlkCnt

def loadPerfSamples (samples : PerfSamples) (rows : List PerfStats) : Option PerfSamples :=
  rows.zipIdx.foldlM (fun samples row => samples.write row.2 row.1) samples

/-- Whether a complete cache was loaded, and the operator afterwards: a CPU file is
loaded even when the DPU file is missing. -/
def loadModelCacheIfExist (kind : OperatorKind) (cache : ModelCache) (pageUpperBound : Nat)
    (op : OperatorBase) : Option (Bool × OperatorBase) :=
  if kind.isTrainable then
    match cache.cpuRows with
    | none => some (false,op)
    | some cpuRows => (loadPerfSamples op.cpuPerfSamples cpuRows).bind fun cpu =>
      let op := { op with cpuPerfSamples := cpu }
      if kind.isCPUOnly then some (true,{ op with deducePageBlkUpperBound := pageUpperBound })
      else
        match cache.dpuRows with
        | none => some (false,op)
        | some dpuRows => (loadPerfSamples op.dpuPerfSamples dpuRows).map fun dpu =>
          (true,{ op with dpuPerfSamples := dpu, deducePageBlkUpperBound := pageUpperBound })
  else some (true,{ op with deducePageBlkUpperBound := pageUpperBound })

/-- The block counts the training loop visits, or `none` where it visits more than the
arrays have slots for. -/
def trainingPoints (pageBlkUpperBound : Nat) : Option (List Nat) :=
  counters (· ≤ pageBlkUpperBound)
    (fun pageBlkCnt => wrap32 (pageBlkCnt + pageBlkUpperBound / (perfSamplePoint - 1)))
    (perfSamplePoint + 2) 0

def train (kind : OperatorKind) (probeCPU probeDPU : Nat → PerfStats) (op : OperatorBase)
    (point : Nat × Nat) : Option OperatorBase :=
  (op.cpuPerfSamples.write point.2 (probeCPU point.1)).bind fun cpu =>
    if kind.isCPUOnly then some { op with cpuPerfSamples := cpu }
    else (op.dpuPerfSamples.write point.2 (probeDPU point.1)).map fun dpu =>
      { op with cpuPerfSamples := cpu, dpuPerfSamples := dpu }

def trainModel (kind : OperatorKind) (cache : ModelCache) (probeCPU probeDPU : Nat → PerfStats)
    (pageBlkUpperBound : Nat) (op : OperatorBase) : Option OperatorBase :=
  (loadModelCacheIfExist kind cache pageBlkUpperBound op).bind fun (loaded,op) =>
    if loaded = false ∧ kind.isTrainable then
      (trainingPoints pageBlkUpperBound).bind fun points =>
        (points.zipIdx.foldlM (train kind probeCPU probeDPU) op).map fun op =>
          { op with deducePageBlkUpperBound := pageBlkUpperBound }
    else some op

end OperatorBase

section Points

variable {upperBound step : Nat}

private theorem counters_climb (word : upperBound < 2^32) (fuel j : Nat) (below : j ≤ upperBound / step)
    {values : List Nat} (counted : counters (· ≤ upperBound) (fun cnt => wrap32 (cnt + step)) fuel
      (j * step) = some values) :
    ∃ rest left, fuel = upperBound / step - j + 1 + left ∧
      values = (List.range' j (upperBound / step + 1 - j)).map (· * step) ++ rest ∧
      counters (· ≤ upperBound) (fun cnt => wrap32 (cnt + step)) left
        (wrap32 ((upperBound / step + 1) * step)) = some rest := by
  induction fuel generalizing j values with
  | zero => simp [counters] at counted
  | succ fuel ih =>
    have inside : j * step ≤ upperBound :=
      (Nat.mul_le_mul_right step below).trans (Nat.div_mul_le_self upperBound step)
    obtain ⟨tail,_,same,rfl,further⟩ := counters_more (by simpa using inside) counted
    cases same
    have reshape : j * step + step = (j + 1) * step := by ring
    simp only [reshape] at further
    rcases Nat.lt_or_eq_of_le below with earlier | last
    · have fits : (j + 1) * step ≤ upperBound :=
        (Nat.mul_le_mul_right step earlier).trans (Nat.div_mul_le_self upperBound step)
      rw [wrap32_of_lt (by omega)] at further
      obtain ⟨rest,left,spent,rfl,stopped⟩ := ih (j + 1) earlier further
      refine ⟨rest,left,by omega,?_,stopped⟩
      have split : upperBound / step + 1 - j = (upperBound / step + 1 - (j + 1)) + 1 := by omega
      rw [split,List.range'_succ]
      simp
    · subst last
      exact ⟨tail,fuel,by omega,by simp,further⟩

/-- The counter takes the multiples of the step up to the bound. A step that wraps around
starts over below the bound and runs out of slots. -/
theorem trainingPoints_spec (large : 15 ≤ upperBound) (word : upperBound < 2^32) {points : List Nat}
    (visited : OperatorBase.trainingPoints upperBound = some points) :
    upperBound / (upperBound / 15) ≤ 16 ∧
      (upperBound / (upperBound / 15) + 1) * (upperBound / 15) < 2^32 ∧
      points = (List.range (upperBound / (upperBound / 15) + 1)).map (· * (upperBound / 15)) := by
  have positive : 0 < upperBound / 15 := Nat.div_pos large (by decide)
  generalize isStep : upperBound / 15 = step at positive
  have many : 15 ≤ upperBound / step := by
    rw [Nat.le_div_iff_mul_le positive,← isStep]
    omega
  have start : counters (· ≤ upperBound) (fun cnt => wrap32 (cnt + step)) 18 (0 * step) =
      some points := by
    simpa [OperatorBase.trainingPoints,perfSamplePoint,isStep] using visited
  obtain ⟨rest,left,spent,rfl,stopped⟩ := counters_climb word 18 0 (Nat.zero_le _) start
  have next : upperBound < (upperBound / step + 1) * step := by
    rw [Nat.mul_comm]
    exact Nat.lt_mul_div_succ upperBound positive
  have last := Nat.div_mul_le_self upperBound step
  have ended : rest = [] ∧ upperBound / step ≤ 16 ∧ (upperBound / step + 1) * step < 2^32 := by
    rcases Nat.lt_or_ge ((upperBound / step + 1) * step) (2^32) with fits | wraps
    · rw [wrap32_of_lt fits] at stopped
      cases left with
      | zero => simp [counters] at stopped
      | succ left =>
        rw [counters,if_neg (by simpa using next)] at stopped
        exact ⟨(Option.some.inj stopped).symm,by omega,fits⟩
    · exfalso
      have spread : (upperBound / step + 1) * step = upperBound / step * step + step := by ring
      have small : wrap32 ((upperBound / step + 1) * step) < step := by
        rw [wrap32,Nat.mod_eq_sub_mod wraps,Nat.mod_eq_of_lt (by omega)]
        omega
      have twice : 2 * step ≤ upperBound :=
        (Nat.mul_le_mul_right step (by omega : 2 ≤ upperBound / step)).trans last
      obtain ⟨_,before,rfl,-,again⟩ := counters_more (by simp only [decide_eq_true_eq]; omega) stopped
      rw [wrap32_of_lt (by omega)] at again
      obtain ⟨_,_,rfl,-,beyond⟩ := counters_more (by simp only [decide_eq_true_eq]; omega) again
      obtain ⟨_,_,rfl,-,-⟩ := counters_more (by
        simp only [decide_eq_true_eq]
        exact (wrap32_le _).trans (by omega)) beyond
      omega
  obtain ⟨rfl,few,fits⟩ := ended
  exact ⟨few,fits,by simp [List.range_eq_range']⟩

end Points

section Training
variable {kind : OperatorKind} {probeCPU probeDPU : Nat → PerfStats}

theorem PerfSamples.write_eq_some {samples filled : PerfSamples} {index : Nat} {stats : PerfStats} :
    samples.write index stats = some filled ↔
      ∃ inside : index < perfSamplePoint + 1, filled = Function.update samples ⟨index,inside⟩ stats := by
  unfold PerfSamples.write
  split
  next inside => simp [inside,eq_comm]
  next outside => simp [outside]

theorem PerfSamples.read_of_le (samples : PerfSamples) {index : Nat} (inside : index ≤ perfSamplePoint) :
    samples.read index = some (samples ⟨index,Nat.lt_succ_of_le inside⟩) := by
  simp [PerfSamples.read,Nat.lt_succ_of_le inside]

theorem loadPerfSamples_spec (samples : PerfSamples) (rows : List PerfStats)
    (fits : rows.length ≤ perfSamplePoint + 1) :
    ∃ loaded, OperatorBase.loadPerfSamples samples rows = some loaded ∧
      ∀ i, loaded i = (rows[i.val]?).getD (samples i) := by
  induction rows using List.reverseRecOn with
  | nil => exact ⟨samples,rfl,fun _ => rfl⟩
  | append_singleton rows row ih =>
    rw [List.length_append,List.length_singleton] at fits
    obtain ⟨middle,before,read⟩ := ih (by omega)
    have stored : middle.write rows.length row = some (Function.update middle ⟨rows.length,fits⟩ row) :=
      PerfSamples.write_eq_some.mpr ⟨fits,rfl⟩
    refine ⟨Function.update middle ⟨rows.length,fits⟩ row,?_,?_⟩
    · rw [OperatorBase.loadPerfSamples,List.zipIdx_append,List.foldlM_append]
      rw [OperatorBase.loadPerfSamples] at before
      rw [before]
      simpa using stored
    · intro i
      rcases eq_or_ne i ⟨rows.length,fits⟩ with rfl | apart
      · simp
      · have other : i.val ≠ rows.length := fun same => apart (Fin.ext same)
        rw [Function.update_of_ne apart,read]
        rcases Nat.lt_or_gt_of_ne other with inside | outside
        · rw [List.getElem?_append_left inside]
        · rw [List.getElem?_eq_none outside.le,List.getElem?_eq_none (by simpa using Nat.succ_le_of_lt outside)]

theorem train_spec (point : Nat → Nat) (count : Nat) {op trained : OperatorBase}
    (ran : ((List.range count).map point).zipIdx.foldlM (OperatorBase.train kind probeCPU probeDPU) op =
      some trained) :
    (∀ i, trained.cpuPerfSamples i = if i.val < count then probeCPU (point i) else op.cpuPerfSamples i) ∧
      (kind.isCPUOnly = false → ∀ i, trained.dpuPerfSamples i =
        if i.val < count then probeDPU (point i) else op.dpuPerfSamples i) := by
  induction count generalizing trained with
  | zero =>
    cases Option.some.inj ran
    exact ⟨fun _ => rfl,fun _ _ => rfl⟩
  | succ count ih =>
    rw [List.range_succ,List.map_append,List.zipIdx_append,List.foldlM_append] at ran
    obtain ⟨middle,before,last⟩ := Option.bind_eq_some_iff.mp ran
    obtain ⟨cpu,dpu⟩ := ih before
    have turn : OperatorBase.train kind probeCPU probeDPU middle (point count,count) = some trained := by
      simpa using last
    obtain ⟨filled,stored,rest⟩ := Option.bind_eq_some_iff.mp turn
    obtain ⟨inside,rfl⟩ := PerfSamples.write_eq_some.mp stored
    have grown (samples old : PerfSamples) (probe : Nat → PerfStats)
        (earlier : ∀ i, samples i = if i.val < count then probe (point i) else old i)
        (i : Fin (perfSamplePoint + 1)) :
        Function.update samples ⟨count,inside⟩ (probe (point count)) i =
          if i.val < count + 1 then probe (point i) else old i := by
      rcases eq_or_ne i ⟨count,inside⟩ with rfl | apart
      · simp
      · have other : i.val ≠ count := fun same => apart (Fin.ext same)
        rw [Function.update_of_ne apart,earlier i]
        congr 1
        simp only [eq_iff_iff]
        omega
    split at rest
    next only =>
      cases Option.some.inj rest
      exact ⟨grown _ _ _ cpu,fun both => by simp [only] at both⟩
    next both =>
      obtain ⟨filledDpu,storedDpu,rfl⟩ := Option.map_eq_some_iff.mp rest
      obtain ⟨_,rfl⟩ := PerfSamples.write_eq_some.mp storedDpu
      exact ⟨grown _ _ _ cpu,fun dual => grown _ _ _ (dpu dual)⟩

theorem OperatorBase.trainModel_cached {op : OperatorBase} {bound : Nat} {cpuRows dpuRows : List PerfStats}
    {cpu dpu : PerfSamples} (trainable : kind.isTrainable = true)
    (cpuLoaded : OperatorBase.loadPerfSamples op.cpuPerfSamples cpuRows = some cpu)
    (dpuLoaded : OperatorBase.loadPerfSamples op.dpuPerfSamples dpuRows = some dpu) :
    OperatorBase.trainModel kind ⟨some cpuRows,some dpuRows⟩ probeCPU probeDPU bound op =
      some ⟨cpu,if kind.isCPUOnly then op.dpuPerfSamples else dpu,bound⟩ := by
  rcases only : kind.isCPUOnly with _ | _
  · simp [OperatorBase.trainModel,OperatorBase.loadModelCacheIfExist,trainable,only,cpuLoaded,dpuLoaded]
  · simp [OperatorBase.trainModel,OperatorBase.loadModelCacheIfExist,trainable,only,cpuLoaded]

end Training

section Interpolation

/-- A deduction that interpolates its probes: exact at training points, between the
neighbours inside the intervals, and the last sample from the bound on. -/
structure Interpolates (upperBound : Nat) (probe : Nat → PerfStats)
    (deduce : Nat → Option PerfStats) : Prop where
  sampled : ∀ k, k * (upperBound / 15) ≤ upperBound →
    deduce (k * (upperBound / 15)) = some (probe (k * (upperBound / 15)))
  between : ∀ k cnt, k * (upperBound / 15) < cnt → cnt < (k + 1) * (upperBound / 15) →
    (k + 1) * (upperBound / 15) ≤ upperBound → ∃ stats, deduce cnt = some stats ∧
      stats.Between (probe (k * (upperBound / 15))) (probe ((k + 1) * (upperBound / 15)))
  saturated : ∀ cnt, upperBound ≤ cnt →
    deduce cnt = some (probe (upperBound / (upperBound / 15) * (upperBound / 15)))

private theorem mix_mem_uIcc (a b : ℚ) {part whole : Nat} (positive : 0 < whole) (inside : part ≤ whole) :
    a + (b - a) * part / whole ∈ Set.uIcc a b := by
  have cast : (part : ℚ) ≤ whole := by exact_mod_cast inside
  have wholePositive : (0 : ℚ) < whole := by exact_mod_cast positive
  have share : (part : ℚ) / whole ≤ 1 := (div_le_one wholePositive).mpr cast
  have shareNonneg : (0 : ℚ) ≤ part / whole := by positivity
  have shape : a + (b - a) * part / whole = a + (b - a) * (part / whole) := by ring
  rw [shape,Set.mem_uIcc]
  rcases le_total a b with rising | falling
  · left
    constructor <;> nlinarith
  · right
    constructor <;> nlinarith

private theorem mix_between (y0 y1 : PerfStats) {part whole : Nat} (positive : 0 < whole)
    (inside : part ≤ whole) : (y0 + ((y1 - y0).mul part).div whole).Between y0 y1 :=
  ⟨mix_mem_uIcc _ _ positive inside,mix_mem_uIcc _ _ positive inside,mix_mem_uIcc _ _ positive inside⟩

theorem deducePerf_between {samples : PerfSamples} {upperBound pageBlkCnt : Nat} {stats : PerfStats}
    (deduced : deducePerf samples upperBound pageBlkCnt = some stats) :
    ∃ i j, stats.Between (samples i) (samples j) := by
  have slot {index : Nat} {read : PerfStats} (found : samples.read index = some read) :
      ∃ i, read = samples i := by
    unfold PerfSamples.read at found
    split at found
    next inside => exact ⟨⟨index,inside⟩,(Option.some.inj found).symm⟩
    next => contradiction
  have alone {index : Nat} (found : samples.read index = some stats) :
      ∃ i j, stats.Between (samples i) (samples j) := by
    obtain ⟨i,rfl⟩ := slot found
    exact ⟨i,i,Set.left_mem_uIcc,Set.left_mem_uIcc,Set.left_mem_uIcc⟩
  simp only [deducePerf] at deduced
  split at deduced
  · exact alone deduced
  · split at deduced
    · exact alone deduced
    · split at deduced
      · contradiction
      next moving =>
        obtain ⟨y0,first,rest⟩ := Option.bind_eq_some_iff.mp deduced
        obtain ⟨y1,second,rfl⟩ := Option.map_eq_some_iff.mp rest
        obtain ⟨i,rfl⟩ := slot first
        obtain ⟨j,rfl⟩ := slot second
        refine ⟨i,j,?_⟩
        rw [Nat.add_sub_cancel_left]
        have positive := Nat.pos_of_ne_zero moving
        have split := Nat.div_add_mod' pageBlkCnt (upperBound / (perfSamplePoint - 1))
        have small := Nat.mod_lt pageBlkCnt positive
        exact mix_between _ _ positive (by omega)

theorem deducePerf_zero {upperBound pageBlkCnt : Nat} {stats : PerfStats}
    (deduced : deducePerf (fun _ => 0) upperBound pageBlkCnt = some stats) : stats.timeCostSecond = 0 := by
  obtain ⟨_,_,-,time,-⟩ := deducePerf_between deduced
  rw [Set.uIcc_self] at time
  exact time

theorem deducePerf_nonneg {samples : PerfSamples} (nonneg : ∀ i, 0 ≤ (samples i).timeCostSecond)
    {upperBound pageBlkCnt : Nat} {stats : PerfStats}
    (deduced : deducePerf samples upperBound pageBlkCnt = some stats) : 0 ≤ stats.timeCostSecond := by
  obtain ⟨i,j,-,time,-⟩ := deducePerf_between deduced
  exact (le_inf (nonneg i) (nonneg j)).trans time.1

private theorem mix_zero (y0 y1 : PerfStats) (whole : Nat) :
    y0 + ((y1 - y0).mul 0).div whole = y0 := by
  ext
  · change y0.energyCostJoule + (y1 - y0).energyCostJoule * (0 : Nat) / whole = y0.energyCostJoule
    simp
  · change y0.timeCostSecond + (y1 - y0).timeCostSecond * (0 : Nat) / whole = y0.timeCostSecond
    simp
  · change y0.dataMovementMiB + (y1 - y0).dataMovementMiB * (0 : Nat) / whole = y0.dataMovementMiB
    simp

variable {samples : PerfSamples} {upperBound step : Nat}

theorem deducePerf_inside (isStep : upperBound / 15 = step) (k offset : Nat)
    (small : offset < step) (positive : 0 < k * step + offset) (below : k * step + offset < upperBound) :
    deducePerf samples upperBound (k * step + offset) = (samples.read k).bind fun y0 =>
      (samples.read (k + 1)).map fun y1 => y0 + ((y1 - y0).mul offset).div step := by
  have stepPositive : 0 < step := by omega
  have index : (k * step + offset) / step = k := by
    rw [Nat.mul_comm,Nat.mul_add_div stepPositive,Nat.div_eq_of_lt small,Nat.add_zero]
  simp only [deducePerf,perfSamplePoint,Nat.add_one_sub_one,isStep]
  rw [if_neg positive.ne',if_neg (not_le.mpr below),if_neg stepPositive.ne',index]
  simp

def Filled (upperBound : Nat) (probe : Nat → PerfStats) (samples : PerfSamples) : Prop :=
  ∀ i, i.val ≤ upperBound / (upperBound / 15) → samples i = probe (i.val * (upperBound / 15))

private theorem Filled.read {probe : Nat → PerfStats} (filled : Filled upperBound probe samples)
    (isStep : upperBound / 15 = step) {k : Nat} (trained : k ≤ upperBound / step) (slot : k ≤ 16) :
    samples.read k = some (probe (k * step)) := by
  subst isStep
  rw [samples.read_of_le slot,filled ⟨k,Nat.lt_succ_of_le slot⟩ trained]

private theorem deducePerf_saturated (large : 15 ≤ upperBound) {cnt : Nat} (above : upperBound ≤ cnt) :
    deducePerf samples upperBound cnt = some (samples 16) := by
  simp only [deducePerf]
  rw [if_neg (by omega),if_pos above,samples.read_of_le le_rfl]
  rfl

private theorem deducePerf_multiple (isStep : upperBound / 15 = step) {k : Nat} (inner : 0 < k * step)
    (below : k * step < upperBound) (positive : 0 < step) :
    deducePerf samples upperBound (k * step) = (samples.read k).bind fun y0 =>
      (samples.read (k + 1)).map fun y1 => y0 + ((y1 - y0).mul 0).div step :=
  deducePerf_inside isStep k 0 positive inner below

section Meeting
variable {probe : Nat → PerfStats}

/-- The bound is the sixteenth multiple of the step, or it lies behind the fifteenth
and the slot past the training points happens to hold the last one's value. -/
def Meets (upperBound : Nat) (probe : Nat → PerfStats) (samples : PerfSamples) : Prop :=
  16 * (upperBound / 15) = upperBound ∨
    upperBound / (upperBound / 15) = 15 ∧ samples 16 = probe (15 * (upperBound / 15))

theorem Interpolates.meets (large : 15 ≤ upperBound) (few : upperBound / (upperBound / 15) ≤ 16)
    (deduces : Interpolates upperBound probe (deducePerf samples upperBound)) :
    Meets upperBound probe samples := by
  have positive : 0 < upperBound / 15 := Nat.div_pos large (by decide)
  rcases Nat.lt_or_eq_of_le few with fifteen | sixteen
  · have many : 15 ≤ upperBound / (upperBound / 15) := by
      rw [Nat.le_div_iff_mul_le positive]
      omega
    have exactly : upperBound / (upperBound / 15) = 15 := by omega
    refine Or.inr ⟨exactly,?_⟩
    have stale := deduces.saturated upperBound le_rfl
    rw [deducePerf_saturated large le_rfl,exactly] at stale
    exact Option.some.inj stale
  · left
    have last := Nat.div_mul_le_self upperBound (upperBound / 15)
    rw [sixteen] at last
    rcases Nat.lt_or_eq_of_le last with short | whole
    · -- the last training point lies below the bound, and its interval has no upper slot
      have point := deduces.sampled 16 last
      rw [deducePerf_multiple rfl (by omega) short positive] at point
      simp [PerfSamples.read,perfSamplePoint] at point
    · exact whole

theorem Meets.top (large : 15 ≤ upperBound) (filled : Filled upperBound probe samples)
    (meets : Meets upperBound probe samples) :
    samples 16 = probe (upperBound / (upperBound / 15) * (upperBound / 15)) := by
  have positive : 0 < upperBound / 15 := Nat.div_pos large (by decide)
  rcases meets with whole | ⟨fifteen,stale⟩
  · have sixteen : upperBound / (upperBound / 15) = 16 :=
      Nat.div_eq_of_eq_mul_left positive whole.symm
    rw [filled 16 (by rw [sixteen]; rfl),sixteen]
    rfl
  · rw [fifteen]
    exact stale

theorem Meets.slot (large : 15 ≤ upperBound) (meets : Meets upperBound probe samples) {k : Nat}
    (below : k * (upperBound / 15) < upperBound) : k + 1 ≤ 16 := by
  have positive : 0 < upperBound / 15 := Nat.div_pos large (by decide)
  rcases meets with whole | ⟨fifteen,-⟩
  · have short := below.trans_eq whole.symm
    exact Nat.lt_of_mul_lt_mul_right short
  · have trained := (Nat.le_div_iff_mul_le positive).mpr below.le
    omega

theorem Meets.sampled (large : 15 ≤ upperBound) (filled : Filled upperBound probe samples)
    (meets : Meets upperBound probe samples) {k : Nat} (below : k * (upperBound / 15) ≤ upperBound) :
    deducePerf samples upperBound (k * (upperBound / 15)) = some (probe (k * (upperBound / 15))) := by
  have positive : 0 < upperBound / 15 := Nat.div_pos large (by decide)
  have trained := (Nat.le_div_iff_mul_le positive).mpr below
  rcases Nat.eq_zero_or_pos k with rfl | inner
  · rw [Nat.zero_mul,deducePerf,if_pos rfl,filled.read rfl (Nat.zero_le _) (Nat.zero_le _),Nat.zero_mul]
  · rcases Nat.lt_or_eq_of_le below with under | whole
    · have slot := meets.slot large under
      rw [deducePerf_multiple rfl (Nat.mul_pos inner positive) under positive,
        filled.read rfl trained (by omega),samples.read_of_le slot]
      simp [mix_zero]
    · have same : upperBound / (upperBound / 15) = k := Nat.div_eq_of_eq_mul_left positive whole.symm
      have top := meets.top large filled
      rw [same,whole] at top
      rw [whole,deducePerf_saturated large le_rfl,top]

theorem Meets.between (large : 15 ≤ upperBound) (filled : Filled upperBound probe samples)
    (meets : Meets upperBound probe samples) {k cnt : Nat} (above : k * (upperBound / 15) < cnt)
    (under : cnt < (k + 1) * (upperBound / 15)) (inside : (k + 1) * (upperBound / 15) ≤ upperBound) :
    ∃ stats, deducePerf samples upperBound cnt = some stats ∧
      stats.Between (probe (k * (upperBound / 15))) (probe ((k + 1) * (upperBound / 15))) := by
  have positive : 0 < upperBound / 15 := Nat.div_pos large (by decide)
  have next := (Nat.le_div_iff_mul_le positive).mpr inside
  have slot := meets.slot large ((above.trans under).trans_le inside)
  obtain ⟨offset,rfl⟩ := Nat.exists_eq_add_of_le above.le
  have small : offset < upperBound / 15 := by
    rw [Nat.succ_mul] at under
    omega
  rw [deducePerf_inside rfl k offset small (by omega) (under.trans_le inside),
    filled.read rfl (by omega) (by omega),filled.read rfl next slot]
  exact ⟨_,rfl,mix_between _ _ positive small.le⟩

theorem interpolates_iff (large : 15 ≤ upperBound) (few : upperBound / (upperBound / 15) ≤ 16)
    (filled : Filled upperBound probe samples) :
    Interpolates upperBound probe (deducePerf samples upperBound) ↔ Meets upperBound probe samples := by
  constructor
  · exact fun deduces => deduces.meets large few
  · intro meets
    constructor
    · exact fun k below => meets.sampled large filled below
    · exact fun k cnt above under inside => meets.between large filled above under inside
    · intro cnt above
      rw [deducePerf_saturated large above,meets.top large filled]

end Meeting
end Interpolation

section Model
variable {kind : OperatorKind} {cache : ModelCache} {probeCPU probeDPU : Nat → PerfStats}
  {upperBound : Nat} {op loaded trained : OperatorBase}

/-- After training without a complete cache the model interpolates its probes exactly
when the index conventions meet, on the CPU and, where it is probed, on the DPU. -/
theorem trainModel_interpolates_iff (large : 15 ≤ upperBound) (word : upperBound < 2^32)
    (trainable : kind.isTrainable = true)
    (uncached : OperatorBase.loadModelCacheIfExist kind cache upperBound op = some (false,loaded))
    (ran : OperatorBase.trainModel kind cache probeCPU probeDPU upperBound op = some trained) :
    (Interpolates upperBound probeCPU trained.deducePerfCPU ∧
      (kind.isCPUOnly = false → Interpolates upperBound probeDPU trained.deducePerfDPU)) ↔
    (16 * (upperBound / 15) = upperBound ∨
      upperBound / (upperBound / 15) = 15 ∧
        loaded.cpuPerfSamples 16 = probeCPU (15 * (upperBound / 15)) ∧
        (kind.isCPUOnly = false → loaded.dpuPerfSamples 16 = probeDPU (15 * (upperBound / 15)))) := by
  simp only [OperatorBase.trainModel,uncached,Option.bind_some,trainable,and_self,if_true] at ran
  obtain ⟨points,visited,rest⟩ := Option.bind_eq_some_iff.mp ran
  obtain ⟨filled,looped,rfl⟩ := Option.map_eq_some_iff.mp rest
  obtain ⟨few,-,rfl⟩ := trainingPoints_spec large word visited
  obtain ⟨cpu,dpu⟩ := train_spec (· * (upperBound / 15)) _ looped
  have cpuFilled : Filled upperBound probeCPU filled.cpuPerfSamples := by
    intro i inside
    rw [cpu,if_pos (Nat.lt_succ_of_le inside)]
  have cpuIff : Interpolates upperBound probeCPU (OperatorBase.deducePerfCPU
      { filled with deducePageBlkUpperBound := upperBound }) ↔ _ := interpolates_iff large few cpuFilled
  have keeps (exactly : upperBound / (upperBound / 15) = 15) :
      ¬ ((16 : Fin (perfSamplePoint + 1)).val < upperBound / (upperBound / 15) + 1) := by
    rw [exactly]
    decide
  rcases Bool.eq_false_or_eq_true kind.isCPUOnly with only | dual
  · simp only [only,Bool.true_eq_false,false_implies,and_true]
    rw [cpuIff,Meets]
    refine or_congr_right (and_congr_right fun exactly => ?_)
    rw [cpu,if_neg (keeps exactly)]
  · have dpuFilled : Filled upperBound probeDPU filled.dpuPerfSamples := by
      intro i inside
      rw [dpu dual,if_pos (Nat.lt_succ_of_le inside)]
    have dpuIff : Interpolates upperBound probeDPU (OperatorBase.deducePerfDPU
        { filled with deducePageBlkUpperBound := upperBound }) ↔ _ := interpolates_iff large few dpuFilled
    simp only [dual,true_implies]
    rw [cpuIff,dpuIff,Meets,Meets,← or_and_left]
    refine or_congr_right ?_
    constructor
    · intro found
      obtain ⟨⟨exactly,cpuStale⟩,-,dpuStale⟩ := found
      rw [cpu,if_neg (keeps exactly)] at cpuStale
      rw [dpu dual,if_neg (keeps exactly)] at dpuStale
      exact ⟨exactly,cpuStale,dpuStale⟩
    · intro found
      obtain ⟨exactly,cpuStale,dpuStale⟩ := found
      rw [cpu,dpu dual,if_neg (keeps exactly),if_neg (keeps exactly)]
      exact ⟨⟨exactly,cpuStale⟩,exactly,dpuStale⟩

def linearProbe (pageBlkCnt : Nat) : PerfStats := {timeCostSecond := pageBlkCnt}

/-- With 32 blocks the step is two, and a block lies within every interval. -/
theorem trainModel_interpolates_iff_double : ∃ trained,
    OperatorBase.trainModel ⟨true,false⟩ {} linearProbe linearProbe 32 {} = some trained ∧
      Interpolates 32 linearProbe trained.deducePerfCPU ∧
      Interpolates 32 linearProbe trained.deducePerfDPU := by
  obtain ⟨trained,ran⟩ := Option.isSome_iff_exists.mp (by decide +kernel :
    (OperatorBase.trainModel ⟨true,false⟩ {} linearProbe linearProbe 32 {}).isSome = true)
  have meets := trainModel_interpolates_iff (by decide) (by decide) rfl rfl ran
  obtain ⟨cpu,dpu⟩ := meets.mpr (Or.inl rfl)
  exact ⟨trained,ran,cpu,dpu rfl⟩

/-- Trained for 415 blocks, a fresh operator deduces nothing at all for 415 blocks. -/
theorem trainModel_not_interpolating : ¬ ∀ (kind : OperatorKind) (probeCPU probeDPU : Nat → PerfStats)
    (upperBound : Nat) (op trained : OperatorBase), 15 ≤ upperBound → upperBound < 2^32 →
      kind.isTrainable = true →
      OperatorBase.trainModel kind {} probeCPU probeDPU upperBound op = some trained →
        Interpolates upperBound probeCPU trained.deducePerfCPU := by
  intro always
  have stale : (OperatorBase.trainModel ⟨true,false⟩ {} linearProbe linearProbe 415 {}).bind
      (·.deducePerfCPU 415) = some 0 := by decide +kernel
  obtain ⟨trained,ran,deduced⟩ := Option.bind_eq_some_iff.mp stale
  have interpolates := always ⟨true,false⟩ linearProbe linearProbe 415 {} trained (by decide)
    (by decide) rfl ran
  rw [interpolates.saturated 415 le_rfl] at deduced
  have same : (405 : ℚ) = 0 := congrArg PerfStats.timeCostSecond (Option.some.inj deduced)
  norm_num at same

end Model
end MetaPB.Operator

import MetaPB.Executor.TaskGraph
import Mathlib.Tactic.Linarith

/-! What `parseGraph` computes for one position of the schedule: the split into CPU
and DPU page blocks, the ratios read for the successors, the transfer work and the
control blocks laid out by `memPlan`. Ratios and their products are exact. -/
namespace MetaPB.Executor
open Operator Lib.Word

structure TaskPlan where
  taskId : Nat
  totalPageBlkCnt : Nat
  offloadRatio : ℚ
  cpuPageBlkCnt : Nat
  dpuPageBlkCnt : Nat
  succOffloadRatio : List (Nat × ℚ)
  omax : ℚ
  omin : ℚ
  reduceWorkMiB : Nat
  mapWorkMiB : Nat
  mapPageBlkCnt : Nat
  reducePageBlkCnt : Nat

structure MemPlan where
  cpuTCB : CpuTcb
  dpuTCB : DpuTcb
  mapTCB : CpuTcb
  reduceTCB : CpuTcb

namespace Schedule

-- both reads use `operator[]`; past the end the model reads 0
def ratioAt (sched : Schedule) (index : Nat) : ℚ := sched.offloadRatio.getD index 0

def taskAt (sched : Schedule) (position : Nat) : Nat := sched.order.getD position 0

end Schedule

def totalPageBlkCnt (tp : TaskProperties) : Nat :=
  wrap32 (wrap64 (wrap64 (tp.inputSizeMiB * 2^20) + pageBlkSize - 1) / pageBlkSize)

/-- Largest and smallest successor ratio; both are 0 for a task without successors. -/
def succBounds (ratios : List ℚ) : ℚ × ℚ :=
  if ratios.isEmpty then (0,0) else (ratios.foldl max 0,ratios.foldl min 1)

/-- `reduceWork_MiB` and `mapWork_MiB` from the task's ratio and its successors'. -/
def transferWork (isAlwaysWrittingBack : Bool) (offloadRatio omax omin : ℚ)
    (inputSizeMiB : Nat) : Nat × Nat :=
  if isAlwaysWrittingBack then
    (if offloadRatio = 0 then 0 else inputSizeMiB,truncate64 (omax * inputSizeMiB))
  else if offloadRatio > omax then
    (truncate64 ((offloadRatio - omin) * inputSizeMiB),0)
  else if offloadRatio > omin ∧ offloadRatio < omax then
    (truncate64 ((offloadRatio - omin) * inputSizeMiB),truncate64 ((omax - offloadRatio) * inputSizeMiB))
  else
    (0,truncate64 ((omax - offloadRatio) * inputSizeMiB))

def planTask (g : TaskGraph) (sched : Schedule) (i : Nat) : TaskPlan :=
  let taskId := sched.taskAt i
  let tp := g.properties taskId
  let total := totalPageBlkCnt tp
  let offloadRatio := sched.ratioAt i
  let cpuPageBlkCnt := truncate32 ((1 - offloadRatio) * total)
  -- a task read as a successor is looked up by its id, not by its position
  let succOffloadRatio := (g.successors taskId).map fun succ => (succ,sched.ratioAt succ)
  let (omax,omin) := succBounds (succOffloadRatio.map (·.2))
  let (reduceWorkMiB,mapWorkMiB) :=
    transferWork sched.isAlwaysWrittingBack offloadRatio omax omin tp.inputSizeMiB
  { taskId := taskId
    totalPageBlkCnt := total
    offloadRatio := offloadRatio
    cpuPageBlkCnt := cpuPageBlkCnt
    dpuPageBlkCnt := wrap32 (total + 2^32 - cpuPageBlkCnt)
    succOffloadRatio := succOffloadRatio
    omax := omax
    omin := omin
    reduceWorkMiB := reduceWorkMiB
    mapWorkMiB := mapWorkMiB
    mapPageBlkCnt := getNearestPageBlkCnt mapWorkMiB
    reducePageBlkCnt := getNearestPageBlkCnt reduceWorkMiB }

def memPlan (heapBasePtr : Nat) (plan : TaskPlan) : MemPlan :=
  { cpuTCB :=
      { src1PageBase := heapBasePtr
        src2PageBase := heapBasePtr + wrap32 (plan.cpuPageBlkCnt * pageBlkSize)
        dstPageBase := heapBasePtr + wrap32 (wrap32 (2 * plan.cpuPageBlkCnt) * pageBlkSize)
        pageBlkCnt := plan.cpuPageBlkCnt }
    dpuTCB := ⟨0,plan.dpuPageBlkCnt,wrap32 (2 * plan.dpuPageBlkCnt),plan.dpuPageBlkCnt⟩
    mapTCB := { sgInfo := ⟨heapBasePtr,0,plan.mapPageBlkCnt⟩ }
    reduceTCB := { sgInfo := ⟨heapBasePtr,0,plan.reducePageBlkCnt⟩ } }

section Split
variable {g : TaskGraph} {sched : Schedule} {i : Nat}

theorem planTask_cpuPageBlkCnt (g : TaskGraph) (sched : Schedule) (i : Nat) :
    (planTask g sched i).cpuPageBlkCnt =
      truncate32 ((1 - sched.ratioAt i) * (planTask g sched i).totalPageBlkCnt) := rfl

/-- The unsigned difference of the block counts does not wrap. -/
theorem planTask_dpuPageBlkCnt
    (fits : (planTask g sched i).cpuPageBlkCnt ≤ (planTask g sched i).totalPageBlkCnt) :
    (planTask g sched i).dpuPageBlkCnt =
      (planTask g sched i).totalPageBlkCnt - (planTask g sched i).cpuPageBlkCnt := by
  have word : (planTask g sched i).totalPageBlkCnt < 2^32 := wrap32_lt _
  have same : (planTask g sched i).dpuPageBlkCnt = wrap32 ((planTask g sched i).totalPageBlkCnt + 2^32 -
      (planTask g sched i).cpuPageBlkCnt) := rfl
  have shape : (planTask g sched i).totalPageBlkCnt + 2^32 - (planTask g sched i).cpuPageBlkCnt =
      (planTask g sched i).totalPageBlkCnt - (planTask g sched i).cpuPageBlkCnt + 2^32 := by omega
  rw [same,shape,wrap32,Nat.add_mod_right]
  exact Nat.mod_eq_of_lt ((Nat.sub_le _ _).trans_lt word)

theorem planTask_onCPU (kept : sched.ratioAt i = 0) :
    (planTask g sched i).cpuPageBlkCnt = (planTask g sched i).totalPageBlkCnt ∧
      (planTask g sched i).dpuPageBlkCnt = 0 := by
  have word : (planTask g sched i).totalPageBlkCnt < 2^32 := wrap32_lt _
  have cpu := planTask_cpuPageBlkCnt g sched i
  rw [kept,sub_zero,one_mul,truncate32,Nat.floor_natCast,wrap32_of_lt word] at cpu
  refine ⟨cpu,?_⟩
  rw [planTask_dpuPageBlkCnt cpu.le,cpu,Nat.sub_self]

theorem planTask_onDPU (all : sched.ratioAt i = 1) :
    (planTask g sched i).cpuPageBlkCnt = 0 ∧
      (planTask g sched i).dpuPageBlkCnt = (planTask g sched i).totalPageBlkCnt := by
  have cpu := planTask_cpuPageBlkCnt g sched i
  rw [all,sub_self,zero_mul,truncate32,Nat.floor_zero,wrap32_of_lt (by norm_num)] at cpu
  refine ⟨cpu,?_⟩
  rw [planTask_dpuPageBlkCnt (cpu ▸ Nat.zero_le _),cpu,Nat.sub_zero]

/-- What is left of a count when the share for the other side is rounded down. -/
theorem sub_floor_share {share : ℚ} (total : Nat) (few : share ≤ 1) :
    total - ⌊(1 - share) * total⌋₊ = ⌈share * total⌉₊ := by
  apply eq_of_forall_ge_iff
  intro count
  rw [Nat.ceil_le,Nat.sub_le_iff_le_add]
  rcases Nat.le_total count total with small | large
  · have rest : total ≤ count + ⌊(1 - share) * total⌋₊ ↔ total - count ≤ ⌊(1 - share) * total⌋₊ := by
      omega
    rw [rest,Nat.le_floor_iff (mul_nonneg (sub_nonneg.mpr few) (Nat.cast_nonneg _)),Nat.cast_sub small]
    constructor <;> intro bound <;> linarith
  · have whole : share * total ≤ total := mul_le_of_le_one_left (Nat.cast_nonneg _) few
    have reach : (total : ℚ) ≤ count := by exact_mod_cast large
    exact iff_of_true (by omega) (whole.trans reach)

/-- The CPU is given its share rounded down, the DPU its share rounded up. -/
theorem planTask_split (within : 0 ≤ sched.ratioAt i ∧ sched.ratioAt i ≤ 1) :
    let plan := planTask g sched i
    plan.cpuPageBlkCnt = ⌊(1 - sched.ratioAt i) * plan.totalPageBlkCnt⌋₊ ∧
      plan.dpuPageBlkCnt = ⌈sched.ratioAt i * plan.totalPageBlkCnt⌉₊ := by
  intro plan
  have word : plan.totalPageBlkCnt < 2^32 := wrap32_lt _
  have part : ⌊(1 - sched.ratioAt i) * plan.totalPageBlkCnt⌋₊ ≤ plan.totalPageBlkCnt := by
    apply Nat.floor_le_of_le
    exact mul_le_of_le_one_left (Nat.cast_nonneg _) (by linarith [within.1])
  have cpu : plan.cpuPageBlkCnt = ⌊(1 - sched.ratioAt i) * plan.totalPageBlkCnt⌋₊ :=
    wrap32_of_lt (part.trans_lt word)
  refine ⟨cpu,?_⟩
  rw [planTask_dpuPageBlkCnt (cpu.trans_le part),cpu]
  exact sub_floor_share _ within.2

end Split

section OneRatio
variable {g : TaskGraph} {sched : Schedule}

/-- The ratio that splits a task is the ratio every predecessor reads for it. -/
def OneRatioPerTask (g : TaskGraph) (sched : Schedule) : Prop :=
  ∀ i < sched.order.length, ∀ j < sched.order.length, ∀ ratio,
    ((planTask g sched i).taskId,ratio) ∈ (planTask g sched j).succOffloadRatio →
      ratio = (planTask g sched i).offloadRatio

theorem mem_succOffloadRatio (j : Nat) (succ : Nat) (ratio : ℚ) :
    (succ,ratio) ∈ (planTask g sched j).succOffloadRatio ↔
      g.Linked (sched.taskAt j) succ ∧ ratio = sched.ratioAt succ := by
  rw [← g.mem_successors]
  constructor
  · intro member
    obtain ⟨task,linked,same⟩ := List.mem_map.mp member
    obtain ⟨rfl,rfl⟩ := Prod.mk.inj same
    exact ⟨linked,rfl⟩
  · intro found
    obtain ⟨linked,rfl⟩ := found
    exact List.mem_map_of_mem linked

theorem exists_position (orders : g.Orders sched.order) {task : Nat} (bound : task < g.numVertices) :
    ∃ i < sched.order.length, sched.taskAt i = task := by
  obtain ⟨i,inside,rfl⟩ := List.mem_iff_getElem.mp ((orders.mem_iff task).mpr bound)
  exact ⟨i,inside,by simp [Schedule.taskAt,inside]⟩

/-- The two indexings of the ratio vector agree exactly on the tasks that stand at
their own ratio's place, among those that have a predecessor. -/
theorem oneRatioPerTask_iff (orders : g.Orders sched.order) :
    OneRatioPerTask g sched ↔ ∀ i < sched.order.length, g.predecessors (sched.taskAt i) ≠ [] →
      sched.ratioAt i = sched.ratioAt (sched.taskAt i) := by
  constructor
  · intro one i bound preceded
    obtain ⟨p,member⟩ := List.exists_mem_of_ne_nil _ preceded
    have linked := (g.mem_predecessors p _).mp member
    obtain ⟨j,inside,named⟩ := exists_position orders linked.bounds.1
    symm
    apply one i bound j inside
    apply (mem_succOffloadRatio j _ _).mpr
    exact ⟨by rw [named]; exact linked,rfl⟩
  · intro agrees i bound j _ ratio member
    obtain ⟨linked,rfl⟩ := (mem_succOffloadRatio j _ _).mp member
    have preceded : g.predecessors (sched.taskAt i) ≠ [] :=
      List.ne_nil_of_mem ((g.mem_predecessors _ _).mpr linked)
    exact (agrees i bound preceded).symm

theorem oneRatioPerTask_iff_chain :
    OneRatioPerTask ⟨[{},{},{}],[⟨0,1,1⟩,⟨1,2,1⟩],by decide⟩ ⟨false,[0,1,2],[1/2,1,0]⟩ := by
  apply (oneRatioPerTask_iff (by decide)).mpr
  intro i bound _
  rcases i with _ | _ | _ | i
  · rfl
  · rfl
  · rfl
  · exact absurd bound (by simp)

/-- A diamond whose branches are scheduled against their ids: task 2 is split by the
ratio at position 1, and task 0 reads the ratio at index 2 for it. -/
theorem oneRatioPerTask_fails : ¬ ∀ (g : TaskGraph) (sched : Schedule), g.Orders sched.order →
    g.Topological sched.order → sched.offloadRatio.length = sched.order.length →
      OneRatioPerTask g sched := by
  intro always
  let diamond : TaskGraph := ⟨[{},{},{},{}],[⟨0,1,1⟩,⟨0,2,1⟩,⟨1,3,1⟩,⟨2,3,1⟩],by decide⟩
  let sched : Schedule := ⟨false,[0,2,1,3],[1/2,1,0,0]⟩
  have one := always diamond sched (by decide) (by decide) rfl
  have read : (2,0) ∈ (planTask diamond sched 0).succOffloadRatio :=
    (mem_succOffloadRatio 0 2 0).mpr ⟨by decide,rfl⟩
  have same : (0 : ℚ) = 1 := one 1 (by decide) 0 (by decide) 0 read
  norm_num at same

end OneRatio
end MetaPB.Executor

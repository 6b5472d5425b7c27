import MetaPB.Executor.Timeline
import Mathlib.Algebra.BigOperators.Field
import Mathlib.Algebra.BigOperators.Ring.Finset
import Mathlib.Algebra.Order.BigOperators.Group.Finset
import Mathlib.Algebra.Order.Ring.Rat
import Mathlib.Data.Nat.GCD.Basic

/-! The data movement a run returns, against the bytes planned for MAP and REDUCE. Each task
adds a 32-bit byte count divided by 2^20; a page block is no whole number of MiB, so the
report is exact only where every task moves a multiple of 128 blocks below 2^32 bytes. -/
namespace MetaPB.Executor
open Lib.Transition Operator Utils Lib.Word

section Movement
variable (heapBasePtr : Nat) (g : TaskGraph) (sched : Schedule) (eT : ExecType)

/-- Page blocks planned for the two transfers of the task at a position. -/
def xferPageBlkCnt (i : Nat) : Nat :=
  (planTask g sched i).reducePageBlkCnt + (planTask g sched i).mapPageBlkCnt

/-- Bytes a task moves, which is nothing at either end of the graph. -/
def movedBytes (i : Nat) : Nat :=
  if isLogic (g.properties (sched.taskAt i)).op then 0 else xferPageBlkCnt g sched i * pageBlkSize

def exactMovementMiB : ℚ :=
  ((∑ i ∈ Finset.range sched.order.length,movedBytes g sched i : Nat) : ℚ) / 2^20

/-- `dataMovement_MiB` of the result in either mode, when the workers interleave as
`events` says. -/
def reportedMovementMiB (om : PerfModel) (events : List Event) : Option ℚ :=
  (run (Pool.step om) (parseGraph heapBasePtr g sched eT) events).bind fun pool =>
    if pool.Joined then some pool.totalTransferMb else none

theorem execWorkload_dataMovement (om : PerfModel) (events : List Event) :
    (execWorkload om heapBasePtr g sched events).map (·.dataMovementMiB) =
      reportedMovementMiB heapBasePtr g sched .MIMIC om events := by
  unfold execWorkload reportedMovementMiB
  cases run (Pool.step om) (parseGraph heapBasePtr g sched .MIMIC) events with
  | none => rfl
  | some pool =>
    rw [Option.bind_some,Option.bind_some]
    split <;> rfl

theorem plannedMovement_eq (i : Nat) :
    plannedMovement heapBasePtr g sched i = (wrap32 (movedBytes g sched i) / 2^20 : Nat) := by
  have named : (planTask g sched i).taskId = sched.taskAt i := rfl
  simp only [plannedMovement,xferMovement,named,movedBytes,Nat.cast_inj]
  split
  · rfl
  · simp [memPlan,wrap32,xferPageBlkCnt,Nat.add_mul]

theorem reportedMovementMiB_eq_some {om : PerfModel} {events : List Event} {moved : ℚ}
    (reported : reportedMovementMiB heapBasePtr g sched eT om events = some moved) :
    moved = ∑ i ∈ Finset.range sched.order.length, plannedMovement heapBasePtr g sched i := by
  obtain ⟨pool,ran,returned⟩ := Option.bind_eq_some_iff.mp reported
  split at returned
  · cases Option.some.inj returned
    rw [run_totalTransferMb ran,parseGraph_eq]
    rfl
  · contradiction

end Movement

/-- A page block is 1265/128 MiB, so only multiples of 128 blocks are whole MiB. -/
theorem movement_exact_iff (pageBlkCnt : Nat) :
    pageBlkCnt * pageBlkSize < 2^32 ∧ 2^20 ∣ pageBlkCnt * pageBlkSize ↔
      pageBlkCnt ∈ [0,128,256,384] := by
  have shape : pageBlkCnt * pageBlkSize = 2^13 * (pageBlkCnt * 1265) := by
    simp only [pageBlkSize,dpuNum,pageSizeByte]
    ring
  have whole : 2^20 ∣ pageBlkCnt * pageBlkSize ↔ 2^7 ∣ pageBlkCnt := by
    rw [shape,show 2^20 = 2^13 * 2^7 by norm_num,Nat.mul_dvd_mul_iff_left (by norm_num)]
    exact Nat.Coprime.dvd_mul_right (by decide)
  have fits : pageBlkCnt * pageBlkSize < 2^32 ↔ pageBlkCnt < 415 := by
    simp only [pageBlkSize,dpuNum,pageSizeByte]
    omega
  rw [whole,fits]
  simp only [List.mem_cons,List.not_mem_nil,or_false]
  omega

section Exact
variable (heapBasePtr : Nat) {g : TaskGraph} {sched : Schedule} {eT : ExecType}

theorem plannedMovement_exact_iff (i : Nat) :
    plannedMovement heapBasePtr g sched i = movedBytes g sched i / 2^20 ↔
      isLogic (g.properties (sched.taskAt i)).op = true ∨
        xferPageBlkCnt g sched i ∈ [0,128,256,384] := by
  have exact := wrap32_div_eq_iff (n := movedBytes g sched i) (d := 2^20) (by norm_num)
  rw [Nat.cast_pow,Nat.cast_ofNat] at exact
  rw [plannedMovement_eq,exact,movedBytes]
  split
  next logic => simp [logic]
  next moves => simp only [moves,Bool.false_eq_true,false_or,movement_exact_iff]

/-- Rounding only ever loses movement, so the total is exact when every share is. -/
theorem reportedMovementMiB_exact_iff {om : PerfModel} {events : List Event} {moved : ℚ}
    (reported : reportedMovementMiB heapBasePtr g sched eT om events = some moved) :
    moved = exactMovementMiB g sched ↔ ∀ i < sched.order.length,
      (g.properties (sched.taskAt i)).op ∉ [.LOGIC_START,.LOGIC_END] →
        xferPageBlkCnt g sched i ∈ [0,128,256,384] := by
  have below : ∀ i ∈ Finset.range sched.order.length,
      plannedMovement heapBasePtr g sched i ≤ movedBytes g sched i / 2^20 := by
    intro i _
    have share := wrap32_div_le (movedBytes g sched i) (2^20)
    rw [Nat.cast_pow,Nat.cast_ofNat] at share
    rw [plannedMovement_eq]
    exact share
  have total : exactMovementMiB g sched =
      ∑ i ∈ Finset.range sched.order.length,(movedBytes g sched i : ℚ) / 2^20 := by
    rw [exactMovementMiB,Nat.cast_sum,Finset.sum_div]
  rw [reportedMovementMiB_eq_some heapBasePtr g sched eT reported,total,
    Finset.sum_eq_sum_iff_of_le below]
  apply forall_congr'
  intro i
  rw [Finset.mem_range,plannedMovement_exact_iff]
  apply imp_congr_right
  intro _
  simp only [isLogic,decide_eq_true_eq,List.mem_cons,List.not_mem_nil,or_false]
  tauto

end Exact

section Chain

/-- A task of 1265 MiB between logical ends, written back from the DPU: 128 page blocks. -/
def wholeMiB : TaskGraph where
  vertices := [{op := .LOGIC_START},{op := .MAC,inputSizeMiB := 1265},{op := .LOGIC_END}]
  edges := [⟨0,1,1⟩,⟨1,2,1⟩]
  inside := by decide

theorem reportedMovementMiB_exact_iff_wholeMiB :
    reportedMovementMiB 0 wholeMiB ⟨true,[0,1,2],[0,1,0]⟩ .MIMIC chainPerf
        (chainRun [(.cpu,1),(.dpu,1),(.map,1),(.reduce,1)]) = some 1265 ∧
      exactMovementMiB wholeMiB ⟨true,[0,1,2],[0,1,0]⟩ = 1265 := by
  have reported : reportedMovementMiB 0 wholeMiB ⟨true,[0,1,2],[0,1,0]⟩ .MIMIC chainPerf
      (chainRun [(.cpu,1),(.dpu,1),(.map,1),(.reduce,1)]) = some 1265 := by decide +kernel
  refine ⟨reported,((reportedMovementMiB_exact_iff 0 reported).mpr ?_).symm⟩
  decide +kernel

/-- Three blocks back and two blocks forth are 49.4140625 MiB, reported as 49. -/
theorem reportedMovementMiB_not_exact : ¬ ∀ (heapBasePtr : Nat) (g : TaskGraph) (sched : Schedule)
    (eT : ExecType) (om : PerfModel) (events : List Event) (moved : ℚ),
    reportedMovementMiB heapBasePtr g sched eT om events = some moved →
      moved = exactMovementMiB g sched := by
  intro always
  have reported : reportedMovementMiB 0 chain chainSchedule .MIMIC chainPerf
      (chainRun [(.cpu,1),(.dpu,1),(.map,1),(.reduce,1)]) = some 49 := by decide +kernel
  have apart : (49 : ℚ) ≠ exactMovementMiB chain chainSchedule := by decide +kernel
  exact apart (always 0 chain chainSchedule .MIMIC chainPerf _ 49 reported)

end Chain
end MetaPB.Executor

import MetaPB.Executor.ParseGraph
import MetaPB.Operator.DpuKernels
import MetaPB.Lib.Regions

/-! The regions `memPlan` lays out for a task. Its offsets are 32-bit products added to the
heap base: two regions of 208 page blocks already pass 2^32 bytes, and no line compares the
DPU pages with the capacity of a DPU. -/
namespace MetaPB.Executor
open Operator Lib.Regions Lib.Word

namespace MemPlan

def cpuRegions (mem : MemPlan) : List Region :=
  [mem.cpuTCB.src1PageBase,mem.cpuTCB.src2PageBase,mem.cpuTCB.dstPageBase].map
    fun base => ⟨base,mem.cpuTCB.pageBlkCnt * pageBlkSize⟩

/-- Ranges of pages of one DPU. -/
def dpuPageRanges (mem : MemPlan) : List Region :=
  [mem.dpuTCB.src1PageIdx,mem.dpuTCB.src2PageIdx,mem.dpuTCB.dstPageIdx].map
    fun pageIdx => ⟨pageIdx,mem.dpuTCB.pageCnt⟩

structure Separate (mem : MemPlan) : Prop where
  cpu : LaidOut mem.cpuRegions
  dpu : mem.dpuPageRanges.Pairwise fun r s => Disjoint r.cells s.cells
  capacity : ∀ range ∈ mem.dpuPageRanges, range.finish ≤ nrSingleDpuPage

end MemPlan

section Plan
variable (heapBasePtr : Nat) (plan : TaskPlan)

theorem memPlan_cpuRegions_finish :
    (memPlan heapBasePtr plan).cpuRegions.Pairwise (fun r s => r.finish ≤ s.base) ↔
      plan.cpuPageBlkCnt * pageBlkSize ≤ wrap32 (plan.cpuPageBlkCnt * pageBlkSize) ∧
      wrap32 (plan.cpuPageBlkCnt * pageBlkSize) + plan.cpuPageBlkCnt * pageBlkSize ≤
        wrap32 (wrap32 (2 * plan.cpuPageBlkCnt) * pageBlkSize) := by
  simp only [MemPlan.cpuRegions,memPlan,Region.finish,List.map_cons,List.map_nil,List.pairwise_cons,
    List.forall_mem_cons,List.not_mem_nil,false_implies,implies_true,List.Pairwise.nil,and_true]
  omega

/-- Offsets of three regions, one product each, wrap from 208 page blocks on. -/
theorem memPlan_cpu_iff :
    LaidOut (memPlan heapBasePtr plan).cpuRegions ↔ plan.cpuPageBlkCnt < 208 := by
  have same : ∀ region ∈ (memPlan heapBasePtr plan).cpuRegions,
      region.extent = plan.cpuPageBlkCnt * pageBlkSize := by simp [MemPlan.cpuRegions,memPlan]
  rw [laidOut_iff same,memPlan_cpuRegions_finish]
  rcases Nat.lt_or_ge plan.cpuPageBlkCnt 415 with few | many
  · have doubled : wrap32 (2 * plan.cpuPageBlkCnt) = 2 * plan.cpuPageBlkCnt := wrap32_of_lt (by omega)
    have exact : wrap32 (plan.cpuPageBlkCnt * pageBlkSize) = plan.cpuPageBlkCnt * pageBlkSize :=
      wrap32_of_lt (by simp only [pageBlkSize,dpuNum,pageSizeByte]; omega)
    rw [doubled,exact]
    simp only [wrap32,pageBlkSize,dpuNum,pageSizeByte]
    omega
  · -- already the first region reaches past every 32-bit offset
    have word := wrap32_lt (plan.cpuPageBlkCnt * pageBlkSize)
    have long : 2^32 ≤ plan.cpuPageBlkCnt * pageBlkSize := by
      simp only [pageBlkSize,dpuNum,pageSizeByte]
      omega
    exact iff_of_false (fun ends => (word.trans_le long).not_ge ends.1) (by omega)

theorem memPlan_dpu_iff :
    ((memPlan heapBasePtr plan).dpuPageRanges.Pairwise fun r s => Disjoint r.cells s.cells) ∧
        (∀ range ∈ (memPlan heapBasePtr plan).dpuPageRanges, range.finish ≤ nrSingleDpuPage) ↔
      plan.dpuPageBlkCnt ≤ 5120 := by
  have ends : (∀ range ∈ (memPlan heapBasePtr plan).dpuPageRanges, range.finish ≤ nrSingleDpuPage) ↔
      plan.dpuPageBlkCnt ≤ 5120 := by
    simp [MemPlan.dpuPageRanges,memPlan,Region.finish,nrSingleDpuPage,wrap32]
    omega
  refine ⟨fun both => ends.mp both.2,fun few => ⟨?_,ends.mpr few⟩⟩
  have exact : wrap32 (2 * plan.dpuPageBlkCnt) = 2 * plan.dpuPageBlkCnt :=
    wrap32_of_lt (by omega)
  have same : ∀ range ∈ (memPlan heapBasePtr plan).dpuPageRanges, range.extent = plan.dpuPageBlkCnt := by
    simp [MemPlan.dpuPageRanges,memPlan]
  refine LaidOut.disjoint ((laidOut_iff same).mpr ?_)
  simp [MemPlan.dpuPageRanges,memPlan,Region.finish,exact]
  omega

/-- A task's regions are kept apart exactly when fewer than 208 page blocks stay on the CPU and
an operand takes at most a third of the DPU's pages, however the blocks were divided up. -/
theorem memPlan_separate_iff :
    (memPlan heapBasePtr plan).Separate ↔ plan.cpuPageBlkCnt < 208 ∧ plan.dpuPageBlkCnt ≤ 5120 := by
  rw [← memPlan_cpu_iff heapBasePtr plan,← memPlan_dpu_iff heapBasePtr plan]
  exact ⟨fun mem => ⟨mem.cpu,mem.dpu,mem.capacity⟩,fun both => ⟨both.1,both.2.1,both.2.2⟩⟩

end Plan

section Single

/-- A task of 2046 MiB kept on the CPU: 208 page blocks, and the destination wraps below
the second source. -/
theorem planTask_separate_fails : ¬ ∀ (heapBasePtr : Nat) (g : TaskGraph) (sched : Schedule) (i : Nat),
    0 ≤ sched.ratioAt i ∧ sched.ratioAt i ≤ 1 →
      (memPlan heapBasePtr (planTask g sched i)).Separate := by
  intro always
  let sched : Schedule := ⟨false,[0],[0]⟩
  have separate := always 0 (singleTask 2046) sched 0 ⟨le_rfl,zero_le_one⟩
  have onCPU : (planTask (singleTask 2046) sched 0).cpuPageBlkCnt =
      (planTask (singleTask 2046) sched 0).totalPageBlkCnt := (planTask_onCPU rfl).1
  have blocks : (planTask (singleTask 2046) sched 0).totalPageBlkCnt = 208 := by decide
  have few := (memPlan_cpu_iff 0 _).mp separate.cpu
  rw [onCPU,blocks] at few
  exact lt_irrefl 208 few

end Single
end MetaPB.Executor

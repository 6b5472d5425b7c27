import MetaPB.Lib.Word
import MetaPB.Utils.Stats

/-! Operator tags and types, the page geometry and control blocks every operator shares,
and the performance model an operator manager answers from. -/
namespace MetaPB.Operator
open Utils Lib.Word

inductive OperatorTag where
  | AFFINE | EUDIST | CONV_1D | LOOKUP | ELEW_PROD | ELEW_ADD | LOGIC_START | LOGIC_END
  | MAP | REDUCE | MAC | FILTER | UNDEFINED
  deriving DecidableEq, Repr

inductive OperatorType where
  | ComputeBound | MemoryBound | Logical | Map | Reduce | Undefined
  deriving DecidableEq, Repr

def pageSizeByte : Nat := 4096
def dpuNum : Nat := 2530

def pageBlkSize : Nat := dpuNum * pageSizeByte

structure SgXferContext where
  cpuPageBlkBaseAddr : Nat := 0
  dpuPageBaseIdx : Nat := 0
  pageBlkCnt : Nat := 0
  deriving DecidableEq

structure CpuTcb where
  src1PageBase : Nat := 0
  src2PageBase : Nat := 0
  dstPageBase : Nat := 0
  pageBlkCnt : Nat := 0
  sgInfo : SgXferContext := {}
  deriving DecidableEq

structure DpuTcb where
  src1PageIdx : Nat
  src2PageIdx : Nat
  dstPageIdx : Nat
  pageCnt : Nat
  deriving DecidableEq

/-- What `OperatorManager::deducePerfCPU` and `deducePerfDPU` answer for a tag and
a number of page blocks. -/
structure PerfModel where
  deducePerfCPU : OperatorTag → Nat → PerfStats
  deducePerfDPU : OperatorTag → Nat → PerfStats

/-- Page blocks that hold a workload, from `size_t` arithmetic narrowed to 32 bits. -/
def getNearestPageBlkCnt (inputSizeMiB : Nat) : Nat :=
  wrap32 (wrap64 (wrap64 (inputSizeMiB * 2^20) + pageBlkSize - 1) / pageBlkSize)

/-- Rounding up, for every workload whose block count is a 32-bit number. -/
theorem getNearestPageBlkCnt_eq {inputSizeMiB : Nat}
    (fits : inputSizeMiB * 2^20 ≤ (2^32 - 1) * pageBlkSize) :
    getNearestPageBlkCnt inputSizeMiB = (inputSizeMiB * 2^20 + pageBlkSize - 1) / pageBlkSize := by
  simp only [pageBlkSize,dpuNum,pageSizeByte] at fits
  have size : wrap64 (inputSizeMiB * 2^20) = inputSizeMiB * 2^20 := wrap64_of_lt (by omega)
  have rounded : wrap64 (inputSizeMiB * 2^20 + pageBlkSize - 1) = inputSizeMiB * 2^20 + pageBlkSize - 1 :=
    wrap64_of_lt (by simp only [pageBlkSize,dpuNum,pageSizeByte]; omega)
  rw [getNearestPageBlkCnt,size,rounded]
  apply wrap32_of_lt
  simp only [pageBlkSize,dpuNum,pageSizeByte]
  omega

structure PerfModel.Nonneg (om : PerfModel) : Prop where
  cpu : ∀ opTag pageBlkCnt, 0 ≤ (om.deducePerfCPU opTag pageBlkCnt).timeCostSecond
  dpu : ∀ opTag pageBlkCnt, 0 ≤ (om.deducePerfDPU opTag pageBlkCnt).timeCostSecond

end MetaPB.Operator

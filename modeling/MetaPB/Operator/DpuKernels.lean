import MetaPB.Operator.CpuOperators
import MetaPB.Lib.Workers

/-! The DPU side of the computing operators: twelve tasklets that stride over the
1024-byte chunks of a DPU's pages, each with its own buffers in WRAM, which hold
anything at launch. A launch interleaves their transfers in any order. -/
namespace MetaPB.Operator
open Lib.Word Lib.BlockMemory Lib.Workers Lib.Transition

def nrTasklets : Nat := 12

def nrSingleDpuPage : Nat := 15360

structure Caches where
  src1 : Ints
  src2 : Ints
  dst : Ints

inductive Instr where
  | readSrc1 (byteIndex : Nat)
  | readSrc2 (byteIndex : Nat)
  | compute
  | write (byteIndex : Nat)

/-- A tasklet's loop body for a byte index, what follows the loop, and the function of
the buffers that the body calls. -/
structure Kernel where
  turn : Nat → List Instr
  finish : List Instr
  compute : Ints → Ints → Ints → Ints

def pageAddr (pageIdx byteIndex : Nat) : Nat := (pageIdx * pageSizeByte + byteIndex) / 4

def byteIndices (pageCnt taskletId : Nat) : Option (List Nat) :=
  counters (· < wrap32 (pageCnt * pageSizeByte))
    (fun byteIndex => wrap32 (byteIndex + dpuDmaBffrByte * nrTasklets))
    (wrap32 (pageCnt * pageSizeByte) + 1) (dpuDmaBffrByte * taskletId)

namespace Kernel

def machine (kernel : Kernel) (dpuTCB : DpuTcb) : Machine (BitVec 32) Instr Caches where
  advance mram caches
    | .readSrc1 byteIndex => { caches with
        src1 := overwrite caches.src1 0 pageItemNum (window mram (pageAddr dpuTCB.src1PageIdx byteIndex)) }
    | .readSrc2 byteIndex => { caches with
        src2 := overwrite caches.src2 0 pageItemNum (window mram (pageAddr dpuTCB.src2PageIdx byteIndex)) }
    | .compute => { caches with dst := kernel.compute caches.src1 caches.src2 caches.dst }
    | .write _ => caches
  emit caches
    | .write byteIndex => [⟨pageAddr dpuTCB.dstPageIdx byteIndex,pageItemNum,caches.dst⟩]
    | _ => []

def main (kernel : Kernel) (dpuTCB : DpuTcb) (taskletId : Nat) : Option (List Instr) :=
  (byteIndices dpuTCB.pageCnt taskletId).map fun indices =>
    indices.flatMap kernel.turn ++ kernel.finish

end Kernel

abbrev Dpu := State (BitVec 32) Instr Caches (Fin nrTasklets)

/-- A DPU about to run, with every tasklet before its first turn. -/
structure Launched (kernel : Kernel) (dpuTCB : DpuTcb) (mram : Ints) (dpu : Dpu) : Prop where
  mem_eq : dpu.mem = mram
  main_eq : ∀ t : Fin nrTasklets, kernel.main dpuTCB t = some (dpu.worker t).todo

/-- A synchronous launch on one DPU: its tasklets run to their end in some order. -/
def Launch (kernel : Kernel) (dpuTCB : DpuTcb) (before after : Ints) : Prop :=
  ∃ initial labels final, Launched kernel dpuTCB before initial ∧
    run (kernel.machine dpuTCB).step initial labels = some final ∧ final.Done ∧ final.mem = after

def twoSources (byteIndex : Nat) : List Instr :=
  [.readSrc1 byteIndex,.readSrc2 byteIndex,.compute,.write byteIndex]

def oneSource (byteIndex : Nat) : List Instr :=
  [.readSrc1 byteIndex,.compute,.write byteIndex]

namespace OperatorELEW_ADD

def kernel : Kernel where
  turn := twoSources
  finish := []
  compute src1 src2 dst := (List.range pageItemNum).foldl (fun dst i =>
    Function.update dst i (src1 i + src2 i)) dst

end OperatorELEW_ADD

namespace OperatorELEW_PROD

def kernel : Kernel where
  turn := twoSources
  finish := []
  compute src1 src2 dst := (List.range pageItemNum).foldl (fun dst i =>
    Function.update dst i (src1 i * src2 i)) dst

end OperatorELEW_PROD

namespace OperatorAFFINE

def kernel : Kernel where
  turn := twoSources
  finish := []
  compute src1 src2 dst := (List.range pageItemNum).foldl (fun dst i =>
    Function.update dst i (castInt weight * src1 i + src2 i)) dst

end OperatorAFFINE

namespace OperatorCONV_1D

def kernelInts : List (BitVec 32) := gaussianKernel.map castInt

def kernel : Kernel where
  turn := oneSource
  finish := []
  compute src _ dst := (List.range pageItemNum).foldl (fun dst i =>
    Function.update dst i ((List.range kernelSize).foldl (fun sum (j : Nat) =>
      let inputIndex : Int := i - padding + j
      if 0 ≤ inputIndex ∧ inputIndex < pageItemNum then
        sum + src inputIndex.toNat * kernelInts.getD j 0
      else sum) 0)) dst

end OperatorCONV_1D

namespace OperatorFILTER

def kernel : Kernel where
  turn := oneSource
  finish := []
  compute src _ dst := (List.range pageItemNum).foldl (fun dst i =>
    Function.update dst i (((List.range kernelSize).foldl (fun sum j =>
      if i + j < pageItemNum then sum + (src (i + j)).sdiv kernelSize else sum) 0).sdiv kernelSize)) dst

end OperatorFILTER

namespace OperatorMAC

def kernel : Kernel where
  turn := twoSources
  finish := []
  compute src1 src2 dst := (List.range pageItemNum).foldl (fun dst i =>
    Function.update dst 0 (dst 0 + src1 i * src2 i)) (Function.update dst 0 0)

end OperatorMAC

namespace OperatorEUDIST

/-- The only program that writes after its loop, and always to the first chunk. -/
def kernel : Kernel where
  turn byteIndex := [.readSrc1 byteIndex,.readSrc2 byteIndex,.compute]
  finish := [.write 0]
  compute src1 src2 dst := (List.range pageItemNum).foldl (fun dst i =>
    Function.update dst 0 (dst 0 + (src2 i - src1 i) * (src2 i - src1 i))) (Function.update dst 0 0)

end OperatorEUDIST

namespace OperatorLOOKUP

def kernel : Kernel where
  turn := oneSource
  finish := []
  compute src _ dst := (List.range pageItemNum).foldl (fun dst i =>
    if src i = castInt target then Function.update dst 0 (dst 0 + 1) else dst) (Function.update dst 0 0)

end OperatorLOOKUP

def dpuKernel : OperatorTag → Option Kernel
  | .ELEW_ADD => some OperatorELEW_ADD.kernel
  | .ELEW_PROD => some OperatorELEW_PROD.kernel
  | .AFFINE => some OperatorAFFINE.kernel
  | .CONV_1D => some OperatorCONV_1D.kernel
  | .FILTER => some OperatorFILTER.kernel
  | .MAC => some OperatorMAC.kernel
  | .EUDIST => some OperatorEUDIST.kernel
  | .LOOKUP => some OperatorLOOKUP.kernel
  | _ => none

section Strides

theorem mem_byteIndices {pageCnt taskletId : Nat} (few : pageCnt ≤ nrSingleDpuPage)
    (below : taskletId < nrTasklets) : ∃ indices, byteIndices pageCnt taskletId = some indices ∧
      ∀ byteIndex, byteIndex ∈ indices ↔ ∃ chunk < 4 * pageCnt,
        chunk % nrTasklets = taskletId ∧ byteIndex = dpuDmaBffrByte * chunk := by
  simp only [nrSingleDpuPage] at few
  have bound : wrap32 (pageCnt * pageSizeByte) = pageCnt * 4096 :=
    wrap32_of_lt (by simp only [pageSizeByte]; omega)
  have adds : ∀ byteIndex < pageCnt * 4096, wrap32 (byteIndex + dpuDmaBffrByte * nrTasklets) =
      byteIndex + dpuDmaBffrByte * nrTasklets := by
    intro byteIndex inside
    apply wrap32_of_lt
    simp only [dpuDmaBffrByte,nrTasklets]
    omega
  refine ⟨_,by rw [byteIndices,bound]; exact counters_add adds (by decide) _ _ (Nat.le_add_right _ _),?_⟩
  intro byteIndex
  simp only [dpuDmaBffrByte,nrTasklets] at below ⊢
  simp only [List.mem_map,List.mem_range]
  constructor
  · intro found
    obtain ⟨turn,counted,rfl⟩ := found
    exact ⟨taskletId + 12 * turn,by omega,by omega,by omega⟩
  · intro found
    obtain ⟨chunk,inside,mine,rfl⟩ := found
    exact ⟨chunk / 12,by omega,by omega⟩

end Strides
end MetaPB.Operator

import MetaPB.Operator.DpuKernels
import Mathlib.Data.BitVec

/-! What the computing operators are for: functions from a chunk of each source to the
ints of the destination chunk they settle. Host loops and tasklets both compute them,
the former over a buffer and the latter over the pages of a DPU. -/
namespace MetaPB.Operator
open Lib.Word Lib.BlockMemory Lib.Workers Lib.Transition

/-- A function of the ints of a chunk, and the destination ints it is about. -/
structure ChunkFunction where
  settled : Nat → Prop
  value : Ints → Ints → Nat → BitVec 32
  confined : ∀ src1 src2 other1 other2, (∀ i < pageItemNum, src1 i = other1 i) →
    (∀ i < pageItemNum, src2 i = other2 i) →
    ∀ i < pageItemNum, value src1 src2 i = value other1 other2 i

namespace ChunkFunction

def itemwise (f : BitVec 32 → BitVec 32 → BitVec 32) : ChunkFunction where
  settled _ := True
  value src1 src2 i := f (src1 i) (src2 i)
  confined src1 src2 other1 other2 same1 same2 i inside := by rw [same1 i inside,same2 i inside]

def total (f : BitVec 32 → BitVec 32 → BitVec 32) : ChunkFunction where
  settled i := i = 0
  value src1 src2 _ := ∑ i ∈ Finset.range pageItemNum, f (src1 i) (src2 i)
  confined src1 src2 other1 other2 same1 same2 _ _ := by
    apply Finset.sum_congr rfl
    intro i member
    rw [same1 i (Finset.mem_range.mp member),same2 i (Finset.mem_range.mp member)]

def convolution (weights : List (BitVec 32)) (padding : Nat) : ChunkFunction where
  settled _ := True
  value src1 _ i := ∑ j ∈ Finset.range weights.length,
    if padding ≤ i + j ∧ i + j < pageItemNum + padding then src1 (i + j - padding) * weights.getD j 0
    else 0
  confined src1 src2 other1 other2 same1 _ i _ := by
    apply Finset.sum_congr rfl
    intro j _
    apply ite_congr rfl _ fun _ => rfl
    intro found
    obtain ⟨_,_⟩ := found
    rw [same1 _ (by omega)]

end ChunkFunction

def chunkFunction : OperatorTag → Option ChunkFunction
  | .ELEW_ADD => some (.itemwise (· + ·))
  | .ELEW_PROD => some (.itemwise (· * ·))
  | .AFFINE => some (.itemwise fun src1 src2 => src1 * 2 + src2)
  | .CONV_1D => some (.convolution [8,1,1,3,3,1,1,8] 3)
  | .MAC => some (.total (· * ·))
  | .EUDIST => some (.total fun src1 src2 => (src2 - src1) * (src2 - src1))
  | .LOOKUP => some (.total fun src1 _ => if src1 = 2 then 1 else 0)
  | _ => none

def Body.Computes (f : ChunkFunction) : Body → Prop
  | .perItem g => ∀ src1 src2 : Ints, ∀ i, g (src1 i) (src2 i) = f.value src1 src2 i
  | .perChunk kernel => ∀ itemNum src1 src2 dst, ∀ i < pageItemNum, f.settled i →
    kernel itemNum src1 src2 dst i = f.value src1 src2 i

/-- Each turn reads its chunks and writes one that is right where it is settled. -/
structure Kernel.Computes (f : ChunkFunction) (kernel : Kernel) : Prop where
  finish : kernel.finish = []
  turn : ∀ byteIndex, kernel.turn byteIndex ⊆ twoSources byteIndex
  emits : ∀ dpuTCB mram caches byteIndex, ∃ cells,
    (kernel.machine dpuTCB).emissions mram caches (kernel.turn byteIndex) =
      [⟨pageAddr dpuTCB.dstPageIdx byteIndex,pageItemNum,cells⟩] ∧
    ∀ i < pageItemNum, f.settled i → cells i = f.value
      (window mram (pageAddr dpuTCB.src1PageIdx byteIndex))
      (window mram (pageAddr dpuTCB.src2PageIdx byteIndex)) i

section Loops

theorem foldl_range_add {σ M : Type*} [AddCommMonoid M] (reading : σ → M) (step : σ → Nat → σ)
    (gain : Nat → M) (adds : ∀ s i, reading (step s i) = reading s + gain i) (n : Nat) (s : σ) :
    reading ((List.range n).foldl step s) = reading s + ∑ i ∈ Finset.range n, gain i := by
  induction n with
  | zero => simp
  | succ n ih =>
    rw [List.range_succ,List.foldl_append,Finset.sum_range_succ,← add_assoc,← ih]
    exact adds _ n

theorem foldl_update_range {α : Type*} (g : Nat → α) (mem : Memory α) {n x : Nat} (inside : x < n) :
    (List.range n).foldl (fun mem i => Function.update mem i (g i)) mem x = g x := by
  apply foldl_settled (· = x)
  · rintro i - rfl mem
    exact Function.update_self ..
  · intro i _ other mem
    exact Function.update_of_ne (Ne.symm other) ..
  · exact ⟨x,List.mem_range.mpr inside,rfl⟩

theorem foldl_update_zero (g : Nat → BitVec 32) (mem : Ints) (n : Nat) :
    (List.range n).foldl (fun mem i => Function.update mem 0 (mem 0 + g i)) (Function.update mem 0 0) 0 =
      ∑ i ∈ Finset.range n, g i := by
  rw [foldl_range_add (fun mem : Ints => mem 0) _ g (fun s i => Function.update_self ..)]
  simp

theorem foldl_count_zero (p : Nat → Prop) [DecidablePred p] (mem : Ints) (n : Nat) :
    (List.range n).foldl (fun mem i => if p i then Function.update mem 0 (mem 0 + 1) else mem)
      (Function.update mem 0 0) 0 = ∑ i ∈ Finset.range n, if p i then 1 else 0 := by
  rw [foldl_range_add (fun mem : Ints => mem 0) _ (fun i => if p i then 1 else 0)]
  · simp
  · intro s i
    split <;> simp

theorem castInt_weight : castInt OperatorAFFINE.weight = 2 := by decide +kernel

theorem castInt_target : castInt OperatorLOOKUP.target = 2 := by decide +kernel

theorem kernelInts_eq : OperatorCONV_1D.kernelInts = [8,1,1,3,3,1,1,8] := by decide +kernel

end Loops

section Computes

theorem convolution_fold (src other : Ints) (weights : List (BitVec 32)) (weight : Nat → BitVec 32)
    (same : ∀ j, weight j = weights.getD j 0) (padding i : Nat) :
    (List.range weights.length).foldl (fun sum (j : Nat) =>
      let inputIndex : Int := i - padding + j
      if 0 ≤ inputIndex ∧ inputIndex < pageItemNum then sum + src inputIndex.toNat * weight j
      else sum) 0 = (ChunkFunction.convolution weights padding).value src other i := by
  rw [foldl_range_add (fun sum : BitVec 32 => sum) _ (fun j =>
    if padding ≤ i + j ∧ i + j < pageItemNum + padding then src (i + j - padding) * weights.getD j 0 else 0)]
  · exact zero_add _
  · intro sum j
    have bounds : (0 ≤ (i : Int) - padding + j ∧ (i : Int) - padding + j < pageItemNum) ↔
        padding ≤ i + j ∧ i + j < pageItemNum + padding := by omega
    have index : ((i : Int) - padding + j).toNat = i + j - padding := by omega
    simp only [bounds,index,same]
    split
    · rfl
    · exact (add_zero _).symm

theorem weight_getD (j : Nat) :
    castInt (OperatorCONV_1D.gaussianKernel.getD j 0) = OperatorCONV_1D.kernelInts.getD j 0 := by
  rw [OperatorCONV_1D.kernelInts,List.getD_eq_getElem?_getD,List.getD_eq_getElem?_getD,List.getElem?_map]
  cases OperatorCONV_1D.gaussianKernel[j]? with
  | none => decide +kernel
  | some weight => rfl

theorem convolveAt_eq (mySrc other : Ints) (i : Nat) : OperatorCONV_1D.convolveAt mySrc i =
    (ChunkFunction.convolution [8,1,1,3,3,1,1,8] 3).value mySrc other i :=
  convolution_fold mySrc other [8,1,1,3,3,1,1,8] _ (fun j => by rw [weight_getD,kernelInts_eq]) 3 i

theorem cpuBody_computes {opTag : OperatorTag} {f : ChunkFunction} {body : Body}
    (function : chunkFunction opTag = some f) (loop : cpuBody opTag = some body) : body.Computes f := by
  cases opTag <;> simp only [chunkFunction,cpuBody,Option.some.injEq,reduceCtorEq] at function loop
  all_goals subst function loop
  case ELEW_ADD => exact fun _ _ _ => rfl
  case ELEW_PROD => exact fun _ _ _ => rfl
  case AFFINE =>
    intro src1 src2 i
    simp only [castInt_weight]
    rfl
  case CONV_1D =>
    intro itemNum src1 src2 dst i inside _
    exact (foldl_update_range _ dst inside).trans (convolveAt_eq ..)
  case MAC =>
    rintro itemNum src1 src2 dst _ _ rfl
    exact foldl_update_zero ..
  case EUDIST =>
    rintro itemNum src1 src2 dst _ _ rfl
    exact foldl_update_zero ..
  case LOOKUP =>
    rintro itemNum src1 src2 dst _ _ rfl
    simp only [castInt_target]
    exact foldl_count_zero ..

theorem kernel_computes_two {f : ChunkFunction} {kernel : Kernel} (turn : kernel.turn = twoSources)
    (finish : kernel.finish = []) (computes : ∀ src1 src2 dst, ∀ i < pageItemNum, f.settled i →
      kernel.compute src1 src2 dst i = f.value src1 src2 i) : kernel.Computes f := by
  refine ⟨finish,fun byteIndex => by simp [turn],?_⟩
  intro dpuTCB mram caches byteIndex
  rw [turn]
  refine ⟨_,rfl,?_⟩
  intro i inside settled
  simp only [Kernel.machine]
  rw [computes _ _ _ i inside settled]
  apply f.confined _ _ _ _ _ _ i inside
  · intro i inside
    rw [overwrite_inside ⟨by omega,by omega⟩]
    rfl
  · intro i inside
    rw [overwrite_inside ⟨by omega,by omega⟩]
    rfl

theorem kernel_computes_one {f : ChunkFunction} {kernel : Kernel} (turn : kernel.turn = oneSource)
    (finish : kernel.finish = []) (computes : ∀ src1 src2 dst other, ∀ i < pageItemNum, f.settled i →
      kernel.compute src1 src2 dst i = f.value src1 other i) : kernel.Computes f := by
  refine ⟨finish,fun byteIndex => by simp [turn,oneSource,twoSources],?_⟩
  intro dpuTCB mram caches byteIndex
  rw [turn]
  refine ⟨_,rfl,?_⟩
  intro i inside settled
  simp only [Kernel.machine]
  rw [computes _ _ _ (window mram (pageAddr dpuTCB.src2PageIdx byteIndex)) i inside settled]
  apply f.confined _ _ _ _ _ (fun _ _ => rfl) i inside
  intro i inside
  rw [overwrite_inside ⟨by omega,by omega⟩]
  rfl

/-- Every DPU program computes its function, but for EUDIST, which writes no result of
a turn before its last. -/
theorem dpuKernel_computes {opTag : OperatorTag} {f : ChunkFunction} {kernel : Kernel}
    (function : chunkFunction opTag = some f) (program : dpuKernel opTag = some kernel)
    (writes : opTag ≠ .EUDIST) : kernel.Computes f := by
  cases opTag <;> simp only [chunkFunction,dpuKernel,Option.some.injEq,reduceCtorEq] at function program
  all_goals subst function program
  case ELEW_ADD =>
    apply kernel_computes_two rfl rfl
    intro src1 src2 dst i inside _
    simp only [OperatorELEW_ADD.kernel]
    rw [foldl_update_range _ dst inside,ChunkFunction.itemwise]
  case ELEW_PROD =>
    apply kernel_computes_two rfl rfl
    intro src1 src2 dst i inside _
    simp only [OperatorELEW_PROD.kernel]
    rw [foldl_update_range _ dst inside,ChunkFunction.itemwise]
  case AFFINE =>
    apply kernel_computes_two rfl rfl
    intro src1 src2 dst i inside _
    simp only [OperatorAFFINE.kernel,castInt_weight]
    rw [foldl_update_range _ dst inside,ChunkFunction.itemwise,mul_comm]
  case CONV_1D =>
    apply kernel_computes_one rfl rfl
    intro src1 src2 dst other i inside _
    simp only [OperatorCONV_1D.kernel]
    rw [foldl_update_range _ dst inside]
    exact convolution_fold src1 other [8,1,1,3,3,1,1,8] _ (fun j => by rw [kernelInts_eq]) 3 i
  case MAC =>
    apply kernel_computes_two rfl rfl
    rintro src1 src2 dst _ _ rfl
    simp only [OperatorMAC.kernel]
    exact foldl_update_zero ..
  case EUDIST => exact absurd rfl writes
  case LOOKUP =>
    apply kernel_computes_one rfl rfl
    rintro src1 src2 dst other _ _ rfl
    simp only [OperatorLOOKUP.kernel,castInt_target]
    exact foldl_count_zero ..

end Computes

end MetaPB.Operator

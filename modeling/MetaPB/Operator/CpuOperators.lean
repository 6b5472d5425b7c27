import MetaPB.Operator.Registry
import MetaPB.Lib.BlockMemory
import Mathlib.Data.List.Perm.Basic
import Mathlib.Tactic.Ring

/-! The host side of the eight computing operators: flat loops over the ints of a
buffer, or loops over its 1024-byte chunks with a kernel for each. The loop bounds are
products of two 32-bit values, widened only afterwards. -/
namespace MetaPB.Operator
open Lib.Word Lib.BlockMemory

abbrev Ints := Memory (BitVec 32)

def dpuDmaBffrByte : Nat := 1024

def pageItemNum : Nat := dpuDmaBffrByte / 4

def maxOffset (pageBlkCnt : Nat) : Nat := wrap32 (pageBlkCnt * pageBlkSize)

def itemNum (pageBlkCnt : Nat) : Nat := wrap32 (pageBlkCnt * pageBlkSize) / 4

/-- Conversion of a floating constant to `int`, towards zero. -/
def castInt (q : ℚ) : BitVec 32 := BitVec.ofInt 32 (q.num.tdiv q.den)

def itemCounters (pageBlkCnt : Nat) : Option (List Nat) :=
  counters (· < itemNum pageBlkCnt) (· + 1) (itemNum pageBlkCnt + 1) 0

def chunkOffsets (pageBlkCnt : Nat) : Option (List Nat) :=
  counters (· < maxOffset pageBlkCnt) (fun offset => wrap64 (offset + dpuDmaBffrByte))
    (maxOffset pageBlkCnt + 1) 0

/-- What one turn of an operator's loop does: an int from two ints, or the ints of a
destination chunk from two source chunks, what the chunk held and `itemNum`. -/
inductive Body where
  | perItem (f : BitVec 32 → BitVec 32 → BitVec 32)
  | perChunk (kernel : Nat → Ints → Ints → Ints → Ints)

namespace Body

def chunkTurn (kernel : Ints → Ints → Ints → Ints) (src1 src2 dst : Ints) (offset : Nat) : Ints :=
  overwrite dst (offset / 4) pageItemNum
    (kernel (window src1 (offset / 4)) (window src2 (offset / 4)) (window dst (offset / 4)))

def exec (body : Body) (pageBlkCnt : Nat) (src1 src2 dst : Ints) : Option Ints :=
  match body with
  | perItem f => (itemCounters pageBlkCnt).map fun items =>
    items.foldl (fun dst i => overwrite dst i 1 fun _ => f (src1 i) (src2 i)) dst
  | perChunk kernel => (chunkOffsets pageBlkCnt).map fun offsets =>
    offsets.foldl (chunkTurn (kernel (itemNum pageBlkCnt)) src1 src2) dst

def visited (body : Body) (pageBlkCnt : Nat) : Option (List Nat) :=
  match body with
  | perItem _ => itemCounters pageBlkCnt
  | perChunk _ => (chunkOffsets pageBlkCnt).map fun offsets =>
    offsets.flatMap fun offset => (List.range pageItemNum).map (offset / 4 + ·)

def Covers (body : Body) (pageBlkCnt : Nat) : Prop :=
  ∃ items, body.visited pageBlkCnt = some items ∧
    items.Perm (List.range (pageBlkCnt * dpuNum * 1024))

end Body

namespace OperatorELEW_ADD

def body : Body := .perItem (· + ·)

end OperatorELEW_ADD

namespace OperatorELEW_PROD

def body : Body := .perItem (· * ·)

end OperatorELEW_PROD

namespace OperatorAFFINE

def weight : ℚ := 5 / 2

def body : Body := .perItem fun src1 src2 => src1 * castInt weight + src2

end OperatorAFFINE

namespace OperatorCONV_1D

def kernelSize : Nat := 8

def padding : Nat := (kernelSize - 1) / 2

def gaussianKernel : List ℚ :=
  [8.72710786525902,1.75288647260302,1.29521764811203,3.52076659676240,
    3.52076659676240,1.29521764811203,1.75288647260302,8.72710786525902]

def convolveAt (mySrc : Ints) (i : Nat) : BitVec 32 :=
  (List.range kernelSize).foldl (fun sum (j : Nat) =>
    let inputIndex : Int := i - padding + j
    if 0 ≤ inputIndex ∧ inputIndex < pageItemNum then
      sum + mySrc inputIndex.toNat * castInt (gaussianKernel.getD j 0)
    else sum) 0

def body : Body := .perChunk fun _ mySrc _ myDst =>
  (List.range pageItemNum).foldl (fun myDst i => Function.update myDst i (convolveAt mySrc i)) myDst

end OperatorCONV_1D

namespace OperatorFILTER

def kernelSize : Nat := 8

def filterAt (itemNum : Nat) (mySrc : Ints) (i : Nat) : BitVec 32 :=
  ((List.range kernelSize).foldl (fun sum j =>
    if i + j < itemNum then sum + (mySrc (i + j)).sdiv kernelSize else sum) 0).sdiv kernelSize

def body : Body := .perChunk fun itemNum mySrc _ myDst =>
  (List.range pageItemNum).foldl (fun myDst i => Function.update myDst i (filterAt itemNum mySrc i)) myDst

end OperatorFILTER

namespace OperatorMAC

def body : Body := .perChunk fun _ mySrc1 mySrc2 myDst =>
  (List.range pageItemNum).foldl (fun myDst i =>
    Function.update myDst 0 (myDst 0 + mySrc1 i * mySrc2 i)) (Function.update myDst 0 0)

end OperatorMAC

namespace OperatorEUDIST

def body : Body := .perChunk fun _ mySrc1 mySrc2 myDst =>
  (List.range pageItemNum).foldl (fun myDst i =>
    Function.update myDst 0 (myDst 0 + (mySrc2 i - mySrc1 i) * (mySrc2 i - mySrc1 i)))
    (Function.update myDst 0 0)

end OperatorEUDIST

namespace OperatorLOOKUP

def target : ℚ := 5 / 2

def body : Body := .perChunk fun _ mySrc _ myDst =>
  (List.range pageItemNum).foldl (fun myDst i =>
    if mySrc i = castInt target then Function.update myDst 0 (myDst 0 + 1) else myDst)
    (Function.update myDst 0 0)

end OperatorLOOKUP

def cpuBody : OperatorTag → Option Body
  | .ELEW_ADD => some OperatorELEW_ADD.body
  | .ELEW_PROD => some OperatorELEW_PROD.body
  | .AFFINE => some OperatorAFFINE.body
  | .CONV_1D => some OperatorCONV_1D.body
  | .FILTER => some OperatorFILTER.body
  | .MAC => some OperatorMAC.body
  | .EUDIST => some OperatorEUDIST.body
  | .LOOKUP => some OperatorLOOKUP.body
  | _ => none

section Loops

theorem itemCounters_eq (pageBlkCnt : Nat) :
    itemCounters pageBlkCnt = some (List.range (itemNum pageBlkCnt)) := counters_range _

theorem maxOffset_eq (pageBlkCnt : Nat) :
    maxOffset pageBlkCnt = maxOffset pageBlkCnt / dpuDmaBffrByte * dpuDmaBffrByte := by
  simp only [maxOffset,wrap32,pageBlkSize,dpuNum,pageSizeByte,dpuDmaBffrByte]
  omega

theorem chunkOffsets_eq (pageBlkCnt : Nat) : chunkOffsets pageBlkCnt =
    some ((List.range (maxOffset pageBlkCnt / dpuDmaBffrByte)).map (· * dpuDmaBffrByte)) := by
  have adds : ∀ offset < maxOffset pageBlkCnt,
      wrap64 (offset + dpuDmaBffrByte) = offset + dpuDmaBffrByte := by
    intro offset below
    have word := wrap32_lt (pageBlkCnt * pageBlkSize)
    apply wrap64_of_lt
    simp only [maxOffset,dpuDmaBffrByte] at below ⊢
    omega
  rw [chunkOffsets,counters_add adds (by decide) _ _ (by omega)]
  have count : (maxOffset pageBlkCnt - 0 + dpuDmaBffrByte - 1) / dpuDmaBffrByte =
      maxOffset pageBlkCnt / dpuDmaBffrByte := by
    have whole := maxOffset_eq pageBlkCnt
    simp only [dpuDmaBffrByte] at whole ⊢
    omega
  rw [count]
  simp

theorem flatMap_chunks (chunks size : Nat) :
    (List.range chunks).flatMap (fun k => (List.range size).map (k * size + ·)) =
      List.range (chunks * size) := by
  induction chunks with
  | zero => simp
  | succ chunks ih =>
    rw [List.range_succ,List.flatMap_append,ih,Nat.succ_mul,List.range_add]
    simp

theorem visited_eq (body : Body) (pageBlkCnt : Nat) :
    body.visited pageBlkCnt = some (List.range (itemNum pageBlkCnt)) := by
  cases body with
  | perItem f => exact itemCounters_eq pageBlkCnt
  | perChunk kernel =>
    simp only [Body.visited,chunkOffsets_eq,Option.map_some,List.flatMap_map]
    have starts (k : Nat) : k * dpuDmaBffrByte / 4 = k * pageItemNum := by
      simp only [dpuDmaBffrByte,pageItemNum]
      omega
    have whole := maxOffset_eq pageBlkCnt
    have items : maxOffset pageBlkCnt / dpuDmaBffrByte * pageItemNum = itemNum pageBlkCnt := by
      simp only [maxOffset,itemNum,dpuDmaBffrByte,pageItemNum] at whole ⊢
      omega
    simp only [starts,flatMap_chunks,items]

theorem itemNum_eq_iff (pageBlkCnt : Nat) :
    itemNum pageBlkCnt = pageBlkCnt * dpuNum * 1024 ↔ pageBlkCnt ≤ 414 := by
  simp only [itemNum,wrap32,pageBlkSize,dpuNum,pageSizeByte]
  omega

/-- Every computing operator takes each int of its blocks once exactly up to 414 blocks,
where the 32-bit byte count does not wrap around. -/
theorem execCPU_covers_iff (opTag : OperatorTag) (pageBlkCnt : Nat) :
    ∀ body ∈ cpuBody opTag, body.Covers pageBlkCnt ↔ pageBlkCnt ≤ 414 := by
  intro body _
  rw [← itemNum_eq_iff]
  constructor
  · intro found
    obtain ⟨items,visits,perm⟩ := found
    rw [visited_eq] at visits
    rw [← Option.some.inj visits] at perm
    simpa using perm.length_eq
  · intro whole
    exact ⟨_,visited_eq body pageBlkCnt,by rw [whole]⟩

theorem execCPU_covers_iff_mac : OperatorMAC.body.Covers 414 :=
  (execCPU_covers_iff .MAC 414 OperatorMAC.body rfl).mpr le_rfl

/-- 415 blocks, the smallest count that holds 4096 MiB, wrap around. -/
theorem execCPU_not_covering : ¬ ∀ (opTag : OperatorTag) (pageBlkCnt : Nat), pageBlkCnt < 2^32 →
    ∀ body ∈ cpuBody opTag, body.Covers pageBlkCnt := by
  intro always
  obtain ⟨items,visits,perm⟩ := always .ELEW_ADD 415 (by decide) OperatorELEW_ADD.body rfl
  rw [visited_eq] at visits
  rw [← Option.some.inj visits] at perm
  have same := perm.length_eq
  rw [List.length_range,List.length_range,itemNum_eq_iff] at same
  omega

end Loops
end MetaPB.Operator

import MetaPB.Operator.Agreement
import MetaPB.Operator.OperatorManager

/-! What the calls of an operator manager do to the ints of the host and of the DPUs, and
what they leave alone. A buffer takes up the same pages on every DPU; its ints lie as
`get_block` deals them out. -/
namespace MetaPB.Operator
open Lib.Word Lib.BlockMemory Lib.Workers Lib.Transition

structure Platform where
  host : Ints
  mram : Nat → Ints

inductive Call where
  | execCPU (opTag : OperatorTag) (cpuTCB : CpuTcb)
  | execDPU (opTag : OperatorTag) (dpuTCB : DpuTcb)

namespace OperatorManager

/-- A loop over the ints at the addresses of a control block. -/
def execBody (body : Body) (cpuTCB : CpuTcb) (host : Ints) : Option Ints :=
  (body.exec cpuTCB.pageBlkCnt (window host (cpuTCB.src1PageBase / 4)) (window host (cpuTCB.src2PageBase / 4))
    (window host (cpuTCB.dstPageBase / 4))).map (splice host (cpuTCB.dstPageBase / 4))

-- the logical operators do nothing
def execCPU (opTag : OperatorTag) (cpuTCB : CpuTcb) (before : Platform) : Option Platform :=
  match opTag with
  | .MAP => some { before with mram := OperatorMAP.execCPU 4 cpuTCB.sgInfo before.host before.mram }
  | .REDUCE => some { before with host := OperatorREDUCE.execCPU 4 cpuTCB.sgInfo before.mram before.host }
  | _ =>
    match cpuBody opTag with
    | some body => (execBody body cpuTCB before.host).map fun host => { before with host := host }
    | none => some before

/-- A synchronous launch on every DPU, nothing for an operator without a DPU program. -/
def execDPU (opTag : OperatorTag) (dpuTCB : DpuTcb) (before after : Platform) : Prop :=
  match dpuKernel opTag with
  | some kernel => after.host = before.host ∧
    ∀ d < dpuNum, Launch kernel dpuTCB (before.mram d) (after.mram d)
  | none => after = before

end OperatorManager

def Call.Does : Call → Platform → Platform → Prop
  | execCPU opTag cpuTCB,before,after => OperatorManager.execCPU opTag cpuTCB before = some after
  | execDPU opTag dpuTCB,before,after => OperatorManager.execDPU opTag dpuTCB before after

def Issued : Platform → List Call → Platform → Prop := Runs fun before call after => call.Does before after

namespace Call
variable {cpuTCB : CpuTcb} {before after : Platform}

theorem does_map : (execCPU .MAP cpuTCB).Does before after ↔
    after = { before with mram := OperatorMAP.execCPU 4 cpuTCB.sgInfo before.host before.mram } :=
  ⟨fun does => (Option.some.inj does).symm,fun same => congrArg some same.symm⟩

theorem does_reduce : (execCPU .REDUCE cpuTCB).Does before after ↔
    after = { before with host := OperatorREDUCE.execCPU 4 cpuTCB.sgInfo before.mram before.host } :=
  ⟨fun does => (Option.some.inj does).symm,fun same => congrArg some same.symm⟩

theorem does_loop {opTag : OperatorTag} {body : Body} (loop : cpuBody opTag = some body) :
    (execCPU opTag cpuTCB).Does before after ↔
      ∃ host, OperatorManager.execBody body cpuTCB before.host = some host ∧ after = { before with host := host } := by
  have runs : OperatorManager.execCPU opTag cpuTCB before =
      (OperatorManager.execBody body cpuTCB before.host).map fun host => { before with host := host } := by
    cases opTag <;> cases loop <;> rfl
  rw [Does,runs,Option.map_eq_some_iff]
  simp only [eq_comm]

theorem does_launch {opTag : OperatorTag} {kernel : Kernel} {dpuTCB : DpuTcb}
    (program : dpuKernel opTag = some kernel) : (execDPU opTag dpuTCB).Does before after ↔
      after.host = before.host ∧ ∀ d < dpuNum, Launch kernel dpuTCB (before.mram d) (after.mram d) := by
  rw [Does,OperatorManager.execDPU,program]

end Call

def bufferInts (pageBlkCnt : Nat) : Nat := pageBlkCnt * dpuNum * 1024

/-- Int `x` of the buffer in the pages from `page` on. -/
def gather (page : Nat) (mram : Nat → Ints) (x : Nat) : BitVec 32 :=
  mram (x / 1024 % dpuNum) (1024 * (page + x / 1024 / dpuNum) + x % 1024)

section Loops

theorem Body.exec_total (body : Body) (pageBlkCnt : Nat) (src1 src2 dst : Ints) :
    ∃ result, body.exec pageBlkCnt src1 src2 dst = some result := by
  cases body with
  | perItem f => exact ⟨_,by rw [Body.exec,itemCounters_eq,Option.map_some]⟩
  | perChunk kernel => exact ⟨_,by rw [Body.exec,chunkOffsets_eq,Option.map_some]⟩

theorem Body.exec_outside {body : Body} {pageBlkCnt : Nat} {src1 src2 dst result : Ints}
    (executed : body.exec pageBlkCnt src1 src2 dst = some result) {x : Nat} (outside : itemNum pageBlkCnt ≤ x) :
    result x = dst x := by
  cases body with
  | perItem f =>
    rw [Body.exec,itemCounters_eq,Option.map_some,Option.some.injEq] at executed
    rw [← executed]
    apply foldl_untouched
    intro i member mem
    have inside := List.mem_range.mp member
    apply overwrite_outside
    simp only [Inside]
    omega
  | perChunk kernel =>
    rw [Body.exec,chunkOffsets_eq,Option.map_some,Option.some.injEq,List.foldl_map] at executed
    rw [← executed]
    apply foldl_untouched
    intro chunk member mem
    have inside := List.mem_range.mp member
    apply overwrite_outside
    have whole := maxOffset_eq pageBlkCnt
    simp only [Inside,itemNum,maxOffset,dpuDmaBffrByte,pageItemNum] at outside inside whole ⊢
    omega

end Loops

section Transfers
variable {base page n : Nat} {host : Ints} {mram : Nat → Ints}

theorem gather_eq {d b o : Nat} (below : d < dpuNum) (offset : o < 1024) :
    gather page mram (1024 * (b * dpuNum + d) + o) = mram d (1024 * (page + b) + o) := by
  have pageOf : (1024 * (b * dpuNum + d) + o) / 1024 = b * dpuNum + d := by omega
  have dpu : (b * dpuNum + d) % dpuNum = d := Nat.mul_add_mod_of_lt below
  have block : (b * dpuNum + d) / dpuNum = b := by
    rw [Nat.mul_comm,Nat.mul_add_div (by decide),Nat.div_eq_of_lt below,Nat.add_zero]
  have rest : (1024 * (b * dpuNum + d) + o) % 1024 = o := by omega
  rw [gather,pageOf,dpu,block,rest]

theorem split_int {n x : Nat} (inside : x < bufferInts n) :
    ∃ d < dpuNum, ∃ b < n, ∃ o < 1024, x = 1024 * (b * dpuNum + d) + o := cell_split inside

theorem gather_map (few : n ≤ 414) (low : page < 2^20) {source x : Nat} (inside : x < bufferInts n) :
    gather page (OperatorMAP.execCPU 4 ⟨4 * source,page,n⟩ host mram) x = host (source + x) := by
  obtain ⟨d,below,b,block,o,offset,rfl⟩ := split_int inside
  have mapped : OperatorMAP.execCPU 4 ⟨4 * source,page,n⟩ host mram d _ = _ :=
    map_apply rfl (by decide) (by omega) (Nat.dvd_mul_right 4 source) host mram block offset
  rw [Nat.mul_div_cancel_left _ (by decide : 0 < 4),pageIdx_eq few block below,Nat.mod_eq_of_lt low] at mapped
  rw [gather_eq below offset,mapped,Nat.add_assoc]

theorem gather_map_apart (few : n ≤ 414) (low : page < 2^20) {source other x : Nat}
    (apart : other + n ≤ page ∨ page + n ≤ other) (inside : x < bufferInts n) :
    gather other (OperatorMAP.execCPU 4 ⟨4 * source,page,n⟩ host mram) x = gather other mram x := by
  obtain ⟨d,below,b,block,o,offset,rfl⟩ := split_int inside
  rw [gather_eq below offset,gather_eq below offset]
  have ints : pageSizeByte = 4 * 1024 := rfl
  refine map_untouched ints (by decide) (by omega) (Nat.dvd_mul_right 4 source)
    host mram d ?_
  rw [Nat.mod_eq_of_lt low]
  simp only [Inside]
  omega

theorem reduce_eq_overwrite (few : n ≤ 414) (low : page < 2^20) (target : Nat) :
    OperatorREDUCE.execCPU 4 ⟨4 * target,page,n⟩ mram host =
      overwrite host target (bufferInts n) (gather page mram) := by
  funext address
  rcases Decidable.em (Inside target (bufferInts n) address) with hit | miss
  · rw [overwrite_inside hit]
    obtain ⟨above,under⟩ := hit
    obtain ⟨d,below,b,block,o,offset,place⟩ := split_int (by omega : address - target < bufferInts n)
    have ints : pageSizeByte = 4 * 1024 := rfl
    have reduced : OperatorREDUCE.execCPU 4 ⟨4 * target,page,n⟩ mram host _ = _ :=
      reduce_apply ints (by decide) few (Nat.dvd_mul_right 4 target) mram host below block offset
    rw [Nat.mul_div_cancel_left _ (by decide : 0 < 4),Nat.mod_eq_of_lt low,Nat.add_assoc,← place,
      Nat.add_sub_cancel' above] at reduced
    rw [reduced,place,gather_eq below offset]
  · rw [overwrite_outside miss]
    have ints : pageSizeByte = 4 * 1024 := rfl
    refine reduce_outside ints (by decide) few (Nat.dvd_mul_right 4 target) mram host ?_
    rw [Nat.mul_div_cancel_left _ (by decide : 0 < 4),Nat.mul_comm 1024]
    exact miss

end Transfers

section Launches
variable {dpuTCB : DpuTcb}

/-- Every program writes chunks of its destination only, EUDIST the first of them. -/
theorem dpuKernel_writes {opTag : OperatorTag} {kernel : Kernel} (program : dpuKernel opTag = some kernel) :
    (∀ byteIndex written, Instr.write written ∈ kernel.turn byteIndex → written = byteIndex) ∧
      ∀ written, Instr.write written ∈ kernel.finish → written = 0 := by
  cases opTag <;> cases program <;> constructor <;> intros <;>
    simp_all [OperatorELEW_ADD.kernel,OperatorELEW_PROD.kernel,OperatorAFFINE.kernel,OperatorCONV_1D.kernel,
      OperatorFILTER.kernel,OperatorMAC.kernel,OperatorEUDIST.kernel,OperatorLOOKUP.kernel,twoSources,oneSource]

theorem launch_untouched {opTag : OperatorTag} {kernel : Kernel} (program : dpuKernel opTag = some kernel)
    (counted : 0 < dpuTCB.pageCnt) (few : dpuTCB.pageCnt ≤ nrSingleDpuPage) {before after : Ints}
    (launch : Launch kernel dpuTCB before after) {address : Nat} (outside : ¬ Destination dpuTCB address) :
    after address = before address := by
  obtain ⟨initial,labels,final,launched,ran,-,rfl⟩ := launch
  rw [← launched.mem_eq]
  refine Machine.run_untouched ?_ ran
  intro t instr member own block emitted
  obtain ⟨turns,finishes⟩ := dpuKernel_writes program
  have main := launched.main_eq t
  obtain ⟨indices,counted,members⟩ := mem_byteIndices few t.isLt
  rw [Kernel.main,counted,Option.map_some,Option.some.injEq] at main
  rw [← main,List.mem_append] at member
  cases instr with
  | readSrc1 => cases emitted
  | readSrc2 => cases emitted
  | compute => cases emitted
  | write written =>
    cases List.mem_singleton.mp emitted
    have chunked : ∃ chunk < 4 * dpuTCB.pageCnt, written = dpuDmaBffrByte * chunk := by
      rcases member with turn | finish
      · obtain ⟨byteIndex,listed,inTurn⟩ := List.mem_flatMap.mp turn
        obtain ⟨chunk,inside,-,rfl⟩ := (members byteIndex).mp listed
        exact ⟨chunk,inside,turns _ _ inTurn⟩
      · exact ⟨0,by omega,finishes _ finish⟩
    obtain ⟨chunk,inside,rfl⟩ := chunked
    simp only
    rw [pageAddr_chunk]
    intro hit
    obtain ⟨above,below⟩ := hit
    apply outside
    simp only [pageItemNum,dpuDmaBffrByte] at above below
    exact ⟨by omega,by omega⟩

end Launches
end MetaPB.Operator

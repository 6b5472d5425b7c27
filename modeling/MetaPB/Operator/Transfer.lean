import MetaPB.Operator.Registry
import MetaPB.Lib.BlockMemory
import Mathlib.Data.Nat.ModEq

/-! Scatter-gather transfers. Page `b` of DPU `d` lies where `get_block` says on the host
and at page offset `b` from its base in the DPU's MRAM; MAP copies all pages to the
DPUs, REDUCE copies them back. Memory has cells of a fixed number of bytes, one for
raw contents and four for ints. -/
namespace MetaPB.Operator
open Lib.Word Lib.BlockMemory

variable {α : Type*}

/-- The address and length `get_block` reports, or `none` past the last block. -/
def get_block (sgArgs : SgXferContext) (dpuIndex blockIndex : Nat) : Option (Nat × Nat) :=
  if blockIndex ≥ sgArgs.pageBlkCnt then none
  else some (sgArgs.cpuPageBlkBaseAddr +
    wrap32 (pageSizeByte * wrap32 (wrap32 (blockIndex * 2530) + dpuIndex)),pageSizeByte)

def mramOffset (sgInfo : SgXferContext) (blockIndex : Nat) : Nat :=
  wrap32 (sgInfo.dpuPageBaseIdx * pageSizeByte) + blockIndex * pageSizeByte

/-- The blocks of a transfer of `pageBlkCnt * PAGE_SIZE_BYTE` bytes for each DPU. -/
def xferBlocks (sgInfo : SgXferContext) : List Nat :=
  List.range (wrap32 (sgInfo.pageBlkCnt * pageSizeByte) / pageSizeByte)

namespace OperatorMAP

def execCPU (cell : Nat) (sgInfo : SgXferContext) (host : Memory α) (mram : Nat → Memory α) :
    Nat → Memory α := fun dpuIndex =>
  (xferBlocks sgInfo).foldl (fun buffer blockIndex =>
    match get_block sgInfo dpuIndex blockIndex with
    | none => buffer
    | some (addr,length) =>
      overwrite buffer (mramOffset sgInfo blockIndex / cell) (length / cell) (window host (addr / cell)))
    (mram dpuIndex)

end OperatorMAP

namespace OperatorREDUCE

def execCPU (cell : Nat) (sgInfo : SgXferContext) (mram : Nat → Memory α) (host : Memory α) :
    Memory α :=
  ((List.range dpuNum).product (xferBlocks sgInfo)).foldl (fun host (dpuIndex,blockIndex) =>
    match get_block sgInfo dpuIndex blockIndex with
    | none => host
    | some (addr,length) =>
      overwrite host (addr / cell) (length / cell)
        (window (mram dpuIndex) (mramOffset sgInfo blockIndex / cell))) host

end OperatorREDUCE

def InPage (sgArgs : SgXferContext) (dpuIndex blockIndex address : Nat) : Prop :=
  ∃ addr length, get_block sgArgs dpuIndex blockIndex = some (addr,length) ∧ Inside addr length address

structure Bijective (sgArgs : SgXferContext) : Prop where
  disjoint : ∀ d < dpuNum, ∀ b < sgArgs.pageBlkCnt, ∀ d' < dpuNum, ∀ b' < sgArgs.pageBlkCnt,
    (d,b) ≠ (d',b') → ∀ address, InPage sgArgs d b address → ¬ InPage sgArgs d' b' address
  covers : ∀ address,
    Inside sgArgs.cpuPageBlkBaseAddr (sgArgs.pageBlkCnt * dpuNum * pageSizeByte) address ↔
      ∃ d < dpuNum, ∃ b < sgArgs.pageBlkCnt, InPage sgArgs d b address

/-- MAP from one buffer and REDUCE into another copies the buffer. -/
def RoundTrip (pageBlkCnt : Nat) : Prop :=
  ∀ (source target dpuPageBaseIdx : Nat) (host : Memory (BitVec 8)) (mram : Nat → Memory (BitVec 8)),
    ∀ i < pageBlkCnt * dpuNum * pageSizeByte,
      OperatorREDUCE.execCPU 1 ⟨target,dpuPageBaseIdx,pageBlkCnt⟩
        (OperatorMAP.execCPU 1 ⟨source,dpuPageBaseIdx,pageBlkCnt⟩ host mram) host (target + i) =
          host (source + i)

section Layout
variable {base page n : Nat}

theorem get_block_eq {d b : Nat} (inside : b < n) : get_block ⟨base,page,n⟩ d b =
    some (base + pageSizeByte * ((b * dpuNum + d) % 2^20),pageSizeByte) := by
  have wraps : wrap32 (pageSizeByte * wrap32 (wrap32 (b * 2530) + d)) =
      pageSizeByte * ((b * dpuNum + d) % 2^20) := by
    simp only [wrap32,pageSizeByte,dpuNum]
    omega
  rw [get_block,if_neg (by simpa using inside),wraps]

theorem mramOffset_eq (b : Nat) : mramOffset ⟨base,page,n⟩ b = pageSizeByte * (page % 2^20 + b) := by
  simp only [mramOffset,wrap32,pageSizeByte]
  omega

theorem xferBlocks_eq (small : n < 2^20) : xferBlocks ⟨base,page,n⟩ = List.range n := by
  have count : wrap32 (n * pageSizeByte) / pageSizeByte = n := by
    simp only [wrap32,pageSizeByte]
    omega
  simp only [xferBlocks,count]

theorem inPage_iff {d b address : Nat} (inside : b < n) : InPage ⟨base,page,n⟩ d b address ↔
    Inside (base + pageSizeByte * ((b * dpuNum + d) % 2^20)) pageSizeByte address := by
  simp only [InPage,get_block_eq inside,Option.some.injEq,Prod.mk.injEq]
  constructor
  · intro found
    obtain ⟨_,_,⟨rfl,rfl⟩,within⟩ := found
    exact within
  · exact fun within => ⟨_,_,⟨rfl,rfl⟩,within⟩

theorem pageIdx_eq {d b : Nat} (few : n ≤ 414) (inside : b < n) (below : d < dpuNum) :
    (b * dpuNum + d) % 2^20 = b * dpuNum + d := by
  apply Nat.mod_eq_of_lt
  simp only [dpuNum] at below ⊢
  omega

theorem pageIdx_injective {d b d' b' : Nat} (below : d < dpuNum) (below' : d' < dpuNum)
    (same : b * dpuNum + d = b' * dpuNum + d') : (d,b) = (d',b') := by
  simp only [dpuNum] at below below' same
  have sameBlock : b = b' := by omega
  have sameDpu : d = d' := by omega
  rw [sameBlock,sameDpu]

theorem bijective_of_le (few : n ≤ 414) : Bijective ⟨base,page,n⟩ := by
  constructor
  · intro d below b inside d' below' b' inside' distinct address first second
    rw [inPage_iff inside,pageIdx_eq few inside below] at first
    rw [inPage_iff inside',pageIdx_eq few inside' below'] at second
    apply distinct
    apply pageIdx_injective below below'
    simp only [Inside,pageSizeByte] at first second
    omega
  · intro address
    constructor
    · intro within
      simp only [Inside,pageSizeByte,dpuNum] at within
      have block : (address - base) / 4096 / 2530 < n := by omega
      refine ⟨(address - base) / 4096 % 2530,Nat.mod_lt _ (by decide),
        (address - base) / 4096 / 2530,block,?_⟩
      rw [inPage_iff block]
      simp only [Inside,pageSizeByte,dpuNum]
      omega
    · intro found
      obtain ⟨d,below,b,inside,paged⟩ := found
      rw [inPage_iff inside] at paged
      simp only [Inside,pageSizeByte,dpuNum] at paged below inside ⊢
      omega

/-- No page reaches past the first 4 GiB, which more than 414 blocks need. -/
theorem le_of_bijective (bijective : Bijective ⟨base,page,n⟩) : n ≤ 414 := by
  by_contra many
  have reached := (bijective.covers (base + 2^32)).mp (by
    simp only [Inside,pageSizeByte,dpuNum]
    omega)
  obtain ⟨d,-,b,inside,paged⟩ := reached
  rw [inPage_iff inside] at paged
  simp only [Inside,pageSizeByte,dpuNum] at paged
  omega

theorem cell_split {size i : Nat} (inside : i < n * dpuNum * size) :
    ∃ d < dpuNum, ∃ b < n, ∃ o < size, i = size * (b * dpuNum + d) + o := by
  have positive : 0 < size := Nat.pos_of_mul_pos_left (Nat.zero_lt_of_lt inside)
  refine ⟨i / size % dpuNum,Nat.mod_lt _ (by decide),i / size / dpuNum,?_,i % size,
    Nat.mod_lt _ positive,?_⟩
  · rw [Nat.div_lt_iff_lt_mul (by decide),Nat.div_lt_iff_lt_mul positive]
    exact inside
  · rw [Nat.div_add_mod',Nat.div_add_mod]

end Layout

section Copies
variable {cell size base page n : Nat} (whole : pageSizeByte = cell * size) (positive : 0 < cell)
include whole positive

private theorem page_div (q : Nat) : pageSizeByte * q / cell = size * q := by
  rw [whole,Nat.mul_assoc,Nat.mul_div_cancel_left _ positive]

private theorem length_div : pageSizeByte / cell = size := by
  rw [whole,Nat.mul_div_cancel_left _ positive]

private theorem addr_div (aligned : cell ∣ base) (q : Nat) :
    (base + pageSizeByte * q) / cell = base / cell + size * q := by
  rw [Nat.add_div_of_dvd_right aligned,page_div whole positive]

omit whole positive in
theorem page_unique {start p q o : Nat} (offset : o < size)
    (within : Inside (start + size * q) size (start + size * p + o)) : p = q := by
  obtain ⟨above,below⟩ := within
  have lower : size * q < size * (p + 1) := by
    rw [Nat.mul_succ]
    omega
  have upper : size * p < size * (q + 1) := by
    rw [Nat.mul_succ]
    omega
  have one := Nat.lt_of_mul_lt_mul_left lower
  have two := Nat.lt_of_mul_lt_mul_left upper
  omega

theorem map_apply (small : n < 2^20) (aligned : cell ∣ base) (host : Memory α) (mram : Nat → Memory α)
    {d b o : Nat} (inside : b < n) (offset : o < size) :
    OperatorMAP.execCPU cell ⟨base,page,n⟩ host mram d (size * (page % 2^20 + b) + o) =
      host (base / cell + size * ((b * dpuNum + d) % 2^20) + o) := by
  rw [OperatorMAP.execCPU,xferBlocks_eq small]
  apply foldl_settled (· = b) (List.range n)
  · rintro b' - rfl mem
    simp only [get_block_eq inside,mramOffset_eq,page_div whole positive,length_div whole positive,
      addr_div whole positive aligned]
    rw [overwrite_inside ⟨by omega,by omega⟩,window_apply]
    congr 1
    omega
  · intro b' member other mem
    have inside' := List.mem_range.mp member
    simp only [get_block_eq inside',mramOffset_eq,page_div whole positive,length_div whole positive,
      addr_div whole positive aligned]
    apply overwrite_outside
    intro within
    apply other
    have shifted : Inside (0 + size * (page % 2^20 + b')) size (0 + size * (page % 2^20 + b) + o) := by
      simpa using within
    have unique := page_unique offset shifted
    omega
  · exact ⟨b,List.mem_range.mpr inside,rfl⟩

theorem map_untouched (small : n < 2^20) (aligned : cell ∣ base) (host : Memory α)
    (mram : Nat → Memory α) (d : Nat) {address : Nat}
    (outside : ¬ Inside (size * (page % 2^20)) (size * n) address) :
    OperatorMAP.execCPU cell ⟨base,page,n⟩ host mram d address = mram d address := by
  rw [OperatorMAP.execCPU,xferBlocks_eq small]
  apply foldl_untouched
  intro b member mem
  have inside := List.mem_range.mp member
  simp only [get_block_eq inside,mramOffset_eq,page_div whole positive,length_div whole positive,
    addr_div whole positive aligned]
  apply overwrite_outside
  intro hit
  obtain ⟨above,below⟩ := hit
  apply outside
  have fits : size * (b + 1) ≤ size * n := Nat.mul_le_mul_left size inside
  rw [Nat.mul_succ] at fits
  rw [Nat.mul_add] at above below
  exact ⟨by omega,by omega⟩

theorem reduce_apply (few : n ≤ 414) (aligned : cell ∣ base) (mram : Nat → Memory α)
    (host : Memory α) {d b o : Nat} (below : d < dpuNum) (inside : b < n) (offset : o < size) :
    OperatorREDUCE.execCPU cell ⟨base,page,n⟩ mram host (base / cell + size * (b * dpuNum + d) + o) =
      mram d (size * (page % 2^20 + b) + o) := by
  rw [OperatorREDUCE.execCPU,xferBlocks_eq (by omega)]
  apply foldl_settled (· = (d,b))
  · rintro _ - rfl host
    simp only [get_block_eq inside,mramOffset_eq,page_div whole positive,length_div whole positive,
      addr_div whole positive aligned,pageIdx_eq few inside below]
    rw [overwrite_inside ⟨by omega,by omega⟩,window_apply]
    congr 1
    omega
  · intro block member other host
    obtain ⟨d',b'⟩ := block
    have listed := List.pair_mem_product.mp member
    have below' := List.mem_range.mp listed.1
    have inside' := List.mem_range.mp listed.2
    simp only [get_block_eq inside',mramOffset_eq,page_div whole positive,length_div whole positive,
      addr_div whole positive aligned,pageIdx_eq few inside' below']
    apply overwrite_outside
    intro within
    apply other
    apply pageIdx_injective below' below
    exact (page_unique offset within).symm
  · exact ⟨(d,b),List.pair_mem_product.mpr ⟨List.mem_range.mpr below,List.mem_range.mpr inside⟩,rfl⟩

theorem reduce_outside (few : n ≤ 414) (aligned : cell ∣ base) (mram : Nat → Memory α) (host : Memory α)
    {address : Nat} (outside : ¬ Inside (base / cell) (size * (n * dpuNum)) address) :
    OperatorREDUCE.execCPU cell ⟨base,page,n⟩ mram host address = host address := by
  rw [OperatorREDUCE.execCPU,xferBlocks_eq (by omega)]
  apply foldl_untouched
  intro block member host
  obtain ⟨d,b⟩ := block
  have listed := List.pair_mem_product.mp member
  have below := List.mem_range.mp listed.1
  have inside := List.mem_range.mp listed.2
  simp only [get_block_eq inside,length_div whole positive,addr_div whole positive aligned,
    pageIdx_eq few inside below]
  apply overwrite_outside
  intro hit
  obtain ⟨above,under⟩ := hit
  apply outside
  have last : b * dpuNum + d + 1 ≤ n * dpuNum := by
    simp only [dpuNum] at below ⊢
    omega
  have fits := Nat.mul_le_mul_left size last
  rw [Nat.mul_succ] at fits
  exact ⟨by omega,by omega⟩

end Copies

theorem roundTrip_of_le {pageBlkCnt : Nat} (few : pageBlkCnt ≤ 414) : RoundTrip pageBlkCnt := by
  intro source target dpuPageBaseIdx host mram i inside
  obtain ⟨d,below,b,block,o,offset,rfl⟩ := cell_split inside
  have byte : pageSizeByte = 1 * pageSizeByte := (Nat.one_mul _).symm
  have mapped : OperatorMAP.execCPU 1 ⟨source,dpuPageBaseIdx,pageBlkCnt⟩ host mram d _ = _ :=
    map_apply byte Nat.one_pos (by omega) (Nat.one_dvd source) host mram block offset
  have reduced : OperatorREDUCE.execCPU 1 ⟨target,dpuPageBaseIdx,pageBlkCnt⟩
      (OperatorMAP.execCPU 1 ⟨source,dpuPageBaseIdx,pageBlkCnt⟩ host mram) host _ = _ :=
    reduce_apply byte Nat.one_pos few (Nat.one_dvd target) _ host below block offset
  rw [Nat.div_one,Nat.add_assoc] at reduced
  rw [reduced,mapped,pageIdx_eq few block below,Nat.div_one,Nat.add_assoc]

theorem reduce_untouched (sgInfo : SgXferContext) (mram : Nat → Memory α) (host : Memory α)
    {address : Nat} (far : sgInfo.cpuPageBlkBaseAddr + 2^32 ≤ address) :
    OperatorREDUCE.execCPU 1 sgInfo mram host address = host address := by
  apply foldl_untouched
  rintro ⟨d,b⟩ - host
  rcases Nat.lt_or_ge b sgInfo.pageBlkCnt with inside | outside
  · simp only [get_block_eq inside]
    apply overwrite_outside
    simp only [Inside,pageSizeByte]
    omega
  · simp only [get_block,if_pos outside]

theorem le_of_roundTrip {pageBlkCnt : Nat} (roundTrip : RoundTrip pageBlkCnt) : pageBlkCnt ≤ 414 := by
  by_contra many
  have inside : 2^32 < pageBlkCnt * dpuNum * pageSizeByte := by
    simp only [dpuNum,pageSizeByte]
    omega
  have copied := roundTrip 0 (pageBlkCnt * dpuNum * pageSizeByte) 0
    (fun address => if address = 2^32 then 1 else 0) (fun _ _ => 0) _ inside
  rw [reduce_untouched _ _ _ (Nat.le_refl _),if_neg (by simp only; omega),if_pos (Nat.zero_add _)] at copied
  simp at copied

/-- Up to 414 blocks, and at no larger count, the pages are a bijection and MAP then
REDUCE is the identity on buffers. -/
theorem get_block_bijective_iff (cpuPageBlkBaseAddr dpuPageBaseIdx pageBlkCnt : Nat) :
    (Bijective ⟨cpuPageBlkBaseAddr,dpuPageBaseIdx,pageBlkCnt⟩ ↔ pageBlkCnt ≤ 414) ∧
      (RoundTrip pageBlkCnt ↔ pageBlkCnt ≤ 414) :=
  ⟨⟨le_of_bijective,bijective_of_le⟩,⟨le_of_roundTrip,roundTrip_of_le⟩⟩

/-- Block 414 of DPU 1156 has the address of block 0 of DPU 0. -/
theorem get_block_not_bijective : ¬ ∀ cpuPageBlkBaseAddr dpuPageBaseIdx, ∀ pageBlkCnt ≤ 15360,
    Bijective ⟨cpuPageBlkBaseAddr,dpuPageBaseIdx,pageBlkCnt⟩ ∧ RoundTrip pageBlkCnt := by
  intro always
  have layout := (always 4096 0 415 (by decide)).1
  apply layout.disjoint 0 (by decide) 0 (by decide) 1156 (by decide) 414 (by decide) (by decide) 4096
  · exact ⟨4096,4096,by decide,by decide⟩
  · exact ⟨4096,4096,by decide,by decide⟩

end MetaPB.Operator

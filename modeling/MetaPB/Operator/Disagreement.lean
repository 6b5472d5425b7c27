import MetaPB.Operator.Agreement

/-! The two DPU programs that do not do what the host does. The host's FILTER compares an
index into a chunk with the ints of the whole buffer, so that its window runs over the end
of every chunk. EUDIST writes once for each tasklet, after its loop, and always to the
first chunk. -/
namespace MetaPB.Operator
open Lib.Word Lib.BlockMemory Lib.Workers Lib.Transition

theorem Finishes.launch {kernel : Kernel} {dpuTCB : DpuTcb} {before : Ints}
    (finishes : Finishes kernel dpuTCB before) : ∃ after, Launch kernel dpuTCB before after := by
  obtain ⟨⟨dpu,launched⟩,ends⟩ := finishes
  obtain ⟨labels,final,ran,done⟩ := ends dpu launched [] dpu rfl
  exact ⟨final.mem,dpu,labels,final,launched,ran,done,rfl⟩

namespace OperatorFILTER

/-- The source ints of a chunk, counted from its first, that the host adds up for an int. -/
def readsAt (itemNum i : Nat) : List Nat :=
  ((List.range kernelSize).map (i + ·)).filter (· < itemNum)

/-- The source ints of the buffer that `execCPU` reads. -/
def reads (pageBlkCnt : Nat) : Option (List Nat) :=
  (chunkOffsets pageBlkCnt).map fun offsets => offsets.flatMap fun offset =>
    (List.range pageItemNum).flatMap fun i => (readsAt (itemNum pageBlkCnt) i).map (offset / 4 + ·)

theorem reads_eq (pageBlkCnt : Nat) : reads pageBlkCnt = some
    ((List.range (maxOffset pageBlkCnt / dpuDmaBffrByte)).flatMap fun chunk =>
      (List.range pageItemNum).flatMap fun i =>
        (readsAt (itemNum pageBlkCnt) i).map (pageItemNum * chunk + ·)) := by
  have start (chunk : Nat) : chunk * dpuDmaBffrByte / 4 = pageItemNum * chunk := by
    simp only [dpuDmaBffrByte,pageItemNum]
    omega
  rw [reads,chunkOffsets_eq,Option.map_some,List.flatMap_map]
  simp only [start]

theorem filterAt_eq_reads (itemNum : Nat) (mySrc : Ints) (i : Nat) : filterAt itemNum mySrc i =
    ((readsAt itemNum i).foldl (fun sum index => sum + (mySrc index).sdiv kernelSize) 0).sdiv kernelSize := by
  rw [filterAt,readsAt,List.foldl_filter,List.foldl_map]
  simp only [decide_eq_true_eq]

theorem mem_readsAt {itemNum i index : Nat} :
    index ∈ readsAt itemNum i ↔ (∃ j < kernelSize, i + j = index) ∧ index < itemNum := by
  simp [readsAt]

theorem readsAt_inside {itemNum i : Nat} (inside : i + 7 < itemNum) :
    readsAt itemNum i = (List.range kernelSize).map (i + ·) := by
  apply List.filter_eq_self.mpr
  intro index member
  obtain ⟨j,counted,rfl⟩ := List.mem_map.mp member
  have small := List.mem_range.mp counted
  simp only [kernelSize] at small
  simp only [decide_eq_true_eq]
  omega

theorem filterAt_congr {itemNum i : Nat} {mySrc other : Ints}
    (same : ∀ index ∈ readsAt itemNum i, mySrc index = other index) :
    filterAt itemNum mySrc i = filterAt itemNum other i := by
  rw [filterAt_eq_reads,filterAt_eq_reads]
  congr 1
  apply List.foldl_ext
  intro sum index member
  rw [same index member]

/-- What the DPU computes: a window that stops at the end of the chunk. -/
def chunkwise : ChunkFunction where
  settled _ := True
  value src1 _ i := filterAt pageItemNum src1 i
  confined _ _ _ _ same1 _ _ _ := filterAt_congr fun index member => same1 index (mem_readsAt.mp member).2

theorem kernel_computes : kernel.Computes chunkwise := by
  apply kernel_computes_one rfl rfl
  intro src1 src2 dst other i inside _
  simp only [kernel]
  rw [foldl_update_range _ dst inside]
  rfl

theorem execCPU_apply (pageBlkCnt : Nat) (src1 src2 dst : Ints) :
    ∃ result, body.exec pageBlkCnt src1 src2 dst = some result ∧ ∀ chunk, ∀ i < pageItemNum,
      pageItemNum * chunk + i < itemNum pageBlkCnt → result (pageItemNum * chunk + i) =
        filterAt (itemNum pageBlkCnt) (window src1 (pageItemNum * chunk)) i := by
  obtain ⟨result,executed,values⟩ := exec_perChunk (fun itemNum mySrc _ myDst =>
      (List.range pageItemNum).foldl (fun myDst i =>
        Function.update myDst i (filterAt itemNum mySrc i)) myDst) (fun _ => True)
    (fun src1 _ i => filterAt (itemNum pageBlkCnt) src1 i)
    (fun _ _ dst _ inside _ => foldl_update_range _ dst inside) src1 src2 dst
  exact ⟨result,executed,fun chunk i within => values chunk i within trivial⟩

section Sides
variable {n : Nat}

/-- Mapping the source, launching FILTER on every DPU in any order of its tasklets and
reducing gives the ints that the host loop writes. -/
def ValuesAgree (n : Nat) : Prop :=
  ∀ (src1 src2 target : Nat) (host cpuDst : Ints) (mram : Nat → Ints), ∃ result,
    body.exec n (window host src1) (window host src2) cpuDst = some result ∧
    (∀ d < dpuNum, Finishes kernel ⟨0,n,2 * n,n⟩ (mapSources n src1 src2 host mram d)) ∧
    ∀ computed, (∀ d < dpuNum, Launch kernel ⟨0,n,2 * n,n⟩
        (mapSources n src1 src2 host mram d) (computed d)) →
      ∀ x < n * dpuNum * 1024,
        OperatorREDUCE.execCPU 4 ⟨4 * target,2 * n,n⟩ computed host (target + x) = result x

/-- The host reads no source int behind the buffer. -/
def ReadsInside (n : Nat) : Prop :=
  ∃ indices, reads n = some indices ∧ ∀ index ∈ indices, index < n * dpuNum * 1024

structure Agrees (n : Nat) : Prop where
  values : ValuesAgree n
  reads : ReadsInside n

theorem unwrapped_few (unwrapped : n * pageBlkSize < 2^32) : n ≤ 414 := by
  simp only [pageBlkSize,dpuNum,pageSizeByte] at unwrapped
  omega

/-- Where the window ends before its chunk does, both sides write the same int. -/
theorem values_agree_inside (unwrapped : n * pageBlkSize < 2^32) {src1 src2 target : Nat}
    {host cpuDst result : Ints} {mram computed : Nat → Ints}
    (executed : body.exec n (window host src1) (window host src2) cpuDst = some result)
    (launches : ∀ d < dpuNum, Launch kernel ⟨0,n,2 * n,n⟩ (mapSources n src1 src2 host mram d) (computed d))
    {x : Nat} (inside : x < n * dpuNum * 1024) (short : x % pageItemNum + 7 < pageItemNum) :
    OperatorREDUCE.execCPU 4 ⟨4 * target,2 * n,n⟩ computed host (target + x) = result x := by
  have few := unwrapped_few unwrapped
  have items : itemNum n = n * dpuNum * 1024 := (itemNum_eq_iff n).mpr few
  have within : x % pageItemNum < pageItemNum := Nat.mod_lt _ (by decide)
  have place : x = pageItemNum * (x / pageItemNum) + x % pageItemNum := (Nat.div_add_mod _ _).symm
  have whole : pageItemNum ≤ itemNum n := by
    rw [items]
    simp only [pageItemNum,dpuDmaBffrByte,dpuNum] at inside ⊢
    omega
  obtain ⟨written,ran,values⟩ := execCPU_apply n (window host src1) (window host src2) cpuDst
  cases Option.some.inj (executed.symm.trans ran)
  rw [place] at inside ⊢
  rw [values _ _ within (by rw [items]; exact inside),
    reduce_launches kernel_computes few launches inside within trivial]
  simp only [chunkwise,filterAt_eq_reads]
  rw [readsAt_inside short,readsAt_inside (short.trans_le whole)]

/-- A source whose second chunk starts with 512. -/
def spike : Ints := fun x => if x = 256 then 512 else 0

theorem filterAt_spike {items : Nat} (many : 262 < items) :
    filterAt items (window (window spike 0) 0) 255 = 8 ∧
      filterAt pageItemNum (window (window spike 0) 0) 255 = 0 := by
  refine ⟨?_,by decide +kernel⟩
  rw [filterAt_eq_reads,readsAt_inside many]
  decide +kernel

/-- The last int of the first chunk takes up the start of the second on the host alone. -/
theorem not_valuesAgree (counted : 0 < n) (unwrapped : n * pageBlkSize < 2^32) : ¬ ValuesAgree n := by
  intro agree
  have few := unwrapped_few unwrapped
  have items : itemNum n = n * dpuNum * 1024 := (itemNum_eq_iff n).mpr few
  have buffer : 262 < n * dpuNum * 1024 := by
    simp only [dpuNum]
    omega
  obtain ⟨result,executed,finishes,same⟩ := agree 0 0 0 spike 0 fun _ => 0
  obtain ⟨written,ran,values⟩ := execCPU_apply n (window spike 0) (window spike 0) 0
  cases Option.some.inj (executed.symm.trans ran)
  have launches : ∀ d : Fin dpuNum, ∃ after, Launch kernel ⟨0,n,2 * n,n⟩
      (mapSources n 0 0 spike (fun _ => 0) d) after := fun d => (finishes d d.isLt).launch
  choose computed launch using launches
  let all : Nat → Ints := fun d => if below : d < dpuNum then computed ⟨d,below⟩ else 0
  have launched : ∀ d < dpuNum, Launch kernel ⟨0,n,2 * n,n⟩
      (mapSources n 0 0 spike (fun _ => 0) d) (all d) := by
    intro d below
    simp only [all,dif_pos below]
    exact launch ⟨d,below⟩
  have within : 255 < pageItemNum := by decide
  have inside : pageItemNum * 0 + 255 < n * dpuNum * 1024 := by omega
  have cpu := values 0 255 within (by rw [items]; exact inside)
  have dpu : OperatorREDUCE.execCPU 4 ⟨4 * 0,2 * n,n⟩ all spike (0 + (pageItemNum * 0 + 255)) =
      filterAt pageItemNum (window (window spike 0) (pageItemNum * 0)) 255 :=
    reduce_launches kernel_computes few launched inside within trivial
  obtain ⟨onHost,onDPU⟩ := filterAt_spike (buffer.trans_eq items.symm)
  rw [same all launched _ inside,cpu,Nat.mul_zero,onHost,onDPU] at dpu
  exact absurd dpu (by decide)

/-- The last chunk's window runs over the end of the buffer. -/
theorem not_readsInside (counted : 0 < n) (unwrapped : n * pageBlkSize < 2^32) : ¬ ReadsInside n := by
  intro found
  obtain ⟨indices,read,inside⟩ := found
  have items : itemNum n = n * dpuNum * 1024 := (itemNum_eq_iff n).mpr (unwrapped_few unwrapped)
  have chunks : maxOffset n / dpuDmaBffrByte = 4 * (n * dpuNum) := by
    simp only [itemNum,maxOffset,dpuDmaBffrByte] at items ⊢
    omega
  rw [reads_eq,chunks] at read
  cases Option.some.inj read
  have last : 4 * (n * dpuNum) - 1 < 4 * (n * dpuNum) := by
    simp only [dpuNum]
    omega
  have next : 256 ∈ readsAt (itemNum n) 255 := by
    rw [mem_readsAt,items]
    refine ⟨⟨1,by decide,rfl⟩,?_⟩
    simp only [dpuNum]
    omega
  have beyond := inside (pageItemNum * (4 * (n * dpuNum) - 1) + 256) (List.mem_flatMap.mpr
    ⟨_,List.mem_range.mpr last,List.mem_flatMap.mpr
      ⟨255,List.mem_range.mpr (by decide),List.mem_map_of_mem next⟩⟩)
  simp only [pageItemNum,dpuDmaBffrByte] at beyond
  omega

theorem filter_valuesAgree_iff (unwrapped : n * pageBlkSize < 2^32) : ValuesAgree n ↔ n = 0 := by
  constructor
  · intro agree
    by_contra some
    exact not_valuesAgree (Nat.pos_of_ne_zero some) unwrapped agree
  · rintro rfl src1 src2 target host cpuDst mram
    obtain ⟨result,executed,-⟩ := execCPU_apply 0 (window host src1) (window host src2) cpuDst
    refine ⟨result,executed,fun d _ => finishes kernel (Nat.zero_le _) _,?_⟩
    intro computed _ x inside
    rw [Nat.zero_mul,Nat.zero_mul] at inside
    exact absurd inside (Nat.not_lt_zero x)

theorem filter_readsInside_iff (unwrapped : n * pageBlkSize < 2^32) : ReadsInside n ↔ n = 0 := by
  constructor
  · intro inside
    by_contra some
    exact not_readsInside (Nat.pos_of_ne_zero some) unwrapped inside
  · rintro rfl
    exact ⟨_,reads_eq 0,by simp [maxOffset,wrap32]⟩

/-- Both halves hold for no page block at all only. -/
theorem filter_agrees_iff (unwrapped : n * pageBlkSize < 2^32) : Agrees n ↔ n = 0 := by
  constructor
  · intro agrees
    exact (filter_readsInside_iff unwrapped).mp agrees.reads
  · intro empty
    exact ⟨(filter_valuesAgree_iff unwrapped).mpr empty,(filter_readsInside_iff unwrapped).mpr empty⟩

theorem filter_agrees_iff_none : Agrees 0 := (filter_agrees_iff (by decide)).mpr rfl

theorem filter_not_agreeing : ¬ ∀ pageBlkCnt, pageBlkCnt * pageBlkSize < 2^32 → Agrees pageBlkCnt :=
  fun always => not_valuesAgree Nat.one_pos (by decide) (always 1 (by decide)).values

end Sides
end OperatorFILTER

namespace OperatorEUDIST

def squaredDistance (src1 src2 : Ints) : BitVec 32 :=
  ∑ i ∈ Finset.range pageItemNum,(src2 i - src1 i) * (src2 i - src1 i)

theorem execCPU_apply (pageBlkCnt : Nat) (src1 src2 dst : Ints) :
    ∃ result, body.exec pageBlkCnt src1 src2 dst = some result ∧ ∀ chunk,
      pageItemNum * chunk < itemNum pageBlkCnt → result (pageItemNum * chunk) =
        squaredDistance (window src1 (pageItemNum * chunk)) (window src2 (pageItemNum * chunk)) := by
  have function : chunkFunction .EUDIST =
      some (.total fun src1 src2 => (src2 - src1) * (src2 - src1)) := rfl
  obtain ⟨result,executed,values⟩ :=
    Body.exec_apply (cpuBody_computes function rfl) pageBlkCnt src1 src2 dst
  exact ⟨result,executed,fun chunk inside => values chunk 0 (by decide) rfl inside⟩

section Launches
variable {dpuTCB : DpuTcb}

/-- Every launch ends, with the first int of each destination chunk as the host writes it. -/
def Agrees (dpuTCB : DpuTcb) : Prop :=
  ∀ before, Finishes kernel dpuTCB before ∧ ∀ after, Launch kernel dpuTCB before after →
    ∀ chunk < 4 * dpuTCB.pageCnt, after (1024 * dpuTCB.dstPageIdx + pageItemNum * chunk) =
      squaredDistance (window before (1024 * dpuTCB.src1PageIdx + pageItemNum * chunk))
        (window before (1024 * dpuTCB.src2PageIdx + pageItemNum * chunk))

/-- No tasklet, in any order, writes behind the first destination chunk. -/
theorem launch_untouched {before after : Ints} (launch : Launch kernel dpuTCB before after) {address : Nat}
    (other : ¬ Inside (1024 * dpuTCB.dstPageIdx) pageItemNum address) : after address = before address := by
  obtain ⟨initial,labels,final,launched,ran,-,rfl⟩ := launch
  rw [← launched.mem_eq]
  refine Machine.run_untouched ?_ ran
  intro t instr member own block emitted
  have main := launched.main_eq t
  rw [Kernel.main] at main
  obtain ⟨indices,-,todo⟩ := Option.map_eq_some_iff.mp main
  rw [← todo,List.mem_append] at member
  rcases member with turn | finish
  · obtain ⟨byteIndex,-,listed⟩ := List.mem_flatMap.mp turn
    simp only [kernel,List.mem_cons,List.not_mem_nil,or_false] at listed
    rcases listed with rfl | rfl | rfl <;> simp [Kernel.machine] at emitted
  · cases List.mem_singleton.mp finish
    cases List.mem_singleton.mp emitted
    have start : pageAddr dpuTCB.dstPageIdx 0 = 1024 * dpuTCB.dstPageIdx := pageAddr_chunk _ 0
    simp only [start]
    exact other

theorem not_agrees (counted : 0 < dpuTCB.pageCnt) : ¬ Agrees dpuTCB := by
  intro agrees
  obtain ⟨finishes,same⟩ := agrees fun _ => 1
  obtain ⟨after,launch⟩ := finishes.launch
  have second := same after launch 1 (by omega)
  have kept : after (1024 * dpuTCB.dstPageIdx + pageItemNum * 1) = 1 := launch_untouched launch (by
    intro hit
    have below := hit.2
    omega)
  have zero : squaredDistance (fun _ => 1) (fun _ => 1) = 0 := by simp [squaredDistance]
  rw [kept] at second
  exact absurd (second.trans zero) (by decide)

theorem eudist_agrees_iff (dpuTCB : DpuTcb) : Agrees dpuTCB ↔ dpuTCB.pageCnt = 0 := by
  constructor
  · intro agrees
    by_contra counted
    exact not_agrees (Nat.pos_of_ne_zero counted) agrees
  · intro empty before
    refine ⟨finishes kernel (empty.trans_le (Nat.zero_le _)) before,?_⟩
    intro after _ chunk inside
    rw [empty] at inside
    exact absurd inside (Nat.not_lt_zero chunk)

theorem eudist_not_agreeing : ¬ ∀ dpuTCB : DpuTcb, dpuTCB.pageCnt * pageSizeByte < 2^32 → Agrees dpuTCB :=
  fun always => not_agrees (by decide) (always ⟨0,1,2,1⟩ (by decide))

end Launches
end OperatorEUDIST
end MetaPB.Operator

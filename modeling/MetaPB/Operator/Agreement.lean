import MetaPB.Operator.ChunkFunction
import MetaPB.Operator.Transfer

/-! Host and DPU agree: mapping the sources, launching a program on every DPU in any
order of its tasklets and reducing the result gives the ints that the host loop
writes. Both are the chunk function of the operator on every chunk. -/
namespace MetaPB.Operator
open Lib.Word Lib.BlockMemory Lib.Workers Lib.Transition

section Host

theorem exec_perChunk (kernel : Nat → Ints → Ints → Ints → Ints) (settled : Nat → Prop)
    (value : Ints → Ints → Nat → BitVec 32) {pageBlkCnt : Nat} (writes : ∀ src1 src2 dst, ∀ i < pageItemNum, settled i →
      kernel (itemNum pageBlkCnt) src1 src2 dst i = value src1 src2 i) (src1 src2 dst : Ints) :
    ∃ result, (Body.perChunk kernel).exec pageBlkCnt src1 src2 dst = some result ∧
      ∀ chunk, ∀ i < pageItemNum, settled i → pageItemNum * chunk + i < itemNum pageBlkCnt →
        result (pageItemNum * chunk + i) =
          value (window src1 (pageItemNum * chunk)) (window src2 (pageItemNum * chunk)) i := by
  refine ⟨_,by rw [Body.exec,chunkOffsets_eq,Option.map_some],?_⟩
  intro chunk i within settles inside
  rw [List.foldl_map]
  have start (k : Nat) : k * dpuDmaBffrByte / 4 = pageItemNum * k := by
    simp only [dpuDmaBffrByte,pageItemNum]
    omega
  apply foldl_settled (· = chunk)
  · rintro k _ rfl mem
    rw [Body.chunkTurn,start,overwrite_inside ⟨by omega,by omega⟩,Nat.add_sub_cancel_left]
    exact writes _ _ _ i within settles
  · intro k _ other mem
    rw [Body.chunkTurn,start]
    apply overwrite_outside
    intro hit
    obtain ⟨above,below⟩ := hit
    apply other
    simp only [pageItemNum,dpuDmaBffrByte] at within above below
    omega
  · refine ⟨chunk,List.mem_range.mpr ?_,rfl⟩
    have whole := maxOffset_eq pageBlkCnt
    simp only [itemNum,pageItemNum,maxOffset,dpuDmaBffrByte] at inside whole ⊢
    omega

theorem Body.exec_apply {f : ChunkFunction} {body : Body} (computes : body.Computes f)
    (pageBlkCnt : Nat) (src1 src2 dst : Ints) : ∃ result, body.exec pageBlkCnt src1 src2 dst = some result ∧
      ∀ chunk, ∀ i < pageItemNum, f.settled i → pageItemNum * chunk + i < itemNum pageBlkCnt →
        result (pageItemNum * chunk + i) =
          f.value (window src1 (pageItemNum * chunk)) (window src2 (pageItemNum * chunk)) i := by
  cases body with
  | perItem g =>
    refine ⟨_,by rw [Body.exec,itemCounters_eq,Option.map_some],?_⟩
    intro chunk i _ _ inside
    rw [← computes]
    apply foldl_overwrite_settled
    · intro x _ hit
      obtain ⟨above,below⟩ := hit
      have same : x = pageItemNum * chunk + i := by omega
      rw [same]
      rfl
    · exact ⟨_,List.mem_range.mpr inside,by omega,by omega⟩
  | perChunk kernel => exact exec_perChunk kernel f.settled f.value (computes (itemNum pageBlkCnt)) src1 src2 dst

end Host

section Launches
variable {f : ChunkFunction} {kernel : Kernel} {dpuTCB : DpuTcb}

structure Result (f : ChunkFunction) (dpuTCB : DpuTcb) (mram : Ints) (byteIndex : Nat)
    (block : Block (BitVec 32)) : Prop where
  start : block.start = pageAddr dpuTCB.dstPageIdx byteIndex
  size : block.size = pageItemNum
  cells : ∀ i < pageItemNum, f.settled i → block.cells i = f.value
    (window mram (pageAddr dpuTCB.src1PageIdx byteIndex))
    (window mram (pageAddr dpuTCB.src2PageIdx byteIndex)) i

theorem emissions_turns (computes : kernel.Computes f) (mram : Ints) (indices : List Nat) (caches : Caches) :
    (∀ block ∈ (kernel.machine dpuTCB).emissions mram caches (indices.flatMap kernel.turn),
      ∃ byteIndex ∈ indices, Result f dpuTCB mram byteIndex block) ∧
    ∀ byteIndex ∈ indices,
      ∃ block ∈ (kernel.machine dpuTCB).emissions mram caches (indices.flatMap kernel.turn),
        Result f dpuTCB mram byteIndex block := by
  induction indices generalizing caches with
  | nil => simp [Machine.emissions]
  | cons byteIndex rest ih =>
    obtain ⟨cells,emitted,right⟩ := computes.emits dpuTCB mram caches byteIndex
    have result : Result f dpuTCB mram byteIndex
        ⟨pageAddr dpuTCB.dstPageIdx byteIndex,pageItemNum,cells⟩ := ⟨rfl,rfl,right⟩
    obtain ⟨sound,complete⟩ := ih ((kernel.turn byteIndex).foldl ((kernel.machine dpuTCB).advance mram) caches)
    rw [List.flatMap_cons,Machine.emissions_append,emitted]
    constructor
    · intro block member
      rcases List.mem_append.mp member with now | later
      · rw [List.mem_singleton.mp now]
        exact ⟨byteIndex,by simp,result⟩
      · obtain ⟨other,listed,holds⟩ := sound block later
        exact ⟨other,by simp [listed],holds⟩
    · intro other listed
      rcases List.mem_cons.mp listed with rfl | later
      · exact ⟨_,by simp,result⟩
      · obtain ⟨block,member,holds⟩ := complete other later
        exact ⟨block,List.mem_append_right _ member,holds⟩

theorem Launched.todo_eq {mram : Ints} {dpu : Dpu} (computes : kernel.Computes f)
    (few : dpuTCB.pageCnt ≤ nrSingleDpuPage) (launched : Launched kernel dpuTCB mram dpu)
    (t : Fin nrTasklets) : ∃ indices : List Nat, (dpu.worker t).todo = indices.flatMap kernel.turn ∧
      ∀ byteIndex, byteIndex ∈ indices ↔ ∃ chunk < 4 * dpuTCB.pageCnt,
        chunk % nrTasklets = t ∧ byteIndex = dpuDmaBffrByte * chunk := by
  obtain ⟨indices,counted,members⟩ := mem_byteIndices few t.isLt
  refine ⟨indices,?_,members⟩
  have main := launched.main_eq t
  rw [Kernel.main,counted,computes.finish,Option.map_some,List.append_nil] at main
  exact (Option.some.inj main).symm

theorem pageAddr_chunk (pageIdx chunk : Nat) :
    pageAddr pageIdx (dpuDmaBffrByte * chunk) = 1024 * pageIdx + pageItemNum * chunk := by
  simp only [pageAddr,pageSizeByte,dpuDmaBffrByte,pageItemNum]
  omega

def Destination (dpuTCB : DpuTcb) (address : Nat) : Prop :=
  Inside (1024 * dpuTCB.dstPageIdx) (1024 * dpuTCB.pageCnt) address

structure SourcesKept (dpuTCB : DpuTcb) : Prop where
  src1 : ∀ x < 1024 * dpuTCB.pageCnt, ¬ Destination dpuTCB (1024 * dpuTCB.src1PageIdx + x)
  src2 : ∀ x < 1024 * dpuTCB.pageCnt, ¬ Destination dpuTCB (1024 * dpuTCB.src2PageIdx + x)

theorem overwrite_window_congr {cache mem other : Ints} {start : Nat}
    (agree : ∀ i < pageItemNum, mem (start + i) = other (start + i)) :
    overwrite cache 0 pageItemNum (window mem start) = overwrite cache 0 pageItemNum (window other start) := by
  ext1 x
  unfold overwrite
  apply ite_congr rfl _ fun _ => rfl
  intro hit
  obtain ⟨_,below⟩ := hit
  exact agree _ (by omega)

theorem steady_turn (kept : SourcesKept dpuTCB) {chunk : Nat} (inside : chunk < 4 * dpuTCB.pageCnt) :
    ∀ instr ∈ twoSources (dpuDmaBffrByte * chunk),
      (kernel.machine dpuTCB).Steady (fun address => ¬ Destination dpuTCB address) instr := by
  intro instr member mem other agree caches
  have within (i : Nat) (below : i < pageItemNum) : pageItemNum * chunk + i < 1024 * dpuTCB.pageCnt := by
    simp only [pageItemNum,dpuDmaBffrByte] at below ⊢
    omega
  simp only [twoSources,List.mem_cons,List.not_mem_nil,or_false] at member
  rcases member with rfl | rfl | rfl | rfl
  · simp only [Kernel.machine,pageAddr_chunk]
    rw [overwrite_window_congr]
    intro i below
    rw [Nat.add_assoc]
    exact agree _ (kept.src1 _ (within i below))
  · simp only [Kernel.machine,pageAddr_chunk]
    rw [overwrite_window_congr]
    intro i below
    rw [Nat.add_assoc]
    exact agree _ (kept.src2 _ (within i below))
  · rfl
  · rfl

theorem Launched.separated {mram : Ints} {dpu : Dpu} (computes : kernel.Computes f)
    (few : dpuTCB.pageCnt ≤ nrSingleDpuPage) (kept : SourcesKept dpuTCB)
    (launched : Launched kernel dpuTCB mram dpu) :
    (kernel.machine dpuTCB).Separated (fun address => ¬ Destination dpuTCB address) dpu := by
  constructor
  · intro t instr member
    obtain ⟨indices,todo,members⟩ := launched.todo_eq computes few t
    rw [todo] at member
    obtain ⟨byteIndex,listed,inTurn⟩ := List.mem_flatMap.mp member
    obtain ⟨chunk,inside,-,rfl⟩ := (members byteIndex).mp listed
    exact steady_turn kept inside instr (computes.turn _ inTurn)
  · intro t block member address outside
    obtain ⟨indices,todo,members⟩ := launched.todo_eq computes few t
    rw [todo] at member
    obtain ⟨byteIndex,listed,result⟩ := (emissions_turns computes dpu.mem indices _).1 block member
    obtain ⟨chunk,inside,-,rfl⟩ := (members byteIndex).mp listed
    rw [result.start,result.size,pageAddr_chunk]
    intro hit
    obtain ⟨above,below⟩ := hit
    apply outside
    simp only [pageItemNum,dpuDmaBffrByte] at above below
    exact ⟨by omega,by omega⟩

/-- A launch on one DPU leaves the function of the source chunks in every destination
chunk, in whichever order its tasklets ran. -/
theorem launch_apply (computes : kernel.Computes f) (few : dpuTCB.pageCnt ≤ nrSingleDpuPage)
    (kept : SourcesKept dpuTCB) {before after : Ints} (launch : Launch kernel dpuTCB before after)
    {chunk i : Nat} (inside : chunk < 4 * dpuTCB.pageCnt) (within : i < pageItemNum) (settled : f.settled i) :
    after (1024 * dpuTCB.dstPageIdx + pageItemNum * chunk + i) =
      f.value (window before (1024 * dpuTCB.src1PageIdx + pageItemNum * chunk))
        (window before (1024 * dpuTCB.src2PageIdx + pageItemNum * chunk)) i := by
  obtain ⟨initial,labels,final,launched,ran,done,rfl⟩ := launch
  have here := launched.mem_eq
  apply Machine.final_settled (launched.separated computes few kept) ran done
  · intro t block member hit
    obtain ⟨indices,todo,members⟩ := launched.todo_eq computes few t
    rw [todo] at member
    obtain ⟨byteIndex,listed,result⟩ := (emissions_turns computes initial.mem indices _).1 block member
    obtain ⟨other,_,-,rfl⟩ := (members byteIndex).mp listed
    have cells := result.cells i within settled
    rw [result.start,result.size,pageAddr_chunk] at hit
    obtain ⟨above,below⟩ := hit
    have same : other = chunk := by
      simp only [pageItemNum,dpuDmaBffrByte] at above below within
      omega
    subst same
    rw [pageAddr_chunk,pageAddr_chunk,here] at cells
    rw [result.start,pageAddr_chunk,Nat.add_sub_cancel_left]
    exact cells
  · have remainder : chunk % nrTasklets < nrTasklets := Nat.mod_lt _ (by decide)
    obtain ⟨indices,todo,members⟩ := launched.todo_eq computes few ⟨_,remainder⟩
    have listed := (members (dpuDmaBffrByte * chunk)).mpr ⟨chunk,inside,rfl,rfl⟩
    obtain ⟨block,member,result⟩ := (emissions_turns computes initial.mem indices _).2 _ listed
    refine ⟨⟨_,remainder⟩,block,by rw [todo]; exact member,?_⟩
    rw [result.start,result.size,pageAddr_chunk]
    exact ⟨by omega,by omega⟩

end Launches

/-- The int buffers `src1` and `src2` in the MRAM of all DPUs, one from page 0 and the
other behind it. -/
def mapSources (pageBlkCnt src1 src2 : Nat) (host : Ints) (mram : Nat → Ints) : Nat → Ints :=
  OperatorMAP.execCPU 4 ⟨4 * src2,pageBlkCnt,pageBlkCnt⟩ host
    (OperatorMAP.execCPU 4 ⟨4 * src1,0,pageBlkCnt⟩ host mram)

/-- A DPU can be launched, and however far its tasklets got they can run to their end. -/
def Finishes (kernel : Kernel) (dpuTCB : DpuTcb) (before : Ints) : Prop :=
  (∃ dpu, Launched kernel dpuTCB before dpu) ∧ ∀ initial, Launched kernel dpuTCB before initial →
    ∀ labels dpu, run (kernel.machine dpuTCB).step initial labels = some dpu →
      ∃ more final, run (kernel.machine dpuTCB).step dpu more = some final ∧ final.Done

def Compared (opTag : OperatorTag) (x : Nat) : Prop :=
  (opTag = .MAC ∨ opTag = .LOOKUP) → x % pageItemNum = 0

section Agreement
variable {n src1 src2 target : Nat} {host : Ints} {mram : Nat → Ints}

theorem finishes (kernel : Kernel) {dpuTCB : DpuTcb} (few : dpuTCB.pageCnt ≤ nrSingleDpuPage)
    (before : Ints) : Finishes kernel dpuTCB before := by
  constructor
  · have mains (t : Fin nrTasklets) : ∃ todo, kernel.main dpuTCB t = some todo := by
      obtain ⟨indices,counted,-⟩ := mem_byteIndices few t.isLt
      exact ⟨_,by rw [Kernel.main,counted,Option.map_some]⟩
    choose todo main using mains
    exact ⟨⟨before,fun t => ⟨⟨0,0,0⟩,todo t⟩⟩,rfl,main⟩
  · intro _ _ _ dpu _
    exact Machine.run_finishes dpu

theorem mapSources_src1 (few : n ≤ nrSingleDpuPage) {d b o : Nat} (inside : b < n) (offset : o < 1024) :
    mapSources n src1 src2 host mram d (1024 * b + o) =
      host (src1 + 1024 * ((b * dpuNum + d) % 2^20) + o) := by
  simp only [nrSingleDpuPage] at few
  have ints : pageSizeByte = 4 * 1024 := rfl
  have first : OperatorMAP.execCPU 4 ⟨4 * src1,0,n⟩ host mram d (1024 * (0 % 2^20 + b) + o) = _ :=
    map_apply ints (by decide) (by omega) (Nat.dvd_mul_right 4 src1) host mram inside offset
  rw [Nat.mul_div_cancel_left _ (by decide : 0 < 4)] at first
  rw [mapSources,map_untouched ints (by decide) (by omega) (Nat.dvd_mul_right 4 src2)]
  · simpa using first
  · intro hit
    obtain ⟨above,-⟩ := hit
    omega

theorem mapSources_src2 (few : n ≤ nrSingleDpuPage) {d b o : Nat} (inside : b < n) (offset : o < 1024) :
    mapSources n src1 src2 host mram d (1024 * (n + b) + o) =
      host (src2 + 1024 * ((b * dpuNum + d) % 2^20) + o) := by
  simp only [nrSingleDpuPage] at few
  have ints : pageSizeByte = 4 * 1024 := rfl
  have second : OperatorMAP.execCPU 4 ⟨4 * src2,n,n⟩ host _ d (1024 * (n % 2^20 + b) + o) = _ :=
    map_apply ints (by decide) (by omega) (Nat.dvd_mul_right 4 src2) host
      (OperatorMAP.execCPU 4 ⟨4 * src1,0,n⟩ host mram) inside offset
  rw [Nat.mul_div_cancel_left _ (by decide : 0 < 4),Nat.mod_eq_of_lt (by omega : n < 2^20)] at second
  exact second

theorem sourcesKept : SourcesKept ⟨0,n,2 * n,n⟩ := by
  constructor
  · intro x inside hit
    obtain ⟨above,-⟩ := hit
    simp only at inside above
    omega
  · intro x inside hit
    obtain ⟨above,-⟩ := hit
    simp only at inside above
    omega

theorem settled_of_compared {opTag : OperatorTag} {f : ChunkFunction}
    (computing : opTag ∈ [OperatorTag.ELEW_ADD,.ELEW_PROD,.AFFINE,.CONV_1D,.MAC,.LOOKUP])
    (function : chunkFunction opTag = some f) {x : Nat} (compared : Compared opTag x) :
    f.settled (x % pageItemNum) := by
  simp only [List.mem_cons,List.not_mem_nil,or_false] at computing
  rcases computing with rfl | rfl | rfl | rfl | rfl | rfl <;> cases function
  · trivial
  · trivial
  · trivial
  · trivial
  · exact compared (Or.inl rfl)
  · exact compared (Or.inr rfl)

theorem chunk_int (page j x : Nat) :
    pageItemNum * (4 * page + j) + x = 1024 * page + (pageItemNum * j + x) := by
  simp only [pageItemNum,dpuDmaBffrByte]
  omega

theorem chunk_split {chunk i : Nat} (inside : pageItemNum * chunk + i < n * dpuNum * 1024) :
    ∃ d < dpuNum, ∃ b < n, ∃ j < 4, chunk = 4 * (b * dpuNum + d) + j := by
  have chunks : chunk < n * dpuNum * 4 := by
    simp only [pageItemNum,dpuDmaBffrByte] at inside
    omega
  exact cell_split chunks

theorem reduce_launches {f : ChunkFunction} {kernel : Kernel} (computes : kernel.Computes f)
    (few : n ≤ 414) {computed : Nat → Ints} (launches : ∀ d < dpuNum, Launch kernel ⟨0,n,2 * n,n⟩
      (mapSources n src1 src2 host mram d) (computed d))
    {chunk i : Nat} (inside : pageItemNum * chunk + i < n * dpuNum * 1024) (within : i < pageItemNum)
    (settled : f.settled i) :
    OperatorREDUCE.execCPU 4 ⟨4 * target,2 * n,n⟩ computed host (target + (pageItemNum * chunk + i)) =
      f.value (window (window host src1) (pageItemNum * chunk))
        (window (window host src2) (pageItemNum * chunk)) i := by
  have chunked : n ≤ nrSingleDpuPage := few.trans (by decide)
  obtain ⟨d,below,b,block,j,quarter,rfl⟩ := chunk_split inside
  have page := pageIdx_eq few block below
  have inPage (x : Nat) (small : x < pageItemNum) : pageItemNum * j + x < 1024 := by
    simp only [pageItemNum,dpuDmaBffrByte] at small ⊢
    omega
  calc OperatorREDUCE.execCPU 4 ⟨4 * target,2 * n,n⟩ computed host
        (target + (pageItemNum * (4 * (b * dpuNum + d) + j) + i))
      = computed d (1024 * (2 * n % 2^20 + b) + (pageItemNum * j + i)) := by
        have reduced : OperatorREDUCE.execCPU 4 ⟨4 * target,2 * n,n⟩ computed host _ = _ :=
          reduce_apply rfl (by decide) few (Nat.dvd_mul_right 4 target) computed host below block
            (inPage i within)
        rw [Nat.mul_div_cancel_left _ (by decide : 0 < 4)] at reduced
        rw [chunk_int,← Nat.add_assoc,reduced]
    _ = computed d (1024 * (2 * n) + pageItemNum * (4 * b + j) + i) := by
        rw [Nat.mod_eq_of_lt (by omega),Nat.add_assoc (1024 * (2 * n)),chunk_int,Nat.mul_add,Nat.add_assoc]
    _ = f.value (window (mapSources n src1 src2 host mram d) (1024 * 0 + pageItemNum * (4 * b + j)))
        (window (mapSources n src1 src2 host mram d) (1024 * n + pageItemNum * (4 * b + j))) i :=
        launch_apply computes chunked sourcesKept (launches d below) (by simp only; omega) within settled
    _ = f.value (window (window host src1) (pageItemNum * (4 * (b * dpuNum + d) + j)))
        (window (window host src2) (pageItemNum * (4 * (b * dpuNum + d) + j))) i := by
        apply f.confined _ _ _ _ _ _ i within
        · intro x small
          simp only [window_apply]
          rw [Nat.mul_zero,Nat.zero_add,chunk_int,chunk_int,
            mapSources_src1 chunked block (inPage x small),page,Nat.add_assoc]
        · intro x small
          simp only [window_apply]
          rw [Nat.add_assoc,chunk_int,chunk_int,← Nat.add_assoc (1024 * n),← Nat.mul_add,
            mapSources_src2 chunked block (inPage x small),page,Nat.add_assoc]

/-- Executing an operator on the DPUs gives the ints that executing it on the host gives:
all of them, or the first of every chunk for the operators that sum over chunks. -/
theorem execDPU_agrees_execCPU {opTag : OperatorTag}
    (computing : opTag ∈ [OperatorTag.ELEW_ADD,.ELEW_PROD,.AFFINE,.CONV_1D,.MAC,.LOOKUP])
    {kernel : Kernel} {body : Body} (program : dpuKernel opTag = some kernel)
    (loop : cpuBody opTag = some body) (unwrapped : n * pageBlkSize < 2^32)
    (fits : 3 * n ≤ nrSingleDpuPage) (src1 src2 target : Nat) (host cpuDst : Ints) (mram : Nat → Ints) :
    ∃ result, body.exec n (window host src1) (window host src2) cpuDst = some result ∧
      (∀ d < dpuNum, Finishes kernel ⟨0,n,2 * n,n⟩ (mapSources n src1 src2 host mram d)) ∧
      ∀ computed, (∀ d < dpuNum, Launch kernel ⟨0,n,2 * n,n⟩
          (mapSources n src1 src2 host mram d) (computed d)) →
        ∀ x < n * dpuNum * 1024, Compared opTag x →
          OperatorREDUCE.execCPU 4 ⟨4 * target,2 * n,n⟩ computed host (target + x) = result x := by
  have few : n ≤ 414 := by
    simp only [pageBlkSize,dpuNum,pageSizeByte] at unwrapped
    omega
  have items : itemNum n = n * dpuNum * 1024 := (itemNum_eq_iff n).mpr few
  obtain ⟨f,function⟩ : ∃ f, chunkFunction opTag = some f := by
    simp only [List.mem_cons,List.not_mem_nil,or_false] at computing
    rcases computing with rfl | rfl | rfl | rfl | rfl | rfl <;> exact ⟨_,rfl⟩
  have writes : opTag ≠ .EUDIST := by
    rintro rfl
    simp at computing
  have computes := dpuKernel_computes function program writes
  obtain ⟨result,executed,values⟩ := Body.exec_apply (cpuBody_computes function loop) n
    (window host src1) (window host src2) cpuDst
  refine ⟨result,executed,fun d _ => finishes kernel (by simp only; omega) _,?_⟩
  intro computed launches x inside compared
  have settled := settled_of_compared computing function compared
  have within : x % pageItemNum < pageItemNum := Nat.mod_lt _ (by decide)
  have place : x = pageItemNum * (x / pageItemNum) + x % pageItemNum := (Nat.div_add_mod _ _).symm
  rw [place] at inside ⊢
  rw [values _ _ within settled (by rw [items]; exact inside)]
  exact reduce_launches computes few launches inside within settled

theorem execDPU_agrees_execCPU_mac :
    ∃ result, OperatorMAC.body.exec 1 (window (BitVec.ofNat 32) 16) (window (BitVec.ofNat 32) 32) 0 =
        some result ∧
      (∀ d < dpuNum, Finishes OperatorMAC.kernel ⟨0,1,2,1⟩
        (mapSources 1 16 32 (BitVec.ofNat 32) (fun _ => 0) d)) ∧
      ∀ computed, (∀ d < dpuNum, Launch OperatorMAC.kernel ⟨0,1,2,1⟩
          (mapSources 1 16 32 (BitVec.ofNat 32) (fun _ => 0) d) (computed d)) →
        ∀ x < 1 * dpuNum * 1024, Compared .MAC x →
          OperatorREDUCE.execCPU 4 ⟨4 * 64,2,1⟩ computed (BitVec.ofNat 32) (64 + x) = result x :=
  execDPU_agrees_execCPU (by decide) rfl rfl (by decide) (by decide) 16 32 64 _ _ _

end Agreement
end MetaPB.Operator

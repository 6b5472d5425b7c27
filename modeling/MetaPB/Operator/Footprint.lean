import MetaPB.Operator.Disagreement
import MetaPB.Operator.ManagerCalls

/-! Which ints a call may write, and which ints the loops of the host look at. A loop reads
its sources up to seven ints behind their end, where FILTER's last window lies. -/
namespace MetaPB.Operator
open Lib.Word Lib.BlockMemory Lib.Workers Lib.Transition

namespace Call

/-- The ints of the host that a call may write. -/
def Writes : Call → Nat → Prop
  | execCPU .MAP _,_ => False
  | execCPU .REDUCE cpuTCB,address =>
    Inside (cpuTCB.sgInfo.cpuPageBlkBaseAddr / 4) (bufferInts cpuTCB.sgInfo.pageBlkCnt) address
  | execCPU opTag cpuTCB,address =>
    (cpuBody opTag).isSome ∧ Inside (cpuTCB.dstPageBase / 4) (itemNum cpuTCB.pageBlkCnt) address
  | execDPU _ _,_ => False

/-- The ints of every DPU that a call may write; without pages EUDIST still writes somewhere. -/
def Fills : Call → Nat → Prop
  | execCPU .MAP cpuTCB,address =>
    Inside (1024 * (cpuTCB.sgInfo.dpuPageBaseIdx % 2^20)) (1024 * cpuTCB.sgInfo.pageBlkCnt) address
  | execCPU _ _,_ => False
  | execDPU opTag dpuTCB,address =>
    (dpuKernel opTag).isSome ∧ (dpuTCB.pageCnt = 0 ∨ Destination dpuTCB address)

/-- Transfers whose offsets fit a word, launches within the pages of a DPU. -/
def Low : Call → Prop
  | execCPU opTag cpuTCB => opTag ∈ xferOPSet →
    4 ∣ cpuTCB.sgInfo.cpuPageBlkBaseAddr ∧ cpuTCB.sgInfo.pageBlkCnt ≤ 414
  | execDPU _ dpuTCB => dpuTCB.pageCnt ≤ nrSingleDpuPage

section Kept
variable {call : Call} {before after : Platform} {opTag : OperatorTag} {cpuTCB : CpuTcb}

theorem writes_computing (plain : cpuTCB.sgInfo.pageBlkCnt = 0) {address : Nat}
    (writes : (execCPU opTag cpuTCB).Writes address) :
    (cpuBody opTag).isSome ∧ Inside (cpuTCB.dstPageBase / 4) (itemNum cpuTCB.pageBlkCnt) address := by
  cases opTag with
  | MAP => exact writes.elim
  | REDUCE =>
    obtain ⟨above,below⟩ := writes
    rw [plain,bufferInts] at below
    omega
  | _ => exact writes

theorem not_fills_computing (plain : cpuTCB.sgInfo.pageBlkCnt = 0) (address : Nat) :
    ¬ (execCPU opTag cpuTCB).Fills address := by
  cases opTag with
  | MAP =>
    intro fills
    obtain ⟨above,below⟩ := fills
    rw [plain] at below
    omega
  | _ => exact not_false

theorem does_idle (bodiless : cpuBody opTag = none) (map : opTag ≠ .MAP) (reduce : opTag ≠ .REDUCE) :
    (execCPU opTag cpuTCB).Does before after ↔ after = before := by
  have idle : OperatorManager.execCPU opTag cpuTCB before = some before := by
    cases opTag <;> first | contradiction | rfl
  rw [Does,idle,Option.some.injEq,eq_comm]

theorem execBody_outside {body : Body} {host next : Ints}
    (ran : OperatorManager.execBody body cpuTCB host = some next) {address : Nat}
    (outside : ¬ Inside (cpuTCB.dstPageBase / 4) (itemNum cpuTCB.pageBlkCnt) address) :
    next address = host address := by
  obtain ⟨result,executed,rfl⟩ := Option.map_eq_some_iff.mp ran
  rw [splice]
  split
  next above =>
    have behind : itemNum cpuTCB.pageBlkCnt ≤ address - cpuTCB.dstPageBase / 4 := by
      simp only [Inside] at outside
      omega
    rw [Body.exec_outside executed behind,window_apply,Nat.add_sub_cancel' above]
  next => rfl

/-- Whatever a call does, it does in the ints it may write. -/
theorem host_kept (low : call.Low) (does : call.Does before after) {address : Nat}
    (outside : ¬ call.Writes address) : after.host address = before.host address := by
  cases call with
  | execCPU opTag cpuTCB =>
    cases loop : cpuBody opTag with
    | some body =>
      obtain ⟨host,ran,rfl⟩ := (does_loop loop).mp does
      refine execBody_outside ran fun hit => outside ?_
      cases opTag <;> cases loop <;> exact ⟨rfl,hit⟩
    | none =>
      rcases eq_or_ne opTag .MAP with rfl | map
      · rw [does_map.mp does]
      rcases eq_or_ne opTag .REDUCE with rfl | reduce
      · obtain ⟨aligned,few⟩ := low (by decide)
        have ints : pageSizeByte = 4 * 1024 := rfl
        rw [Writes,bufferInts,Nat.mul_comm _ 1024] at outside
        simp only [does_reduce.mp does]
        exact reduce_outside ints (by decide) few aligned before.mram before.host outside
      · rw [(does_idle loop map reduce).mp does]
  | execDPU opTag dpuTCB =>
    cases program : dpuKernel opTag with
    | some kernel => rw [((does_launch program).mp does).1]
    | none =>
      rw [Does,OperatorManager.execDPU,program] at does
      rw [does]

theorem mram_kept (low : call.Low) (does : call.Does before after) {d address : Nat} (dpu : d < dpuNum)
    (outside : ¬ call.Fills address) : after.mram d address = before.mram d address := by
  cases call with
  | execCPU opTag cpuTCB =>
    cases loop : cpuBody opTag with
    | some body =>
      obtain ⟨host,-,rfl⟩ := (does_loop loop).mp does
      rfl
    | none =>
      rcases eq_or_ne opTag .MAP with rfl | map
      · obtain ⟨aligned,few⟩ := low (by decide)
        have ints : pageSizeByte = 4 * 1024 := rfl
        have small : cpuTCB.sgInfo.pageBlkCnt < 2^20 := by omega
        rw [does_map.mp does]
        exact map_untouched ints (by decide) small aligned before.host before.mram d outside
      rcases eq_or_ne opTag .REDUCE with rfl | reduce
      · rw [does_reduce.mp does]
      · rw [(does_idle loop map reduce).mp does]
  | execDPU opTag dpuTCB =>
    cases program : dpuKernel opTag with
    | some kernel =>
      rw [Fills,program] at outside
      obtain ⟨counted,apart⟩ := not_or.mp (not_and.mp outside rfl)
      have launches := ((does_launch program).mp does).2
      exact launch_untouched program (Nat.pos_of_ne_zero counted) low (launches d dpu) apart
    | none =>
      rw [Does,OperatorManager.execDPU,program] at does
      rw [does]

/-- No call fails, whatever the platform holds. -/
theorem exists_does (low : call.Low) (before : Platform) : ∃ after, call.Does before after := by
  cases call with
  | execCPU opTag cpuTCB =>
    cases loop : cpuBody opTag with
    | some body =>
      obtain ⟨result,executed⟩ := body.exec_total cpuTCB.pageBlkCnt
        (window before.host (cpuTCB.src1PageBase / 4)) (window before.host (cpuTCB.src2PageBase / 4))
        (window before.host (cpuTCB.dstPageBase / 4))
      exact ⟨_,(does_loop loop).mpr ⟨_,Option.map_eq_some_iff.mpr ⟨result,executed,rfl⟩,rfl⟩⟩
    | none =>
      rcases eq_or_ne opTag .MAP with rfl | map
      · exact ⟨_,does_map.mpr rfl⟩
      rcases eq_or_ne opTag .REDUCE with rfl | reduce
      · exact ⟨_,does_reduce.mpr rfl⟩
      · exact ⟨_,(does_idle loop map reduce).mpr rfl⟩
  | execDPU opTag dpuTCB =>
    cases program : dpuKernel opTag with
    | some kernel =>
      have each (d : Nat) : ∃ after, Launch kernel dpuTCB (before.mram d) after :=
        (finishes kernel low (before.mram d)).launch
      choose mram launches using each
      exact ⟨⟨before.host,mram⟩,(does_launch program).mpr ⟨rfl,fun d _ => launches d⟩⟩
    | none => exact ⟨before,by rw [Does,OperatorManager.execDPU,program]⟩

end Kept
end Call

/-- A loop that leaves the ints alone that its function does not settle. -/
def Body.Leaves (f : ChunkFunction) : Body → Prop
  | .perItem _ => ∀ i, f.settled i
  | .perChunk kernel => ∀ itemNum src1 src2 dst i, ¬ f.settled i → kernel itemNum src1 src2 dst i = dst i

section Reads
variable {opTag : OperatorTag} {f : ChunkFunction} {body : Body} {n : Nat}

theorem cpuBody_leaves (function : chunkFunction opTag = some f) (loop : cpuBody opTag = some body) :
    body.Leaves f := by
  have update (g : Ints → Nat → BitVec 32) (dst : Ints) {i : Nat} (later : ¬ i = 0) :
      (List.range pageItemNum).foldl (fun mem i => Function.update mem 0 (g mem i))
        (Function.update dst 0 0) i = dst i := by
    rw [foldl_untouched]
    · exact Function.update_of_ne later ..
    · exact fun _ _ mem => Function.update_of_ne later ..
  cases opTag <;> cases function <;> cases loop
  case ELEW_ADD => exact fun _ => trivial
  case ELEW_PROD => exact fun _ => trivial
  case AFFINE => exact fun _ => trivial
  case CONV_1D => exact fun _ _ _ _ _ unsettled => absurd trivial unsettled
  case MAC => exact fun _ _ _ dst _ later => update _ dst later
  case EUDIST => exact fun _ _ _ dst _ later => update _ dst later
  case LOOKUP =>
    intro _ _ _ dst i later
    simp only
    rw [foldl_untouched]
    · exact Function.update_of_ne later ..
    · intro _ _ mem
      split
      · exact Function.update_of_ne later ..
      · rfl

theorem Body.exec_unsettled (leaves : body.Leaves f) {src1 src2 dst result : Ints}
    (executed : body.exec n src1 src2 dst = some result) {x : Nat} (unsettled : ¬ f.settled (x % pageItemNum)) :
    result x = dst x := by
  cases body with
  | perItem g => exact absurd (leaves _) unsettled
  | perChunk kernel =>
    rw [Body.exec,chunkOffsets_eq,Option.map_some,Option.some.injEq,List.foldl_map] at executed
    rw [← executed]
    apply foldl_untouched
    intro chunk _ mem
    rw [Body.chunkTurn]
    have start : chunk * dpuDmaBffrByte / 4 = pageItemNum * chunk := by
      simp only [dpuDmaBffrByte,pageItemNum]
      omega
    rw [start]
    rcases Decidable.em (Inside (pageItemNum * chunk) pageItemNum x) with hit | miss
    · obtain ⟨above,below⟩ := hit
      have item : x - pageItemNum * chunk = x % pageItemNum := by
        simp only [pageItemNum,dpuDmaBffrByte] at above below ⊢
        omega
      rw [overwrite_inside ⟨above,below⟩,item,leaves _ _ _ _ _ unsettled,window_apply,← item,
        Nat.add_sub_cancel' above]
    · exact overwrite_outside miss

theorem itemNum_chunks (n : Nat) : itemNum n % pageItemNum = 0 := by
  have whole := maxOffset_eq n
  simp only [maxOffset,dpuDmaBffrByte] at whole
  simp only [itemNum,pageItemNum,dpuDmaBffrByte]
  omega

/-- What a loop leaves in an int depends on the int, or not even on that at the first of a chunk,
and on the sources up to seven ints behind their end. -/
theorem Body.exec_agrees (loop : cpuBody opTag = some body) {src1 src2 dst other1 other2 others : Ints}
    (same1 : ∀ x < itemNum n + 7, src1 x = other1 x) (same2 : ∀ x < itemNum n + 7, src2 x = other2 x)
    {result written : Ints} (executed : body.exec n src1 src2 dst = some result)
    (again : body.exec n other1 other2 others = some written) {x : Nat}
    (start : x < itemNum n ∧ x % pageItemNum = 0 ∨ dst x = others x) : result x = written x := by
  rcases Nat.lt_or_ge x (itemNum n) with inside | outside
  · have place : pageItemNum * (x / pageItemNum) + x % pageItemNum = x := Nat.div_add_mod _ _
    have item : x % pageItemNum < pageItemNum := Nat.mod_lt _ (by decide)
    have chunk (i : Nat) (within : i < pageItemNum) : pageItemNum * (x / pageItemNum) + i < itemNum n := by
      have whole := itemNum_chunks n
      simp only [pageItemNum,dpuDmaBffrByte] at within whole ⊢
      omega
    cases function : chunkFunction opTag with
    | some f =>
      rcases Classical.em (f.settled (x % pageItemNum)) with settles | unsettled
      · have settled {s1 s2 d r : Ints} (ran : body.exec n s1 s2 d = some r) :
            r x = f.value (window s1 (pageItemNum * (x / pageItemNum)))
              (window s2 (pageItemNum * (x / pageItemNum))) (x % pageItemNum) := by
          obtain ⟨_,same,values⟩ := Body.exec_apply (cpuBody_computes function loop) n s1 s2 d
          obtain rfl := Option.some.inj (ran.symm.trans same)
          have value := values _ _ item settles (chunk _ item)
          rwa [place] at value
        rw [settled executed,settled again]
        apply f.confined _ _ _ _ _ _ _ item
        · exact fun i within => same1 _ ((chunk i within).trans (Nat.lt_add_of_pos_right (by decide)))
        · exact fun i within => same2 _ ((chunk i within).trans (Nat.lt_add_of_pos_right (by decide)))
      · have leaves := cpuBody_leaves function loop
        rw [Body.exec_unsettled leaves executed unsettled,Body.exec_unsettled leaves again unsettled]
        refine start.resolve_left fun first => unsettled ?_
        rw [first.2]
        cases opTag <;> cases function <;> first | exact rfl | trivial
    | none =>
      obtain rfl : opTag = .FILTER := by cases opTag <;> first | cases loop; done | cases function; done | rfl
      cases loop
      have filtered {s1 s2 d r : Ints} (ran : OperatorFILTER.body.exec n s1 s2 d = some r) :
          r x = OperatorFILTER.filterAt (itemNum n) (window s1 (pageItemNum * (x / pageItemNum)))
            (x % pageItemNum) := by
        obtain ⟨_,same,values⟩ := OperatorFILTER.execCPU_apply n s1 s2 d
        obtain rfl := Option.some.inj (ran.symm.trans same)
        have value := values _ _ item (chunk _ item)
        rwa [place] at value
      rw [filtered executed,filtered again]
      apply OperatorFILTER.filterAt_congr
      intro index member
      obtain ⟨⟨j,counted,rfl⟩,-⟩ := OperatorFILTER.mem_readsAt.mp member
      simp only [OperatorFILTER.kernelSize] at counted
      exact same1 _ (by omega)
  · rw [Body.exec_outside executed outside,Body.exec_outside again outside]
    exact start.resolve_left fun first => absurd first.1 outside.not_gt

end Reads
end MetaPB.Operator

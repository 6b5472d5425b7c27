import MetaPB.Executor.TransferPlan

/-! Mapped blocks against the blocks a successor computes on. Transfers are cut down to
whole MiB before they are rounded up to page blocks, the DPU's share is only rounded up,
so a successor can be given a block more than is ever mapped for it. -/
namespace MetaPB.Executor
open Operator Lib.Word

/-- Blocks on the DPU at the second ratio beyond those at the first. -/
def missingBlocks (first second : ℚ) (inputSizeMiB : Nat) : Nat :=
  ⌈second * getNearestPageBlkCnt inputSizeMiB⌉₊ - ⌈first * getNearestPageBlkCnt inputSizeMiB⌉₊

/-- Whole MiB between a task's ratio and the greatest of its successors'. -/
def wholeMapMiB (offloadRatio omax : ℚ) (inputSizeMiB : Nat) : Nat :=
  ⌊max 0 (omax - offloadRatio) * inputSizeMiB⌋₊

/-- The bytes of the MiB, as many as `size_t` keeps, overfill one block less than the
count, in the block counter's first turn or a later one. -/
def Overfills (inputSizeMiB count : Nat) : Prop :=
  let bytes := inputSizeMiB % 2^44 * 2^20
  bytes + pageBlkSize ≤ 2^64 ∧ ∃ turns, (count + turns * 2^32 - 1) * pageBlkSize < bytes ∧
    bytes ≤ ((turns + 1) * 2^32 - 1) * pageBlkSize

theorem le_getNearestPageBlkCnt_iff {inputSizeMiB count : Nat} (positive : 0 < count) :
    count ≤ getNearestPageBlkCnt inputSizeMiB ↔ Overfills inputSizeMiB count := by
  have block : 0 < pageBlkSize := by decide
  have kept : wrap64 (inputSizeMiB * 2^20) = inputSizeMiB % 2^44 * 2^20 := by
    rw [wrap64,← Nat.mul_mod_mul_right,← pow_add]
  unfold getNearestPageBlkCnt Overfills
  rw [kept]
  set bytes := inputSizeMiB % 2^44 * 2^20 with multiple
  rcases Nat.lt_or_ge (2^64) (bytes + pageBlkSize) with above | below
  · have wrapped : wrap64 (bytes + pageBlkSize - 1) / pageBlkSize = 0 := by
      apply Nat.div_eq_of_lt
      simp only [wrap64,pageBlkSize,dpuNum,pageSizeByte] at above ⊢
      omega
    rw [wrapped]
    exact iff_of_false (by simpa [wrap32] using positive.ne') fun both => both.1.not_gt above
  · have unwrapped : wrap64 (bytes + pageBlkSize - 1) = bytes + pageBlkSize - 1 :=
      wrap64_of_lt (by omega)
    rw [unwrapped,wrap32,le_mod_iff (by norm_num),and_iff_right below]
    refine exists_congr fun turns => and_congr (le_roundUp_iff block (by omega)) ?_
    have next : (turns + 1) * 2^32 ≤ (bytes + pageBlkSize - 1) / pageBlkSize ↔
        ((turns + 1) * 2^32 - 1) * pageBlkSize < bytes := le_roundUp_iff block (by omega)
    omega

section Plan
variable {g : TaskGraph} {sched : Schedule} {i j : Nat} {omax : ℚ}

/-- What is mapped covers what the successor computes on beyond the task's own blocks
exactly when it has no more blocks, or the mapped MiB overfill one block less. -/
theorem mapPageBlkCnt_covers_iff (g : TaskGraph) (sched : Schedule) (i j : Nat) (omax : ℚ)
    (lazy : sched.isAlwaysWrittingBack = false) (linked : g.Linked (sched.taskAt i) (sched.taskAt j))
    (sizes : (g.properties (sched.taskAt j)).inputSizeMiB = (g.properties (sched.taskAt i)).inputSizeMiB)
    (consistent : sched.ratioAt (sched.taskAt j) = sched.ratioAt j)
    (own : 0 ≤ sched.ratioAt i ∧ sched.ratioAt i ≤ 1)
    (successor : 0 ≤ sched.ratioAt j ∧ sched.ratioAt j ≤ 1)
    (greatest : IsGreatest {ratio | ratio ∈ successorRatios g sched i} omax) :
    let inputSizeMiB := (g.properties (sched.taskAt i)).inputSizeMiB
    let missing := missingBlocks (sched.ratioAt i) (sched.ratioAt j) inputSizeMiB
    (planTask g sched j).dpuPageBlkCnt - (planTask g sched i).dpuPageBlkCnt ≤
        (planTask g sched i).mapPageBlkCnt ↔
      missing = 0 ∨ Overfills (wholeMapMiB (sched.ratioAt i) omax inputSizeMiB) missing := by
  intro inputSizeMiB missing
  have read : sched.ratioAt j ∈ successorRatios g sched i := by
    apply List.mem_map.mpr
    exact ⟨_,(mem_succOffloadRatio i _ _).mpr ⟨linked,consistent.symm⟩,rfl⟩
  have nonneg : 0 ≤ omax := successor.1.trans (greatest.2 read)
  have total : (planTask g sched j).totalPageBlkCnt = getNearestPageBlkCnt inputSizeMiB :=
    congrArg getNearestPageBlkCnt sizes
  have onDPU : (planTask g sched j).dpuPageBlkCnt - (planTask g sched i).dpuPageBlkCnt = missing := by
    rw [(planTask_split successor).2,(planTask_split own).2,total]
    rfl
  have mapped : (planTask g sched i).mapPageBlkCnt =
      getNearestPageBlkCnt (truncate64 (max 0 (omax - sched.ratioAt i) * inputSizeMiB)) :=
    congrArg getNearestPageBlkCnt (planTask_mapWorkMiB lazy nonneg greatest)
  rw [onDPU,mapped]
  rcases Nat.eq_zero_or_pos missing with zero | positive
  · simp [zero]
  · rw [le_getNearestPageBlkCnt_iff positive,or_iff_right positive.ne']
    have kept : truncate64 (max 0 (omax - sched.ratioAt i) * inputSizeMiB) % 2^44 =
        wholeMapMiB (sched.ratioAt i) omax inputSizeMiB % 2^44 := by
      rw [truncate64,wrap64,Nat.mod_mod_of_dvd _ (by norm_num)]
      rfl
    rw [Overfills,Overfills,kept]

end Plan

/-- Below the block counter's range the condition is one comparison of bytes. -/
theorem overfills_iff {inputSizeMiB count : Nat} (positive : 0 < count)
    (fits : inputSizeMiB * 2^20 ≤ (2^32 - 1) * pageBlkSize) :
    Overfills inputSizeMiB count ↔ (count - 1) * pageBlkSize < inputSizeMiB * 2^20 := by
  rw [← le_getNearestPageBlkCnt_iff positive,getNearestPageBlkCnt_eq fits]
  exact le_roundUp_iff (by decide) positive

section Pair

/-- Two tasks of 100 MiB, the second over the output of the first. -/
def macPair : TaskGraph :=
  ⟨[⟨.MAC,.MemoryBound,100⟩,⟨.MAC,.MemoryBound,100⟩],[⟨0,1,1⟩],by decide⟩

theorem macPair_greatest (first second : ℚ) :
    IsGreatest {ratio | ratio ∈ successorRatios macPair ⟨false,[0,1],[first,second]⟩ 0} second := by
  have only : successorRatios macPair ⟨false,[0,1],[first,second]⟩ 0 = [second] := rfl
  simp [only]

theorem mapPageBlkCnt_covers_macPair :
    (planTask macPair ⟨false,[0,1],[0,1]⟩ 1).dpuPageBlkCnt -
        (planTask macPair ⟨false,[0,1],[0,1]⟩ 0).dpuPageBlkCnt ≤
      (planTask macPair ⟨false,[0,1],[0,1]⟩ 0).mapPageBlkCnt := by
  have ends : Schedule.ratioAt ⟨false,[0,1],[0,1]⟩ 0 = 0 ∧ Schedule.ratioAt ⟨false,[0,1],[0,1]⟩ 1 = 1 :=
    ⟨rfl,rfl⟩
  apply (mapPageBlkCnt_covers_iff macPair ⟨false,[0,1],[0,1]⟩ 0 1 1 rfl (by decide) rfl rfl
    (by norm_num [ends]) (by norm_num [ends]) (macPair_greatest 0 1)).mpr
  have missing : missingBlocks 0 1 100 = 11 := by decide +kernel
  have mapped : wholeMapMiB 0 1 100 = 100 := by decide +kernel
  have overfull : Overfills (wholeMapMiB 0 1 100) (missingBlocks 0 1 100) := by
    rw [missing,mapped]
    exact (overfills_iff (by norm_num) (by decide +kernel)).mpr (by decide +kernel)
  exact Or.inr overfull

/-- The second task has a block on the DPU, for which half a MiB would be mapped. -/
theorem mapPageBlkCnt_short : ¬ ∀ (g : TaskGraph) (sched : Schedule) (i j : Nat),
    sched.isAlwaysWrittingBack = false → g.Linked (sched.taskAt i) (sched.taskAt j) →
      (g.properties (sched.taskAt i)).op ≠ .LOGIC_START ∧ (g.properties (sched.taskAt i)).op ≠ .LOGIC_END →
      (g.properties (sched.taskAt j)).op ≠ .LOGIC_START ∧ (g.properties (sched.taskAt j)).op ≠ .LOGIC_END →
      (g.properties (sched.taskAt j)).inputSizeMiB = (g.properties (sched.taskAt i)).inputSizeMiB →
      sched.ratioAt (sched.taskAt i) = sched.ratioAt i → sched.ratioAt (sched.taskAt j) = sched.ratioAt j →
      0 ≤ sched.ratioAt i ∧ sched.ratioAt i ≤ 1 → 0 ≤ sched.ratioAt j ∧ sched.ratioAt j ≤ 1 →
      (planTask g sched j).dpuPageBlkCnt - (planTask g sched i).dpuPageBlkCnt ≤
        (planTask g sched i).mapPageBlkCnt := by
  intro always
  have covered := always macPair ⟨false,[0,1],[0,1/200]⟩ 0 1 rfl (by decide) (by decide) (by decide) rfl rfl
    rfl (by decide +kernel) (by decide +kernel)
  revert covered
  decide +kernel

end Pair
end MetaPB.Executor

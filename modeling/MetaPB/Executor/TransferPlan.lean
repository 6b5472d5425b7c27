import MetaPB.Executor.ParseGraph
import MetaPB.Lib.Best
import Mathlib.Tactic.Linarith

/-! Transfers planned without forced write-back, against the least and the greatest ratio
among a task's successors. The three branches of `parseGraph` plan what each direction
lacks, except that nothing is reduced for a task at its greatest successor ratio. -/
namespace MetaPB.Executor
open Operator Lib.Best Lib.Word

/-- The ratios read for the successors of the task at a position. -/
def successorRatios (g : TaskGraph) (sched : Schedule) (i : Nat) : List ℚ :=
  (planTask g sched i).succOffloadRatio.map (·.2)

/-- The planned work is the share of the workload on the wrong side, in whole MiB; a successor
that needs a whole MiB on the CPU side is always given reduce work. -/
def PlansLack (g : TaskGraph) (sched : Schedule) (i : Nat) (omin omax : ℚ) : Prop :=
  let plan := planTask g sched i
  let inputSizeMiB := (g.properties (sched.taskAt i)).inputSizeMiB
  plan.reduceWorkMiB = ⌊max 0 (sched.ratioAt i - omin) * inputSizeMiB⌋₊ ∧
    plan.mapWorkMiB = ⌊max 0 (omax - sched.ratioAt i) * inputSizeMiB⌋₊ ∧
    ∀ ratio ∈ successorRatios g sched i, 1 ≤ (sched.ratioAt i - ratio) * inputSizeMiB →
      plan.reduceWorkMiB ≠ 0

theorem floor_share_le {share : ℚ} (inputSizeMiB : Nat) (few : share ≤ 1) :
    ⌊share * inputSizeMiB⌋₊ ≤ inputSizeMiB := by
  apply Nat.floor_le_of_le
  exact mul_le_of_le_one_left (Nat.cast_nonneg _) few

theorem truncate64_of_share {share : ℚ} {inputSizeMiB : Nat} (size : inputSizeMiB < 2^64)
    (few : share ≤ 1) : truncate64 (share * inputSizeMiB) = ⌊share * inputSizeMiB⌋₊ :=
  wrap64_of_lt ((floor_share_le inputSizeMiB few).trans_lt size)

theorem truncate64_zero_mul (inputSizeMiB : Nat) : truncate64 (0 * inputSizeMiB) = 0 := by
  simp [truncate64,wrap64]

theorem transferWork_lazy_map (offloadRatio omax omin : ℚ) (inputSizeMiB : Nat) :
    (transferWork false offloadRatio omax omin inputSizeMiB).2 =
      truncate64 (max 0 (omax - offloadRatio) * inputSizeMiB) := by
  unfold transferWork
  rw [if_neg Bool.false_ne_true]
  split
  next above => rw [max_eq_left (by linarith),truncate64_zero_mul]
  next below =>
    rw [max_eq_right (by linarith)]
    split <;> rfl

/-- The reduce work is missing exactly at `omax`. -/
theorem transferWork_lazy_reduce {offloadRatio omax omin : ℚ} (inputSizeMiB : Nat) (order : omin ≤ omax) :
    (transferWork false offloadRatio omax omin inputSizeMiB).1 =
      if offloadRatio = omax then 0 else truncate64 (max 0 (offloadRatio - omin) * inputSizeMiB) := by
  unfold transferWork
  rw [if_neg Bool.false_ne_true]
  rcases lt_trichotomy offloadRatio omax with below | rfl | above
  · rw [if_neg below.not_gt,if_neg below.ne]
    rcases lt_or_ge omin offloadRatio with inside | outside
    · rw [if_pos ⟨inside,below⟩,max_eq_right (by linarith)]
    · rw [if_neg fun both => outside.not_gt both.1,max_eq_left (by linarith),truncate64_zero_mul]
  · simp
  · rw [if_pos above,if_neg above.ne',max_eq_right (by linarith)]

theorem transferWork_lazy {offloadRatio omax omin : ℚ} (inputSizeMiB : Nat) (order : omin ≤ omax) :
    transferWork false offloadRatio omax omin inputSizeMiB =
      (if offloadRatio = omax then 0 else truncate64 (max 0 (offloadRatio - omin) * inputSizeMiB),
        truncate64 (max 0 (omax - offloadRatio) * inputSizeMiB)) := by
  ext
  · exact transferWork_lazy_reduce inputSizeMiB order
  · exact transferWork_lazy_map offloadRatio omax omin inputSizeMiB

theorem succBounds_greatest {ratios : List ℚ} {omax : ℚ} (nonneg : 0 ≤ omax)
    (greatest : IsGreatest {ratio | ratio ∈ ratios} omax) : (succBounds ratios).1 = omax := by
  rw [succBounds,if_neg (by simpa using List.ne_nil_of_mem greatest.1)]
  obtain ⟨-,each⟩ := foldl_le_max ratios 0
  apply le_antisymm _ (each omax greatest.1)
  rcases foldl_max_attained ratios 0 with start | attained
  · exact start.trans_le nonneg
  · exact greatest.2 attained

theorem succBounds_extremes {ratios : List ℚ} (filled : ratios ≠ [])
    (within : ∀ ratio ∈ ratios, 0 ≤ ratio ∧ ratio ≤ 1) :
    IsGreatest {ratio | ratio ∈ ratios} (succBounds ratios).1 ∧
      IsLeast {ratio | ratio ∈ ratios} (succBounds ratios).2 := by
  rw [succBounds,if_neg (by simpa using filled)]
  exact ⟨foldl_max_isGreatest filled fun ratio member => (within ratio member).1,
    foldl_min_isLeast filled fun ratio member => (within ratio member).2⟩

section Plan
variable {g : TaskGraph} {sched : Schedule} {i : Nat} {omin omax : ℚ}

/-- Only the greatest of the successors' ratios decides what is mapped. -/
theorem planTask_mapWorkMiB (lazy : sched.isAlwaysWrittingBack = false) (nonneg : 0 ≤ omax)
    (greatest : IsGreatest {ratio | ratio ∈ successorRatios g sched i} omax) :
    (planTask g sched i).mapWorkMiB = truncate64 (max 0 (omax - sched.ratioAt i) *
      (g.properties (sched.taskAt i)).inputSizeMiB) := by
  have planned : (planTask g sched i).mapWorkMiB = (transferWork sched.isAlwaysWrittingBack
      (sched.ratioAt i) (succBounds (successorRatios g sched i)).1
      (succBounds (successorRatios g sched i)).2 (g.properties (sched.taskAt i)).inputSizeMiB).2 := rfl
  rw [planned,lazy,transferWork_lazy_map,succBounds_greatest nonneg greatest]

theorem planTask_lazy (lazy : sched.isAlwaysWrittingBack = false)
    (within : ∀ ratio ∈ successorRatios g sched i, 0 ≤ ratio ∧ ratio ≤ 1)
    (least : IsLeast {ratio | ratio ∈ successorRatios g sched i} omin)
    (greatest : IsGreatest {ratio | ratio ∈ successorRatios g sched i} omax) :
    let plan := planTask g sched i
    (plan.reduceWorkMiB,plan.mapWorkMiB) = transferWork false (sched.ratioAt i) omax omin
      (g.properties (sched.taskAt i)).inputSizeMiB := by
  intro plan
  obtain ⟨most,fewest⟩ := succBounds_extremes (List.ne_nil_of_mem least.1) within
  rw [least.unique fewest,greatest.unique most,← lazy]
  rfl

/-- Without forced write-back a task is planned what it lacks exactly when its own ratio is
not the greatest of its successors', or these lie within one MiB of its workload. -/
theorem plansLack_iff (lazy : sched.isAlwaysWrittingBack = false)
    (size : (g.properties (sched.taskAt i)).inputSizeMiB < 2^64)
    (own : 0 ≤ sched.ratioAt i ∧ sched.ratioAt i ≤ 1)
    (within : ∀ ratio ∈ successorRatios g sched i, 0 ≤ ratio ∧ ratio ≤ 1)
    (least : IsLeast {ratio | ratio ∈ successorRatios g sched i} omin)
    (greatest : IsGreatest {ratio | ratio ∈ successorRatios g sched i} omax) :
    PlansLack g sched i omin omax ↔ ¬ (sched.ratioAt i = omax ∧
      1 ≤ (omax - omin) * (g.properties (sched.taskAt i)).inputSizeMiB) := by
  have order : omin ≤ omax := least.2 greatest.1
  have planned := planTask_lazy lazy within least greatest
  rw [transferWork_lazy _ order] at planned
  obtain ⟨reduced,mapped⟩ := Prod.mk.inj planned
  have low := within omin least.1
  have high := within omax greatest.1
  rw [truncate64_of_share size (max_le zero_le_one (by linarith))] at mapped
  constructor
  · intro plans bug
    obtain ⟨top,spread⟩ := bug
    obtain ⟨lack,-,-⟩ := plans
    rw [reduced,if_pos top,top,max_eq_right (by linarith)] at lack
    exact absurd (Nat.floor_eq_zero.mp lack.symm) spread.not_gt
  · intro apart
    have reduce : (planTask g sched i).reduceWorkMiB = ⌊max 0 (sched.ratioAt i - omin) *
        ((g.properties (sched.taskAt i)).inputSizeMiB : ℚ)⌋₊ := by
      rw [reduced]
      split
      next top =>
        have close := lt_of_not_ge fun spread => apart ⟨top,spread⟩
        rw [top,max_eq_right (by linarith)]
        exact (Nat.floor_eq_zero.mpr close).symm
      next => exact truncate64_of_share size (max_le zero_le_one (by linarith))
    refine ⟨reduce,mapped,?_⟩
    intro ratio member needs
    rw [reduce]
    apply (Nat.floor_pos.mpr _).ne'
    have further : sched.ratioAt i - ratio ≤ max 0 (sched.ratioAt i - omin) :=
      le_max_of_le_right (by linarith [least.2 member])
    exact needs.trans (mul_le_mul_of_nonneg_right further (Nat.cast_nonneg _))

end Plan

section Fork

/-- A task of 100 MiB with two successors. -/
def fork : TaskGraph := ⟨[⟨.MAC,.MemoryBound,100⟩,{},{}],[⟨0,1,1⟩,⟨0,2,1⟩],by decide⟩

private theorem fork_ratios (own : ℚ) :
    successorRatios fork ⟨false,[0,1,2],[own,1,0]⟩ 0 = [1,0] := rfl

private theorem fork_within (own : ℚ) :
    ∀ ratio ∈ successorRatios fork ⟨false,[0,1,2],[own,1,0]⟩ 0, 0 ≤ ratio ∧ ratio ≤ 1 := by
  intro ratio member
  rw [fork_ratios] at member
  rcases List.mem_cons.mp member with rfl | last
  · norm_num
  · rw [List.mem_singleton.mp last]
    norm_num

private theorem fork_least (own : ℚ) :
    IsLeast {ratio | ratio ∈ successorRatios fork ⟨false,[0,1,2],[own,1,0]⟩ 0} 0 :=
  ⟨by simp [fork_ratios],fun ratio member => (fork_within own ratio member).1⟩

private theorem fork_greatest (own : ℚ) :
    IsGreatest {ratio | ratio ∈ successorRatios fork ⟨false,[0,1,2],[own,1,0]⟩ 0} 1 :=
  ⟨by simp [fork_ratios],fun ratio member => (fork_within own ratio member).2⟩

theorem plansLack_iff_half : PlansLack fork ⟨false,[0,1,2],[1/2,1,0]⟩ 0 0 1 := by
  have half : Schedule.ratioAt ⟨false,[0,1,2],[1/2,1,0]⟩ 0 = 1/2 := rfl
  apply (plansLack_iff rfl (by decide) (by rw [half]; norm_num) (fork_within _) (fork_least _)
    (fork_greatest _)).mpr
  intro bug
  rw [half] at bug
  norm_num at bug

/-- A task on the DPU with one successor on each side: nothing is reduced for the one on the CPU. -/
theorem plansLack_fails : ¬ ∀ (g : TaskGraph) (sched : Schedule) (i : Nat) (omin omax : ℚ),
    sched.isAlwaysWrittingBack = false → (g.properties (sched.taskAt i)).inputSizeMiB < 2^64 →
      0 ≤ sched.ratioAt i ∧ sched.ratioAt i ≤ 1 →
      (∀ ratio ∈ successorRatios g sched i, 0 ≤ ratio ∧ ratio ≤ 1) →
      IsLeast {ratio | ratio ∈ successorRatios g sched i} omin →
      IsGreatest {ratio | ratio ∈ successorRatios g sched i} omax →
      PlansLack g sched i omin omax := by
  intro always
  let sched : Schedule := ⟨false,[0,1,2],[1,1,0]⟩
  have top : sched.ratioAt 0 = 1 := rfl
  obtain ⟨-,-,reduces⟩ := always fork sched 0 0 1 rfl (by decide) (by rw [top]; norm_num)
    (fork_within 1) (fork_least 1) (fork_greatest 1)
  have planned := planTask_lazy rfl (fork_within 1) (fork_least 1) (fork_greatest 1)
  rw [transferWork_lazy _ zero_le_one,if_pos top] at planned
  have size : (fork.properties (sched.taskAt 0)).inputSizeMiB = 100 := rfl
  refine reduces 0 (by simp [sched,fork_ratios]) ?_ (Prod.mk.inj planned).1
  rw [top,size]
  norm_num

end Fork
end MetaPB.Executor

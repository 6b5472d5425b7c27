import MetaPB.Operator.CacheStore

/-! What the cache costs a deduction. The interpolation is a weighted mean of two samples, so it
moves by no more than they do, and six decimals move a sample by half a unit of the last one. -/
namespace MetaPB.Operator
open Utils Lib.Decimal Lib.Transition

/-- Times and energies that are no further apart than this. -/
def Near (distance : ℚ) (stats other : PerfStats) : Prop :=
  |stats.timeCostSecond - other.timeCostSecond| ≤ distance ∧
    |stats.energyCostJoule - other.energyCostJoule| ≤ distance

theorem near_printed (stats : PerfStats) : Near (1/2 / 10^6) (printed stats) stats :=
  ⟨abs_rounded_sub_le 6 _,abs_rounded_sub_le 6 _⟩

section Interpolation
variable {samples other : PerfSamples} {upperBound pageBlkCnt : Nat} {distance : ℚ}

theorem mix_near {a b c d : ℚ} {part whole : Nat} (positive : 0 < whole) (inside : part ≤ whole)
    (left : |a - c| ≤ distance) (right : |b - d| ≤ distance) :
    |a + (b - a) * part / whole - (c + (d - c) * part / whole)| ≤ distance := by
  have wholePositive : (0 : ℚ) < whole := by exact_mod_cast positive
  have share : (0 : ℚ) ≤ part / whole := by positivity
  have rest : (0 : ℚ) ≤ 1 - part / whole := by
    rw [sub_nonneg,div_le_one wholePositive]
    exact_mod_cast inside
  have weighted : a + (b - a) * part / whole - (c + (d - c) * part / whole) =
      (1 - part / whole) * (a - c) + part / whole * (b - d) := by ring
  calc |a + (b - a) * part / whole - (c + (d - c) * part / whole)|
      ≤ |(1 - part / whole) * (a - c)| + |part / whole * (b - d)| := weighted ▸ abs_add_le _ _
    _ = (1 - part / whole) * |a - c| + part / whole * |b - d| := by
      rw [abs_mul,abs_mul,abs_of_nonneg rest,abs_of_nonneg share]
    _ ≤ (1 - part / whole) * distance + part / whole * distance :=
      add_le_add (mul_le_mul_of_nonneg_left left rest) (mul_le_mul_of_nonneg_left right share)
    _ = distance := by ring

/-- Deductions are as close as the samples they read. -/
theorem deducePerf_near {slots : List Nat} (reads : deduceSlots upperBound pageBlkCnt = some slots)
    (inside : ∀ slot ∈ slots, slot ≤ perfSamplePoint)
    (near : ∀ i : Fin (perfSamplePoint + 1), i.val ∈ slots → Near distance (samples i) (other i)) :
    ∃ stats rival, deducePerf samples upperBound pageBlkCnt = some stats ∧
      deducePerf other upperBound pageBlkCnt = some rival ∧ Near distance stats rival := by
  have alone {slot : Nat} (member : slot ∈ slots) : ∃ stats rival, samples.read slot = some stats ∧
      other.read slot = some rival ∧ Near distance stats rival := by
    have fits := Nat.lt_succ_of_le (inside slot member)
    exact ⟨_,_,samples.read_of_le (inside slot member),other.read_of_le (inside slot member),
      near ⟨slot,fits⟩ member⟩
  simp only [deduceSlots] at reads
  simp only [deducePerf]
  split at reads
  next zero =>
    cases Option.some.inj reads
    rw [if_pos zero,if_pos zero]
    exact alone (List.mem_singleton_self _)
  next counted =>
    rw [if_neg counted,if_neg counted]
    split at reads
    next above =>
      cases Option.some.inj reads
      rw [if_pos above,if_pos above]
      exact alone (List.mem_singleton_self _)
    next below =>
      rw [if_neg below,if_neg below]
      split at reads
      · contradiction
      next moving =>
        cases Option.some.inj reads
        rw [if_neg moving,if_neg moving]
        obtain ⟨y0,z0,first,first',nearFirst⟩ := alone List.mem_cons_self
        obtain ⟨y1,z1,second,second',nearSecond⟩ := alone (List.mem_cons_of_mem _ List.mem_cons_self)
        have positive := Nat.pos_of_ne_zero moving
        have split := Nat.div_add_mod' pageBlkCnt (upperBound / (perfSamplePoint - 1))
        have small := Nat.mod_lt pageBlkCnt positive
        rw [first,second,first',second',Nat.add_sub_cancel_left]
        refine ⟨_,_,rfl,rfl,?_,?_⟩
        · exact mix_near positive (by omega) nearFirst.1 nearSecond.1
        · exact mix_near positive (by omega) nearFirst.2 nearSecond.2

end Interpolation

def OperatorBase.deducePerfOn (op : OperatorBase) : Side → Nat → Option PerfStats
  | .cpu => op.deducePerfCPU
  | .dpu => op.deducePerfDPU

namespace Training
variable {texts : Texts} {kindOf : List Char → OperatorKind} {history : List Training}
  {t : Training} {trained : OperatorBase}

/-- Page counts that deduce from slots the training fills. -/
def Covers (t : Training) (pageBlkCnt : Nat) : Prop :=
  ∀ slots, deduceSlots t.pageBlkUpperBound pageBlkCnt = some slots → ∀ slot ∈ slots, slot < t.rows

theorem Sampled.deduceSlots (sampled : Sampled t) (pageBlkCnt : Nat) :
    ∃ slots, deduceSlots t.pageBlkUpperBound pageBlkCnt = some slots := by
  apply Option.ne_none_iff_exists'.mp
  intro divided
  obtain ⟨-,-,still⟩ := deduceSlots_eq_none.mp divided
  have moving := Nat.div_pos sampled.large (by decide : 0 < 15)
  omega

/-- The samples of one side after a training, over the slots it fills. -/
theorem Obtains.slot (obtains : Obtains texts kindOf history t trained) {side : Side}
    (sampling : (kindOf t.getName).samples side = true) :
    ∃ samples : PerfSamples, (∀ pageBlkCnt, trained.deducePerfOn side pageBlkCnt =
        deducePerf samples t.pageBlkUpperBound pageBlkCnt) ∧
      ∀ i : Fin (perfSamplePoint + 1), i.val < filled texts kindOf history t →
        samples i = t.obtained texts kindOf history side i := by
  cases side with
  | cpu =>
    refine ⟨trained.cpuPerfSamples,fun pageBlkCnt => ?_,obtains.cpu sampling⟩
    rw [OperatorBase.deducePerfOn,OperatorBase.deducePerfCPU,obtains.bound]
  | dpu =>
    obtain ⟨trainable,dual⟩ := (Bool.and_eq_true _ _).mp sampling
    refine ⟨trained.dpuPerfSamples,fun pageBlkCnt => ?_,obtains.dpu trainable (by simpa using dual)⟩
    rw [OperatorBase.deducePerfOn,OperatorBase.deducePerfDPU,obtains.bound]

section Runs
variable {opMap : List Char → OperatorBase} {before between : List Training} {first : Training}
  {w probed later reloaded : Workshop}

/-- An operator that was trained from the files deduces, at every page count the files cover, within
half a millionth of what the operator that measured them deduces, whatever was trained between. -/
theorem run_deduces_near (plain : texts.Plain)
    (ran : run (step texts kindOf) { opMap := opMap } before = some w)
    (fresh : firstAt texts kindOf before (first.modelTagPostfix texts) = none)
    (probing : step texts kindOf w first = some probed)
    (resumed : run (step texts kindOf) probed between = some later)
    (again : step texts kindOf later t = some reloaded) (named : t.getName = first.getName)
    (bound : t.pageBlkUpperBound = first.pageBlkUpperBound) (side : Side)
    (sampling : (kindOf first.getName).samples side = true) (pageBlkCnt : Nat)
    (covers : first.Covers pageBlkCnt) :
    ∃ stats rival, (reloaded.opMap t.getName).deducePerfOn side pageBlkCnt = some stats ∧
      (probed.opMap first.getName).deducePerfOn side pageBlkCnt = some rival ∧
        Near (1/2 / 10^6) stats rival := by
  have trainable : (kindOf first.getName).isTrainable = true := by
    cases side with
    | cpu => exact sampling
    | dpu => exact ((Bool.and_eq_true _ _).mp sampling).1
  have key : t.modelTagPostfix texts = first.modelTagPostfix texts := by
    rw [modelTagPostfix,modelTagPostfix,named,bound]
  have reached : run (step texts kindOf) { opMap := opMap } ((before ++ [first]) ++ between) = some later :=
    (run_append _ _ _ _ _).mpr ⟨probed,(run_snoc _ _ _ _ _).mpr ⟨w,ran,probing⟩,resumed⟩
  have found : firstAt texts kindOf ((before ++ [first]) ++ between) (t.modelTagPostfix texts) =
      some first := by
    rw [key,firstAt,List.find?_append]
    change (firstAt texts kindOf (before ++ [first]) (first.modelTagPostfix texts)).or _ = some first
    rw [firstAt_snoc,fresh,if_pos ⟨trainable,rfl⟩]
    rfl
  have kept := run_kept plain ran
  have sampled := (step_returns_iff kept plain first).mp ⟨probed,probing⟩ trainable fresh
  have measuring : Obtains texts kindOf before first (probed.opMap first.getName) := by
    obtain ⟨result,trains,rfl⟩ := Option.map_eq_some_iff.mp probing
    simpa using (kept.trainModel plain trains).2
  have loading : Obtains texts kindOf ((before ++ [first]) ++ between) t (reloaded.opMap t.getName) := by
    obtain ⟨result,trains,rfl⟩ := Option.map_eq_some_iff.mp again
    simpa using ((run_kept plain reached).trainModel plain trains).2
  obtain ⟨samples,deduces,slots⟩ := loading.slot (named ▸ sampling)
  obtain ⟨others,deduces',slots'⟩ := measuring.slot sampling
  obtain ⟨reads,listed⟩ := sampled.deduceSlots pageBlkCnt
  rw [deduces,deduces',bound]
  apply deducePerf_near listed
  · intro slot member
    exact Nat.le_of_lt_succ ((covers reads listed slot member).trans_le sampled.few)
  · intro i member
    have inside := covers reads listed i member
    rw [slots i (by rwa [filled,found]),slots' i (by rwa [filled,fresh]),obtained,obtained,found,fresh]
    exact near_printed _

theorem run_deduces_near_thirds : ∃ probed reloaded stats rival,
    run (step ⟨sizeText,sizeText⟩ fun _ => ⟨true,false⟩) {} [thirds false (1/3),thirds true 7] =
      some reloaded ∧
    step ⟨sizeText,sizeText⟩ (fun _ => ⟨true,false⟩) {} (thirds false (1/3)) = some probed ∧
    (reloaded.opMap ['M','A','C']).deducePerfOn .dpu 5 = some stats ∧
    (probed.opMap ['M','A','C']).deducePerfOn .dpu 5 = some rival ∧ Near (1/2 / 10^6) stats rival := by
  let kindOf : List Char → OperatorKind := fun _ => ⟨true,false⟩
  have sampled (renewed : Bool) (timeCostSecond : ℚ) : Sampled (thirds renewed timeCostSecond) :=
    ⟨(by decide : 15 ≤ 16),(by decide : 16 / (16 / 15) + 1 ≤ 17),
      (by decide : (16 / (16 / 15) + 1) * (16 / 15) < 2^32)⟩
  have empty : run (step ⟨sizeText,sizeText⟩ kindOf) { opMap := fun _ => {} } [] = some {} := rfl
  obtain ⟨probed,probing⟩ := (step_returns_iff (run_kept plain_sizeText empty) plain_sizeText
    (thirds false (1/3))).mpr fun _ _ => sampled _ _
  have measured : run (step ⟨sizeText,sizeText⟩ kindOf) { opMap := fun _ => {} } [thirds false (1/3)] =
      some probed := (run_cons _ _ _ _ _).mpr ⟨probed,probing,rfl⟩
  obtain ⟨reloaded,again⟩ := (step_returns_iff (run_kept plain_sizeText measured) plain_sizeText
    (thirds true 7)).mpr fun _ _ => sampled _ _
  have covers : (thirds false (1/3)).Covers 5 := by
    intro slots listed slot member
    cases Option.some.inj listed
    revert slot
    decide
  have idle : run (step ⟨sizeText,sizeText⟩ kindOf) probed [] = some probed := rfl
  obtain ⟨stats,rival,answer,measuredAnswer,near⟩ := run_deduces_near plain_sizeText empty rfl probing idle
    again rfl rfl .dpu rfl 5 covers
  exact ⟨probed,reloaded,stats,rival,(run_snoc _ _ _ [thirds false (1/3)] _).mpr ⟨probed,measured,again⟩,
    probing,answer,measuredAnswer,near⟩

end Runs
end Training
end MetaPB.Operator

import MetaPB.Optimizer.Exploration

/-! Arithmetic search between symmetric limits. The scaled span of the limits is zero there,
so a proposal is zero or the best point's own coordinate, and no run ever reaches a value
that is not zero or one of the first frame. -/
namespace MetaPB.Optimizer
open Lib.Loop Lib.Best Coordinate

section Symmetric
variable {aType vType : Type} [LinearOrder aType] [Zero aType] [Add aType] [Coordinate aType]
  {c : Settings aType vType}

/-- The limits `-x` and `x` in every dimension. -/
def Settings.Symmetric (c : Settings aType vType) : Prop :=
  ∀ (d : Nat) low high, c.lowerLimits[d]? = some low → c.upperLimits[d]? = some high →
    toDouble high = -toDouble low

/-- Zero, or a coordinate some point of the first frame has in this dimension. -/
def Seen (firstFrm : List (List aType)) (d : Nat) (x : aType) : Prop :=
  x = 0 ∨ ∃ pt ∈ firstFrm, pt[d]? = some x

/-- All coordinates of a frame are known ones within the limits. -/
def Confined (c : Settings aType vType) (firstFrm frame : List (List aType)) : Prop :=
  ∀ pt ∈ frame, ∀ (d : Nat) x, pt[d]? = some x → Seen firstFrm d x ∧ c.Within d x

theorem adapt_zero : adapt 0 = (0 : aType) := by
  have same := adapt_toDouble (0 : aType)
  rwa [toDouble_zero] at same

theorem Settings.Symmetric.zero (symmetric : c.Symmetric) (limited : c.Limited) {d : Nat} (small : d < c.dimNum) :
    c.Within d 0 := by
  obtain ⟨low,high,lowAt,highAt,ordered⟩ := limited d small
  have opposite := symmetric d low high lowAt highAt
  have order := toDouble_strictMono.monotone ordered
  apply Settings.Within.of_limits lowAt highAt
  rw [← toDouble_strictMono.le_iff_le,← toDouble_strictMono.le_iff_le (a := 0),toDouble_zero]
  constructor <;> linarith

namespace AOA

theorem propose_symmetric (q : Quotient) (moa argMOP r1 r2 r3 gBest upper : ℚ) :
    propose q moa argMOP r1 r2 r3 gBest (-upper) upper = 0 ∨
      propose q moa argMOP r1 r2 r3 gBest (-upper) upper = gBest := by
  have space : (upper - -upper) * argMu + -upper = 0 := by
    rw [argMu]
    ring
  simp only [propose,space,mul_zero,sub_zero,add_zero]
  split
  · split <;> exact Or.inl rfl
  · split <;> exact Or.inr rfl

variable [LinearOrder vType] [Zero vType] {draws : Draws aType} {q : Quotient} {s : Search aType vType}

omit [LinearOrder vType] [Zero vType] in
theorem move_symmetric (symmetric : c.Symmetric) {ptIdx dimIdx : Nat} {newPt : List aType} {moved low high : aType}
    {m next : AOA aType vType} (lowAt : c.lowerLimits[dimIdx]? = some low)
    (highAt : c.upperLimits[dimIdx]? = some high)
    (ran : AOA.move c draws q s ptIdx dimIdx newPt m = some (moved,next)) :
    moved = 0 ∨ s.gBestPt[dimIdx]? = some moved := by
  simp only [AOA.move,highAt,lowAt,Option.bind_eq_bind,Option.bind_some] at ran
  obtain ⟨gBest,bestAt,same⟩ := Option.bind_eq_some_iff.mp ran
  have opposite : toDouble low = -toDouble high := by
    rw [symmetric dimIdx low high lowAt highAt,neg_neg]
  cases Option.some.inj same
  rw [opposite]
  rcases propose_symmetric q (1/5 + (m.currIterIdx : ℚ) * (4/5 / c.iterNum)) m.argMOP (draws.dist01 m.rng)
    (draws.dist01 (m.rng + 1)) (draws.dist01 (m.rng + 2)) (toDouble gBest) (toDouble high) with zero | best
  · rw [zero]
    exact Or.inl adapt_zero
  · rw [best,adapt_toDouble]
    exact Or.inr bestAt

omit [LinearOrder vType] [Zero vType] in
/-- From a best point with known coordinates within the limits, none but zero is added. -/
theorem exploration_confined (symmetric : c.Symmetric) (limited : c.Limited) {firstFrm newFrm : List (List aType)}
    {m next : AOA aType vType}
    (best : ∀ (d : Nat) x, s.gBestPt[d]? = some x → Seen firstFrm d x ∧ c.Within d x)
    (ran : AOA.exploration c draws q s m = some (newFrm,next)) : Confined c firstFrm newFrm := by
  have moves : ∀ ptIdx < c.pointNum, ∀ dimIdx < c.dimNum, ∀ start newPt m moved next low high,
      blankOrigin c s ptIdx = some start → newPt[dimIdx]? = start[dimIdx]? → True →
      AOA.move c draws q s ptIdx dimIdx newPt m = some (moved,next) → c.lowerLimits[dimIdx]? = some low →
      c.upperLimits[dimIdx]? = some high →
        (Seen firstFrm dimIdx (clamp low high moved) ∧ c.Within dimIdx (clamp low high moved)) ∧ True := by
    intro ptIdx _ dimIdx small start newPt m moved next low high _ _ _ called lowAt highAt
    have known : Seen firstFrm dimIdx moved ∧ c.Within dimIdx moved := by
      rcases move_symmetric symmetric lowAt highAt called with rfl | own
      · exact ⟨Or.inl rfl,symmetric.zero limited small⟩
      · exact best dimIdx moved own
    rw [clamp_of_within (known.2 low high lowAt highAt)]
    exact ⟨known,trivial⟩
  obtain ⟨-,-,points⟩ := exploreFrame_settled (fun _ => True)
    (fun _ d x => Seen firstFrm d x ∧ c.Within d x) trivial moves ran
  intro pt member d x listed
  obtain ⟨i,placed⟩ := List.mem_iff_getElem?.mp member
  obtain ⟨start,blank,settled⟩ := points i pt placed
  have size := settled.size.trans (blankOrigin_length blank)
  exact settled.done d (size ▸ (List.getElem?_eq_some_iff.mp listed).1) x listed

end AOA

variable [LinearOrder vType] [Zero vType] [NumericLimits vType]

/-- Between symmetric limits every coordinate of every frame is zero or one that some point of
the first frame has in the same dimension, after any number of turns. -/
theorem exec_seen (limited : c.Limited) (symmetric : c.Symmetric)
    (small : ∀ points, ∀ val ∈ c.evaluateFunc points, val < NumericLimits.max) (draws : Draws aType)
    (q : Quotient) (start s : Search aType vType) (own : AOA aType vType) (count : Nat)
    (made : construct c draws = some start) (within : count ≤ c.iterNum)
    (ran : turns c (AOA.derived c draws q) count (start,AOA.construct) = some (s,own)) :
    ∃ firstFrm, start.ptHistory = [firstFrm] ∧ ∀ frame ∈ s.ptHistory, ∀ pt ∈ frame, ∀ (d : Nat) x,
      pt[d]? = some x → x = 0 ∨ ∃ first ∈ firstFrm, first[d]? = some x := by
  obtain ⟨firstFrm,built,rfl⟩ := Option.map_eq_some_iff.mp made
  have box := firstFrame_inBox limited built
  have confined : ∀ frame ∈ s.ptHistory, Confined c firstFrm frame := by
    refine turns_explored small (fun _ s _ => ∀ frame ∈ s.ptHistory, Confined c firstFrm frame) ?_ ?_ within ran
    · intro frame member pt inFrame d x listed
      rw [List.mem_singleton.mp member] at inFrame
      exact ⟨Or.inr ⟨pt,inFrame,listed⟩,(box.inside pt inFrame).within d x listed⟩
    · intro count s m logged extracted frame result t own _ explored before
      rcases explored.ended with ⟨rfl,-⟩ | ⟨newFrm,moved,rfl⟩
      · rw [explored.points]
        exact before
      · obtain ⟨ptFrm,member,inFrame⟩ := explored.best.mem
        rw [explored.points]
        exact forall_mem_snoc before
          (AOA.exploration_confined symmetric limited (before ptFrm member _ inFrame) moved)
  refine ⟨firstFrm,rfl,fun frame member pt inFrame d x listed => ?_⟩
  exact (confined frame member pt inFrame d x listed).1

end Symmetric

/-- Ten points between -100 and 100, valued by their squared distance from 17 and at most 300. -/
def hundredSettings : Settings ℤ ℚ :=
  ⟨[-100],[100],1,10,3,List.map fun pt => min 300 (((pt.sum - 17)^2 : ℤ) : ℚ)⟩

theorem exec_seen_hundred :
    ∃ start s own, construct hundredSettings steadyDraws = some start ∧
      exec hundredSettings (AOA.derived hundredSettings steadyDraws ⟨(· / ·),fun _ _ _ => rfl⟩)
        (start,AOA.construct) = some (s,own) ∧
      ∃ firstFrm, start.ptHistory = [firstFrm] ∧ ∀ frame ∈ s.ptHistory, ∀ pt ∈ frame, ∀ (d : Nat) x,
        pt[d]? = some x → x = 0 ∨ ∃ first ∈ firstFrm, first[d]? = some x := by
  have bounds : hundredSettings.Limited := by
    intro d small
    cases Nat.lt_one_iff.mp small
    exact ⟨_,_,rfl,rfl,by norm_num⟩
  have symmetric : hundredSettings.Symmetric :=
    forall_singleton (by norm_num [toDouble])
  have limited : ∀ points, ∀ val ∈ hundredSettings.evaluateFunc points, val < NumericLimits.max := by
    intro points val member
    obtain ⟨pt,-,rfl⟩ := List.mem_map.mp member
    exact (min_le_left _ _).trans_lt (lt_max_of_lt (by norm_num))
  have built : (construct hundredSettings steadyDraws).isSome = true := by decide +kernel
  obtain ⟨start,made⟩ := Option.isSome_iff_exists.mp built
  have returns : ((construct hundredSettings steadyDraws).bind fun start => exec hundredSettings
      (AOA.derived hundredSettings steadyDraws ⟨(· / ·),fun _ _ _ => rfl⟩) (start,AOA.construct)).isSome = true := by
    decide +kernel
  obtain ⟨⟨s,own⟩,ended⟩ := Option.isSome_iff_exists.mp returns
  rw [made,Option.bind_some] at ended
  exact ⟨start,s,own,made,ended,exec_seen bounds symmetric limited steadyDraws _ start s own 3 made le_rfl ended⟩

end MetaPB.Optimizer

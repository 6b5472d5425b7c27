import MetaPB.Optimizer.InitialFrame
import MetaPB.Optimizer.SearchSpace
import Mathlib.Data.Fintype.BigOperators
import Mathlib.Data.Int.Interval
import Mathlib.Data.List.Perm.Subperm

/-! The cumulated history of a run is the cache's: every answered point once. It is the history
of frames exactly when no turn meets a point for the second time. -/
namespace MetaPB.Optimizer
open Lib.Loop

section Cumulate
variable {aType vType σ : Type} [LinearOrder aType] {c : Settings aType vType}
  {s t : Search aType vType} {frame newPoints : List (List aType)}

theorem mem_cumulated {pt : List aType} :
    pt ∈ s.getCumulatePointsHistory ↔ s.pt2Val[pt]? ≠ none := by
  rw [Search.getCumulatePointsHistory,Std.TreeMap.mem_keys,Std.TreeMap.mem_iff_isSome_getElem?,
    Option.isSome_iff_ne_none]

theorem cumulated_nodup (s : Search aType vType) : s.getCumulatePointsHistory.Nodup :=
  Std.TreeMap.nodup_keys

section Turn
variable [Zero vType]

theorem Evaluated.cumulated_subset {result : List vType}
    (evaluated : Evaluated c s t frame result newPoints) :
    t.getCumulatePointsHistory ⊆ s.getCumulatePointsHistory ++ frame.take c.pointNum := by
  intro pt member
  rw [mem_cumulated] at member
  rcases evaluated.learnt pt with ⟨k,-,listed,-⟩ | ⟨-,value⟩
  · have new := (evaluated.mem_newPoints pt).mp (List.mem_of_getElem? listed)
    exact List.mem_append_right _ new.1
  · rw [value,← mem_cumulated] at member
    exact List.mem_append_left _ member

end Turn

section Run
variable [LinearOrder vType] [Zero vType] {d : Derived aType vType σ} {count : Nat}

/-- No run gathers more points than its frames have, or others. -/
structure Gathered (c : Settings aType vType) (count : Nat) (s : Search aType vType) : Prop where
  few : s.getCumulatePointsHistory.length ≤ c.pointNum * count
  seen : s.getCumulatePointsHistory ⊆ (s.ptHistory.take count).flatten

theorem Turned.cumulated {result : List vType} (turned : Turned c count s t frame result newPoints) :
    t.getCumulatePointsHistory ⊆ s.getCumulatePointsHistory ++ frame.take c.pointNum ∧
      (t.ptHistory.take (count + 1)).flatten = (s.ptHistory.take count).flatten ++ frame := by
  obtain ⟨middle,logged,evaluated,converged,ended⟩ := turned.evaluated
  refine ⟨?_,?_⟩
  · rw [Search.getCumulatePointsHistory,(evaluated.recorded converged ended).learnt]
    exact evaluated.cumulated_subset
  · rw [turned.points,turned.current,List.flatten_append,List.flatten_singleton]

theorem Gathered.next {result : List vType} (before : Gathered c count s)
    (turned : Turned c count s t frame result newPoints) : Gathered c (count + 1) t := by
  obtain ⟨grown,history⟩ := turned.cumulated
  refine ⟨?_,fun pt member => ?_⟩
  · have more := ((cumulated_nodup t).subperm grown).length_le
    have few := before.few
    rw [List.length_append,List.length_take] at more
    rw [Nat.mul_succ]
    omega
  · rw [history]
    rcases List.mem_append.mp (grown member) with old | new
    · exact List.mem_append_left _ (before.seen old)
    · exact List.mem_append_right _ (List.mem_of_mem_take new)

section Start
variable [NumericLimits vType] {firstFrm : List (List aType)} {members own : σ}

@[simp] theorem start_cumulated :
    (Search.start firstFrm : Search aType vType).getCumulatePointsHistory = [] := rfl

theorem turns_gathered (within : count ≤ c.iterNum)
    (ran : turns c d count (Search.start firstFrm,members) = some (s,own)) :
    Shaped c count s ∧ Gathered c count s :=
  turns_invariant (Gathered c) within (start_shaped firstFrm)
    ⟨by simp,by simp⟩
    (fun _ _ _ _ _ _ _ _ before turned => before.next turned) ran

end Start
end Run
end Cumulate

section Integral
variable {vType σ : Type} [LinearOrder vType] [Zero vType] [NumericLimits vType] {c : Settings ℤ vType}
  {d : Derived ℤ vType σ} {s : Search ℤ vType} {firstFrm : List (List ℤ)} {members own : σ} {count : Nat}

/-- How many integral points lie within the limits. -/
def Settings.boxSize (c : Settings ℤ vType) : Nat :=
  ∏ d : Fin c.dimNum, (c.upperLimits.getD d 0 + 1 - c.lowerLimits.getD d 0).toNat

/-- A run that stays in the box cumulates no more points than there are in it, however long it is. -/
theorem cumulated_le_boxSize (limited : c.Limited) (boxed : c.FrameInBox firstFrm)
    (fills : ∀ (s : Search ℤ vType) members newFrm own, (∀ frame ∈ s.ptHistory, c.FrameInBox frame) →
      d.exploration s members = some (newFrm,own) → c.FrameInBox newFrm)
    (within : count ≤ c.iterNum) (ran : turns c d count (Search.start firstFrm,members) = some (s,own)) :
    s.getCumulatePointsHistory.length ≤ c.boxSize := by
  have frames := turns_inBox fills (by
    intro frame member
    rwa [List.mem_singleton.mp member]) ran
  have inside (pt : List ℤ) (member : pt ∈ s.getCumulatePointsHistory) : c.InBox pt := by
    obtain ⟨frame,listed,inFrame⟩ := List.mem_flatten.mp ((turns_gathered within ran).2.seen member)
    exact (frames frame (List.mem_of_mem_take listed)).inside pt inFrame
  let spots := Fintype.piFinset fun d : Fin c.dimNum =>
    Finset.Icc (c.lowerLimits.getD d 0) (c.upperLimits.getD d 0)
  have size : spots.card = c.boxSize := by simp only [spots,Fintype.card_piFinset,Int.card_Icc,Settings.boxSize]
  rw [← size,← List.toFinset_card_of_nodup (cumulated_nodup s)]
  apply Finset.card_le_card_of_injOn fun pt (d : Fin c.dimNum) => pt.getD d 0
  · intro pt member
    have box := inside pt (List.mem_toFinset.mp member)
    refine Fintype.mem_piFinset.mpr fun d => ?_
    obtain ⟨low,high,lowAt,highAt,-⟩ := limited d d.isLt
    obtain ⟨x,placed⟩ := box.coordinate d.isLt
    have between := box.within d x placed low high lowAt highAt
    simpa [List.getD_eq_getElem?_getD,placed,lowAt,highAt] using between
  · intro pt member other again same
    have one := (inside pt (List.mem_toFinset.mp member)).size
    have two := (inside other (List.mem_toFinset.mp again)).size
    apply List.ext_getElem (one.trans two.symm)
    intro i left right
    have equal := congrFun same ⟨i,one ▸ left⟩
    simpa [left,right] using equal

end Integral
end MetaPB.Optimizer

import MetaPB.Lib.Best
import MetaPB.Optimizer.Memo
import Mathlib.Data.List.GetD

/-! The global best over a run: after every frame it is the smallest value recorded so far,
at the first point that attains it, and the convergence histories say so frame by frame. -/
namespace MetaPB.Optimizer
open Lib Lib.Loop Lib.Best

variable {aType vType σ : Type} [LinearOrder aType] [LinearOrder vType]
  {c : Settings aType vType} {d : Derived aType vType σ} {count : Nat}

/-- Logging takes the first minimum of the last frame, and keeps the older best on a tie. -/
theorem convergeLogging_best {s t : Search aType vType} {frame : List (List aType)}
    {result : List vType} (ran : s.convergeLogging = some t)
    (points : s.ptHistory.getLast? = some frame) (values : s.valHistory.getLast? = some result) :
    ∃ index best, FirstMin result result.length index best ∧
      (best < s.gBestVal ∧ t.gBestVal = best ∧ frame[index]? = some t.gBestPt ∨
        s.gBestVal ≤ best ∧ t.gBestVal = s.gBestVal ∧ t.gBestPt = s.gBestPt) := by
  simp only [Search.convergeLogging,Option.bind_eq_bind,Option.bind_eq_some_iff] at ran
  obtain ⟨_,lastValues,index,looped,held,attained,improved,chosen,same⟩ := ran
  cases values.symm.trans lastValues
  cases Option.some.inj same
  have nonempty : result ≠ [] := by
    rintro rfl
    simp at attained
  have first : ∃ best, FirstMin result result.length index best := by
    apply loop_firstMin _ nonempty looped
    intro i kept next stepped
    simp only [Search.better,Option.bind_eq_bind,Option.bind_eq_some_iff] at stepped
    obtain ⟨value,valueAt,best,bestAt,chosen⟩ := stepped
    exact ⟨value,best,valueAt,bestAt,(Option.some.inj chosen).symm⟩
  obtain ⟨best,first⟩ := first
  cases first.1.symm.trans attained
  refine ⟨index,held,first,?_⟩
  unfold Search.improve at chosen
  split at chosen
  next smaller =>
    simp only [points,Option.bind_eq_bind,Option.bind_some,Option.bind_eq_some_iff] at chosen
    obtain ⟨pt,placed,made⟩ := chosen
    cases Option.some.inj made
    exact Or.inl ⟨smaller,rfl,placed⟩
  next larger =>
    cases Option.some.inj chosen
    exact Or.inr ⟨not_lt.mp larger,rfl,rfl⟩

theorem convergeLogging_returns {s : Search aType vType} {frame : List (List aType)}
    {result : List vType} (points : s.ptHistory.getLast? = some frame)
    (values : s.valHistory.getLast? = some result) (nonempty : 0 < result.length)
    (fits : result.length ≤ frame.length) : ∃ t, s.convergeLogging = some t := by
  have looped : ∃ index, loop result.length (Search.better result) 0 = some index ∧
      index < result.length := by
    apply loop_returns (fun _ index => index < result.length) nonempty
    intro i small kept bound
    refine ⟨if result[i] < result[kept] then i else kept,?_,?_⟩
    · simp [Search.better,small,bound]
    · split
      · exact small
      · exact bound
  obtain ⟨index,ran,bound⟩ := looped
  have placed := List.getElem?_eq_getElem (bound.trans_le fits)
  have improved : ∃ best, s.improve index result[index] = some best := by
    unfold Search.improve
    split
    · exact ⟨_,by simp [points,placed]; rfl⟩
    · exact ⟨_,rfl⟩
  obtain ⟨best,chosen⟩ := improved
  simp [Search.convergeLogging,values,ran,bound,chosen]

section Run
variable [Zero vType] [NumericLimits vType]

/-- The convergence histories say, frame by frame, what the best was then; the last entries
are the current best. -/
structure Converged (count : Nat) (s : Search aType vType) : Prop where
  below : ∀ (pt : List aType) val, s.pt2Val[pt]? = some val → val < NumericLimits.max
  fresh : count = 0 → s.gBestVal = NumericLimits.max
  logged : ∀ k < count, ∃ pt val, s.gBestPtHist[k]? = some pt ∧ s.gBestValHist[k]? = some val ∧
    FirstBest (s.ptHistory.take (k + 1)) (s.valHistory.take (k + 1)) pt val
  current : ∀ k, count = k + 1 → FirstBest (s.ptHistory.take count) s.valHistory s.gBestPt s.gBestVal

section Turn
variable {s t : Search aType vType} {frame : List (List aType)} {result : List vType}
  {newPoints : List (List aType)}

omit [NumericLimits vType] [LinearOrder vType] in
theorem Evaluated.all_of_answers {allowed : vType → Prop}
    (answers : ∀ k < newPoints.length, allowed ((c.evaluateFunc newPoints).getD k 0))
    (cached : ∀ (pt : List aType) val, s.pt2Val[pt]? = some val → allowed val)
    (evaluated : Evaluated c s t frame result newPoints) (enough : c.pointNum ≤ frame.length) :
    (∀ val ∈ result, allowed val) ∧
      ∀ (pt : List aType) val, t.pt2Val[pt]? = some val → allowed val := by
  have answered (k : Nat) (pt : List aType) (new : newPoints[k]? = some pt) :
      allowed ((c.evaluateFunc newPoints).getD k 0) := answers k (List.getElem?_eq_some_iff.mp new).1
  constructor
  · intro val member
    obtain ⟨j,listed⟩ := List.mem_iff_getElem?.mp member
    have small := (List.getElem?_eq_some_iff.mp listed).1
    rw [evaluated.size] at small
    have placed := List.getElem?_eq_getElem (small.trans_le enough)
    cases known : s.pt2Val[frame[j]]? with
    | some old =>
      cases listed.symm.trans (evaluated.hit j small _ old placed known)
      exact cached _ val known
    | none =>
      obtain ⟨k,new,value⟩ := evaluated.miss j small _ placed known
      cases listed.symm.trans value
      exact answered k _ new
  · intro pt val stored
    rcases evaluated.learnt pt with ⟨k,small,new,value⟩ | ⟨-,value⟩
    · rw [value] at stored
      have own := answered k pt new
      rwa [List.getD_eq_getElem?_getD,stored,Option.getD_some] at own
    · rw [value] at stored
      exact cached pt val stored

omit [NumericLimits vType] [LinearOrder vType] in
theorem Evaluated.all {allowed : vType → Prop} (zero : allowed 0)
    (limited : ∀ points, ∀ val ∈ c.evaluateFunc points, allowed val)
    (cached : ∀ (pt : List aType) val, s.pt2Val[pt]? = some val → allowed val)
    (evaluated : Evaluated c s t frame result newPoints) (enough : c.pointNum ≤ frame.length) :
    (∀ val ∈ result, allowed val) ∧
      ∀ (pt : List aType) val, t.pt2Val[pt]? = some val → allowed val := by
  apply evaluated.all_of_answers _ cached enough
  intro k _
  rcases Nat.lt_or_ge k (c.evaluateFunc newPoints).length with answered | beyond
  · rw [List.getD_eq_getElem _ _ answered]
    exact limited _ _ (List.getElem_mem answered)
  · rwa [List.getD_eq_default _ _ beyond]

/-- The best so far, unless no value has been below the initial one. -/
def BestSoFar (points : List (List (List aType))) (values : List (List vType)) (point : List aType)
    (best : vType) : Prop :=
  best = NumericLimits.max ∧ (∀ j i value, entry values j i = some value → NumericLimits.max ≤ value) ∨
    FirstBest points values point best

omit [NumericLimits vType] in
theorem Evaluated.logged_first {middle logged : Search aType vType}
    (evaluated : Evaluated c s middle frame result newPoints) (last : s.ptHistory.getLast? = some frame)
    (converged : middle.convergeLogging = some logged) :
    ∃ index best, FirstMin result result.length index best ∧
      (best < s.gBestVal ∧ logged.gBestVal = best ∧ frame[index]? = some logged.gBestPt ∨
        s.gBestVal ≤ best ∧ logged.gBestVal = s.gBestVal ∧ logged.gBestPt = s.gBestPt) := by
  have read : middle.ptHistory.getLast? = some frame ∧ middle.valHistory.getLast? = some result ∧
      middle.gBestVal = s.gBestVal ∧ middle.gBestPt = s.gBestPt := by
    rw [evaluated.record]
    exact ⟨last,by simp,rfl,rfl⟩
  obtain ⟨lastFrm,lastValues,oldVal,oldPt⟩ := read
  rw [← oldVal,← oldPt]
  exact convergeLogging_best converged lastFrm lastValues

theorem BestSoFar.logged {middle logged : Search aType vType} {points : List (List (List aType))}
    (before : BestSoFar points s.valHistory s.gBestPt s.gBestVal) (same : points.length = s.valHistory.length)
    (last : s.ptHistory.getLast? = some frame) (evaluated : Evaluated c s middle frame result newPoints)
    (converged : middle.convergeLogging = some logged) :
    BestSoFar (points ++ [frame]) (s.valHistory ++ [result]) logged.gBestPt logged.gBestVal := by
  obtain ⟨index,best,first,chosen⟩ := evaluated.logged_first last converged
  have least (i : Nat) (value : vType) (listed : result[i]? = some value) : best ≤ value :=
    first.2.1 i (List.getElem?_eq_some_iff.mp listed).1 value listed
  rcases chosen with ⟨smaller,rfl,placed⟩ | ⟨larger,value,point⟩
  · refine Or.inr (first.firstBest placed same ?_)
    intro j i value listed
    rcases before with ⟨initial,above⟩ | ⟨_,_,-,-,smallest,-⟩
    · exact (smaller.trans_eq initial).trans_le (above j i value listed)
    · exact smaller.trans_le (smallest j i value listed)
  · rw [value,point]
    rcases before with ⟨initial,above⟩ | kept
    · refine Or.inl ⟨initial,fun j i value listed => ?_⟩
      rcases entry_snoc listed with ⟨-,old⟩ | ⟨-,new⟩
      · exact above j i value old
      · exact initial.ge.trans (larger.trans (least i value new))
    · exact Or.inr (kept.keep fun i value listed => larger.trans (least i value listed))

theorem Converged.bestSoFar (shaped : Shaped c count s) (before : Converged count s) :
    BestSoFar (s.ptHistory.take count) s.valHistory s.gBestPt s.gBestVal := by
  cases count with
  | zero =>
    refine Or.inl ⟨before.fresh rfl,fun j i value listed => ?_⟩
    have bound := entry_lt listed
    rw [shaped.values] at bound
    contradiction
  | succ k => exact Or.inr (before.current k rfl)

theorem BestSoFar.next (inside : count < c.iterNum) (shaped : Shaped c count s)
    (before : BestSoFar (s.ptHistory.take count) s.valHistory s.gBestPt s.gBestVal)
    (turned : Turned c count s t frame result newPoints) :
    BestSoFar (t.ptHistory.take (count + 1)) t.valHistory t.gBestPt t.gBestVal := by
  obtain ⟨middle,logged,evaluated,converged,ended⟩ := turned.evaluated
  have now : t.gBestVal = logged.gBestVal ∧ t.gBestPt = logged.gBestPt := by
    rw [ended]
    exact ⟨rfl,rfl⟩
  rw [turned.points,turned.current,(evaluated.recorded converged ended).values,now.1,now.2]
  exact before.logged (shaped.paired inside) turned.last evaluated converged

theorem Converged.logged_best {middle logged : Search aType vType}
    (limited : ∀ points, ∀ val ∈ c.evaluateFunc points, val < NumericLimits.max)
    (inside : count < c.iterNum) (shaped : Shaped c count s) (before : Converged count s)
    (last : s.ptHistory.getLast? = some frame) (enough : c.pointNum ≤ frame.length)
    (evaluated : Evaluated c s middle frame result newPoints)
    (converged : middle.convergeLogging = some logged) :
    FirstBest (s.ptHistory.take count ++ [frame]) (s.valHistory ++ [result]) logged.gBestPt
      logged.gBestVal := by
  have below := (evaluated.all NumericLimits.zero_lt_max limited before.below enough).1
  rcases (before.bestSoFar shaped).logged (shaped.paired inside) last evaluated converged with ⟨-,above⟩ | best
  · obtain ⟨index,value,first,-⟩ := evaluated.logged_first last converged
    have high := above s.valHistory.length index value (by rw [entry_snoc_last,first.1])
    exact absurd (below value (List.mem_of_getElem? first.1)) (not_lt.mpr high)
  · exact best

theorem Converged.next (limited : ∀ points, ∀ val ∈ c.evaluateFunc points, val < NumericLimits.max)
    (inside : count < c.iterNum) (shaped : Shaped c count s) (before : Converged count s)
    (turned : Turned c count s t frame result newPoints) : Converged (count + 1) t := by
  obtain ⟨middle,logged,evaluated,converged,ended⟩ := turned.evaluated
  obtain ⟨valHistory,learnt,-,pointHist,valueHist⟩ := evaluated.recorded converged ended
  have now : t.gBestVal = logged.gBestVal ∧ t.gBestPt = logged.gBestPt := by
    rw [ended]
    exact ⟨rfl,rfl⟩
  have current : FirstBest (t.ptHistory.take (count + 1)) t.valHistory t.gBestPt t.gBestVal := by
    rw [turned.points,turned.current,valHistory,now.1,now.2]
    exact before.logged_best limited inside shaped turned.last turned.enough evaluated converged
  have below := (evaluated.all NumericLimits.zero_lt_max limited before.below turned.enough).2
  refine ⟨by rw [learnt]; exact below,by simp,?_,fun _ _ => current⟩
  intro k inHist
  rcases Nat.lt_succ_iff_lt_or_eq.mp inHist with earlier | rfl
  · obtain ⟨pt,val,ptAt,valAt,oldBest⟩ := before.logged k earlier
    have samePoints : t.ptHistory.take (k + 1) = s.ptHistory.take (k + 1) := by
      have cut := congrArg (List.take (k + 1)) turned.points
      rwa [List.take_take,List.take_take,Nat.min_eq_left (by omega)] at cut
    have sameValues : t.valHistory.take (k + 1) = s.valHistory.take (k + 1) := by
      rw [valHistory,List.take_append_of_le_length (by rw [shaped.values]; omega)]
    refine ⟨pt,val,?_,?_,by rwa [samePoints,sameValues]⟩
    · rw [pointHist,List.getElem?_append_left (by rw [shaped.bestPoints]; omega),ptAt]
    · rw [valueHist,List.getElem?_append_left (by rw [shaped.bestValues]; omega),valAt]
  · refine ⟨t.gBestPt,t.gBestVal,?_,?_,?_⟩
    · rw [pointHist,← shaped.bestPoints,List.getElem?_concat_length]
    · rw [valueHist,← shaped.bestValues,List.getElem?_concat_length]
    · have whole : t.valHistory.take (k + 1) = t.valHistory :=
        List.take_of_length_le (by simp [valHistory,shaped.values])
      rwa [whole]

end Turn

theorem start_converged (firstFrm : List (List aType)) :
    Converged 0 (Search.start firstFrm : Search aType vType) :=
  ⟨by simp [Search.start],fun _ => rfl,by simp,by simp⟩

theorem turns_bestSoFar (firstFrm : List (List aType)) {s : Search aType vType} {members own : σ}
    (within : count ≤ c.iterNum)
    (ran : turns c d count (Search.start firstFrm,members) = some (s,own)) :
    BestSoFar (s.ptHistory.take count) s.valHistory s.gBestPt s.gBestVal :=
  (turns_invariant (fun count s => BestSoFar (s.ptHistory.take count) s.valHistory s.gBestPt s.gBestVal)
    within (start_shaped firstFrm) (Or.inl ⟨rfl,by simp [entry,Search.start]⟩)
    (fun _ _ _ _ _ _ inside shaped before turned => before.next inside shaped turned) ran).2

theorem turns_converged (limited : ∀ points, ∀ val ∈ c.evaluateFunc points, val < NumericLimits.max)
    (firstFrm : List (List aType)) {s : Search aType vType} {members own : σ} (within : count ≤ c.iterNum)
    (ran : turns c d count (Search.start firstFrm,members) = some (s,own)) :
    Shaped c count s ∧ Converged count s :=
  turns_invariant Converged within (start_shaped firstFrm) (start_converged firstFrm)
    (fun _ _ _ _ _ _ inside shaped before turned => before.next limited inside shaped turned) ran

/-- The global best is the true best: the minimum over everything recorded so far, at the first
point in frame and index order that has it, after every turn and in the histories. -/
theorem exec_globalBest (c : Settings aType vType)
    (limited : ∀ points, ∀ val ∈ c.evaluateFunc points, val < NumericLimits.max)
    (d : Derived aType vType σ) (firstFrm : List (List aType)) (members own : σ) (count : Nat)
    (within : count ≤ c.iterNum) (s : Search aType vType)
    (ran : turns c d count (Search.start firstFrm,members) = some (s,own)) :
    s.valHistory.length = count ∧ s.gBestPtHist.length = count ∧ s.gBestValHist.length = count ∧
      (0 < count → FirstBest (s.ptHistory.take count) s.valHistory s.gBestPt s.gBestVal) ∧
      (∀ k < count, ∃ pt val, s.gBestPtHist[k]? = some pt ∧ s.gBestValHist[k]? = some val ∧
        FirstBest (s.ptHistory.take (k + 1)) (s.valHistory.take (k + 1)) pt val) ∧
      s.gBestValHist.Pairwise (· ≥ ·) := by
  obtain ⟨shaped,converged⟩ := turns_converged limited firstFrm within ran
  refine ⟨shaped.values,shaped.bestPoints,shaped.bestValues,?_,converged.logged,?_⟩
  · intro positive
    exact converged.current (count - 1) (by omega)
  · apply List.pairwise_iff_getElem.mpr
    intro k l inside bound before
    rw [shaped.bestValues] at inside bound
    obtain ⟨_,first,-,firstAt,early⟩ := converged.logged k inside
    obtain ⟨_,second,-,secondAt,late⟩ := converged.logged l bound
    obtain ⟨_,rfl⟩ := List.getElem?_eq_some_iff.mp firstAt
    obtain ⟨_,rfl⟩ := List.getElem?_eq_some_iff.mp secondAt
    have longer {α : Type} (history : List α) : history.take (l + 1) =
        history.take (k + 1) ++ (history.take (l + 1)).drop (k + 1) := by
      have split := List.take_append_drop (k + 1) (history.take (l + 1))
      rwa [List.take_take,Nat.min_eq_left (by omega),eq_comm] at split
    rw [longer s.ptHistory,longer s.valHistory] at late
    exact early.antitone late

/-- The second frame ties with the first, which keeps the best; the third improves on it. -/
theorem exec_globalBest_tie :
    let c : Settings ℤ ℚ := ⟨[0],[3],1,2,3,List.map fun pt => min 3 (pt.sum : ℚ)⟩
    let d : Derived ℤ ℚ Nat := ⟨fun _ k => some (k + 1),fun _ k => some ([[3],[2 - k]],k)⟩
    ∃ s own, exec c d (Search.start [[2],[1]],0) = some (s,own) ∧
      FirstBest (s.ptHistory.take 3) s.valHistory s.gBestPt s.gBestVal := by
  intro c d
  have returns : (exec c d (Search.start [[2],[1]],0)).isSome = true := by decide +kernel
  obtain ⟨⟨s,own⟩,ran⟩ := Option.isSome_iff_exists.mp returns
  have three : (3 : ℚ) < NumericLimits.max := lt_max_of_lt (by norm_num)
  have limited : ∀ points, ∀ val ∈ c.evaluateFunc points, val < NumericLimits.max := by
    intro points val member
    obtain ⟨pt,-,rfl⟩ := List.mem_map.mp member
    exact (min_le_left _ _).trans_lt three
  obtain ⟨-,-,-,best,-⟩ := exec_globalBest c limited d [[2],[1]] 0 own 3 le_rfl s ran
  exact ⟨s,own,ran,best (by decide)⟩

end Run
end MetaPB.Optimizer

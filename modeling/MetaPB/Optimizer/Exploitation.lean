import MetaPB.Optimizer.OptimizerBase
import Mathlib.Data.List.Nodup

/-! Evaluation through the cache. One frame mixes cached and new points, repeated points
among them; the values found and the values scattered back through the index list together
fill the frame. -/
namespace MetaPB.Optimizer
open Lib.Loop

section Frame
variable {aType vType : Type} [LinearOrder aType] [Zero vType]

/-- The first points of a frame looked up: hits are in the result, misses in the list of
new points, under their place in the frame. -/
structure Found (pt2Val : Std.TreeMap (List aType) vType compare) (frame : List (List aType))
    (pointNum count : Nat) (found : Partition aType vType) : Prop where
  size : found.result.length = pointNum
  paired : found.newPtIdx.length = found.newPoints.length
  nodup : found.newPtIdx.Nodup
  hit : ∀ j < count, ∀ pt val, frame[j]? = some pt → pt2Val[pt]? = some val →
    found.result[j]? = some val
  miss : ∀ j < count, ∀ pt, frame[j]? = some pt → pt2Val[pt]? = none → j ∈ found.newPtIdx
  fresh : ∀ (k j : Nat), found.newPtIdx[k]? = some j → j < count ∧
    ∃ pt, frame[j]? = some pt ∧ found.newPoints[k]? = some pt ∧ pt2Val[pt]? = none
  blank : ∀ j < pointNum, j ∈ found.newPtIdx ∨ count ≤ j → found.result[j]? = some 0

section Find
variable {pt2Val : Std.TreeMap (List aType) vType compare} {frame : List (List aType)}
  {pointNum ptIdx : Nat} {found : Partition aType vType}

theorem Found.notMem (before : Found pt2Val frame pointNum ptIdx found) : ptIdx ∉ found.newPtIdx := by
  intro member
  obtain ⟨k,listed⟩ := List.mem_iff_getElem?.mp member
  exact Nat.lt_irrefl _ (before.fresh k ptIdx listed).1

theorem Found.known (before : Found pt2Val frame pointNum ptIdx found) (inside : ptIdx < pointNum)
    {pt : List aType} {val : vType} (placed : frame[ptIdx]? = some pt)
    (cached : pt2Val[pt]? = some val) :
    Found pt2Val frame pointNum (ptIdx + 1)
      { found with result := found.result.set ptIdx val } := by
  have bound : ptIdx < found.result.length := before.size ▸ inside
  refine ⟨by simpa using before.size,before.paired,before.nodup,?_,?_,?_,?_⟩
  · intro j below q w at_ stored
    rcases Nat.lt_succ_iff_lt_or_eq.mp below with earlier | rfl
    · rw [List.getElem?_set_ne (by omega)]
      exact before.hit j earlier q w at_ stored
    · cases placed.symm.trans at_
      rw [List.getElem?_set_self bound,← cached,stored]
  · intro j below q at_ unknown
    rcases Nat.lt_succ_iff_lt_or_eq.mp below with earlier | rfl
    · exact before.miss j earlier q at_ unknown
    · cases placed.symm.trans at_
      rw [cached] at unknown
      contradiction
  · intro k j listed
    obtain ⟨below,rest⟩ := before.fresh k j listed
    exact ⟨Nat.lt_succ_of_lt below,rest⟩
  · intro j small unfilled
    have apart : ptIdx ≠ j := by
      rintro rfl
      rcases unfilled with member | later
      · exact before.notMem member
      · omega
    rw [List.getElem?_set_ne apart]
    exact before.blank j small (unfilled.imp_right (by omega))

theorem Found.unknown (before : Found pt2Val frame pointNum ptIdx found) {pt : List aType}
    (placed : frame[ptIdx]? = some pt) (uncached : pt2Val[pt]? = none) :
    Found pt2Val frame pointNum (ptIdx + 1)
      { found with newPoints := found.newPoints ++ [pt], newPtIdx := found.newPtIdx ++ [ptIdx] } := by
  refine ⟨before.size,by simp [before.paired],?_,?_,?_,?_,?_⟩
  · simpa using List.Nodup.concat before.notMem before.nodup
  · intro j below q w at_ stored
    rcases Nat.lt_succ_iff_lt_or_eq.mp below with earlier | rfl
    · exact before.hit j earlier q w at_ stored
    · cases placed.symm.trans at_
      rw [uncached] at stored
      contradiction
  · intro j below q at_ missed
    rcases Nat.lt_succ_iff_lt_or_eq.mp below with earlier | rfl
    · exact List.mem_append_left _ (before.miss j earlier q at_ missed)
    · simp
  · intro k j listed
    rcases getElem?_snoc listed with ⟨inside,old⟩ | ⟨rfl,rfl⟩
    · obtain ⟨below,q,at_,new,missed⟩ := before.fresh k j old
      refine ⟨Nat.lt_succ_of_lt below,q,at_,?_,missed⟩
      rwa [List.getElem?_append_left (before.paired ▸ inside)]
    · exact ⟨Nat.lt_succ_self _,pt,placed,by simp [before.paired],uncached⟩
  · intro j small unfilled
    rcases unfilled with member | later
    · rcases List.mem_append.mp member with old | new
      · exact before.blank j small (Or.inl old)
      · exact before.blank j small (Or.inr (List.mem_singleton.mp new).ge)
    · exact before.blank j small (Or.inr (by omega))

theorem Found.find (before : Found pt2Val frame pointNum ptIdx found) (inside : ptIdx < pointNum)
    (bound : ptIdx < frame.length) :
    ∃ next, Search.find pt2Val frame ptIdx found = some next ∧
      Found pt2Val frame pointNum (ptIdx + 1) next := by
  have placed := List.getElem?_eq_getElem bound
  cases cached : pt2Val[frame[ptIdx]]? with
  | some val =>
    refine ⟨_,?_,before.known inside placed cached⟩
    simp [Search.find,placed,cached,write_of_lt (before.size ▸ inside)]
  | none =>
    refine ⟨_,?_,before.unknown placed cached⟩
    simp [Search.find,placed,cached]

theorem find_returns (pt2Val : Std.TreeMap (List aType) vType compare) {pointNum : Nat}
    (enough : pointNum ≤ frame.length) :
    ∃ found, loop pointNum (Search.find pt2Val frame) { result := List.replicate pointNum 0 } =
      some found ∧ Found pt2Val frame pointNum pointNum found := by
  apply loop_returns (Found pt2Val frame pointNum)
  · refine ⟨by simp,rfl,by simp,by simp,by simp,by simp,?_⟩
    intro j small _
    simp [small]
  · intro i inside found before
    exact before.find inside (inside.trans_le enough)

omit [Zero vType] in
theorem find_misses {result : List vType} {count : Nat}
    (looked : loop count (Search.find pt2Val frame) { result := result } = some found) :
    found.newPoints = (frame.take count).filter (fun pt => pt2Val[pt]?.isNone) ∧
      found.newPtIdx = (List.range count).filter fun j => (frame[j]?.bind (pt2Val[·]?)).isNone := by
  refine loop_invariant (fun i (found : Partition aType vType) =>
    found.newPoints = (frame.take i).filter (fun pt => pt2Val[pt]?.isNone) ∧
      found.newPtIdx = (List.range i).filter fun j => (frame[j]?.bind (pt2Val[·]?)).isNone)
    ⟨rfl,rfl⟩ ?_ looked
  intro i _ found next before stepped
  obtain ⟨pt,ptAt,stepped⟩ := Option.bind_eq_some_iff.mp stepped
  rw [List.take_add_one,ptAt,List.range_succ,List.filter_append,List.filter_append,← before.1,← before.2]
  cases cached : pt2Val[pt]? with
  | some val =>
    rw [cached] at stepped
    obtain ⟨stored,-,same⟩ := Option.bind_eq_some_iff.mp stepped
    cases Option.some.inj same
    simp [ptAt,cached]
  | none =>
    rw [cached] at stepped
    cases Option.some.inj stepped
    simp [ptAt,cached]

end Find

section Scatter
variable {pt2Val : Std.TreeMap (List aType) vType compare} {frame : List (List aType)}
  {pointNum : Nat} {found : Partition aType vType} {newResults : List vType}

/-- The first new values stored, each under its point and at the place the index list names. -/
structure Scattered (pt2Val : Std.TreeMap (List aType) vType compare) (found : Partition aType vType)
    (newResults : List vType) (count : Nat)
    (stored : List vType × Std.TreeMap (List aType) vType compare) : Prop where
  size : stored.1.length = found.result.length
  written : ∀ k < count, ∀ j : Nat, found.newPtIdx[k]? = some j → stored.1[j]? = newResults[k]?
  kept : ∀ j : Nat, (∀ k < count, found.newPtIdx[k]? ≠ some j) → stored.1[j]? = found.result[j]?
  learnt : ∀ pt, (∃ k < count, found.newPoints[k]? = some pt ∧ stored.2[pt]? = newResults[k]?) ∨
    (∀ k < count, found.newPoints[k]? ≠ some pt) ∧ stored.2[pt]? = pt2Val[pt]?

theorem Scattered.next (sorted : Found pt2Val frame pointNum pointNum found) {newIdx : Nat}
    {stored : List vType × Std.TreeMap (List aType) vType compare}
    (before : Scattered pt2Val found newResults newIdx stored) (inside : newIdx < newResults.length)
    (bound : newIdx < found.newPoints.length) :
    ∃ next, Search.scatter found newResults newIdx stored = some next ∧
      Scattered pt2Val found newResults (newIdx + 1) next := by
  have valAt := List.getElem?_eq_getElem inside
  have ptAt := List.getElem?_eq_getElem bound
  have listedIdx : newIdx < found.newPtIdx.length := by rwa [sorted.paired]
  have idxAt := List.getElem?_eq_getElem listedIdx
  have small : found.newPtIdx[newIdx] < stored.1.length := by
    rw [before.size,sorted.size]
    exact (sorted.fresh newIdx _ idxAt).1
  refine ⟨(stored.1.set found.newPtIdx[newIdx] newResults[newIdx],
    stored.2.insert found.newPoints[newIdx] newResults[newIdx]),?_,?_⟩
  · simp [Search.scatter,valAt,idxAt,ptAt,write_of_lt small]
  · refine ⟨by simpa using before.size,?_,?_,?_⟩
    · intro k below j listed
      rcases Nat.lt_succ_iff_lt_or_eq.mp below with earlier | rfl
      · have apart : found.newPtIdx[newIdx] ≠ j := by
          rintro rfl
          have distinct := List.nodup_iff_getElem?_ne_getElem?.mp sorted.nodup k newIdx earlier listedIdx
          exact distinct (listed.trans idxAt.symm)
        rw [List.getElem?_set_ne apart]
        exact before.written k earlier j listed
      · cases idxAt.symm.trans listed
        rw [List.getElem?_set_self small,valAt]
    · intro j untouched
      have apart : found.newPtIdx[newIdx] ≠ j := by
        rintro rfl
        exact untouched newIdx (Nat.lt_succ_self _) idxAt
      rw [List.getElem?_set_ne apart]
      exact before.kept j fun k below => untouched k (Nat.lt_succ_of_lt below)
    · intro pt
      rcases eq_or_ne found.newPoints[newIdx] pt with rfl | apart
      · exact Or.inl ⟨newIdx,Nat.lt_succ_self _,ptAt,by simp [valAt]⟩
      · have same : (stored.2.insert found.newPoints[newIdx] newResults[newIdx])[pt]? = stored.2[pt]? := by
          simp [Std.TreeMap.getElem?_insert,apart]
        rw [same]
        rcases before.learnt pt with ⟨k,below,listed,value⟩ | ⟨unseen,value⟩
        · exact Or.inl ⟨k,Nat.lt_succ_of_lt below,listed,value⟩
        · refine Or.inr ⟨?_,value⟩
          intro k below
          rcases Nat.lt_succ_iff_lt_or_eq.mp below with earlier | rfl
          · exact unseen k earlier
          · rw [ptAt]
            simpa using apart

theorem scatter_returns (sorted : Found pt2Val frame pointNum pointNum found)
    (few : newResults.length ≤ found.newPoints.length) :
    ∃ stored, loop newResults.length (Search.scatter found newResults) (found.result,pt2Val) =
      some stored ∧ Scattered pt2Val found newResults newResults.length stored := by
  apply loop_returns (Scattered pt2Val found newResults)
  · exact ⟨rfl,by simp,fun _ _ => rfl,fun _ => Or.inr ⟨by simp,rfl⟩⟩
  · intro i inside stored before
    exact before.next sorted inside (inside.trans_le few)

end Scatter

/-- What evaluating the last frame records: a cached value for a known point, for a new one
the value its place in the call gets. -/
structure Evaluated (c : Settings aType vType) (s t : Search aType vType) (frame : List (List aType))
    (result : List vType) (newPoints : List (List aType)) : Prop where
  record : t = { s with
    pt2Val := t.pt2Val
    valHistory := s.valHistory ++ [result]
    evaluateCalls := s.evaluateCalls ++ [newPoints] }
  size : result.length = c.pointNum
  hit : ∀ j < c.pointNum, ∀ pt val, frame[j]? = some pt → s.pt2Val[pt]? = some val →
    result[j]? = some val
  miss : ∀ j < c.pointNum, ∀ pt, frame[j]? = some pt → s.pt2Val[pt]? = none →
    ∃ k : Nat, newPoints[k]? = some pt ∧ result[j]? = some ((c.evaluateFunc newPoints).getD k 0)
  fresh : ∀ pt ∈ newPoints, s.pt2Val[pt]? = none ∧ ∃ j < c.pointNum, frame[j]? = some pt
  learnt : ∀ pt, (∃ k < (c.evaluateFunc newPoints).length, newPoints[k]? = some pt ∧
      t.pt2Val[pt]? = (c.evaluateFunc newPoints)[k]?) ∨
    (∀ k < (c.evaluateFunc newPoints).length, newPoints[k]? ≠ some pt) ∧ t.pt2Val[pt]? = s.pt2Val[pt]?

section Spec
variable {c : Settings aType vType} {s t : Search aType vType} {frame : List (List aType)}

theorem evaluated_of_loops {found : Partition aType vType}
    {stored : List vType × Std.TreeMap (List aType) vType compare}
    (looked : Found s.pt2Val frame c.pointNum c.pointNum found)
    (scattered : Scattered s.pt2Val found (c.evaluateFunc found.newPoints)
      (c.evaluateFunc found.newPoints).length stored) :
    Evaluated c s { s with
      pt2Val := stored.2
      valHistory := s.valHistory ++ [stored.1]
      evaluateCalls := s.evaluateCalls ++ [found.newPoints] } frame stored.1 found.newPoints := by
  refine ⟨rfl,scattered.size.trans looked.size,?_,?_,?_,scattered.learnt⟩
  · intro j small pt val placed cached
    rw [scattered.kept j ?_]
    · exact looked.hit j small pt val placed cached
    · intro k _ listed
      obtain ⟨-,q,at_,-,uncached⟩ := looked.fresh k j listed
      cases placed.symm.trans at_
      rw [cached] at uncached
      contradiction
  · intro j small pt placed uncached
    have member := looked.miss j small pt placed uncached
    obtain ⟨k,listed⟩ := List.mem_iff_getElem?.mp member
    obtain ⟨-,q,at_,new,-⟩ := looked.fresh k j listed
    cases placed.symm.trans at_
    refine ⟨k,new,?_⟩
    rcases Nat.lt_or_ge k (c.evaluateFunc found.newPoints).length with answered | beyond
    · rw [scattered.written k answered j listed,List.getElem?_eq_getElem answered]
      simp [answered]
    · rw [scattered.kept j ?_,looked.blank j small (Or.inl member)]
      · simp [beyond]
      · intro other below again
        have bound := (List.getElem?_eq_some_iff.mp listed).1
        have distinct := List.nodup_iff_getElem?_ne_getElem?.mp looked.nodup other k (by omega) bound
        exact distinct (again.trans listed.symm)
  · intro pt member
    obtain ⟨k,new⟩ := List.mem_iff_getElem?.mp member
    have bound := (List.getElem?_eq_some_iff.mp new).1
    rw [← looked.paired] at bound
    obtain ⟨small,q,at_,other,uncached⟩ := looked.fresh k _ (List.getElem?_eq_getElem bound)
    cases new.symm.trans other
    exact ⟨uncached,_,small,at_⟩

theorem exploitation_loops (ran : s.exploitation c = some t) :
    ∃ frame found stored, s.ptHistory.getLast? = some frame ∧ c.pointNum ≤ frame.length ∧
      loop c.pointNum (Search.find s.pt2Val frame) { result := List.replicate c.pointNum 0 } = some found ∧
      Found s.pt2Val frame c.pointNum c.pointNum found ∧
      Scattered s.pt2Val found (c.evaluateFunc found.newPoints) (c.evaluateFunc found.newPoints).length
        stored ∧
      (c.evaluateFunc found.newPoints).length ≤ found.newPoints.length ∧
      t = { s with
        pt2Val := stored.2
        valHistory := s.valHistory ++ [stored.1]
        evaluateCalls := s.evaluateCalls ++ [found.newPoints] } := by
  simp only [Search.exploitation,Option.bind_eq_bind,Option.bind_eq_some_iff] at ran
  obtain ⟨frame,last,found,looked,stored,scattered,same⟩ := ran
  have enough : c.pointNum ≤ frame.length := by
    refine loop_invariant (fun i _ => i ≤ frame.length) (Nat.zero_le _) ?_ looked
    intro i _ found next _ stepped
    obtain ⟨pt,placed,-⟩ := Option.bind_eq_some_iff.mp stepped
    exact (List.getElem?_eq_some_iff.mp placed).1
  obtain ⟨_,again,sorted⟩ := find_returns s.pt2Val enough
  cases looked.symm.trans again
  have few : (c.evaluateFunc found.newPoints).length ≤ found.newPoints.length := by
    refine loop_invariant (fun i _ => i ≤ found.newPoints.length) (Nat.zero_le _) ?_ scattered
    intro i _ stored next _ stepped
    simp only [Search.scatter,Option.bind_eq_bind,Option.bind_eq_some_iff] at stepped
    obtain ⟨_,-,_,-,_,-,pt,placed,-⟩ := stepped
    exact (List.getElem?_eq_some_iff.mp placed).1
  obtain ⟨_,again,placed⟩ := scatter_returns sorted few
  cases scattered.symm.trans again
  exact ⟨frame,found,stored,last,enough,looked,sorted,placed,few,(Option.some.inj same).symm⟩

theorem exploitation_evaluated (ran : s.exploitation c = some t) :
    ∃ frame result newPoints, s.ptHistory.getLast? = some frame ∧ c.pointNum ≤ frame.length ∧
      Evaluated c s t frame result newPoints := by
  obtain ⟨frame,found,stored,last,enough,-,sorted,placed,-,rfl⟩ := exploitation_loops ran
  exact ⟨frame,stored.1,found.newPoints,last,enough,evaluated_of_loops sorted placed⟩

theorem exploitation_answers (ran : s.exploitation c = some t) :
    ∃ newPoints result, t.evaluateCalls = s.evaluateCalls ++ [newPoints] ∧
      t.valHistory = s.valHistory ++ [result] ∧ ∀ val ∈ c.evaluateFunc newPoints, val ∈ result := by
  obtain ⟨frame,found,stored,-,-,-,sorted,placed,few,rfl⟩ := exploitation_loops ran
  refine ⟨found.newPoints,stored.1,rfl,rfl,fun val member => ?_⟩
  obtain ⟨k,listed⟩ := List.mem_iff_getElem?.mp member
  have answered := (List.getElem?_eq_some_iff.mp listed).1
  have paired := sorted.paired
  have idxAt := List.getElem?_eq_getElem (by omega : k < found.newPtIdx.length)
  exact List.mem_of_getElem? ((placed.written k answered _ idxAt).trans listed)

theorem exploitation_blank (unknown : ∀ pt : List aType, s.pt2Val[pt]? = none)
    (last : s.ptHistory.getLast? = some frame) (size : frame.length = c.pointNum)
    (answers : (c.evaluateFunc frame).length = c.pointNum) (ran : s.exploitation c = some t) :
    t.evaluateCalls = s.evaluateCalls ++ [frame] ∧ t.valHistory = s.valHistory ++ [c.evaluateFunc frame] := by
  obtain ⟨_,found,stored,again,-,looked,sorted,placed,few,rfl⟩ := exploitation_loops ran
  cases last.symm.trans again
  have listed := find_misses looked
  rw [List.filter_eq_self.mpr (fun pt _ => by rw [unknown pt]; rfl),
    List.filter_eq_self.mpr (fun j _ => by cases frame[j]? <;> simp [unknown])] at listed
  rw [List.take_of_length_le size.le] at listed
  refine ⟨by rw [listed.1],?_⟩
  have written := placed.written
  rw [listed.1,listed.2] at written
  have same : stored.1 = c.evaluateFunc frame := by
    apply List.ext_getElem?
    intro j
    rcases Nat.lt_or_ge j c.pointNum with small | large
    · exact written j (answers.symm ▸ small) j (List.getElem?_range small)
    · rw [List.getElem?_eq_none (by rw [placed.size,sorted.size]; exact large)]
      rw [List.getElem?_eq_none (by rw [answers]; exact large)]
  rw [same]

theorem exploitation_returns (last : s.ptHistory.getLast? = some frame)
    (enough : c.pointNum ≤ frame.length)
    (few : ∀ points, (c.evaluateFunc points).length ≤ points.length) :
    ∃ t, s.exploitation c = some t := by
  obtain ⟨found,looked,sorted⟩ := find_returns s.pt2Val enough
  obtain ⟨stored,scattered,-⟩ := scatter_returns sorted (few found.newPoints)
  simp [Search.exploitation,last,looked,scattered]

end Spec
end Frame
end MetaPB.Optimizer

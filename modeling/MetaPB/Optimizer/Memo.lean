import MetaPB.Optimizer.Exploitation

/-! Runs of the main loop: one turn as evaluation, logging and the derived optimiser's own
steps, the lengths of the histories, and the cache over a whole run, which knows exactly
the points of the frames evaluated so far. -/
namespace MetaPB.Optimizer
open Lib.Loop

variable {aType vType σ : Type} [LinearOrder aType] [LinearOrder vType] [Zero vType]
  {c : Settings aType vType} {d : Derived aType vType σ} {count : Nat}

omit [Zero vType] in
theorem convergeLogging_frame {s t : Search aType vType} (ran : s.convergeLogging = some t) :
    t = { s with
      gBestVal := t.gBestVal
      gBestPt := t.gBestPt
      gBestPtHist := s.gBestPtHist ++ [t.gBestPt]
      gBestValHist := s.gBestValHist ++ [t.gBestVal] } := by
  simp only [Search.convergeLogging,Option.bind_eq_bind,Option.bind_eq_some_iff] at ran
  obtain ⟨_,-,_,-,_,-,best,-,same⟩ := ran
  cases Option.some.inj same
  rfl

/-- What evaluation and logging add to the members, whatever becomes of the frames. -/
structure Recorded (s middle t : Search aType vType) (result : List vType)
    (newPoints : List (List aType)) : Prop where
  values : t.valHistory = s.valHistory ++ [result]
  learnt : t.pt2Val = middle.pt2Val
  calls : t.evaluateCalls = s.evaluateCalls ++ [newPoints]
  bestPoints : t.gBestPtHist = s.gBestPtHist ++ [t.gBestPt]
  bestValues : t.gBestValHist = s.gBestValHist ++ [t.gBestVal]

theorem Evaluated.recorded {s middle logged t : Search aType vType} {frame newPoints : List (List aType)}
    {result : List vType} (evaluated : Evaluated c s middle frame result newPoints)
    (converged : middle.convergeLogging = some logged)
    (ended : t = { logged with ptHistory := t.ptHistory }) : Recorded s middle t result newPoints := by
  rw [ended,convergeLogging_frame converged]
  refine ⟨?_,rfl,?_,?_,?_⟩ <;> rw [evaluated.record]

theorem turn_cases {s t : Search aType vType} {members own : σ} {frmIdx : Nat}
    (ran : turn c d frmIdx (s,members) = some (t,own)) :
    ∃ evaluated logged extracted, s.exploitation c = some evaluated ∧
      evaluated.convergeLogging = some logged ∧ d.extraction logged members = some extracted ∧
      (frmIdx = c.iterNum - 1 ∧ t = logged ∧ own = extracted ∨
        frmIdx ≠ c.iterNum - 1 ∧ ∃ newFrm, d.exploration logged extracted = some (newFrm,own) ∧
          t = { logged with ptHistory := logged.ptHistory ++ [newFrm] }) := by
  simp only [turn,Option.bind_eq_bind,Option.bind_eq_some_iff] at ran
  obtain ⟨evaluated,exploited,logged,converged,extracted,gathered,rest⟩ := ran
  refine ⟨evaluated,logged,extracted,exploited,converged,gathered,?_⟩
  split at rest
  next explores =>
    obtain ⟨explored,proposed,same⟩ := Option.bind_eq_some_iff.mp rest
    cases Option.some.inj same
    exact Or.inr ⟨explores,explored.1,proposed,rfl⟩
  next last =>
    cases Option.some.inj rest
    exact Or.inl ⟨not_not.mp last,rfl,rfl⟩

/-- The lengths of the histories after some turns: a frame is explored in every turn but the last. -/
structure Shaped (c : Settings aType vType) (count : Nat) (s : Search aType vType) : Prop where
  points : s.ptHistory.length = min (count + 1) (max c.iterNum 1)
  values : s.valHistory.length = count
  calls : s.evaluateCalls.length = count
  bestPoints : s.gBestPtHist.length = count
  bestValues : s.gBestValHist.length = count

section Lengths
omit [LinearOrder vType] [Zero vType]
variable {s : Search aType vType}

theorem Shaped.started (shaped : Shaped c count s) (inside : count < c.iterNum) :
    s.ptHistory.length = count + 1 := by
  rw [shaped.points]
  omega

theorem Shaped.ended (shaped : Shaped c c.iterNum s) (turning : 0 < c.iterNum) :
    s.ptHistory.length = c.iterNum := by
  rw [shaped.points]
  omega

theorem Shaped.paired (shaped : Shaped c count s) (inside : count < c.iterNum) :
    (s.ptHistory.take count).length = s.valHistory.length := by
  rw [List.length_take,shaped.started inside,shaped.values]
  omega

theorem Shaped.current {frame : List (List aType)} (shaped : Shaped c count s)
    (inside : count < c.iterNum) (last : s.ptHistory.getLast? = some frame) :
    s.ptHistory.take count ++ [frame] = s.ptHistory := by
  have length := shaped.started inside
  have placed : s.ptHistory[count]? = some frame := by
    rw [← last,List.getLast?_eq_getElem?,length,Nat.add_sub_cancel]
  have whole := List.take_add_one (l := s.ptHistory) (i := count)
  rw [placed,Option.toList_some,List.take_of_length_le length.le] at whole
  exact whole.symm

theorem Shaped.next {middle t : Search aType vType} {result : List vType} {newPoints : List (List aType)}
    (shaped : Shaped c count s) (recorded : Recorded s middle t result newPoints)
    (points : t.ptHistory.length = min (count + 1 + 1) (max c.iterNum 1)) : Shaped c (count + 1) t := by
  refine ⟨points,?_,?_,?_,?_⟩
  · simp [recorded.values,shaped.values]
  · simp [recorded.calls,shaped.calls]
  · simp [recorded.bestPoints,shaped.bestPoints]
  · simp [recorded.bestValues,shaped.bestValues]

end Lengths

/-- One turn evaluates and logs the last frame, and may append one. -/
structure Turned (c : Settings aType vType) (count : Nat) (s t : Search aType vType)
    (frame : List (List aType)) (result : List vType) (newPoints : List (List aType)) : Prop where
  current : s.ptHistory.take (count + 1) = s.ptHistory.take count ++ [frame]
  last : s.ptHistory.getLast? = some frame
  enough : c.pointNum ≤ frame.length
  evaluated : ∃ middle logged, Evaluated c s middle frame result newPoints ∧
    middle.convergeLogging = some logged ∧ t = { logged with ptHistory := t.ptHistory }
  points : t.ptHistory.take (count + 1) = s.ptHistory.take (count + 1)

theorem turn_turned {s t : Search aType vType} {members own : σ} (shaped : Shaped c count s)
    (inside : count < c.iterNum) (ran : turn c d count (s,members) = some (t,own)) :
    Shaped c (count + 1) t ∧ ∃ frame result newPoints, Turned c count s t frame result newPoints := by
  obtain ⟨middle,logged,_,exploited,converged,-,ended⟩ := turn_cases ran
  obtain ⟨frame,result,newPoints,last,enough,evaluated⟩ := exploitation_evaluated exploited
  have length := shaped.started inside
  have kept : logged.ptHistory = s.ptHistory := by
    rw [convergeLogging_frame converged,evaluated.record]
  have current : s.ptHistory.take (count + 1) = s.ptHistory.take count ++ [frame] := by
    rw [List.take_of_length_le length.le,shaped.current inside last]
  rcases ended with ⟨final,rfl,-⟩ | ⟨more,newFrm,-,rfl⟩
  · refine ⟨shaped.next (evaluated.recorded converged rfl) ?_,frame,result,newPoints,current,last,enough,
      ⟨middle,t,evaluated,converged,rfl⟩,by rw [kept]⟩
    rw [kept,length]
    omega
  · refine ⟨shaped.next (evaluated.recorded converged rfl) ?_,frame,result,newPoints,current,last,enough,
      ⟨middle,logged,evaluated,converged,rfl⟩,?_⟩
    · simp only [List.length_append,kept,length,List.length_singleton]
      omega
    · simp only [kept]
      rw [List.take_append_of_le_length (by omega)]

theorem turns_invariant (holds : Nat → Search aType vType → Prop) {s t : Search aType vType}
    {members own : σ} (within : count ≤ c.iterNum) (shaped : Shaped c 0 s) (start : holds 0 s)
    (kept : ∀ count s t frame result newPoints, count < c.iterNum → Shaped c count s →
      holds count s → Turned c count s t frame result newPoints → holds (count + 1) t)
    (ran : turns c d count (s,members) = some (t,own)) : Shaped c count t ∧ holds count t := by
  refine loop_invariant (fun count current => Shaped c count current.1 ∧ holds count current.1)
    ⟨shaped,start⟩ ?_ ran
  intro i below current next invariant stepped
  obtain ⟨before,held⟩ := invariant
  have inside : i < c.iterNum := by omega
  obtain ⟨after,frame,result,newPoints,turned⟩ := turn_turned before inside stepped
  exact ⟨after,kept i _ _ frame result newPoints inside before held turned⟩

theorem start_shaped [NumericLimits vType] (firstFrm : List (List aType)) :
    Shaped c 0 (Search.start firstFrm : Search aType vType) :=
  ⟨by simp [Search.start],rfl,rfl,rfl,rfl⟩

section Cache
variable {f : List aType → vType}

/-- The points of the frames evaluated in the first turns. -/
def evaluatedFrames (c : Settings aType vType) (count : Nat) (s : Search aType vType) :
    List (List (List aType)) :=
  (s.ptHistory.take count).map (·.take c.pointNum)

/-- The values are those of plain evaluation, and the cache is the evaluation function
restricted to the evaluated points. -/
structure Memoised (c : Settings aType vType) (f : List aType → vType) (count : Nat)
    (s : Search aType vType) : Prop where
  values : s.valHistory = (evaluatedFrames c count s).map (List.map f)
  known : ∀ pt, s.pt2Val[pt]? =
    if pt ∈ (evaluatedFrames c count s).flatten then some (f pt) else none
  fresh : ∀ (k : Nat) call, s.evaluateCalls[k]? = some call → ∀ pt ∈ call,
    pt ∉ ((evaluatedFrames c count s).take k).flatten

theorem Turned.evaluatedFrames {s t : Search aType vType} {frame : List (List aType)}
    {result : List vType} {newPoints : List (List aType)}
    (turned : Turned c count s t frame result newPoints) :
    evaluatedFrames c (count + 1) t = evaluatedFrames c count s ++ [frame.take c.pointNum] := by
  unfold MetaPB.Optimizer.evaluatedFrames
  rw [turned.points,turned.current,List.map_append]
  rfl

section Plain
variable {s t : Search aType vType} {frame : List (List aType)} {result : List vType}
  {newPoints : List (List aType)}

omit [LinearOrder vType] in
theorem Evaluated.mem_newPoints (evaluated : Evaluated c s t frame result newPoints) (pt : List aType) :
    pt ∈ newPoints ↔ pt ∈ frame.take c.pointNum ∧ s.pt2Val[pt]? = none := by
  constructor
  · intro member
    obtain ⟨uncached,j,small,placed⟩ := evaluated.fresh pt member
    exact ⟨mem_take_of_getElem? small placed,uncached⟩
  · intro found
    obtain ⟨member,uncached⟩ := found
    obtain ⟨j,listed⟩ := List.mem_iff_getElem?.mp member
    have small : j < c.pointNum := by
      have bound := (List.getElem?_eq_some_iff.mp listed).1
      rw [List.length_take] at bound
      omega
    rw [List.getElem?_take_of_lt small] at listed
    obtain ⟨k,new,-⟩ := evaluated.miss j small pt listed uncached
    exact List.mem_of_getElem? new

omit [LinearOrder vType] in
theorem Evaluated.pt2Val_eq (evaluated : Evaluated c s t frame result newPoints)
    (pointwise : ∀ points, c.evaluateFunc points = points.map f) (pt : List aType) :
    t.pt2Val[pt]? = if pt ∈ newPoints then some (f pt) else s.pt2Val[pt]? := by
  rcases evaluated.learnt pt with ⟨k,below,new,value⟩ | ⟨absent,value⟩
  · rw [if_pos (List.mem_of_getElem? new),value,pointwise]
    simp [new]
  · have notNew : pt ∉ newPoints := by
      intro member
      obtain ⟨k,new⟩ := List.mem_iff_getElem?.mp member
      apply absent k _ new
      rw [pointwise,List.length_map]
      exact (List.getElem?_eq_some_iff.mp new).1
    rw [if_neg notNew,value]

omit [LinearOrder vType] in
theorem Evaluated.result_eq (evaluated : Evaluated c s t frame result newPoints)
    (enough : c.pointNum ≤ frame.length)
    (pointwise : ∀ points, c.evaluateFunc points = points.map f)
    (sound : ∀ pt val, s.pt2Val[pt]? = some val → val = f pt) :
    result = (frame.take c.pointNum).map f := by
  apply List.ext_getElem?
  intro j
  rcases Nat.lt_or_ge j c.pointNum with small | large
  · have placed := List.getElem?_eq_getElem (small.trans_le enough)
    have plain : ((frame.take c.pointNum).map f)[j]? = some (f frame[j]) := by
      simp [small,placed]
    rw [plain]
    cases cached : s.pt2Val[frame[j]]? with
    | some val => rw [evaluated.hit j small _ val placed cached,sound _ val cached]
    | none =>
      obtain ⟨k,new,value⟩ := evaluated.miss j small _ placed cached
      rw [value,pointwise]
      simp [new]
  · rw [List.getElem?_eq_none (by rw [evaluated.size]; exact large)]
    rw [List.getElem?_eq_none (by simp only [List.length_map,List.length_take]; omega)]

theorem Memoised.next (pointwise : ∀ points, c.evaluateFunc points = points.map f)
    (shaped : Shaped c count s) (inside : count < c.iterNum) (before : Memoised c f count s)
    (turned : Turned c count s t frame result newPoints) : Memoised c f (count + 1) t := by
  obtain ⟨middle,logged,evaluated,converged,ended⟩ := turned.evaluated
  obtain ⟨values,learnt,calls,-,-⟩ := evaluated.recorded converged ended
  have sound (pt : List aType) (val : vType) (cached : s.pt2Val[pt]? = some val) : val = f pt := by
    rw [before.known pt] at cached
    split at cached
    next => exact (Option.some.inj cached).symm
    next => contradiction
  have unknown (pt : List aType) :
      s.pt2Val[pt]? = none ↔ pt ∉ (evaluatedFrames c count s).flatten := by
    rw [before.known pt]
    simp
  refine ⟨?_,?_,?_⟩
  · rw [values,turned.evaluatedFrames,List.map_append,← before.values]
    rw [evaluated.result_eq turned.enough pointwise sound,List.map_singleton]
  · intro pt
    have new : pt ∈ newPoints ↔
        pt ∈ frame.take c.pointNum ∧ pt ∉ (evaluatedFrames c count s).flatten := by
      rw [evaluated.mem_newPoints,unknown]
    rw [turned.evaluatedFrames,learnt,evaluated.pt2Val_eq pointwise,before.known]
    rw [List.flatten_append,List.flatten_singleton]
    simp only [List.mem_append,new]
    rcases Classical.em (pt ∈ (evaluatedFrames c count s).flatten) with old | unseen
    · simp [old]
    · simp [unseen]
  · intro k call listed pt member
    have frames : (evaluatedFrames c count s).length = count := by
      rw [evaluatedFrames,List.length_map,shaped.paired inside,shaped.values]
    rw [turned.evaluatedFrames]
    rw [calls] at listed
    rcases getElem?_snoc listed with ⟨earlier,old⟩ | ⟨rfl,rfl⟩
    · rw [shaped.calls] at earlier
      rw [List.take_append_of_le_length (by omega)]
      exact before.fresh k call old pt member
    · rw [shaped.calls,List.take_append_of_le_length (by omega),List.take_of_length_le (by omega)]
      exact (unknown pt).mp ((evaluated.mem_newPoints pt).mp member).2

end Plain

/-- With an exact cache, memoised evaluation is plain evaluation. -/
theorem turns_memoised (pointwise : ∀ points, c.evaluateFunc points = points.map f)
    {first s : Search aType vType} {members own : σ} (within : count ≤ c.iterNum)
    (shaped : Shaped c 0 first) (unknown : first.pt2Val = ∅)
    (ran : turns c d count (first,members) = some (s,own)) : Shaped c count s ∧ Memoised c f count s := by
  have start : Memoised c f 0 first := by
    refine ⟨?_,?_,?_⟩
    · rw [List.length_eq_zero_iff.mp shaped.values]
      rfl
    · intro pt
      simp [unknown,evaluatedFrames]
    · intro k call listed
      simp [List.length_eq_zero_iff.mp shaped.calls] at listed
  exact turns_invariant (Memoised c f) within shaped start
    (fun _ _ _ _ _ _ inside shaped before turned => before.next pointwise shaped inside turned) ran

end Cache
end MetaPB.Optimizer

import MetaPB.Optimizer.ParticleMemory

/-! Runs with any values, `max()` among them. What is recorded is what the evaluation function
answered, and a search of more than one turn returns exactly when its first answers leave what
the first exploration reads: a best point, and in a swarm one for every particle. -/
namespace MetaPB.Optimizer
open Lib Lib.Loop Lib.Best Coordinate

section Answers
variable {aType vType σ : Type} [LinearOrder aType] [LinearOrder vType] [Zero vType]
  {c : Settings aType vType} {d : Derived aType vType σ} {s t : Search aType vType}

/-- A value the evaluation function has answered in this search. -/
def Answered (c : Settings aType vType) (s : Search aType vType) (val : vType) : Prop :=
  ∃ call ∈ s.evaluateCalls, val ∈ c.evaluateFunc call

/-- The cache and the record hold answers, and the record holds all of them. -/
structure Reported (c : Settings aType vType) (s : Search aType vType) : Prop where
  cached : ∀ (pt : List aType) val, s.pt2Val[pt]? = some val → Answered c s val
  recorded : ∀ val, (∃ values ∈ s.valHistory, val ∈ values) ↔ Answered c s val

omit [LinearOrder vType] in
theorem Reported.next (full : ∀ points, (c.evaluateFunc points).length = points.length)
    (before : Reported c s) (exploited : s.exploitation c = some t) : Reported c t := by
  obtain ⟨frame,result,newPoints,-,enough,evaluated⟩ := exploitation_evaluated exploited
  obtain ⟨call,values,calls,recorded,answers⟩ := exploitation_answers exploited
  have same : newPoints = call ∧ result = values := by
    rw [evaluated.record] at calls recorded
    exact ⟨List.singleton_inj.mp (List.append_cancel_left calls),
      List.singleton_inj.mp (List.append_cancel_left recorded)⟩
  obtain ⟨rfl,rfl⟩ := same
  have grows (val : vType) : Answered c t val ↔ Answered c s val ∨ val ∈ c.evaluateFunc newPoints := by
    simp [Answered,calls,or_and_right,exists_or]
  have new : ∀ k < newPoints.length, Answered c t ((c.evaluateFunc newPoints).getD k 0) := by
    intro k small
    rw [grows,List.getD_eq_getElem _ _ (full newPoints ▸ small)]
    exact Or.inr (List.getElem_mem _)
  have known : ∀ (pt : List aType) val, s.pt2Val[pt]? = some val → Answered c t val :=
    fun pt val stored => (grows val).mpr (Or.inl (before.cached pt val stored))
  obtain ⟨all,learnt⟩ := evaluated.all_of_answers new known enough
  refine ⟨learnt,fun val => ⟨?_,?_⟩⟩
  · intro listed
    obtain ⟨frm,member,inFrm⟩ := listed
    rw [recorded] at member
    rcases List.mem_append.mp member with old | new
    · exact (grows val).mpr (Or.inl ((before.recorded val).mp ⟨frm,old,inFrm⟩))
    · rw [List.mem_singleton.mp new] at inFrm
      exact all val inFrm
  · intro answered
    rw [recorded]
    rcases (grows val).mp answered with old | new
    · obtain ⟨frm,member,inFrm⟩ := (before.recorded val).mpr old
      exact ⟨frm,List.mem_append_left _ member,inFrm⟩
    · exact ⟨result,List.mem_append_right _ (List.mem_singleton_self _),answers val new⟩

theorem turns_reported [NumericLimits vType]
    (full : ∀ points, (c.evaluateFunc points).length = points.length) {firstFrm : List (List aType)}
    {members own : σ} {count : Nat}
    (ran : turns c d count (Search.start firstFrm,members) = some (s,own)) : Reported c s := by
  refine loop_invariant (fun _ (current : Search aType vType × σ) => Reported c current.1)
    ⟨by simp [Search.start],by simp [Search.start,Answered]⟩ ?_ ran
  intro i _ current next before turned
  obtain ⟨middle,logged,extracted,exploited,logging,-,ended⟩ := turn_cases turned
  have reported := before.next full exploited
  rcases ended with ⟨-,same,-⟩ | ⟨-,newFrm,-,same⟩
  · rw [same,convergeLogging_frame logging]
    exact ⟨reported.cached,reported.recorded⟩
  · rw [same,convergeLogging_frame logging]
    exact ⟨reported.cached,reported.recorded⟩

end Answers

section Reads
variable {aType vType σ : Type} [LinearOrder aType] {c : Settings aType vType}

theorem exploreFrame_reads (keeps : σ → Prop) (found : Nat → Nat → Prop)
    {origin : Nat → Option (List aType)} {move : Nat → Nat → List aType → σ → Option (aType × σ)}
    {members next : σ} {newFrm : List (List aType)} (kept : keeps members)
    (origins : ∀ i pt, origin i = some pt → pt.length = c.dimNum)
    (moves : ∀ ptIdx dimIdx newPt members moved next, keeps members →
      move ptIdx dimIdx newPt members = some (moved,next) → found ptIdx dimIdx ∧ keeps next)
    (ran : exploreFrame c origin move members = some (newFrm,next)) :
    ∀ i < c.pointNum, ∀ d < c.dimNum, found i d := by
  obtain ⟨size,-,points⟩ := exploreFrame_settled keeps (fun i d _ => found i d) kept
    (fun ptIdx _ dimIdx _ _ newPt members moved next _ _ _ _ kept called _ _ =>
      moves ptIdx dimIdx newPt members moved next kept called) ran
  intro i small d inside
  obtain ⟨start,placed,settled⟩ := points i _ (List.getElem?_eq_getElem (size.symm ▸ small))
  have wide := settled.size.trans (origins i start placed)
  exact settled.done d inside _ (List.getElem?_eq_getElem (wide.symm ▸ inside))

end Reads

section Launch
variable {aType vType σ : Type} [LinearOrder aType] [LinearOrder vType] [Zero vType] [NumericLimits vType]
  {c : Settings aType vType} {d : Derived aType vType σ} {keeps : σ → Prop}
  {firstFrm : List (List aType)} {members : σ}

omit [NumericLimits vType] in
/-- A best point inside the box stays there, and a value below the best so far brings one. -/
theorem Evaluated.logged_inBox {s middle logged : Search aType vType} {frame newPoints : List (List aType)}
    {result : List vType} (evaluated : Evaluated c s middle frame result newPoints)
    (last : s.ptHistory.getLast? = some frame) (boxed : c.FrameInBox frame)
    (converged : middle.convergeLogging = some logged)
    (best : c.InBox s.gBestPt ∨ ∃ val ∈ result, val < s.gBestVal) : c.InBox logged.gBestPt := by
  obtain ⟨index,least,first,chosen⟩ := evaluated.logged_first last converged
  rcases chosen with ⟨-,-,placed⟩ | ⟨larger,-,same⟩
  · exact boxed.inside _ (List.mem_of_getElem? placed)
  · rw [same]
    refine best.resolve_right fun low => ?_
    obtain ⟨val,member,smaller⟩ := low
    obtain ⟨i,listed⟩ := List.mem_iff_getElem?.mp member
    have above := first.2.1 i (List.getElem?_eq_some_iff.mp listed).1 val listed
    exact absurd (smaller.trans_le larger) (not_lt.mpr above)

/-- A run between two turns, the first one done: its best point lies in the box. -/
structure Underway (c : Settings aType vType) (keeps : σ → Prop) (count : Nat)
    (current : Search aType vType × σ) : Prop where
  shaped : Shaped c count current.1
  frames : ∀ frame ∈ current.1.ptHistory, c.FrameInBox frame
  ongoing : count < c.iterNum → c.InBox current.1.gBestPt ∧ keeps current.2

omit [NumericLimits vType] in
theorem Underway.next {count : Nat} {current : Search aType vType × σ} (valid : c.Valid)
    (steady : d.Steady c keeps) (inside : count < c.iterNum) (before : Underway c keeps count current) :
    ∃ next, turn c d count current = some next ∧ Underway c keeps (count + 1) next := by
  obtain ⟨s,members⟩ := current
  obtain ⟨frame,middle,logged,result,newPoints,last,boxed,exploited,evaluated,converged,points,-,recent⟩ :=
    logging_returns valid before.frames (List.ne_nil_of_length_eq_add_one (before.shaped.started inside))
  obtain ⟨inBox,kept⟩ := before.ongoing inside
  have best := evaluated.logged_inBox last boxed converged (Or.inl inBox)
  obtain ⟨extracted,gathered,explores⟩ := steady logged members recent kept
  obtain ⟨t,own,ran,frames,ended,held⟩ := turn_ends exploited converged gathered
    (by rw [points]; exact before.frames) fun _ => explores best
  refine ⟨(t,own),ran,(turn_turned before.shaped inside ran).1,frames,fun below => ⟨?_,held (by omega)⟩⟩
  rw [ended]
  exact best

/-- What the first turn asks of a derived optimiser: where it explores, some answer is below
`max()` and the exploration returns. -/
structure Derived.Launches (c : Settings aType vType) (d : Derived aType vType σ) (keeps : σ → Prop)
    (firstFrm : List (List aType)) (members : σ) : Prop where
  gathers : ∀ logged, Recent c logged → ∃ extracted, d.extraction logged members = some extracted
  low : 1 < c.iterNum → ∃ val ∈ c.evaluateFunc firstFrm, val < NumericLimits.max
  explores : 1 < c.iterNum → ∀ logged extracted, Recent c logged → c.InBox logged.gBestPt →
    logged.valHistory.getLast? = some (c.evaluateFunc firstFrm) →
    d.extraction logged members = some extracted → ∃ newFrm next,
      d.exploration logged extracted = some (newFrm,next) ∧ c.FrameInBox newFrm ∧ keeps next

theorem start_exploitation (full : ∀ points, (c.evaluateFunc points).length = points.length)
    (boxed : c.FrameInBox firstFrm) {middle : Search aType vType} {result : List vType}
    {frame newPoints : List (List aType)}
    (exploited : (Search.start firstFrm).exploitation c = some middle)
    (evaluated : Evaluated c (Search.start firstFrm) middle frame result newPoints) :
    result = c.evaluateFunc firstFrm := by
  obtain ⟨-,values⟩ := exploitation_blank (by simp [Search.start]) rfl boxed.size
    ((full firstFrm).trans boxed.size) exploited
  rw [evaluated.record] at values
  exact List.singleton_inj.mp (List.append_cancel_left values)

theorem Derived.Launches.next (valid : c.Valid) (full : ∀ points, (c.evaluateFunc points).length = points.length)
    (boxed : c.FrameInBox firstFrm) (launches : d.Launches c keeps firstFrm members) :
    ∃ next, turn c d 0 (Search.start firstFrm,members) = some next ∧ Underway c keeps 1 next := by
  have frames : ∀ frame ∈ (Search.start firstFrm : Search aType vType).ptHistory, c.FrameInBox frame := by
    intro frame member
    rwa [List.mem_singleton.mp member]
  obtain ⟨frame,middle,logged,result,newPoints,last,-,exploited,evaluated,converged,points,values,recent⟩ :=
    logging_returns valid frames (List.cons_ne_nil _ _)
  cases Option.some.inj last
  have first := start_exploitation full boxed exploited evaluated
  rw [first] at values
  have iterations := valid.iterations
  have best (more : 1 < c.iterNum) : c.InBox logged.gBestPt :=
    evaluated.logged_inBox last boxed converged (Or.inr (first ▸ launches.low more))
  obtain ⟨extracted,gathered⟩ := launches.gathers logged recent
  have explores (more : 0 ≠ c.iterNum - 1) := launches.explores (by omega) logged extracted recent
    (best (by omega)) (by rw [values]; exact List.getLast?_concat) gathered
  obtain ⟨t,own,ran,frames,ended,held⟩ := turn_ends exploited converged gathered
    (by rw [points]; exact frames) explores
  refine ⟨(t,own),ran,(turn_turned (start_shaped firstFrm) iterations ran).1,frames,
    fun below => ⟨?_,held (by omega)⟩⟩
  rw [ended]
  exact best below

theorem exec_launched (valid : c.Valid) (full : ∀ points, (c.evaluateFunc points).length = points.length)
    (steady : d.Steady c keeps) (boxed : c.FrameInBox firstFrm)
    (launches : d.Launches c keeps firstFrm members) :
    ∃ s own, exec c d (Search.start firstFrm,members) = some (s,own) ∧
      ∀ frame ∈ s.ptHistory, c.FrameInBox frame := by
  have iterations := valid.iterations
  have looped : ∃ next, exec c d (Search.start firstFrm,members) = some next ∧
      (c.iterNum = 0 ∧ next = (Search.start firstFrm,members) ∨ Underway c keeps c.iterNum next) := by
    apply loop_returns (fun count current =>
      count = 0 ∧ current = (Search.start firstFrm,members) ∨ Underway c keeps count current) (Or.inl ⟨rfl,rfl⟩)
    intro i inside current before
    rcases before with ⟨rfl,rfl⟩ | before
    · obtain ⟨next,ran,underway⟩ := launches.next valid full boxed
      exact ⟨next,ran,Or.inr underway⟩
    · obtain ⟨next,ran,underway⟩ := before.next valid steady inside
      exact ⟨next,ran,Or.inr underway⟩
  obtain ⟨⟨s,own⟩,ran,ended⟩ := looped
  exact ⟨s,own,ran,(ended.resolve_left fun none => by omega).frames⟩

theorem exec_explored (full : ∀ points, (c.evaluateFunc points).length = points.length)
    (boxed : c.FrameInBox firstFrm) (more : 1 < c.iterNum)
    (returns : (exec c d (Search.start firstFrm,members)).isSome = true) :
    ∃ logged extracted newFrm own, logged.ptHistory = [firstFrm] ∧
      logged.valHistory = [c.evaluateFunc firstFrm] ∧ d.extraction logged members = some extracted ∧
      d.exploration logged extracted = some (newFrm,own) ∧
      (logged.gBestPt ≠ [] → ∃ val ∈ c.evaluateFunc firstFrm, val < NumericLimits.max) := by
  obtain ⟨next,ran⟩ := Option.isSome_iff_exists.mp returns
  obtain ⟨one,first⟩ := loop_prefix ran more.le
  rw [loop_succ] at first
  obtain ⟨middle,logged,extracted,exploited,converged,gathered,ended⟩ := turn_cases first
  obtain ⟨frame,result,newPoints,last,-,evaluated⟩ := exploitation_evaluated exploited
  have values := start_exploitation full boxed exploited evaluated
  have read : logged.ptHistory = [firstFrm] ∧ logged.valHistory = [c.evaluateFunc firstFrm] := by
    rw [convergeLogging_frame converged,evaluated.record,values]
    exact ⟨rfl,rfl⟩
  obtain ⟨index,best,least,chosen⟩ := evaluated.logged_first last converged
  rcases ended with ⟨final,-⟩ | ⟨-,newFrm,explored,-⟩
  · omega
  · refine ⟨logged,extracted,newFrm,_,read.1,read.2,gathered,explored,fun known => ?_⟩
    rcases chosen with ⟨smaller,-⟩ | ⟨-,-,same⟩
    · exact ⟨best,values ▸ List.mem_of_getElem? least.1,smaller⟩
    · exact absurd same known

theorem turns_first_call (full : ∀ points, (c.evaluateFunc points).length = points.length)
    (boxed : c.FrameInBox firstFrm) {s : Search aType vType} {own : σ} {count : Nat} (positive : 0 < count)
    (ran : turns c d count (Search.start firstFrm,members) = some (s,own)) :
    firstFrm ∈ s.evaluateCalls := by
  have invariant : count = 0 ∧ (s,own) = (Search.start firstFrm,members) ∨ firstFrm ∈ s.evaluateCalls := by
    refine loop_invariant (fun count (current : Search aType vType × σ) =>
      count = 0 ∧ current = (Search.start firstFrm,members) ∨ firstFrm ∈ current.1.evaluateCalls)
      (Or.inl ⟨rfl,rfl⟩) ?_ ran
    intro i _ current next before turned
    obtain ⟨middle,logged,extracted,exploited,logging,-,ended⟩ := turn_cases turned
    have calls : next.1.evaluateCalls = middle.evaluateCalls := by
      rcases ended with ⟨-,same,-⟩ | ⟨-,_,-,same⟩ <;> rw [same,convergeLogging_frame logging]
    obtain ⟨newPoints,_,grown,-,-⟩ := exploitation_answers exploited
    rw [calls]
    rcases before with ⟨-,rfl⟩ | old
    · obtain ⟨first,-⟩ := exploitation_blank (by simp [Search.start]) rfl boxed.size
        ((full firstFrm).trans boxed.size) exploited
      rw [first]
      exact Or.inr (List.mem_append_right _ (List.mem_singleton_self _))
    · rw [grown]
      exact Or.inr (List.mem_append_left _ old)
  exact invariant.resolve_left fun none => by omega

theorem Derived.Steady.launches (steady : d.Steady c keeps) (kept : keeps members)
    (low : 1 < c.iterNum → ∃ val ∈ c.evaluateFunc firstFrm, val < NumericLimits.max) :
    d.Launches c keeps firstFrm members := by
  refine ⟨fun logged recent => ?_,low,fun _ logged extracted recent best _ gathered => ?_⟩
  · obtain ⟨extracted,gathered,-⟩ := steady logged members recent kept
    exact ⟨extracted,gathered⟩
  · obtain ⟨_,again,explores⟩ := steady logged members recent kept
    cases gathered.symm.trans again
    exact explores best

/-- A steady optimiser whose exploration reads the best point returns when it has one turn at most
or an answer below `max()` for its first frame. -/
theorem Derived.Steady.exec_isSome_iff (steady : d.Steady c keeps) (kept : keeps members) (valid : c.Valid)
    (full : ∀ points, (c.evaluateFunc points).length = points.length) (boxed : c.FrameInBox firstFrm)
    (reads : ∀ s extracted explored, d.exploration s extracted = some explored → s.gBestPt ≠ []) :
    (exec c d (Search.start firstFrm,members)).isSome = true ↔
      (1 < c.iterNum → ∃ val ∈ c.evaluateFunc firstFrm, val < NumericLimits.max) := by
  constructor
  · intro returns more
    obtain ⟨logged,extracted,newFrm,own,-,-,-,explored,low⟩ := exec_explored full boxed more returns
    exact low (reads logged extracted _ explored)
  · intro low
    obtain ⟨s,own,ran,-⟩ := exec_launched valid full steady boxed (steady.launches kept low)
    exact Option.isSome_iff_exists.mpr ⟨_,ran⟩

end Launch

section Optimisers
variable {aType vType : Type} [LinearOrder aType] [Zero aType] [Add aType] [Coordinate aType]
  [LinearOrder vType] [Zero vType] [NumericLimits vType] {c : Settings aType vType} {draws : Draws aType}
  {q : Quotient} {firstFrm : List (List aType)}

omit [Add aType] [Coordinate aType] [LinearOrder vType] [Zero vType] [NumericLimits vType] in
theorem blank_reads_best {σ : Type} {s : Search aType vType} {members : σ} {explored : List (List aType) × σ}
    {move : Nat → Nat → List aType → σ → Option (aType × σ)} (valid : c.Valid) (positive : 0 < c.dimNum)
    (moves : ∀ ptIdx dimIdx newPt members moved, move ptIdx dimIdx newPt members = some moved →
      ∃ x, s.gBestPt[dimIdx]? = some x)
    (ran : exploreFrame c (blankOrigin c s) move members = some explored) : s.gBestPt ≠ [] := by
  have points := valid.points
  obtain ⟨x,bestAt⟩ := exploreFrame_reads (fun _ => True) (fun _ d => ∃ x, s.gBestPt[d]? = some x) trivial
    (fun _ _ => blankOrigin_length) (fun ptIdx dimIdx newPt members _ _ _ called =>
      ⟨moves ptIdx dimIdx newPt members _ called,trivial⟩) ran 0 (by omega) 0 positive
  exact List.ne_nil_of_mem (List.mem_of_getElem? bestAt)

theorem AOA.exec_isSome_iff (valid : c.Valid) (full : ∀ points, (c.evaluateFunc points).length = points.length)
    (positive : 0 < c.dimNum) (boxed : c.FrameInBox firstFrm) :
    (exec c (AOA.derived c draws q) (Search.start firstFrm,AOA.construct)).isSome = true ↔
      (1 < c.iterNum → ∃ val ∈ c.evaluateFunc firstFrm, val < NumericLimits.max) := by
  refine (AOA.steady draws q valid).exec_isSome_iff trivial valid full boxed ?_
  intro s extracted explored ran
  refine blank_reads_best valid positive ?_ ran
  intro ptIdx dimIdx newPt members moved called
  simp only [AOA.move,Option.bind_eq_bind,Option.bind_eq_some_iff] at called
  obtain ⟨_,-,_,-,gBest,bestAt,-⟩ := called
  exact ⟨gBest,bestAt⟩

theorem RSA.exec_isSome_iff (valid : c.Valid) (full : ∀ points, (c.evaluateFunc points).length = points.length)
    (positive : 0 < c.dimNum) (boxed : c.FrameInBox firstFrm) :
    (exec c (RSA.derived c draws q) (Search.start firstFrm,{})).isSome = true ↔
      (1 < c.iterNum → ∃ val ∈ c.evaluateFunc firstFrm, val < NumericLimits.max) := by
  refine (RSA.steady draws q valid).exec_isSome_iff trivial valid full boxed ?_
  intro s extracted explored ran
  refine blank_reads_best valid positive ?_ ran
  intro ptIdx dimIdx newPt members moved called
  simp only [RSA.move,Option.bind_eq_bind,Option.bind_eq_some_iff] at called
  obtain ⟨_,-,_,-,_,-,_,-,gBest,bestAt,-⟩ := called
  exact ⟨gBest,bestAt⟩

/-- A swarm needs an answer below `max()` for every particle: one without has no personal best. -/
theorem PSO.exec_isSome_iff (valid : c.Valid) (full : ∀ points, (c.evaluateFunc points).length = points.length)
    (positive : 0 < c.dimNum) (boxed : c.FrameInBox firstFrm) {args : PSOArgs} {m : PSO aType vType}
    (built : PSO.construct c args draws = some m) :
    (exec c (PSO.derived c args draws q) (Search.start firstFrm,m)).isSome = true ↔
      (1 < c.iterNum → ∀ val ∈ c.evaluateFunc firstFrm, val < NumericLimits.max) := by
  have points := valid.points
  have size : (c.evaluateFunc firstFrm).length = c.pointNum := (full firstFrm).trans boxed.size
  constructor
  · intro returns more
    obtain ⟨logged,extracted,newFrm,own,frames,values,gathered,explored,-⟩ := exec_explored full boxed more returns
    have blank : m.pBestPts = List.replicate c.pointNum [] ∧
        m.pBestVals = List.replicate c.pointNum NumericLimits.max := by
      simp only [PSO.construct,Option.bind_eq_bind,Option.bind_eq_some_iff] at built
      obtain ⟨_,-,same⟩ := built
      cases Option.some.inj same
      exact ⟨rfl,rfl⟩
    have last : logged.ptHistory.getLast? = some firstFrm := by simp [frames]
    have lastValues : logged.valHistory.getLast? = some (c.evaluateFunc firstFrm) := by simp [values]
    have updated := (PSO.extraction_updated last lastValues gathered).2
    have origins (i : Nat) (pt : List aType)
        (placed : (logged.ptHistory.getLast?.bind fun frame => frame[i]?) = some pt) : pt.length = c.dimNum := by
      rw [last,Option.bind_some] at placed
      exact (boxed.inside pt (List.mem_of_getElem? placed)).size
    have known := exploreFrame_reads (fun m : PSO aType vType => m.pBestPts = extracted.pBestPts)
      (fun i d => ∃ pt x, extracted.pBestPts[i]? = some pt ∧ pt[d]? = some x) rfl origins
      (fun ptIdx dimIdx newPt m moved next kept called => by
        obtain ⟨_,_,_,pt,_,_,-,-,-,ptAt,inside,-,-,rfl⟩ := PSO.move_reads called
        exact ⟨⟨pt,pt[dimIdx],kept ▸ ptAt,List.getElem?_eq_getElem inside⟩,kept⟩) explored
    intro val member
    obtain ⟨i,listed⟩ := List.mem_iff_getElem?.mp member
    have small : i < c.pointNum := size ▸ (List.getElem?_eq_some_iff.mp listed).1
    obtain ⟨pt,x,ptAt,xAt⟩ := known i small 0 positive
    obtain ⟨_,best,valAt,bestAt,chosen⟩ := updated i (boxed.size.symm ▸ small)
    cases listed.symm.trans valAt
    rw [blank.2] at bestAt
    rw [← List.eq_of_mem_replicate (List.mem_of_getElem? bestAt)]
    rcases chosen with ⟨smaller,-⟩ | ⟨-,-,same⟩
    · exact smaller
    · rw [ptAt,blank.1] at same
      have blank := List.eq_of_mem_replicate (List.mem_of_getElem? same.symm)
      exact absurd blank (List.ne_nil_of_mem (List.mem_of_getElem? xAt))
  · intro below
    obtain ⟨_,again,kept⟩ := PSO.construct_returns draws valid.limits args
    cases built.symm.trans again
    have launches : (PSO.derived c args draws q).Launches c (PSO.Kept c c.pointNum) firstFrm m := by
      refine ⟨fun logged recent => ?_,fun more => ?_,?_⟩
      · obtain ⟨extracted,gathered,-⟩ := PSO.extraction_keeps recent kept
        exact ⟨extracted,gathered⟩
      · exact ⟨_,List.getElem_mem (by omega : 0 < _),below more _ (List.getElem_mem _)⟩
      · intro more logged extracted recent best last gathered
        obtain ⟨_,again,-,every⟩ := PSO.extraction_keeps recent kept
        cases gathered.symm.trans again
        apply PSO.exploration_returns draws q valid args recent best (every rfl ?_)
        intro values listed
        cases last.symm.trans listed
        exact below more
    obtain ⟨s,own,ran,-⟩ := exec_launched valid full (PSO.steady draws q valid args) boxed launches
    exact Option.isSome_iff_exists.mpr ⟨_,ran⟩

end Optimisers
end MetaPB.Optimizer

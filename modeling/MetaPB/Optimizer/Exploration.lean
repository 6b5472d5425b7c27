import MetaPB.Optimizer.SearchBox

/-! Runs that return, turn by turn: what a turn logged, what the derived optimiser extracted
from it and which frame it explored. A property of turns is shown once for a run of any
length, a property of coordinates once for the loops all explorations share. -/
namespace MetaPB.Optimizer
open Lib Lib.Loop Lib.Best Coordinate

variable {aType vType σ : Type} [LinearOrder aType] {c : Settings aType vType}

section Frames
variable {move : Nat → List aType → σ → Option (aType × σ)}

theorem settle_cases {dimIdx : Nat} {pt next : List aType} {members after : σ}
    (ran : settle c move dimIdx (pt,members) = some (next,after)) :
    ∃ low high moved, c.lowerLimits[dimIdx]? = some low ∧ c.upperLimits[dimIdx]? = some high ∧
      move dimIdx pt members = some (moved,after) ∧ dimIdx < pt.length ∧
        next = pt.set dimIdx (clamp low high moved) := by
  simp only [settle,Option.bind_eq_bind,Option.bind_eq_some_iff] at ran
  obtain ⟨high,highAt,low,lowAt,⟨moved,_⟩,called,_,wrote,same⟩ := ran
  cases Option.some.inj same
  obtain ⟨bound,rfl⟩ := write_eq_some.mp wrote
  exact ⟨low,high,moved,lowAt,highAt,called,bound,rfl⟩

/-- A point of a new frame after some of its coordinates: these are settled, the others are
those of its origin. -/
structure Settled (ok : Nat → aType → Prop) (start : List aType) (count : Nat) (pt : List aType) : Prop where
  size : pt.length = start.length
  done : ∀ d < count, ∀ x, pt[d]? = some x → ok d x
  rest : ∀ d, count ≤ d → pt[d]? = start[d]?

omit [LinearOrder aType] in
theorem Settled.next {ok : Nat → aType → Prop} {start pt : List aType} {d : Nat} {x : aType}
    (before : Settled ok start d pt) (settled : ok d x) : Settled ok start (d + 1) (pt.set d x) := by
  refine ⟨by simpa using before.size,set_filled before.done settled,?_⟩
  intro e above
  rw [List.getElem?_set_ne (by omega)]
  exact before.rest e (by omega)

theorem exploreFrame_settled (keeps : σ → Prop) (ok : Nat → Nat → aType → Prop)
    {origin : Nat → Option (List aType)} {move : Nat → Nat → List aType → σ → Option (aType × σ)}
    {members next : σ} {newFrm : List (List aType)} (kept : keeps members)
    (moves : ∀ ptIdx < c.pointNum, ∀ dimIdx < c.dimNum, ∀ start newPt members moved next low high,
      origin ptIdx = some start → newPt[dimIdx]? = start[dimIdx]? → keeps members →
      move ptIdx dimIdx newPt members = some (moved,next) → c.lowerLimits[dimIdx]? = some low →
      c.upperLimits[dimIdx]? = some high → ok ptIdx dimIdx (clamp low high moved) ∧ keeps next)
    (ran : exploreFrame c origin move members = some (newFrm,next)) :
    newFrm.length = c.pointNum ∧ keeps next ∧ ∀ (i : Nat) pt, newFrm[i]? = some pt →
      ∃ start, origin i = some start ∧ Settled (ok i) start c.dimNum pt := by
  have invariant : (newFrm.length = c.pointNum ∧ ∀ (i : Nat) pt, newFrm[i]? = some pt →
      ∃ start, origin i = some start ∧ Settled (ok i) start c.dimNum pt) ∧ keeps next := by
    refine loop_invariant (fun count (current : List (List aType) × σ) =>
      (current.1.length = count ∧ ∀ (i : Nat) pt, current.1[i]? = some pt →
        ∃ start, origin i = some start ∧ Settled (ok i) start c.dimNum pt) ∧ keeps current.2)
      ⟨⟨rfl,by simp⟩,kept⟩ ?_ ran
    intro ptIdx small current after before turned
    obtain ⟨⟨size,points⟩,held⟩ := before
    simp only [Option.bind_eq_bind,Option.bind_eq_some_iff] at turned
    obtain ⟨start,placed,⟨pt,own⟩,settled,same⟩ := turned
    cases Option.some.inj same
    have point : Settled (ok ptIdx) start c.dimNum pt ∧ keeps own := by
      refine loop_invariant (fun count (current : List aType × σ) =>
        Settled (ok ptIdx) start count current.1 ∧ keeps current.2)
        ⟨⟨rfl,by simp,fun _ _ => rfl⟩,held⟩ ?_ settled
      intro dimIdx below current after before turned
      obtain ⟨low,high,moved,lowAt,highAt,called,-,same⟩ := settle_cases turned
      obtain ⟨fine,keeping⟩ := moves ptIdx small dimIdx below start _ _ _ _ low high placed
        (before.1.rest dimIdx le_rfl) before.2 called lowAt highAt
      rw [same]
      exact ⟨before.1.next fine,keeping⟩
    refine ⟨⟨by simp [size],?_⟩,point.2⟩
    intro i pt listed
    rcases getElem?_snoc listed with ⟨-,before⟩ | ⟨rfl,rfl⟩
    · exact points i pt before
    · rw [size]
      exact ⟨start,placed,point.1⟩
  exact ⟨invariant.1.1,invariant.2,invariant.1.2⟩

theorem exploreFrame_inBox (limited : c.Limited) {origin : Nat → Option (List aType)}
    {move : Nat → Nat → List aType → σ → Option (aType × σ)} {members next : σ}
    {newFrm : List (List aType)} (origins : ∀ i pt, origin i = some pt → pt.length = c.dimNum)
    (ran : exploreFrame c origin move members = some (newFrm,next)) : c.FrameInBox newFrm := by
  have moves : ∀ ptIdx < c.pointNum, ∀ dimIdx < c.dimNum, ∀ start newPt members moved next low high,
      origin ptIdx = some start → newPt[dimIdx]? = start[dimIdx]? → True →
      move ptIdx dimIdx newPt members = some (moved,next) → c.lowerLimits[dimIdx]? = some low →
      c.upperLimits[dimIdx]? = some high → c.Within dimIdx (clamp low high moved) ∧ True := by
    intro ptIdx _ dimIdx small start newPt members moved next low high _ _ _ _ lowAt highAt
    obtain ⟨l,h,lAt,hAt,ordered⟩ := limited dimIdx small
    cases lowAt.symm.trans lAt
    cases highAt.symm.trans hAt
    exact ⟨.of_limits lowAt highAt (clamp_within ordered moved),trivial⟩
  obtain ⟨size,-,points⟩ := exploreFrame_settled (fun _ => True) (fun _ => c.Within) trivial moves ran
  refine ⟨size,fun pt member => ?_⟩
  obtain ⟨i,listed⟩ := List.mem_iff_getElem?.mp member
  obtain ⟨start,placed,settled⟩ := points i pt listed
  have wide := settled.size.trans (origins i start placed)
  exact ⟨wide,fun d x xAt => settled.done d (wide ▸ (List.getElem?_eq_some_iff.mp xAt).1) x xAt⟩

section Blank
variable [Zero aType] {s : Search aType vType}

theorem blankOrigin_eq {ptIdx : Nat} {pt : List aType} (placed : blankOrigin c s ptIdx = some pt) :
    pt = List.replicate c.dimNum 0 := by
  simp only [blankOrigin,Option.bind_eq_bind,Option.bind_eq_some_iff] at placed
  obtain ⟨_,-,_,-,_,-,_,-,same⟩ := placed
  exact (Option.some.inj same).symm

theorem blankOrigin_length {ptIdx : Nat} {pt : List aType} (placed : blankOrigin c s ptIdx = some pt) :
    pt.length = c.dimNum := by
  rw [blankOrigin_eq placed,List.length_replicate]

end Blank
end Frames

section Turns
variable [LinearOrder vType] [Zero vType] [NumericLimits vType] {d : Derived aType vType σ}

/-- A logged turn: the frame it evaluated, the values it recorded and the best so far. -/
structure Logged (c : Settings aType vType) (count : Nat) (s logged : Search aType vType)
    (frame : List (List aType)) (result : List vType) : Prop where
  length : s.ptHistory.length = count + 1
  recorded : s.valHistory.length = count
  last : s.ptHistory.getLast? = some frame
  history : s.ptHistory.take count ++ [frame] = s.ptHistory
  points : logged.ptHistory = s.ptHistory
  values : logged.valHistory = s.valHistory ++ [result]
  size : result.length = c.pointNum
  below : ∀ val ∈ result, val < NumericLimits.max
  best : FirstBest s.ptHistory (s.valHistory ++ [result]) logged.gBestPt logged.gBestVal

/-- A whole turn: what was extracted from the logged frame, and how the turn ended. -/
structure Explored (c : Settings aType vType) (d : Derived aType vType σ) (count : Nat)
    (s : Search aType vType) (members : σ) (logged : Search aType vType) (extracted : σ)
    (frame : List (List aType)) (result : List vType) (t : Search aType vType) (own : σ) : Prop
    extends Logged c count s logged frame result where
  gathered : d.extraction logged members = some extracted
  ended : t = logged ∧ own = extracted ∨ ∃ newFrm, d.exploration logged extracted = some (newFrm,own) ∧
    t = { logged with ptHistory := logged.ptHistory ++ [newFrm] }

theorem logging_logged {count : Nat} {s middle logged : Search aType vType}
    (limited : ∀ points, ∀ val ∈ c.evaluateFunc points, val < NumericLimits.max)
    (inside : count < c.iterNum) (shaped : Shaped c count s) (converged : Converged count s)
    (exploited : s.exploitation c = some middle) (logging : middle.convergeLogging = some logged) :
    ∃ frame result, Logged c count s logged frame result := by
  obtain ⟨frame,result,newPoints,last,enough,evaluated⟩ := exploitation_evaluated exploited
  have kept : logged.ptHistory = s.ptHistory ∧ logged.valHistory = s.valHistory ++ [result] := by
    rw [convergeLogging_frame logging,evaluated.record]
    exact ⟨rfl,rfl⟩
  have current := shaped.current inside last
  have best := converged.logged_best limited inside shaped last enough evaluated logging
  rw [current] at best
  exact ⟨frame,result,shaped.started inside,shaped.values,last,current,kept.1,kept.2,evaluated.size,
    (evaluated.all NumericLimits.zero_lt_max limited converged.below enough).1,best⟩

theorem turn_explored {count : Nat} {s t : Search aType vType} {members own : σ}
    (limited : ∀ points, ∀ val ∈ c.evaluateFunc points, val < NumericLimits.max)
    (inside : count < c.iterNum) (shaped : Shaped c count s) (converged : Converged count s)
    (ran : turn c d count (s,members) = some (t,own)) :
    ∃ logged extracted frame result, Explored c d count s members logged extracted frame result t own := by
  obtain ⟨middle,logged,extracted,exploited,logging,gathered,ended⟩ := turn_cases ran
  obtain ⟨frame,result,record⟩ := logging_logged limited inside shaped converged exploited logging
  refine ⟨logged,extracted,frame,result,record,gathered,?_⟩
  rcases ended with ⟨-,same,extracting⟩ | ⟨-,newFrm,explored,same⟩
  · exact Or.inl ⟨same,extracting⟩
  · exact Or.inr ⟨newFrm,explored,same⟩

/-- What a fresh search and its members satisfy and every turn keeps holds after any number of turns. -/
theorem turns_explored (limited : ∀ points, ∀ val ∈ c.evaluateFunc points, val < NumericLimits.max)
    (holds : Nat → Search aType vType → σ → Prop) {firstFrm : List (List aType)} {members own : σ}
    {count : Nat} {s : Search aType vType} (start : holds 0 (Search.start firstFrm) members)
    (kept : ∀ count s members logged extracted frame result t own, count < c.iterNum →
      Explored c d count s members logged extracted frame result t own → holds count s members →
        holds (count + 1) t own)
    (within : count ≤ c.iterNum) (ran : turns c d count (Search.start firstFrm,members) = some (s,own)) :
    holds count s own := by
  have invariant : (Shaped c count s ∧ Converged count s) ∧ holds count s own := by
    refine loop_invariant (fun count (current : Search aType vType × σ) =>
      (Shaped c count current.1 ∧ Converged count current.1) ∧ holds count current.1 current.2)
      ⟨⟨start_shaped firstFrm,start_converged firstFrm⟩,start⟩ ?_ ran
    intro i below current next before turned
    obtain ⟨⟨shaped,converged⟩,held⟩ := before
    have inside : i < c.iterNum := by omega
    obtain ⟨logged,extracted,frame,result,explored⟩ := turn_explored limited inside shaped converged turned
    obtain ⟨after,_,_,_,one⟩ := turn_turned shaped inside turned
    exact ⟨⟨after,converged.next limited inside shaped one⟩,
      kept i _ _ logged extracted frame result _ _ inside explored held⟩
  exact invariant.2

omit [NumericLimits vType] in
/-- An exploration that fills its frame inside the box keeps a whole run there. -/
theorem turns_inBox (fills : ∀ (s : Search aType vType) members newFrm own,
      (∀ frame ∈ s.ptHistory, c.FrameInBox frame) → d.exploration s members = some (newFrm,own) →
        c.FrameInBox newFrm)
    {start s : Search aType vType} {members own : σ} {count : Nat}
    (boxed : ∀ frame ∈ start.ptHistory, c.FrameInBox frame)
    (ran : turns c d count (start,members) = some (s,own)) : ∀ frame ∈ s.ptHistory, c.FrameInBox frame := by
  refine loop_invariant (fun _ (current : Search aType vType × σ) =>
    ∀ frame ∈ current.1.ptHistory, c.FrameInBox frame) boxed ?_ ran
  intro i _ current next before turned
  obtain ⟨middle,logged,extracted,exploited,logging,-,ended⟩ := turn_cases turned
  have kept : logged.ptHistory = current.1.ptHistory := by
    obtain ⟨_,_,_,-,-,evaluated⟩ := exploitation_evaluated exploited
    rw [convergeLogging_frame logging,evaluated.record]
  rw [← kept] at before
  rcases ended with ⟨-,same,-⟩ | ⟨-,newFrm,explored,same⟩
  · rw [same]
    exact before
  · rw [same]
    exact forall_mem_snoc before (fills logged extracted newFrm _ before explored)

end Turns

section Moves
variable [Zero aType] [Add aType] [Coordinate aType] {draws : Draws aType} {q : Quotient}
  {s : Search aType vType} {ptIdx dimIdx : Nat} {newPt : List aType}

/-- What a particle's move reads, and the clamped velocity it keeps and adds. -/
theorem PSO.move_reads {args : PSOArgs} {m next : PSO aType vType} {moved : aType}
    (ran : PSO.move c args draws q s ptIdx dimIdx newPt m = some (moved,next)) :
    ∃ low high velocity pBestPt coordinate wish, c.lowerLimits[dimIdx]? = some low ∧
      c.upperLimits[dimIdx]? = some high ∧ m.velocities[ptIdx]? = some velocity ∧
      m.pBestPts[ptIdx]? = some pBestPt ∧ dimIdx < pBestPt.length ∧ newPt[dimIdx]? = some coordinate ∧
      let vUpper := args.vMax * (toDouble high - toDouble low)
      moved = coordinate + adapt (clamp (-vUpper) vUpper wish * args.dt) ∧ next = { m with
        velocities := m.velocities.set ptIdx (velocity.set dimIdx (clamp (-vUpper) vUpper wish))
        rng := m.rng + 2 } := by
  obtain ⟨_,-,ran⟩ := Option.bind_eq_some_iff.mp ran
  obtain ⟨_,-,ran⟩ := Option.bind_eq_some_iff.mp ran
  obtain ⟨velocity,own,ran⟩ := Option.bind_eq_some_iff.mp ran
  obtain ⟨high,highAt,ran⟩ := Option.bind_eq_some_iff.mp ran
  obtain ⟨low,lowAt,ran⟩ := Option.bind_eq_some_iff.mp ran
  obtain ⟨_,-,ran⟩ := Option.bind_eq_some_iff.mp ran
  obtain ⟨pt,ptAt,ran⟩ := Option.bind_eq_some_iff.mp ran
  obtain ⟨_,bestAt,ran⟩ := Option.bind_eq_some_iff.mp ran
  obtain ⟨_,-,ran⟩ := Option.bind_eq_some_iff.mp ran
  obtain ⟨_,-,ran⟩ := Option.bind_eq_some_iff.mp ran
  obtain ⟨_,wrote,ran⟩ := Option.bind_eq_some_iff.mp ran
  obtain ⟨_,replaced,ran⟩ := Option.bind_eq_some_iff.mp ran
  obtain ⟨coordinate,placed,same⟩ := Option.bind_eq_some_iff.mp ran
  obtain ⟨-,rfl⟩ := write_eq_some.mp wrote
  obtain ⟨-,rfl⟩ := write_eq_some.mp replaced
  cases Option.some.inj same
  exact ⟨low,high,velocity,pt,coordinate,_,lowAt,highAt,own,ptAt,(List.getElem?_eq_some_iff.mp bestAt).1,placed,
    rfl,rfl⟩

end Moves

section Fills
variable [Zero aType] [Add aType] [Coordinate aType] [LinearOrder vType] [Zero vType] {draws : Draws aType}
  {q : Quotient} {s : Search aType vType} {newFrm : List (List aType)}

omit [LinearOrder vType] [Zero vType] in
theorem AOA.exploration_inBox (limited : c.Limited) {m next : AOA aType vType}
    (ran : AOA.exploration c draws q s m = some (newFrm,next)) : c.FrameInBox newFrm :=
  exploreFrame_inBox limited (fun _ _ => blankOrigin_length) ran

omit [LinearOrder vType] [Zero vType] in
theorem RSA.exploration_inBox (limited : c.Limited) {m next : RSA}
    (ran : RSA.exploration c draws q s m = some (newFrm,next)) : c.FrameInBox newFrm :=
  exploreFrame_inBox limited (fun _ _ => blankOrigin_length) ran

omit [LinearOrder vType] [Zero vType] in
theorem PSO.exploration_inBox (limited : c.Limited) {args : PSOArgs} {m next : PSO aType vType}
    (frames : ∀ frame ∈ s.ptHistory, c.FrameInBox frame)
    (ran : PSO.exploration c args draws q s m = some (newFrm,next)) : c.FrameInBox newFrm := by
  refine exploreFrame_inBox limited ?_ ran
  intro i pt placed
  obtain ⟨frame,last,listed⟩ := Option.bind_eq_some_iff.mp placed
  exact ((frames frame (List.mem_of_getLast? last)).inside pt (List.mem_of_getElem? listed)).size

end Fills

/-- Draws from the upper end of every distribution, and velocities from the lower. -/
def extremeDraws : Draws ℚ where
  uniform _ _ high := high
  dist01 _ := 1
  distV _ vMax := -vMax
  choice _ count := count - 1
  evoScaleDist _ := 2
  uniform_within _ _ _ ordered := ⟨ordered,le_rfl⟩
  dist01_within _ := ⟨zero_le_one,le_rfl⟩
  distV_within _ _ nonneg := ⟨le_rfl,neg_le_self nonneg⟩
  choice_lt _ _ some := Nat.sub_lt some Nat.one_pos
  evoScaleDist_within _ := ⟨by norm_num,le_rfl⟩

end MetaPB.Optimizer

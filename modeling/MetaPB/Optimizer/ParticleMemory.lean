import MetaPB.Optimizer.Exploration

/-! What a particle swarm keeps from turn to turn: the first minimum of every particle's own
values, velocities within the speed limit, and positions that move no further in one turn
than the limit allows. Coordinates are floating. -/
namespace MetaPB.Optimizer
open Lib Lib.Loop Lib.Best Coordinate

theorem abs_clamp_sub_le {lower upper x step : ℚ} (within : lower ≤ x ∧ x ≤ upper) :
    |clamp lower upper (x + step) - x| ≤ |step| := by
  have least := neg_abs_le step
  have most := le_abs_self step
  have nonneg := abs_nonneg step
  rw [abs_le]
  simp only [clamp]
  split
  · split <;> constructor <;> linarith
  · split <;> constructor <;> linarith

section Extraction
variable {aType vType : Type} [LinearOrder aType] [LinearOrder vType] {s : Search aType vType}
  {m next : PSO aType vType} {frame : List (List aType)} {result : List vType}

/-- One particle's memory before and after: a smaller value replaces it with the point. -/
def Updated (frame : List (List aType)) (result : List vType) (m next : PSO aType vType) (i : Nat) : Prop :=
  ∃ val best, result[i]? = some val ∧ m.pBestVals[i]? = some best ∧
    (val < best ∧ next.pBestVals[i]? = some val ∧ next.pBestPts[i]? = frame[i]? ∨
      best ≤ val ∧ next.pBestVals[i]? = m.pBestVals[i]? ∧ next.pBestPts[i]? = m.pBestPts[i]?)

theorem PSO.extraction_updated (points : s.ptHistory.getLast? = some frame)
    (values : s.valHistory.getLast? = some result) (ran : PSO.extraction s m = some next) :
    next.velocities = m.velocities ∧ ∀ i < frame.length, Updated frame result m next i := by
  simp only [PSO.extraction,points,values,Option.bind_eq_bind,Option.bind_some] at ran
  have invariant : next.velocities = m.velocities ∧ (∀ i < frame.length, Updated frame result m next i) ∧
      ∀ i, frame.length ≤ i → next.pBestVals[i]? = m.pBestVals[i]? ∧ next.pBestPts[i]? = m.pBestPts[i]? := by
    refine loop_invariant (fun count (next : PSO aType vType) => next.velocities = m.velocities ∧
      (∀ i < count, Updated frame result m next i) ∧
      ∀ i, count ≤ i → next.pBestVals[i]? = m.pBestVals[i]? ∧ next.pBestPts[i]? = m.pBestPts[i]?)
      ⟨rfl,fun i less => absurd less (Nat.not_lt_zero i),fun _ _ => ⟨rfl,rfl⟩⟩ ?_ ran
    intro i small now later before turned
    obtain ⟨speeds,done,rest⟩ := before
    simp only [PSO.remember,Option.bind_eq_bind,Option.bind_eq_some_iff] at turned
    obtain ⟨val,valAt,best,bestAt,turned⟩ := turned
    have own : m.pBestVals[i]? = some best := by rw [← (rest i le_rfl).1,bestAt]
    split at turned
    next smaller =>
      simp only [Option.bind_eq_some_iff] at turned
      obtain ⟨vals,wroteVal,pt,ptAt,pts,wrotePt,same⟩ := turned
      obtain ⟨valBound,rfl⟩ := write_eq_some.mp wroteVal
      obtain ⟨ptBound,rfl⟩ := write_eq_some.mp wrotePt
      cases Option.some.inj same
      refine ⟨speeds,?_,?_⟩
      · intro j below
        rcases Nat.lt_succ_iff_lt_or_eq.mp below with earlier | rfl
        · obtain ⟨val',best',first,second,third⟩ := done j earlier
          refine ⟨val',best',first,second,?_⟩
          simpa only [List.getElem?_set_ne (by omega : i ≠ j)] using third
        · refine ⟨val,best,valAt,own,Or.inl ⟨smaller,List.getElem?_set_self valBound,?_⟩⟩
          rw [ptAt]
          exact List.getElem?_set_self ptBound
      · intro j above
        simpa only [List.getElem?_set_ne (by omega : i ≠ j)] using rest j (by omega)
    next larger =>
      cases Option.some.inj turned
      refine ⟨speeds,?_,fun j above => rest j (by omega)⟩
      intro j below
      rcases Nat.lt_succ_iff_lt_or_eq.mp below with earlier | rfl
      · exact done j earlier
      · exact ⟨val,best,valAt,own,Or.inr ⟨not_lt.mp larger,rest j le_rfl⟩⟩
  exact ⟨invariant.1,invariant.2.1⟩

end Extraction

section Speed
variable {vType : Type} [LinearOrder vType] {c : Settings ℚ vType} {args : PSOArgs} {draws : Draws ℚ}

/-- Every velocity component keeps the speed limit of its dimension. -/
def Slow (c : Settings ℚ vType) (args : PSOArgs) (velocities : List (List ℚ)) : Prop :=
  ∀ velocity ∈ velocities, ∀ (d : Nat) v low high, velocity[d]? = some v → c.lowerLimits[d]? = some low →
    c.upperLimits[d]? = some high → -(args.vMax * (high - low)) ≤ v ∧ v ≤ args.vMax * (high - low)

omit [LinearOrder vType] in
theorem Slow.set {velocities : List (List ℚ)} (slow : Slow c args velocities) {ptIdx dimIdx : Nat}
    {velocity : List ℚ} {v low high : ℚ} (own : velocities[ptIdx]? = some velocity)
    (lowAt : c.lowerLimits[dimIdx]? = some low) (highAt : c.upperLimits[dimIdx]? = some high)
    (limited : -(args.vMax * (high - low)) ≤ v ∧ v ≤ args.vMax * (high - low)) :
    Slow c args (velocities.set ptIdx (velocity.set dimIdx v)) := by
  intro other member d w l h listed lAt hAt
  rcases List.mem_or_eq_of_mem_set member with old | rfl
  · exact slow other old d w l h listed lAt hAt
  · rcases eq_or_ne dimIdx d with rfl | apart
    · have bound := (List.getElem?_eq_some_iff.mp listed).1
      rw [List.length_set] at bound
      rw [List.getElem?_set_self bound] at listed
      cases Option.some.inj listed
      cases lowAt.symm.trans lAt
      cases highAt.symm.trans hAt
      exact limited
    · rw [List.getElem?_set_ne apart] at listed
      exact slow velocity (List.mem_of_getElem? own) d w l h listed lAt hAt

theorem PSO.construct_slow [Zero vType] [NumericLimits vType] (bounds : c.Limited) (positive : 0 ≤ args.vMax)
    {m : PSO ℚ vType} (built : PSO.construct c args draws = some m) :
    Slow c args m.velocities ∧ m.pBestVals = List.replicate c.pointNum NumericLimits.max := by
  simp only [PSO.construct,Option.bind_eq_bind] at built
  obtain ⟨⟨velocities,rng⟩,drawn,same⟩ := Option.bind_eq_some_iff.mp built
  cases Option.some.inj same
  refine ⟨?_,rfl⟩
  refine loop_invariant (fun _ (current : List (List ℚ) × Nat) => Slow c args current.1) ?_ ?_ drawn
  · intro velocity member d v low high listed lowAt highAt
    rw [List.eq_of_mem_replicate member] at listed
    have small := (List.getElem?_eq_some_iff.mp listed).1
    rw [List.length_replicate] at small
    obtain ⟨l,h,lAt,hAt,ordered⟩ := bounds d small
    cases lowAt.symm.trans lAt
    cases highAt.symm.trans hAt
    rw [List.eq_of_mem_replicate (List.mem_of_getElem? listed)]
    have nonneg := mul_nonneg positive (sub_nonneg.mpr ordered)
    exact ⟨neg_nonpos.mpr nonneg,nonneg⟩
  · intro ptIdx _ current after before turned
    refine loop_invariant (fun _ (current : List (List ℚ) × Nat) => Slow c args current.1) before ?_ turned
    intro dimIdx small current after before turned
    obtain ⟨low,high,lowAt,highAt,ordered⟩ := bounds dimIdx small
    simp only [PSO.setVelocity,lowAt,highAt,Option.bind_eq_bind,Option.bind_some,Option.bind_eq_some_iff] at turned
    obtain ⟨velocity,own,_,wrote,_,replaced,same⟩ := turned
    cases Option.some.inj same
    obtain ⟨-,rfl⟩ := write_eq_some.mp wrote
    obtain ⟨-,rfl⟩ := write_eq_some.mp replaced
    have span := sub_nonneg.mpr ordered
    obtain ⟨least,most⟩ := draws.distV_within current.2 args.vMax positive
    apply before.set own lowAt highAt
    constructor
    · rw [← neg_mul]
      exact mul_le_mul_of_nonneg_right least span
    · exact mul_le_mul_of_nonneg_right most span

omit [LinearOrder vType] in
theorem PSO.move_cases {q : Quotient} {s : Search ℚ vType} {ptIdx dimIdx : Nat} {newPt : List ℚ}
    {m next : PSO ℚ vType} {moved low high : ℚ} (lowAt : c.lowerLimits[dimIdx]? = some low)
    (highAt : c.upperLimits[dimIdx]? = some high)
    (ran : PSO.move c args draws q s ptIdx dimIdx newPt m = some (moved,next)) :
    ∃ coordinate velocity wish, newPt[dimIdx]? = some coordinate ∧ m.velocities[ptIdx]? = some velocity ∧
      moved = coordinate + clamp (-(args.vMax * (high - low))) (args.vMax * (high - low)) wish * args.dt ∧
      next = { m with
        velocities := m.velocities.set ptIdx
          (velocity.set dimIdx (clamp (-(args.vMax * (high - low))) (args.vMax * (high - low)) wish))
        rng := m.rng + 2 } := by
  obtain ⟨l,h,velocity,_,coordinate,wish,lAt,hAt,own,-,-,placed,same,kept⟩ := PSO.move_reads ran
  cases lowAt.symm.trans lAt
  cases highAt.symm.trans hAt
  exact ⟨coordinate,velocity,wish,placed,own,same,kept⟩

/-- The positions of one frame and the next, no further apart than the limit allows. -/
def Steps (c : Settings ℚ vType) (args : PSOArgs) (frame newFrm : List (List ℚ)) : Prop :=
  ∀ (i : Nat) pt next, frame[i]? = some pt → newFrm[i]? = some next → ∀ (d : Nat) x y low high,
    pt[d]? = some x → next[d]? = some y → c.lowerLimits[d]? = some low → c.upperLimits[d]? = some high →
      |y - x| ≤ args.dt * args.vMax * (high - low)

omit [LinearOrder vType] in
theorem PSO.exploration_steps (bounds : c.Limited) (positive : 0 ≤ args.vMax) (forward : 0 ≤ args.dt)
    {q : Quotient} {s : Search ℚ vType} {m next : PSO ℚ vType} {frame newFrm : List (List ℚ)}
    (points : s.ptHistory.getLast? = some frame) (box : c.FrameInBox frame) (slow : Slow c args m.velocities)
    (ran : PSO.exploration c args draws q s m = some (newFrm,next)) :
    c.FrameInBox newFrm ∧ Slow c args next.velocities ∧ next.pBestPts = m.pBestPts ∧
      next.pBestVals = m.pBestVals ∧ Steps c args frame newFrm := by
  let keeps (now : PSO ℚ vType) : Prop :=
    Slow c args now.velocities ∧ now.pBestPts = m.pBestPts ∧ now.pBestVals = m.pBestVals
  let ok (i d : Nat) (y : ℚ) : Prop := c.Within d y ∧ ∀ pt x low high, frame[i]? = some pt →
    pt[d]? = some x → c.lowerLimits[d]? = some low → c.upperLimits[d]? = some high →
      |y - x| ≤ args.dt * args.vMax * (high - low)
  have moves : ∀ ptIdx < c.pointNum, ∀ dimIdx < c.dimNum, ∀ start newPt now moved later low high,
      (s.ptHistory.getLast?.bind fun frame => frame[ptIdx]?) = some start →
      newPt[dimIdx]? = start[dimIdx]? → keeps now →
      PSO.move c args draws q s ptIdx dimIdx newPt now = some (moved,later) →
      c.lowerLimits[dimIdx]? = some low → c.upperLimits[dimIdx]? = some high →
        ok ptIdx dimIdx (clamp low high moved) ∧ keeps later := by
    intro ptIdx _ dimIdx small start newPt now moved later low high placed same kept called lowAt highAt
    obtain ⟨speeds,memories,values⟩ := kept
    obtain ⟨l,h,lAt,hAt,ordered⟩ := bounds dimIdx small
    cases lowAt.symm.trans lAt
    cases highAt.symm.trans hAt
    have limit := mul_nonneg positive (sub_nonneg.mpr ordered)
    obtain ⟨coordinate,velocity,wish,own,speedAt,rfl,rfl⟩ := PSO.move_cases lowAt highAt called
    have clamped := clamp_within (by linarith : -(args.vMax * (high - low)) ≤ args.vMax * (high - low)) wish
    refine ⟨⟨.of_limits lowAt highAt (clamp_within ordered _),?_⟩,speeds.set speedAt lowAt highAt clamped,
      memories,values⟩
    intro pt x l h ptAt xAt lAt hAt
    cases lowAt.symm.trans lAt
    cases highAt.symm.trans hAt
    rw [points,Option.bind_some] at placed
    cases placed.symm.trans ptAt
    have here : coordinate = x := Option.some.inj (own.symm.trans (same.trans xAt))
    rw [here]
    calc |clamp low high (x + clamp (-(args.vMax * (high - low))) (args.vMax * (high - low)) wish * args.dt) - x|
        ≤ |clamp (-(args.vMax * (high - low))) (args.vMax * (high - low)) wish * args.dt| :=
          abs_clamp_sub_le ((box.inside _ (List.mem_of_getElem? ptAt)).within dimIdx x xAt low high lowAt highAt)
      _ = |clamp (-(args.vMax * (high - low))) (args.vMax * (high - low)) wish| * args.dt := by
          rw [abs_mul,abs_of_nonneg forward]
      _ ≤ args.vMax * (high - low) * args.dt := mul_le_mul_of_nonneg_right (abs_le.mpr clamped) forward
      _ = args.dt * args.vMax * (high - low) := by ring
  obtain ⟨size,⟨speeds,memories,values⟩,settled⟩ :=
    exploreFrame_settled keeps ok ⟨slow,rfl,rfl⟩ moves ran
  have origin (i : Nat) (pt : List ℚ) (listed : newFrm[i]? = some pt) :
      ∃ start, frame[i]? = some start ∧ Settled (ok i) start c.dimNum pt := by
    obtain ⟨start,placed,point⟩ := settled i pt listed
    rw [points,Option.bind_some] at placed
    exact ⟨start,placed,point⟩
  refine ⟨⟨size,?_⟩,speeds,memories,values,?_⟩
  · intro pt member
    obtain ⟨i,listed⟩ := List.mem_iff_getElem?.mp member
    obtain ⟨start,placed,point⟩ := origin i pt listed
    have wide := point.size.trans (box.inside _ (List.mem_of_getElem? placed)).size
    exact ⟨wide,fun d x xAt => (point.done d (wide ▸ (List.getElem?_eq_some_iff.mp xAt).1) x xAt).1⟩
  · intro i pt after ptAt afterAt d x y low high xAt yAt lowAt highAt
    obtain ⟨start,placed,point⟩ := origin i after afterAt
    have wide := point.size.trans (box.inside _ (List.mem_of_getElem? placed)).size
    have small := (List.getElem?_eq_some_iff.mp yAt).1
    exact (point.done d (wide ▸ small) y yAt).2 pt x low high ptAt xAt lowAt highAt

end Speed

section Run
variable {vType : Type} [LinearOrder vType] [Zero vType] [NumericLimits vType] {c : Settings ℚ vType}
  {args : PSOArgs} {draws : Draws ℚ} {q : Quotient}

/-- The swarm after some turns: frames in the box, speeds within the limit, and every particle's
first minimum in its memory. -/
structure Remembers (c : Settings ℚ vType) (args : PSOArgs) (count : Nat) (s : Search ℚ vType)
    (m : PSO ℚ vType) : Prop where
  frames : ∀ frame ∈ s.ptHistory, c.FrameInBox frame
  values : ∀ values ∈ s.valHistory, values.length = c.pointNum
  slow : Slow c args m.velocities
  memory : ∀ i < c.pointNum, count = 0 ∧ m.pBestVals[i]? = some NumericLimits.max ∨
    ∃ pt val, m.pBestPts[i]? = some pt ∧ m.pBestVals[i]? = some val ∧
      ColumnBest (s.ptHistory.take count) s.valHistory i pt val
  steps : ∀ (j : Nat) frame newFrm, s.ptHistory[j]? = some frame → s.ptHistory[j + 1]? = some newFrm →
    Steps c args frame newFrm

theorem Remembers.next (bounds : c.Limited) (positive : 0 ≤ args.vMax) (forward : 0 ≤ args.dt) {count : Nat}
    {s logged t : Search ℚ vType} {m extracted own : PSO ℚ vType} {frame : List (List ℚ)} {result : List vType}
    (explored : Explored c (PSO.derived c args draws q) count s m logged extracted frame result t own)
    (before : Remembers c args count s m) : Remembers c args (count + 1) t own := by
  have box := before.frames frame (List.mem_of_getLast? explored.last)
  have points : logged.ptHistory.getLast? = some frame := by rw [explored.points,explored.last]
  have lastValues : logged.valHistory.getLast? = some result := by simp [explored.values]
  obtain ⟨speeds,updated⟩ := PSO.extraction_updated points lastValues explored.gathered
  have memory (i : Nat) (small : i < c.pointNum) : ∃ pt val, extracted.pBestPts[i]? = some pt ∧
      extracted.pBestVals[i]? = some val ∧
        ColumnBest s.ptHistory (s.valHistory ++ [result]) i pt val := by
    rw [← explored.history]
    have same : (s.ptHistory.take count).length = s.valHistory.length := by
      rw [List.length_take,explored.length,explored.recorded]
      omega
    obtain ⟨pt,placed,-⟩ := box.point small
    obtain ⟨val,best,valAt,bestAt,⟨smaller,valNow,ptNow⟩ | ⟨larger,valNow,ptNow⟩⟩ :=
      updated i (box.size.symm ▸ small)
    · refine ⟨pt,val,ptNow.trans placed,valNow,.last same placed valAt ?_⟩
      intro j other listed
      rcases before.memory i small with ⟨rfl,-⟩ | ⟨oldPt,old,-,oldAt,_,-,-,smallest,-⟩
      · have bound := entry_lt listed
        rw [explored.recorded] at bound
        exact absurd bound (Nat.not_lt_zero j)
      · cases oldAt.symm.trans bestAt
        exact smaller.trans_le (smallest j other listed)
    · rcases before.memory i small with ⟨-,fresh⟩ | ⟨oldPt,old,oldPtAt,oldAt,first⟩
      · cases fresh.symm.trans bestAt
        exact absurd (explored.below val (List.mem_of_getElem? valAt)) (not_lt.mpr larger)
      · cases oldAt.symm.trans bestAt
        exact ⟨oldPt,_,ptNow.trans oldPtAt,valNow.trans oldAt,first.keep valAt larger⟩
  have values : ∀ values ∈ s.valHistory ++ [result], values.length = c.pointNum :=
    forall_mem_snoc before.values explored.size
  rcases explored.ended with ⟨rfl,rfl⟩ | ⟨newFrm,moved,rfl⟩
  · refine ⟨by rw [explored.points]; exact before.frames,by rw [explored.values]; exact values,
      by rw [speeds]; exact before.slow,?_,by rw [explored.points]; exact before.steps⟩
    intro i small
    rw [explored.points,explored.values,List.take_of_length_le explored.length.le]
    exact Or.inr (memory i small)
  · have slow : Slow c args extracted.velocities := by
      rw [speeds]
      exact before.slow
    obtain ⟨newBox,newSlow,samePts,sameVals,stepped⟩ :=
      PSO.exploration_steps bounds positive forward points box slow moved
    have whole : (s.ptHistory ++ [newFrm]).take (count + 1) = s.ptHistory := by
      rw [← explored.length,List.take_left]
    simp only [explored.points] at *
    refine ⟨forall_mem_snoc before.frames newBox,by rw [explored.values]; exact values,newSlow,?_,?_⟩
    · intro i small
      simp only [explored.values,samePts,sameVals,whole]
      exact Or.inr (memory i small)
    · intro j old new oldAt newAt
      rcases getElem?_snoc newAt with ⟨inside,laterAt⟩ | ⟨last,rfl⟩
      · rw [List.getElem?_append_left (by omega)] at oldAt
        exact before.steps j old new oldAt laterAt
      · rw [List.getElem?_append_left (by omega)] at oldAt
        have here : j = s.ptHistory.length - 1 := by omega
        rw [here,← List.getLast?_eq_getElem?,explored.last] at oldAt
        cases oldAt
        exact stepped

/-- After any number of turns every particle remembers the first minimum of its own values, all
velocities keep the speed limit from construction on, and no position is further from the one
before than a step at that limit. -/
theorem exec_particles (bounds : c.Limited)
    (limited : ∀ points, ∀ val ∈ c.evaluateFunc points, val < NumericLimits.max)
    (positive : 0 ≤ args.vMax) (forward : 0 ≤ args.dt) (start s : Search ℚ vType) (m own : PSO ℚ vType)
    (count : Nat) (made : construct c draws = some start) (built : PSO.construct c args draws = some m)
    (within : count ≤ c.iterNum) (ran : turns c (PSO.derived c args draws q) count (start,m) = some (s,own)) :
    Slow c args m.velocities ∧ Slow c args own.velocities ∧ s.valHistory.length = count ∧
      (∀ values ∈ s.valHistory, values.length = c.pointNum) ∧
      (0 < count → ∀ i < c.pointNum, ∃ pt val, own.pBestPts[i]? = some pt ∧ own.pBestVals[i]? = some val ∧
        ColumnBest (s.ptHistory.take count) s.valHistory i pt val) ∧
      ∀ (j : Nat) frame newFrm, s.ptHistory[j]? = some frame → s.ptHistory[j + 1]? = some newFrm →
        Steps c args frame newFrm := by
  obtain ⟨firstFrm,first,rfl⟩ := Option.map_eq_some_iff.mp made
  obtain ⟨slow,fresh⟩ := PSO.construct_slow bounds positive built
  have box := firstFrame_inBox bounds first
  have begun : Remembers c args 0 (Search.start firstFrm) m := by
    refine ⟨fun frame member => ?_,by simp [Search.start],slow,fun i small => Or.inl ⟨rfl,?_⟩,?_⟩
    · rw [List.mem_singleton.mp member]
      exact box
    · rw [fresh,List.getElem?_replicate_of_lt small]
    · intro j frame newFrm _ later
      simp [Search.start] at later
  have remembers := turns_explored limited (Remembers c args) begun
    (fun _ _ _ _ _ _ _ _ _ _ explored before => before.next bounds positive forward explored) within ran
  refine ⟨slow,remembers.slow,(turns_converged limited firstFrm within ran).1.values,remembers.values,?_,
    remembers.steps⟩
  intro turned i small
  exact (remembers.memory i small).resolve_left fun unturned => turned.ne' unturned.1

end Run

/-- Ten particles between 0 and 8, valued by their position. -/
def eightSettings : Settings ℚ ℚ := ⟨[0],[8],1,10,4,List.map fun pt => min 8 pt.sum⟩

theorem exec_particles_ten :
    let args : PSOArgs := ⟨1/4,1/2,2,1⟩
    let q : Quotient := ⟨(· / ·),fun _ _ _ => rfl⟩
    ∃ start m s own, construct eightSettings extremeDraws = some start ∧
      PSO.construct eightSettings args extremeDraws = some m ∧
      exec eightSettings (PSO.derived eightSettings args extremeDraws q) (start,m) = some (s,own) ∧
      Slow eightSettings args own.velocities ∧ ∀ i < 10, ∃ pt val, own.pBestPts[i]? = some pt ∧
        own.pBestVals[i]? = some val ∧ ColumnBest (s.ptHistory.take 4) s.valHistory i pt val := by
  intro args q
  have ordered : ∀ (d : Nat) low high, eightSettings.lowerLimits[d]? = some low →
      eightSettings.upperLimits[d]? = some high → low ≤ high :=
    forall_singleton (by norm_num)
  have valid : eightSettings.Valid :=
    ⟨by norm_num [eightSettings],by norm_num [eightSettings],rfl,rfl,ordered,by simp [eightSettings]⟩
  have bounds : eightSettings.Limited := valid.limits
  have limited : ∀ points, ∀ val ∈ eightSettings.evaluateFunc points, val < NumericLimits.max := by
    intro points val member
    obtain ⟨pt,-,rfl⟩ := List.mem_map.mp member
    exact (min_le_left _ _).trans_lt (lt_max_of_lt (by norm_num))
  obtain ⟨frame,first,box⟩ := firstFrame_returns bounds valid.points extremeDraws
  obtain ⟨m,built,kept⟩ := PSO.construct_returns extremeDraws bounds args
  obtain ⟨s,own,ran,-⟩ := exec_documented valid limited (PSO.safe extremeDraws q valid args) box kept
  have made : construct eightSettings extremeDraws = some (Search.start frame) := by simp [construct,first]
  obtain ⟨-,slow,-,-,memory,-⟩ := exec_particles bounds limited (by norm_num [args] : 0 ≤ args.vMax)
    (by norm_num [args]) _ s m own 4 made built le_rfl ran
  exact ⟨_,m,s,own,made,built,ran,slow,memory (by norm_num)⟩

end MetaPB.Optimizer

import MetaPB.Optimizer.GlobalBest
import MetaPB.Optimizer.Variants

/-! Every coordinate of every run stays within its limits, and no vector is indexed out of
range. A derived optimiser is safe when an invariant of its members lets both its functions
return and its exploration fill a frame inside the box. -/
namespace MetaPB.Optimizer
open Lib Lib.Loop Lib.Best Coordinate

theorem clamp_within {α : Type} [LinearOrder α] {lower upper : α} (ordered : lower ≤ upper) (x : α) :
    lower ≤ clamp lower upper x ∧ clamp lower upper x ≤ upper := by
  simp only [clamp]
  split
  · split
    · exact ⟨le_rfl,ordered⟩
    · exact ⟨ordered,le_rfl⟩
  next small =>
    split
    · exact ⟨le_rfl,ordered⟩
    next large => exact ⟨not_lt.mp large,not_lt.mp small⟩

theorem clamp_of_within {α : Type} [LinearOrder α] {lower upper x : α} (within : lower ≤ x ∧ x ≤ upper) :
    clamp lower upper x = x := by
  simp only [clamp,if_neg (not_lt.mpr within.2),if_neg (not_lt.mpr within.1)]

section Box
variable {aType vType σ : Type} [LinearOrder aType]

structure Settings.Valid (c : Settings aType vType) : Prop where
  points : 10 ≤ c.pointNum
  iterations : 1 ≤ c.iterNum
  lower : c.lowerLimits.length = c.dimNum
  upper : c.upperLimits.length = c.dimNum
  ordered : ∀ (d : Nat) low high, c.lowerLimits[d]? = some low → c.upperLimits[d]? = some high → low ≤ high
  answers : ∀ points, (c.evaluateFunc points).length ≤ points.length

def Settings.Within (c : Settings aType vType) (d : Nat) (x : aType) : Prop :=
  ∀ low high, c.lowerLimits[d]? = some low → c.upperLimits[d]? = some high → low ≤ x ∧ x ≤ high

structure Settings.InBox (c : Settings aType vType) (pt : List aType) : Prop where
  size : pt.length = c.dimNum
  within : ∀ (d : Nat) x, pt[d]? = some x → c.Within d x

structure Settings.FrameInBox (c : Settings aType vType) (frame : List (List aType)) : Prop where
  size : frame.length = c.pointNum
  inside : ∀ pt ∈ frame, c.InBox pt

variable {c : Settings aType vType}

/-- Every dimension has its limits, in order. -/
def Settings.Limited (c : Settings aType vType) : Prop :=
  ∀ d < c.dimNum, ∃ low high, c.lowerLimits[d]? = some low ∧ c.upperLimits[d]? = some high ∧ low ≤ high

theorem Settings.Valid.limits (valid : c.Valid) : c.Limited := by
  intro d small
  have low := List.getElem?_eq_getElem (valid.lower.symm ▸ small : d < c.lowerLimits.length)
  have high := List.getElem?_eq_getElem (valid.upper.symm ▸ small : d < c.upperLimits.length)
  exact ⟨_,_,low,high,valid.ordered d _ _ low high⟩

theorem Settings.Within.of_limits {d : Nat} {low high x : aType} (lowAt : c.lowerLimits[d]? = some low)
    (highAt : c.upperLimits[d]? = some high) (inside : low ≤ x ∧ x ≤ high) : c.Within d x := by
  intro l h lAt hAt
  cases lowAt.symm.trans lAt
  cases highAt.symm.trans hAt
  exact inside

theorem Settings.FrameInBox.point {frame : List (List aType)} (boxed : c.FrameInBox frame) {i : Nat}
    (small : i < c.pointNum) : ∃ pt, frame[i]? = some pt ∧ c.InBox pt := by
  have bound : i < frame.length := boxed.size.symm ▸ small
  exact ⟨_,List.getElem?_eq_getElem bound,boxed.inside _ (List.getElem_mem bound)⟩

theorem Settings.FrameInBox.set {frame : List (List aType)} {pt : List aType} (boxed : c.FrameInBox frame)
    (inside : c.InBox pt) (i : Nat) : c.FrameInBox (frame.set i pt) := by
  refine ⟨by simpa using boxed.size,?_⟩
  intro other member
  rcases List.mem_or_eq_of_mem_set member with old | rfl
  · exact boxed.inside other old
  · exact inside

theorem Settings.InBox.coordinate {pt : List aType} (boxed : c.InBox pt) {d : Nat}
    (small : d < c.dimNum) : ∃ x, pt[d]? = some x :=
  ⟨_,List.getElem?_eq_getElem (boxed.size.symm ▸ small)⟩

/-- Filling a point one coordinate at a time with values within the limits. -/
structure Filling (c : Settings aType vType) (count : Nat) (pt : List aType) : Prop where
  size : pt.length = c.dimNum
  within : ∀ d < count, ∀ x, pt[d]? = some x → c.Within d x

theorem Filling.next {d : Nat} {pt : List aType} {x : aType} (before : Filling c d pt)
    (within : c.Within d x) : Filling c (d + 1) (pt.set d x) :=
  ⟨by simpa using before.size,set_filled before.within within⟩

theorem Filling.inBox {pt : List aType} (filled : Filling c c.dimNum pt) : c.InBox pt := by
  refine ⟨filled.size,fun d x listed => filled.within d ?_ x listed⟩
  rw [← filled.size]
  exact (List.getElem?_eq_some_iff.mp listed).1

section Explore

theorem settle_returns (valid : c.Valid) {move : Nat → List aType → σ → Option (aType × σ)}
    {keeps : σ → Prop} {dimIdx : Nat} (small : dimIdx < c.dimNum) {newPt : List aType} {members : σ}
    (moves : ∃ moved next, move dimIdx newPt members = some (moved,next) ∧ keeps next)
    (before : Filling c dimIdx newPt) :
    ∃ next, settle c move dimIdx (newPt,members) = some next ∧ Filling c (dimIdx + 1) next.1 ∧
      keeps next.2 := by
  obtain ⟨low,high,lowAt,highAt,ordered⟩ := valid.limits dimIdx small
  obtain ⟨moved,next,called,kept⟩ := moves
  have within : c.Within dimIdx (clamp low high moved) :=
    .of_limits lowAt highAt (clamp_within ordered moved)
  refine ⟨(newPt.set dimIdx (clamp low high moved),next),?_,before.next within,kept⟩
  simp [settle,lowAt,highAt,called,write_of_lt (before.size.symm ▸ small)]

theorem exploreFrame_returns (valid : c.Valid) {origin : Nat → Option (List aType)}
    {move : Nat → Nat → List aType → σ → Option (aType × σ)} {keeps : σ → Prop}
    (origins : ∀ ptIdx < c.pointNum, ∃ pt, origin ptIdx = some pt ∧ pt.length = c.dimNum)
    (moves : ∀ ptIdx < c.pointNum, ∀ dimIdx < c.dimNum, ∀ newPt members, newPt.length = c.dimNum →
      keeps members → ∃ moved next, move ptIdx dimIdx newPt members = some (moved,next) ∧ keeps next)
    {members : σ} (kept : keeps members) :
    ∃ newFrm next, exploreFrame c origin move members = some (newFrm,next) ∧
      c.FrameInBox newFrm ∧ keeps next := by
  have looped : ∃ next, exploreFrame c origin move members = some next ∧
      (next.1.length = c.pointNum ∧ (∀ pt ∈ next.1, c.InBox pt)) ∧ keeps next.2 := by
    apply loop_returns (fun count (current : List (List aType) × σ) =>
      (current.1.length = count ∧ ∀ pt ∈ current.1, c.InBox pt) ∧ keeps current.2)
    · exact ⟨⟨rfl,by simp⟩,kept⟩
    · intro ptIdx small current before
      obtain ⟨⟨size,inside⟩,own⟩ := before
      obtain ⟨start,placed,wide⟩ := origins ptIdx small
      have filled : ∃ next, loop c.dimNum (settle c (move ptIdx)) (start,current.2) = some next ∧
          Filling c c.dimNum next.1 ∧ keeps next.2 := by
        apply loop_returns (fun count (current : List aType × σ) =>
          Filling c count current.1 ∧ keeps current.2)
        · exact ⟨⟨wide,by simp⟩,own⟩
        · intro dimIdx below current before
          obtain ⟨filling,held⟩ := before
          exact settle_returns valid below
            (moves ptIdx small dimIdx below current.1 current.2 filling.size held) filling
      obtain ⟨next,looped,done,held⟩ := filled
      exact ⟨(current.1 ++ [next.1],next.2),by simp [placed,looped],
        ⟨by simp [size],forall_mem_snoc inside done.inBox⟩,held⟩
  obtain ⟨⟨newFrm,next⟩,ran,⟨size,inside⟩,held⟩ := looped
  exact ⟨newFrm,next,ran,⟨size,inside⟩,held⟩

end Explore

section Run
variable [LinearOrder vType] [Zero vType] [NumericLimits vType] {d : Derived aType vType σ}

/-- A logged turn as a derived optimiser sees it. -/
structure Current (c : Settings aType vType) (s : Search aType vType) : Prop where
  points : ∃ frame, s.ptHistory.getLast? = some frame ∧ c.FrameInBox frame
  values : ∃ values, s.valHistory.getLast? = some values ∧ values.length = c.pointNum ∧
    ∀ val ∈ values, val < NumericLimits.max
  best : c.InBox s.gBestPt

/-- The last frames of points and values of a logged turn, whatever the values are. -/
structure Recent (c : Settings aType vType) (s : Search aType vType) : Prop where
  points : ∃ frame, s.ptHistory.getLast? = some frame ∧ c.FrameInBox frame
  values : ∃ values, s.valHistory.getLast? = some values ∧ values.length = c.pointNum

theorem Current.recent {s : Search aType vType} (current : Current c s) : Recent c s := by
  obtain ⟨values,last,size,-⟩ := current.values
  exact ⟨current.points,⟨values,last,size⟩⟩

/-- An invariant of the members under which both overridden functions return and the
explored frame lies in the box. -/
def Derived.Safe (c : Settings aType vType) (d : Derived aType vType σ) (keeps : σ → Prop) : Prop :=
  ∀ s members, Current c s → keeps members → ∃ extracted, d.extraction s members = some extracted ∧
    ∃ newFrm next, d.exploration s extracted = some (newFrm,next) ∧ c.FrameInBox newFrm ∧ keeps next

/-- The same with any values: the exploration may ask for a best point. -/
def Derived.Steady (c : Settings aType vType) (d : Derived aType vType σ) (keeps : σ → Prop) : Prop :=
  ∀ s members, Recent c s → keeps members → ∃ extracted, d.extraction s members = some extracted ∧
    (c.InBox s.gBestPt → ∃ newFrm next, d.exploration s extracted = some (newFrm,next) ∧
      c.FrameInBox newFrm ∧ keeps next)

theorem Derived.Steady.safe {keeps : σ → Prop} (steady : d.Steady c keeps) : d.Safe c keeps := by
  intro s members current kept
  obtain ⟨extracted,gathered,explores⟩ := steady s members current.recent kept
  exact ⟨extracted,gathered,explores current.best⟩

/-- The documented shapes of the histories, with every coordinate within its limits. -/
structure Documented (c : Settings aType vType) (s : Search aType vType) : Prop where
  points : s.ptHistory.length = c.iterNum
  frames : ∀ frame ∈ s.ptHistory, c.FrameInBox frame
  values : s.valHistory.length = c.iterNum
  valFrames : ∀ values ∈ s.valHistory, values.length = c.pointNum

structure Boxed (c : Settings aType vType) (keeps : σ → Prop) (count : Nat)
    (current : Search aType vType × σ) : Prop where
  shaped : Shaped c count current.1
  converged : Converged count current.1
  frames : ∀ frame ∈ current.1.ptHistory, c.FrameInBox frame
  valFrames : ∀ values ∈ current.1.valHistory, values.length = c.pointNum
  members : count < c.iterNum → keeps current.2

omit [NumericLimits vType] in
theorem logging_returns (valid : c.Valid) {s : Search aType vType}
    (frames : ∀ frame ∈ s.ptHistory, c.FrameInBox frame) (nonempty : s.ptHistory ≠ []) :
    ∃ frame middle logged result newPoints, s.ptHistory.getLast? = some frame ∧ c.FrameInBox frame ∧
      s.exploitation c = some middle ∧ Evaluated c s middle frame result newPoints ∧
      middle.convergeLogging = some logged ∧ logged.ptHistory = s.ptHistory ∧
      logged.valHistory = s.valHistory ++ [result] ∧ Recent c logged := by
  have points := valid.points
  obtain ⟨frame,last⟩ : ∃ frame, s.ptHistory.getLast? = some frame :=
    Option.isSome_iff_exists.mp (by rwa [List.getLast?_isSome])
  have boxed := frames frame (List.mem_of_getLast? last)
  obtain ⟨middle,exploited⟩ := exploitation_returns last boxed.size.ge valid.answers
  obtain ⟨_,result,newPoints,again,-,evaluated⟩ := exploitation_evaluated exploited
  cases last.symm.trans again
  have read : middle.ptHistory = s.ptHistory ∧ middle.valHistory = s.valHistory ++ [result] := by
    rw [evaluated.record]
    exact ⟨rfl,rfl⟩
  have lastValues : middle.valHistory.getLast? = some result := by simp [read.2]
  have size := evaluated.size
  obtain ⟨logged,converged⟩ := convergeLogging_returns (read.1 ▸ last) lastValues (by omega)
    (evaluated.size.trans boxed.size.symm).le
  have kept : logged.ptHistory = s.ptHistory ∧ logged.valHistory = s.valHistory ++ [result] := by
    rw [convergeLogging_frame converged]
    exact read
  exact ⟨frame,middle,logged,result,newPoints,last,boxed,exploited,evaluated,converged,kept.1,kept.2,
    ⟨frame,by rw [kept.1,last],boxed⟩,⟨result,by simp [kept.2],size⟩⟩

omit [NumericLimits vType] in
theorem turn_ends {keeps : σ → Prop} {count : Nat} {s middle logged : Search aType vType}
    {members extracted : σ} (exploited : s.exploitation c = some middle)
    (converged : middle.convergeLogging = some logged) (gathered : d.extraction logged members = some extracted)
    (frames : ∀ frame ∈ logged.ptHistory, c.FrameInBox frame)
    (explores : count ≠ c.iterNum - 1 → ∃ newFrm next, d.exploration logged extracted = some (newFrm,next) ∧
      c.FrameInBox newFrm ∧ keeps next) :
    ∃ t own, turn c d count (s,members) = some (t,own) ∧ (∀ frame ∈ t.ptHistory, c.FrameInBox frame) ∧
      t = { logged with ptHistory := t.ptHistory } ∧ (count ≠ c.iterNum - 1 → keeps own) := by
  rcases eq_or_ne count (c.iterNum - 1) with final | more
  · exact ⟨logged,extracted,by simp [turn,exploited,converged,gathered,final],frames,rfl,
      fun more => absurd final more⟩
  · obtain ⟨newFrm,next,explored,boxed,held⟩ := explores more
    exact ⟨{ logged with ptHistory := logged.ptHistory ++ [newFrm] },next,
      by simp [turn,exploited,converged,gathered,explored,more],forall_mem_snoc frames boxed,rfl,
      fun _ => held⟩

theorem Boxed.next {keeps : σ → Prop} {count : Nat} {current : Search aType vType × σ}
    (valid : c.Valid) (limited : ∀ points, ∀ val ∈ c.evaluateFunc points, val < NumericLimits.max)
    (safe : d.Safe c keeps) (inside : count < c.iterNum) (before : Boxed c keeps count current) :
    ∃ next, turn c d count current = some next ∧ Boxed c keeps (count + 1) next := by
  obtain ⟨s,members⟩ := current
  obtain ⟨frame,middle,logged,result,newPoints,last,boxed,exploited,evaluated,converged,points,values,recent⟩ :=
    logging_returns valid before.frames (List.ne_nil_of_length_eq_add_one (before.shaped.started inside))
  have enough := boxed.size.ge
  have best := before.converged.logged_best limited inside before.shaped last enough evaluated converged
  have current : Current c logged := by
    refine ⟨recent.points,⟨result,by simp [values],evaluated.size,?_⟩,?_⟩
    · exact (evaluated.all NumericLimits.zero_lt_max limited before.converged.below enough).1
    · obtain ⟨ptFrm,member,inFrame⟩ := best.mem
      rcases List.mem_append.mp member with old | new
      · exact (before.frames ptFrm (List.mem_of_mem_take old)).inside _ inFrame
      · rw [List.mem_singleton.mp new] at inFrame
        exact boxed.inside _ inFrame
  obtain ⟨extracted,gathered,explores⟩ := safe logged members current (before.members inside)
  obtain ⟨t,own,ran,frames,ended,held⟩ := turn_ends exploited converged gathered
    (by rw [points]; exact before.frames) fun _ => explores
  obtain ⟨shaped,_,_,_,turned⟩ := turn_turned before.shaped inside ran
  refine ⟨(t,own),ran,shaped,before.converged.next limited inside before.shaped turned,frames,?_,?_⟩
  · rw [ended,values]
    exact forall_mem_snoc before.valFrames evaluated.size
  · intro below
    exact held (by omega)

theorem exec_documented {keeps : σ → Prop} (valid : c.Valid)
    (limited : ∀ points, ∀ val ∈ c.evaluateFunc points, val < NumericLimits.max)
    (safe : d.Safe c keeps) {firstFrm : List (List aType)} (boxed : c.FrameInBox firstFrm)
    {members : σ} (kept : keeps members) :
    ∃ s own, exec c d (Search.start firstFrm,members) = some (s,own) ∧ Documented c s := by
  have started : Boxed c keeps 0 ((Search.start firstFrm : Search aType vType),members) := by
    refine ⟨start_shaped firstFrm,start_converged firstFrm,?_,by simp [Search.start],fun _ => kept⟩
    intro frame member
    rw [List.mem_singleton.mp member]
    exact boxed
  have looped : ∃ next, exec c d (Search.start firstFrm,members) = some next ∧
      Boxed c keeps c.iterNum next :=
    loop_returns (Boxed c keeps) started fun _ inside _ before => before.next valid limited safe inside
  obtain ⟨⟨s,own⟩,ran,ended⟩ := looped
  exact ⟨s,own,ran,ended.shaped.ended valid.iterations,ended.frames,ended.shaped.values,ended.valFrames⟩

end Run
section Construct
variable [Zero aType] [Add aType] [Coordinate aType]

omit [Add aType] [Coordinate aType] in
theorem blank_filling : Filling c 0 (List.replicate c.dimNum 0) := ⟨by simp,by simp⟩

omit [Add aType] [Coordinate aType] in
theorem randomPoint_returns (limited : c.Limited) (draws : Draws aType) (rng : Nat) :
    ∃ pt next, randomPoint c draws rng = some (pt,next) ∧ c.InBox pt := by
  have looped : ∃ next, randomPoint c draws rng = some next ∧ Filling c c.dimNum next.1 := by
    apply loop_returns (fun count (current : List aType × Nat) => Filling c count current.1) blank_filling
    intro dimIdx small current before
    obtain ⟨low,high,lowAt,highAt,ordered⟩ := limited dimIdx small
    have within : c.Within dimIdx (draws.uniform current.2 low high) :=
      .of_limits lowAt highAt (draws.uniform_within current.2 low high ordered)
    refine ⟨(current.1.set dimIdx (draws.uniform current.2 low high),current.2 + 1),?_,
      before.next within⟩
    simp [lowAt,highAt,write_of_lt (before.size.symm ▸ small)]
  obtain ⟨⟨pt,next⟩,ran,filled⟩ := looped
  exact ⟨pt,next,ran,filled.inBox⟩

omit [Add aType] [Coordinate aType] in
theorem randomFrame_returns (limited : c.Limited) (draws : Draws aType) :
    ∃ next, loop c.pointNum (fun _ (current : List (List aType) × Nat) =>
      (randomPoint c draws current.2).bind fun point => some (current.1 ++ [point.1],point.2)) ([],0) =
        some next ∧ c.FrameInBox next.1 := by
  have random : ∃ next, loop c.pointNum (fun _ (current : List (List aType) × Nat) =>
      (randomPoint c draws current.2).bind fun point => some (current.1 ++ [point.1],point.2)) ([],0) =
        some next ∧ next.1.length = c.pointNum ∧ ∀ pt ∈ next.1, c.InBox pt := by
    apply loop_returns (fun count (current : List (List aType) × Nat) =>
      current.1.length = count ∧ ∀ pt ∈ current.1, c.InBox pt) ⟨rfl,by simp⟩
    intro i _ current before
    obtain ⟨pt,next,ran,boxed⟩ := randomPoint_returns limited draws current.2
    exact ⟨(current.1 ++ [pt],next),by simp [ran],by simp [before.1],forall_mem_snoc before.2 boxed⟩
  obtain ⟨next,ran,size,inside⟩ := random
  exact ⟨next,ran,size,inside⟩

theorem gridPoint_returns (limited : c.Limited) {agtIdx : Nat} (few : agtIdx < 10) :
    ∃ pt, gridPoint c agtIdx = some pt ∧ c.InBox pt := by
  have looped : ∃ pt, gridPoint c agtIdx = some pt ∧ Filling c c.dimNum pt := by
    apply loop_returns (Filling c) blank_filling
    intro dimIdx small pt before
    obtain ⟨low,high,lowAt,highAt,ordered⟩ := limited dimIdx small
    have span : (0 : ℚ) ≤ toDouble high - toDouble low :=
      sub_nonneg.mpr (toDouble_strictMono.monotone ordered)
    have share : (agtIdx : ℚ) ≤ 10 := by exact_mod_cast few.le
    have nonneg : (0 : ℚ) ≤ agtIdx := Nat.cast_nonneg agtIdx
    have within : c.Within dimIdx
        (convert (toDouble low + (toDouble high - toDouble low) * agtIdx / 10)) := by
      apply Settings.Within.of_limits lowAt highAt
      apply convert_within
      · have part := mul_nonneg span nonneg
        linarith
      · have part := mul_le_mul_of_nonneg_left share span
        linarith
    refine ⟨_,?_,before.next within⟩
    simp [lowAt,highAt,write_of_lt (before.size.symm ▸ small)]
  obtain ⟨pt,ran,filled⟩ := looped
  exact ⟨pt,ran,filled.inBox⟩

theorem firstFrame_returns (limited : c.Limited) (points : 10 ≤ c.pointNum) (draws : Draws aType) :
    ∃ frame, firstFrame c draws = some frame ∧ c.FrameInBox frame := by
  obtain ⟨⟨frame,next⟩,ran,box⟩ := randomFrame_returns limited draws
  have grid : ∃ final, loop 10 (fun agtIdx firstFrm => (gridPoint c agtIdx).bind fun point =>
      write firstFrm agtIdx point) frame = some final ∧ c.FrameInBox final := by
    apply loop_returns (fun _ frame => c.FrameInBox frame) box
    intro agtIdx few current before
    obtain ⟨pt,made,boxed⟩ := gridPoint_returns limited few
    have bound : agtIdx < current.length := by
      rw [before.size]
      exact few.trans_le points
    exact ⟨current.set agtIdx pt,by simp [made,write_of_lt bound],before.set boxed agtIdx⟩
  obtain ⟨final,settled,boxed⟩ := grid
  refine ⟨final,?_,boxed⟩
  simp only [firstFrame,Option.bind_eq_bind]
  rw [Option.bind_eq_some_iff]
  exact ⟨(frame,next),ran,settled⟩

theorem firstFrame_inBox (limited : c.Limited) {draws : Draws aType} {frame : List (List aType)}
    (made : firstFrame c draws = some frame) : c.FrameInBox frame := by
  obtain ⟨⟨random,next⟩,ran,box⟩ := randomFrame_returns limited draws
  simp only [firstFrame,Option.bind_eq_bind] at made
  obtain ⟨_,again,grid⟩ := Option.bind_eq_some_iff.mp made
  cases ran.symm.trans again
  refine loop_invariant (fun _ frame => c.FrameInBox frame) box ?_ grid
  intro agtIdx few current next before turned
  obtain ⟨pt,placed,wrote⟩ := Option.bind_eq_some_iff.mp turned
  obtain ⟨_,again,boxed⟩ := gridPoint_returns limited few
  cases placed.symm.trans again
  rw [(write_eq_some.mp wrote).2]
  exact before.set boxed agtIdx

end Construct
section Optimisers
variable [Zero aType] [Add aType] [Coordinate aType] [LinearOrder vType] [Zero vType]
  [NumericLimits vType] {s : Search aType vType} (draws : Draws aType) (q : Quotient)

omit [Add aType] [Coordinate aType] [LinearOrder vType] [Zero vType] [NumericLimits vType] in
theorem blankOrigin_returns (recent : Recent c s) {ptIdx : Nat} (small : ptIdx < c.pointNum) :
    ∃ pt, blankOrigin c s ptIdx = some pt ∧ pt.length = c.dimNum := by
  obtain ⟨frame,last,boxed⟩ := recent.points
  obtain ⟨values,lastValues,size⟩ := recent.values
  obtain ⟨pt,placed,-⟩ := boxed.point small
  have bound : ptIdx < values.length := size ▸ small
  exact ⟨List.replicate c.dimNum 0,by simp [blankOrigin,last,placed,lastValues,bound],by simp⟩

/-- The members of a particle swarm after the first particles of a frame were extracted:
these have a personal best inside the box, the others may still have none. -/
structure PSO.Kept (c : Settings aType vType) (count : Nat) (m : PSO aType vType) : Prop where
  points : m.pBestPts.length = c.pointNum
  values : m.pBestVals.length = c.pointNum
  speeds : m.velocities.length = c.pointNum
  speed : ∀ velocity ∈ m.velocities, velocity.length = c.dimNum
  best : ∀ (i : Nat) pt val, m.pBestPts[i]? = some pt → m.pBestVals[i]? = some val →
    c.InBox pt ∨ count ≤ i ∧ val = NumericLimits.max

omit [Zero aType] [Add aType] [Coordinate aType] in
/-- One particle's memory returns, and keeps every personal best inside the box; a value below
`max()` gives the particle one. -/
theorem PSO.remember_returns {frame : List (List aType)} {values : List vType} (boxed : c.FrameInBox frame)
    (size : values.length = c.pointNum) {i : Nat} (small : i < c.pointNum) {m : PSO aType vType}
    {count : Nat} (before : PSO.Kept c count m) :
    ∃ next, PSO.remember values frame i m = some next ∧ PSO.Kept c count next ∧
      (i = count → (∀ val, values[i]? = some val → val < NumericLimits.max) →
        PSO.Kept c (count + 1) next) := by
  obtain ⟨pt,placed,inside⟩ := boxed.point small
  have valAt := List.getElem?_eq_getElem (size.symm ▸ small : i < values.length)
  have bestAt := List.getElem?_eq_getElem (before.values.symm ▸ small : i < m.pBestVals.length)
  have ptBound : i < m.pBestPts.length := before.points.symm ▸ small
  have valBound : i < m.pBestVals.length := before.values.symm ▸ small
  rcases lt_or_ge values[i] m.pBestVals[i] with smaller | larger
  · have known (j : Nat) (other : List aType) (val : vType)
        (otherAt : (m.pBestPts.set i pt)[j]? = some other)
        (otherVal : (m.pBestVals.set i values[i])[j]? = some val) :
        c.InBox other ∨ i ≠ j ∧ count ≤ j ∧ val = NumericLimits.max := by
      rcases eq_or_ne i j with rfl | apart
      · rw [List.getElem?_set_self ptBound] at otherAt
        cases Option.some.inj otherAt
        exact Or.inl inside
      · rw [List.getElem?_set_ne apart] at otherAt otherVal
        exact (before.best j other val otherAt otherVal).imp_right fun open_ => ⟨apart,open_⟩
    have kept (k : Nat) (above : ∀ j, i ≠ j → count ≤ j → k ≤ j) : PSO.Kept c k { m with
        pBestVals := m.pBestVals.set i values[i], pBestPts := m.pBestPts.set i pt } := by
      refine ⟨by simpa using before.points,by simpa using before.values,before.speeds,before.speed,?_⟩
      intro j other val otherAt otherVal
      exact (known j other val otherAt otherVal).imp_right fun open_ =>
        ⟨above j open_.1 open_.2.1,open_.2.2⟩
    refine ⟨_,?_,kept count fun _ _ => id,fun own _ => kept (count + 1) fun j apart above => by omega⟩
    simp [PSO.remember,valAt,bestAt,smaller,placed,write_of_lt ptBound,write_of_lt valBound]
  · refine ⟨m,?_,before,fun own below =>
      ⟨before.points,before.values,before.speeds,before.speed,?_⟩⟩
    · simp [PSO.remember,valAt,bestAt,not_lt.mpr larger]
    · intro j other val otherAt otherVal
      refine (before.best j other val otherAt otherVal).imp_right fun open_ => ⟨?_,open_.2⟩
      have apart : i ≠ j := by
        rintro rfl
        cases bestAt.symm.trans otherVal
        rw [open_.2] at larger
        exact absurd (below _ valAt) (not_lt.mpr larger)
      omega

omit [Zero aType] [Add aType] [Coordinate aType] in
/-- An extraction keeps what personal bests there are; from values below `max()` every particle
has one. -/
theorem PSO.extraction_keeps (recent : Recent c s) {m : PSO aType vType} {count : Nat}
    (before : PSO.Kept c count m) :
    ∃ extracted, PSO.extraction s m = some extracted ∧ PSO.Kept c count extracted ∧
      (count = 0 → (∀ values, s.valHistory.getLast? = some values → ∀ val ∈ values,
        val < NumericLimits.max) → PSO.Kept c c.pointNum extracted) := by
  obtain ⟨frame,last,boxed⟩ := recent.points
  obtain ⟨values,lastValues,size⟩ := recent.values
  have looped : ∃ next, loop frame.length (PSO.remember values frame) m = some next ∧
      PSO.Kept c count next ∧ (count = 0 → (∀ val ∈ values, val < NumericLimits.max) →
        PSO.Kept c frame.length next) := by
    apply loop_returns (fun i next => PSO.Kept c count next ∧
      (count = 0 → (∀ val ∈ values, val < NumericLimits.max) → PSO.Kept c i next))
    · exact ⟨before,fun none _ => none ▸ before⟩
    · intro i small m kept
      have inside : i < c.pointNum := boxed.size ▸ small
      obtain ⟨next,ran,held,-⟩ := PSO.remember_returns boxed size inside kept.1
      refine ⟨next,ran,held,fun none below => ?_⟩
      obtain ⟨_,again,-,more⟩ := PSO.remember_returns boxed size inside (kept.2 none below)
      cases ran.symm.trans again
      exact more rfl fun val valAt => below val (List.mem_of_getElem? valAt)
  obtain ⟨extracted,ran,kept,full⟩ := looped
  refine ⟨extracted,by simp [PSO.extraction,last,lastValues,ran],kept,fun none below => ?_⟩
  rw [← boxed.size]
  exact full none (below values lastValues)

theorem PSO.move_returns (valid : c.Valid) (args : PSOArgs) (recent : Recent c s)
    (best : c.InBox s.gBestPt) {ptIdx dimIdx : Nat} (ptSmall : ptIdx < c.pointNum)
    (dimSmall : dimIdx < c.dimNum) {newPt : List aType} (wide : newPt.length = c.dimNum) {m : PSO aType vType}
    (before : PSO.Kept c c.pointNum m) :
    ∃ moved next, PSO.move c args draws q s ptIdx dimIdx newPt m = some (moved,next) ∧
      PSO.Kept c c.pointNum next := by
  obtain ⟨frame,last,boxed⟩ := recent.points
  obtain ⟨myPt,placed,myBox⟩ := boxed.point ptSmall
  obtain ⟨my,myAt⟩ := myBox.coordinate dimSmall
  obtain ⟨low,high,lowAt,highAt,-⟩ := valid.limits dimIdx dimSmall
  obtain ⟨gBest,gBestAt⟩ := best.coordinate dimSmall
  have speedBound : ptIdx < m.velocities.length := before.speeds.symm ▸ ptSmall
  have speedAt := List.getElem?_eq_getElem speedBound
  have speedWide := before.speed _ (List.getElem_mem speedBound)
  have vBound : dimIdx < m.velocities[ptIdx].length := speedWide.symm ▸ dimSmall
  have vAt := List.getElem?_eq_getElem vBound
  have ptBound : ptIdx < m.pBestPts.length := before.points.symm ▸ ptSmall
  have bestAt := List.getElem?_eq_getElem ptBound
  have valAt := List.getElem?_eq_getElem (before.values.symm ▸ ptSmall : ptIdx < m.pBestVals.length)
  have bestBox : c.InBox m.pBestPts[ptIdx] := by
    rcases before.best ptIdx _ _ bestAt valAt with box | open_
    · exact box
    · omega
  obtain ⟨pBest,pBestAt⟩ := bestBox.coordinate dimSmall
  have newAt := List.getElem?_eq_getElem (wide.symm ▸ dimSmall : dimIdx < newPt.length)
  let vUpper := args.vMax * (toDouble high - toDouble low)
  let v := clamp (-vUpper) vUpper (PSO.accelerate args q (draws.dist01 m.rng)
    (draws.dist01 (m.rng + 1)) m.velocities[ptIdx][dimIdx] (toDouble pBest) (toDouble gBest)
    (toDouble my))
  refine ⟨newPt[dimIdx] + adapt (v * args.dt),{ m with
    velocities := m.velocities.set ptIdx (m.velocities[ptIdx].set dimIdx v), rng := m.rng + 2 },?_,?_⟩
  · simp only [PSO.move,Option.bind_eq_bind,last,placed,speedAt,highAt,lowAt,vAt,bestAt,pBestAt,myAt,
      gBestAt,newAt,Option.bind_some,write_of_lt speedBound,write_of_lt vBound]
    rfl
  · refine ⟨before.points,before.values,by simpa using before.speeds,?_,before.best⟩
    intro velocity member
    rcases List.mem_or_eq_of_mem_set member with old | rfl
    · exact before.speed velocity old
    · simpa using speedWide

theorem PSO.exploration_returns (valid : c.Valid) (args : PSOArgs) (recent : Recent c s)
    (best : c.InBox s.gBestPt) {m : PSO aType vType} (kept : PSO.Kept c c.pointNum m) :
    ∃ newFrm next, PSO.exploration c args draws q s m = some (newFrm,next) ∧ c.FrameInBox newFrm ∧
      PSO.Kept c c.pointNum next := by
  obtain ⟨frame,last,boxed⟩ := recent.points
  have origins : ∀ ptIdx < c.pointNum, ∃ pt,
      (s.ptHistory.getLast?.bind fun frame => frame[ptIdx]?) = some pt ∧ pt.length = c.dimNum := by
    intro ptIdx small
    obtain ⟨pt,placed,inside⟩ := boxed.point small
    exact ⟨pt,by simp [last,placed],inside.size⟩
  exact exploreFrame_returns valid origins (fun ptIdx ptSmall dimIdx dimSmall newPt m wide kept =>
    PSO.move_returns draws q valid args recent best ptSmall dimSmall wide kept) kept

theorem PSO.safe (valid : c.Valid) (args : PSOArgs) :
    (PSO.derived c args draws q).Safe c (PSO.Kept c 0) := by
  intro s m current before
  obtain ⟨extracted,gathered,-,full⟩ := PSO.extraction_keeps current.recent before
  have below : ∀ values, s.valHistory.getLast? = some values → ∀ val ∈ values, val < NumericLimits.max := by
    intro values last
    obtain ⟨_,again,-,below⟩ := current.values
    cases last.symm.trans again
    exact below
  obtain ⟨newFrm,next,explored,newBoxed,kept⟩ := PSO.exploration_returns draws q valid args current.recent
    current.best (full rfl below)
  refine ⟨extracted,gathered,newFrm,next,explored,newBoxed,kept.points,kept.values,kept.speeds,kept.speed,?_⟩
  intro i pt val ptAt valAt
  exact (kept.best i pt val ptAt valAt).imp_right fun open_ => ⟨Nat.zero_le i,open_.2⟩

/-- With every personal best known the swarm goes on whatever the values are. -/
theorem PSO.steady (valid : c.Valid) (args : PSOArgs) :
    (PSO.derived c args draws q).Steady c (PSO.Kept c c.pointNum) := by
  intro s m recent before
  obtain ⟨extracted,gathered,kept,-⟩ := PSO.extraction_keeps recent before
  exact ⟨extracted,gathered,fun best => PSO.exploration_returns draws q valid args recent best kept⟩

theorem PSO.construct_returns (limited : c.Limited) (args : PSOArgs) :
    ∃ m : PSO aType vType, PSO.construct c args draws = some m ∧ PSO.Kept c 0 m := by
  let sized (current : List (List ℚ) × Nat) : Prop :=
    current.1.length = c.pointNum ∧ ∀ velocity ∈ current.1, velocity.length = c.dimNum
  have looped : ∃ current, loop c.pointNum
      (fun ptIdx => loop c.dimNum (PSO.setVelocity c args draws ptIdx))
      (List.replicate c.pointNum (List.replicate c.dimNum 0),0) = some current ∧ sized current := by
    apply loop_returns (fun _ => sized) (by simp [sized])
    intro ptIdx ptSmall current before
    apply loop_returns (fun _ => sized) before
    intro dimIdx dimSmall current before
    obtain ⟨low,high,lowAt,highAt,-⟩ := limited dimIdx dimSmall
    have bound : ptIdx < current.1.length := before.1.symm ▸ ptSmall
    have wide := before.2 _ (List.getElem_mem bound)
    have inner : dimIdx < current.1[ptIdx].length := wide.symm ▸ dimSmall
    refine ⟨(current.1.set ptIdx (current.1[ptIdx].set dimIdx
      (draws.distV current.2 args.vMax * (toDouble high - toDouble low))),current.2 + 1),?_,
      by simpa using before.1,?_⟩
    · simp [PSO.setVelocity,lowAt,highAt,bound,write_of_lt inner,write_of_lt bound]
    · intro velocity member
      rcases List.mem_or_eq_of_mem_set member with old | rfl
      · exact before.2 velocity old
      · simpa using wide
  obtain ⟨⟨velocities,rng⟩,ran,speeds,speed⟩ := looped
  refine ⟨⟨List.replicate c.pointNum [],List.replicate c.pointNum NumericLimits.max,velocities,rng⟩,
    by simp [PSO.construct,ran],by simp,by simp,speeds,speed,?_⟩
  intro i pt val _ valAt
  exact Or.inr ⟨Nat.zero_le i,List.eq_of_mem_replicate (List.mem_of_getElem? valAt)⟩

omit [Zero vType] [NumericLimits vType] in
theorem AOA.steady (valid : c.Valid) :
    (AOA.derived c draws q : Derived aType vType (AOA aType vType)).Steady c fun _ => True := by
  intro s m recent _
  obtain ⟨frame,last,boxed⟩ := recent.points
  obtain ⟨values,lastValues,size⟩ := recent.values
  have looped (m : AOA aType vType) :
      ∃ next, loop frame.length (AOA.remember values frame) m = some next ∧ True := by
    apply loop_returns (fun _ _ => True) trivial
    intro i small m _
    obtain ⟨pt,placed,-⟩ := boxed.point (boxed.size ▸ small)
    have bound : i < values.length := by
      rw [size,← boxed.size]
      exact small
    rcases lt_or_ge m.gWorstVal values[i] with worse | better
    · exact ⟨_,by simp [AOA.remember,bound,placed,worse]; rfl,trivial⟩
    · exact ⟨m,by simp [AOA.remember,bound,not_lt.mpr better],trivial⟩
  obtain ⟨extracted,ran,-⟩ := looped { m with
    currIterIdx := m.currIterIdx + 1
    argMOP := 1 - ((m.currIterIdx + 1 : Nat) : ℚ)^2 / (c.iterNum : ℚ)^2 }
  have moves (best : c.InBox s.gBestPt) : ∀ ptIdx < c.pointNum, ∀ dimIdx < c.dimNum, ∀ newPt m, newPt.length = c.dimNum → True →
      ∃ moved next, AOA.move c draws q s ptIdx dimIdx newPt m = some (moved,next) ∧ True := by
    intro ptIdx _ dimIdx dimSmall newPt m _ _
    obtain ⟨low,high,lowAt,highAt,-⟩ := valid.limits dimIdx dimSmall
    obtain ⟨gBest,gBestAt⟩ := best.coordinate dimSmall
    simp [AOA.move,lowAt,highAt,gBestAt]
  have gathered : AOA.extraction c s m = some extracted := by
    simp only [AOA.extraction,last,lastValues,Option.bind_eq_bind,Option.bind_some]
    exact ran
  refine ⟨extracted,gathered,fun best => exploreFrame_returns valid
    (fun ptIdx small => blankOrigin_returns recent small) (moves best) trivial⟩

omit [LinearOrder vType] [Zero vType] [NumericLimits vType] in
theorem RSA.steady (valid : c.Valid) :
    (RSA.derived c draws q : Derived aType vType RSA).Steady c fun _ => True := by
  intro s m recent _
  obtain ⟨frame,last,boxed⟩ := recent.points
  have moves (best : c.InBox s.gBestPt) : ∀ ptIdx < c.pointNum, ∀ dimIdx < c.dimNum, ∀ newPt m, newPt.length = c.dimNum → True →
      ∃ moved next, RSA.move c draws q s ptIdx dimIdx newPt m = some (moved,next) ∧ True := by
    intro ptIdx ptSmall dimIdx dimSmall newPt m _ _
    obtain ⟨low,high,lowAt,highAt,-⟩ := valid.limits dimIdx dimSmall
    obtain ⟨gBest,gBestAt⟩ := best.coordinate dimSmall
    obtain ⟨pt,placed,own⟩ := boxed.point ptSmall
    obtain ⟨this,thisAt⟩ := own.coordinate dimSmall
    have chosen := draws.choice_lt m.rng c.pointNum (by omega)
    obtain ⟨otherPt,otherPlaced,otherBox⟩ := boxed.point chosen
    obtain ⟨other,otherAt⟩ := otherBox.coordinate dimSmall
    simp [RSA.move,last,placed,highAt,lowAt,gBestAt,otherPlaced,otherAt,thisAt]
  exact ⟨_,rfl,fun best => exploreFrame_returns valid
    (fun ptIdx small => blankOrigin_returns recent small) (moves best) trivial⟩

/-- All three searches end, with the documented shapes and every coordinate of every frame
within its limits, whatever is drawn and whatever a division by zero gives. -/
theorem exec_stays_in_box (c : Settings aType vType) (valid : c.Valid)
    (limited : ∀ points, ∀ val ∈ c.evaluateFunc points, val < NumericLimits.max) (args : PSOArgs)
    (draws : Draws aType) (q : Quotient) :
    ∃ start, construct c draws = some start ∧
      (∃ m s own, PSO.construct c args draws = some m ∧
        exec c (PSO.derived c args draws q) (start,m) = some (s,own) ∧ Documented c s) ∧
      (∃ s own, exec c (AOA.derived c draws q) (start,AOA.construct) = some (s,own) ∧ Documented c s) ∧
      ∃ s own, exec c (RSA.derived c draws q) (start,{}) = some (s,own) ∧ Documented c s := by
  obtain ⟨frame,made,boxed⟩ := firstFrame_returns valid.limits valid.points draws
  refine ⟨Search.start frame,by simp [construct,made],?_,?_,?_⟩
  · obtain ⟨m,built,kept⟩ := PSO.construct_returns draws valid.limits args
    obtain ⟨s,own,ran,shape⟩ := exec_documented valid limited (PSO.safe draws q valid args) boxed kept
    exact ⟨m,s,own,built,ran,shape⟩
  · exact exec_documented valid limited (AOA.steady draws q valid).safe boxed trivial
  · exact exec_documented valid limited (RSA.steady draws q valid).safe boxed trivial

end Optimisers

/-- Draws that always take the least point and the middle of the unit interval. -/
def steadyDraws : Draws ℤ where
  uniform _ low _ := low
  dist01 _ := 1/2
  distV _ _ := 0
  choice _ _ := 0
  evoScaleDist _ := 1
  uniform_within _ _ _ ordered := ⟨le_rfl,ordered⟩
  dist01_within _ := by norm_num
  distV_within _ _ nonneg := ⟨neg_nonpos.mpr nonneg,nonneg⟩
  choice_lt _ _ positive := positive
  evoScaleDist_within _ := by norm_num

theorem exec_stays_in_box_integral :
    let c : Settings ℤ ℚ := ⟨[0,-1],[3,4],2,10,3,List.map fun pt => min 3 (pt.sum : ℚ)⟩
    ∃ start, construct c steadyDraws = some start ∧ ∃ s own,
      exec c (RSA.derived c steadyDraws ⟨(· / ·),fun _ _ _ => rfl⟩) (start,{}) = some (s,own) ∧
        Documented c s := by
  intro c
  have ordered : ∀ (d : Nat) low high, c.lowerLimits[d]? = some low → c.upperLimits[d]? = some high →
      low ≤ high := by
    intro d low high lowAt highAt
    rcases d with _ | _ | d
    · cases Option.some.inj lowAt
      cases Option.some.inj highAt
      norm_num
    · cases Option.some.inj lowAt
      cases Option.some.inj highAt
      norm_num
    · simp [c] at lowAt
  have valid : c.Valid := ⟨le_rfl,by norm_num [c],rfl,rfl,ordered,by simp [c]⟩
  have limited : ∀ points, ∀ val ∈ c.evaluateFunc points, val < NumericLimits.max := by
    intro points val member
    obtain ⟨pt,-,rfl⟩ := List.mem_map.mp member
    exact (min_le_left _ _).trans_lt (lt_max_of_lt (by norm_num))
  obtain ⟨start,made,-,-,ran⟩ := exec_stays_in_box c valid limited ⟨1/2,1/2,1,2⟩ steadyDraws
    ⟨(· / ·),fun _ _ _ => rfl⟩
  exact ⟨start,made,ran⟩

end Box
end MetaPB.Optimizer

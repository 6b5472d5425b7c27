import MetaPB.Optimizer.GlobalBest
import MetaPB.Optimizer.PointCompare
import Mathlib.SetTheory.Cardinal.Order

/-! Evaluation through the map of points. Where the comparison orders the points that are
evaluated, a run is mirrored by one over their numbers in a list, whose cache is exact, and what
is proved of that holds of the map; a point that is no number can be taken for another. -/
namespace MetaPB.Optimizer
open Lib.Loop Lib.OrderedMap

variable {aType vType σ : Type}

section Numbers
variable [DecidableEq aType]

/-- The number of a point in a list, as a point of one coordinate. -/
def code (keys : List (List aType)) (pt : List aType) : List Nat := [keys.idxOf pt]

theorem code_inj {keys : List (List aType)} {a b : List aType} (aKey : a ∈ keys) :
    code keys a = code keys b ↔ a = b := by
  rw [code,code,List.cons.injEq,List.idxOf_inj aKey]
  exact and_iff_left rfl

/-- The value of a numbered point. -/
def decoded [Zero vType] (keys : List (List aType)) (f : List aType → vType) (number : List Nat) : vType :=
  (number.head?.bind (keys[·]?)).elim 0 f

theorem decoded_code [Zero vType] {keys : List (List aType)} (f : List aType → vType)
    {pt : List aType} (known : pt ∈ keys) : decoded keys f (code keys pt) = f pt := by
  have found : keys[keys.idxOf pt]? = some pt := by
    rw [List.getElem?_eq_getElem (List.idxOf_lt_length_of_mem known),List.getElem_idxOf]
  simp [decoded,code,found]

/-- The settings of the run over the numbers. -/
def numbered [Zero vType] (keys : List (List aType)) (c : Settings aType vType)
    (f : List aType → vType) : Settings Nat vType where
  lowerLimits := []
  upperLimits := []
  dimNum := c.dimNum
  pointNum := c.pointNum
  iterNum := c.iterNum
  evaluateFunc := List.map (decoded keys f)

variable [LT aType] [DecidableLT aType]

/-- The map holds, point for point, what the cache of the numbers holds. -/
structure Agree (keys : List (List aType)) (entries : List (List aType × vType))
    (cache : Std.TreeMap (List Nat) vType compare) : Prop where
  sorted : Sorted ptCompare (· ∈ keys) entries
  stored : ∀ pt ∈ keys, ∀ val, (pt,val) ∈ entries ↔ cache[code keys pt]? = some val

/-- Frames, values and calls are equal up to the numbering. -/
structure Mirrors (keys : List (List aType)) (m : MapSearch aType vType) (s : Search Nat vType) : Prop where
  agree : Agree keys m.pt2Val s.pt2Val
  points : s.ptHistory = m.ptHistory.map (List.map (code keys))
  values : s.valHistory = m.valHistory
  calls : s.evaluateCalls = m.evaluateCalls.map (List.map (code keys))

section Step
variable {keys : List (List aType)} (orders : Orders ptCompare (· ∈ keys))

include orders

theorem Agree.lookup_eq {entries : List (List aType × vType)}
    {cache : Std.TreeMap (List Nat) vType compare} (agree : Agree keys entries cache)
    {pt : List aType} (known : pt ∈ keys) : lookup ptCompare pt entries = cache[code keys pt]? := by
  apply Option.ext
  intro val
  rw [lookup_eq_some orders known agree.sorted,agree.stored pt known]

theorem Agree.assign {entries : List (List aType × vType)}
    {cache : Std.TreeMap (List Nat) vType compare} (agree : Agree keys entries cache)
    {key : List aType} (known : key ∈ keys) (val : vType) :
    Agree keys (assign ptCompare key val entries) (cache.insert (code keys key) val) := by
  refine ⟨agree.sorted.assign orders.toStrict known val,fun pt ptKnown value => ?_⟩
  rw [mem_assign orders known agree.sorted,Std.TreeMap.getElem?_insert,agree.stored pt ptKnown]
  rcases eq_or_ne pt key with rfl | apart
  · simp [eq_comm]
  · have different : code keys key ≠ code keys pt := fun same => apart ((code_inj known).mp same).symm
    simp [apart,different]

/-- Points looked up in the map and their numbers in the cache part in the same way. -/
theorem find_related {entries : List (List aType × vType)}
    {cache : Std.TreeMap (List Nat) vType compare} (agree : Agree keys entries cache)
    {frame : List (List aType)} {pointNum : Nat} (known : ∀ pt ∈ frame.take pointNum, pt ∈ keys)
    {first found : Partition aType vType} (empty : first.newPoints = [])
    (looked : loop pointNum (MapSearch.find entries frame) first = some found) :
    loop pointNum (Search.find cache (frame.map (code keys)))
      { result := first.result, newPtIdx := first.newPtIdx } =
      some { found with newPoints := found.newPoints.map (code keys) } := by
  have related : ∃ coded, loop pointNum (Search.find cache (frame.map (code keys)))
      { result := first.result, newPtIdx := first.newPtIdx } = some coded ∧
      coded = { found with newPoints := found.newPoints.map (code keys) } := by
    refine loop_related (fun _ (found : Partition aType vType) coded =>
      coded = { found with newPoints := found.newPoints.map (code keys) }) ?_ ?_ looked
    · rw [empty]
      rfl
    · intro i small before after coded held stepped
      subst held
      obtain ⟨pt,placed,stepped⟩ := Option.bind_eq_some_iff.mp stepped
      have ptKnown : pt ∈ keys := known pt (mem_take_of_getElem? small placed)
      rw [agree.lookup_eq orders ptKnown] at stepped
      have placedCode : (frame.map (code keys))[i]? = some (code keys pt) := by simp [placed]
      cases cached : cache[code keys pt]? with
      | some val =>
        rw [cached] at stepped
        obtain ⟨result,wrote,same⟩ := Option.bind_eq_some_iff.mp stepped
        cases Option.some.inj same
        refine ⟨_,?_,rfl⟩
        simp only [Search.find,placedCode,Option.bind_eq_bind,Option.bind_some,cached,wrote]
        rfl
      | none =>
        rw [cached] at stepped
        cases Option.some.inj stepped
        refine ⟨_,?_,rfl⟩
        simp only [Search.find,placedCode,Option.bind_eq_bind,Option.bind_some,cached]
        simp
  obtain ⟨coded,ran,rfl⟩ := related
  exact ran

theorem scatter_related {entries : List (List aType × vType)}
    {cache : Std.TreeMap (List Nat) vType compare} (agree : Agree keys entries cache)
    {found : Partition aType vType} (known : ∀ pt ∈ found.newPoints, pt ∈ keys)
    {newResults : List vType} {stored : List vType × List (List aType × vType)}
    (scattered : loop newResults.length (MapSearch.scatter found newResults) (found.result,entries) =
      some stored) : ∃ learnt,
      loop newResults.length (Search.scatter { found with newPoints := found.newPoints.map (code keys) }
        newResults) (found.result,cache) = some (stored.1,learnt) ∧ Agree keys stored.2 learnt := by
  have related : ∃ coded, loop newResults.length
      (Search.scatter { found with newPoints := found.newPoints.map (code keys) } newResults)
      (found.result,cache) = some coded ∧ coded.1 = stored.1 ∧ Agree keys stored.2 coded.2 := by
    refine loop_related (fun _ (stored : List vType × List (List aType × vType))
      (coded : List vType × Std.TreeMap (List Nat) vType compare) =>
      coded.1 = stored.1 ∧ Agree keys stored.2 coded.2) ⟨rfl,agree⟩ ?_ scattered
    intro i _ before after coded held stepped
    obtain ⟨result,learnt⟩ := coded
    obtain ⟨rfl,agrees⟩ := held
    simp only [MapSearch.scatter,Option.bind_eq_bind,Option.bind_eq_some_iff] at stepped
    obtain ⟨val,valAt,ptIdx,idxAt,written,wrote,pt,ptAt,same⟩ := stepped
    cases Option.some.inj same
    have ptKnown : pt ∈ keys := known pt (List.mem_of_getElem? ptAt)
    refine ⟨(written,learnt.insert (code keys pt) val),?_,rfl,agrees.assign orders ptKnown val⟩
    simp [Search.scatter,valAt,idxAt,wrote,ptAt]
  obtain ⟨⟨result,learnt⟩,ran,rfl,agrees⟩ := related
  exact ⟨learnt,ran,agrees⟩

theorem exploitation_related [Zero vType] {c : Settings aType vType} {f : List aType → vType}
    (pointwise : ∀ points, c.evaluateFunc points = points.map f)
    {m after : MapSearch aType vType} {s : Search Nat vType} (mirrors : Mirrors keys m s)
    (known : ∀ frame, m.ptHistory.getLast? = some frame → ∀ pt ∈ frame.take c.pointNum, pt ∈ keys)
    (ran : m.exploitation c = some after) :
    ∃ t, s.exploitation (numbered keys c f) = some t ∧ Mirrors keys after t := by
  simp only [MapSearch.exploitation,Option.bind_eq_bind,Option.bind_eq_some_iff] at ran
  obtain ⟨frame,last,found,looked,stored,scattered,same⟩ := ran
  cases Option.some.inj same
  have codedLooked := find_related orders mirrors.agree (known frame last) rfl looked
  have listed (pt : List aType) (member : pt ∈ found.newPoints) : pt ∈ keys :=
    known frame last pt (MapSearch.find_known rfl looked pt member)
  have answers : (numbered keys c f).evaluateFunc (found.newPoints.map (code keys)) =
      c.evaluateFunc found.newPoints := by
    rw [pointwise]
    simp only [numbered,List.map_map]
    exact List.map_congr_left fun pt member => decoded_code f (listed pt member)
  obtain ⟨learnt,codedScattered,agrees⟩ := scatter_related orders mirrors.agree listed scattered
  have codedLast : s.ptHistory.getLast? = some (frame.map (code keys)) := by
    rw [mirrors.points,List.getLast?_map,last]
    rfl
  refine ⟨{ s with
    pt2Val := learnt
    valHistory := s.valHistory ++ [stored.1]
    evaluateCalls := s.evaluateCalls ++ [found.newPoints.map (code keys)] },?_,agrees,mirrors.points,by rw [mirrors.values],by simp [mirrors.calls]⟩
  have counted : (numbered keys c f).pointNum = c.pointNum := rfl
  simp only [Search.exploitation,codedLast,counted,codedLooked,answers,codedScattered,
    Option.bind_eq_bind,Option.bind_some]
  rfl

/-- Beside the run over the numbers, the run of the map. -/
def carried [LT vType] [DecidableLT vType] [Zero vType] (keys : List (List aType))
    (c : Settings aType vType) (d : MapDerived aType vType σ) :
    Derived Nat vType (MapSearch aType vType × σ) where
  extraction _ own := do
    let m ← own.1.exploitation c
    let m ← m.convergeLogging
    let members ← d.extraction m own.2
    return (m,members)
  exploration _ own := do
    let (newFrm,members) ← d.exploration own.1 own.2
    return (newFrm.map (code keys),({ own.1 with ptHistory := own.1.ptHistory ++ [newFrm] },members))

theorem turn_related [LT vType] [DecidableLT vType] [Zero vType] (order : LinearOrder vType)
    {c : Settings aType vType} {f : List aType → vType}
    (pointwise : ∀ points, c.evaluateFunc points = points.map f) {d : MapDerived aType vType σ}
    {frmIdx : Nat} {m after : MapSearch aType vType} {s : Search Nat vType} {members own : σ}
    (mirrors : Mirrors keys m s)
    (known : ∀ frame, m.ptHistory.getLast? = some frame → ∀ pt ∈ frame.take c.pointNum, pt ∈ keys)
    (ran : MapSearch.turn c d frmIdx (m,members) = some (after,own)) :
    ∃ t, turn (numbered keys c f) (carried keys c d) frmIdx (s,(m,members)) = some (t,(after,own)) ∧
      Mirrors keys after t := by
  obtain ⟨evaluated,logged,extracted,exploited,converged,gathered,rest⟩ := MapSearch.turn_cases ran
  obtain ⟨middle,codedExploited,read⟩ := exploitation_related orders pointwise mirrors known exploited
  obtain ⟨⟨values,last,filled⟩,framed⟩ := MapSearch.convergeLogging_frame converged
  -- the values compared need not be those of the map: logging only has to go through
  obtain ⟨frame,result,newPoints,lastFrame,enough,recorded⟩ := exploitation_evaluated codedExploited
  have lastValues : middle.valHistory.getLast? = some result := by
    rw [recorded.record]
    simp
  have length : 0 < result.length := by
    rw [read.values,last] at lastValues
    cases Option.some.inj lastValues
    exact filled
  have samePoints : middle.ptHistory = s.ptHistory := by rw [recorded.record]
  obtain ⟨noted,codedConverged⟩ := convergeLogging_returns (samePoints ▸ lastFrame) lastValues length
    (recorded.size ▸ enough)
  have kept := convergeLogging_frame codedConverged
  have still : Mirrors keys logged noted := by
    rw [framed,kept]
    exact ⟨read.agree,read.points,read.values,read.calls⟩
  have extractedCode : (carried keys c d).extraction noted (m,members) = some (logged,extracted) := by
    simp [carried,exploited,converged,gathered]
  have iterated : (numbered keys c f).iterNum = c.iterNum := rfl
  rcases rest with ⟨final,rfl,rfl⟩ | ⟨more,newFrm,proposed,rfl⟩
  · refine ⟨noted,?_,still⟩
    simp [turn,codedExploited,codedConverged,extractedCode,iterated,final]
  · have proposedCode : (carried keys c d).exploration noted (logged,extracted) = some
        (newFrm.map (code keys),({ logged with ptHistory := logged.ptHistory ++ [newFrm] },own)) := by
      simp [carried,proposed]
    refine ⟨{ noted with ptHistory := noted.ptHistory ++ [newFrm.map (code keys)] },?_,still.agree,
      by simp [still.points],still.values,still.calls⟩
    simp [turn,codedExploited,codedConverged,extractedCode,iterated,more,proposedCode]

omit orders in
/-- The first frame and the numbers of its points. -/
theorem start_mirrors (limit best : vType) (firstFrm : List (List aType)) :
    Mirrors keys (MapSearch.start limit firstFrm)
      { gBestVal := best, ptHistory := [firstFrm.map (code keys)] } :=
  ⟨⟨sorted_nil _ _,fun pt _ val => by simp [MapSearch.start]⟩,rfl,rfl,rfl⟩

theorem turns_related [LT vType] [DecidableLT vType] [Zero vType] (order : LinearOrder vType)
    {c : Settings aType vType} {f : List aType → vType}
    (pointwise : ∀ points, c.evaluateFunc points = points.map f) {d : MapDerived aType vType σ}
    {limit : vType} {firstFrm : List (List aType)} {first : Search Nat vType} {count : Nat}
    {m : MapSearch aType vType} {members own : σ}
    (mirrors : Mirrors keys (MapSearch.start limit firstFrm) first) (within : count ≤ c.iterNum)
    (known : ∀ pt ∈ (m.evaluatedFrames c count).flatten, pt ∈ keys)
    (ran : MapSearch.turns c d count (MapSearch.start limit firstFrm,members) = some (m,own)) :
    ∃ s, turns (numbered keys c f) (carried keys c d) count
      (first,(MapSearch.start limit firstFrm,members)) = some (s,(m,own)) ∧ Mirrors keys m s := by
  refine MapSearch.turns_invariant (fun i current => ∃ s, turns (numbered keys c f) (carried keys c d) i
    (first,(MapSearch.start limit firstFrm,members)) = some (s,current) ∧ Mirrors keys current.1 s)
    ⟨first,rfl,mirrors⟩ ?_ within known ran
  intro i current next held listed stepped
  obtain ⟨s,reached,middle⟩ := held
  obtain ⟨t,turned,after⟩ := turn_related orders order pointwise middle listed stepped
  refine ⟨t,?_,after⟩
  rw [turns,loop_succ]
  exact Option.bind_eq_some_iff.mpr ⟨_,reached,turned⟩

end Step
end Numbers

section Run
variable [LT aType] [DecidableLT aType] [LT vType] [DecidableLT vType] [Zero vType]

/-- Plain evaluation, and a map of exactly the points evaluated. -/
structure MapSearch.Memoised (c : Settings aType vType) (f : List aType → vType) (count : Nat)
    (m : MapSearch aType vType) : Prop where
  length : m.valHistory.length = count
  values : m.valHistory = (m.evaluatedFrames c count).map (List.map f)
  stored : ∀ pt val, (pt,val) ∈ m.pt2Val ↔ pt ∈ (m.evaluatedFrames c count).flatten ∧ val = f pt
  fresh : ∀ (k : Nat) call, m.evaluateCalls[k]? = some call → ∀ pt ∈ call,
    pt ∉ ((m.evaluatedFrames c count).take k).flatten

variable {c : Settings aType vType} {f : List aType → vType} {d : MapDerived aType vType σ} {limit : vType}
  {firstFrm : List (List aType)} {members own : σ} {count : Nat} {m : MapSearch aType vType}

theorem MapSearch.memoised_of_orders (pointwise : ∀ points, c.evaluateFunc points = points.map f)
    (within : count ≤ c.iterNum)
    (ran : MapSearch.turns c d count (MapSearch.start limit firstFrm,members) = some (m,own))
    (orders : Orders ptCompare (· ∈ (m.evaluatedFrames c count).flatten)) : m.Memoised c f count := by
  classical
  obtain ⟨order,-⟩ := exists_wellFoundedLT vType
  let keys := (m.evaluatedFrames c count).flatten
  obtain ⟨s,numbers,mirrors⟩ := turns_related orders order pointwise
    (start_mirrors limit limit firstFrm) within (fun pt member => member) ran
  obtain ⟨shaped,values,known,fresh⟩ := turns_memoised (c := numbered keys c f)
    (fun _ => rfl) within ⟨by simp,rfl,rfl,rfl,rfl⟩ rfl numbers
  have frames : Optimizer.evaluatedFrames (numbered keys c f) count s =
      (m.evaluatedFrames c count).map (List.map (code keys)) := by
    rw [Optimizer.evaluatedFrames,MapSearch.evaluatedFrames,mirrors.points]
    simp [keys,numbered,List.map_take,Function.comp_def]
  rw [frames] at values known fresh
  refine ⟨mirrors.values ▸ shaped.values,?_,?_,?_⟩
  · rw [← mirrors.values,values,List.map_map]
    refine List.map_congr_left fun frame listed => ?_
    rw [Function.comp_apply,List.map_map]
    refine List.map_congr_left fun pt member => ?_
    exact decoded_code f (List.mem_flatten.mpr ⟨frame,listed,member⟩)
  · intro pt val
    have stored (member : pt ∈ keys) : (pt,val) ∈ m.pt2Val ↔ val = f pt := by
      have coded : code keys pt ∈ ((m.evaluatedFrames c count).map (List.map (code keys))).flatten := by
        rw [← List.map_flatten]
        exact List.mem_map_of_mem member
      rw [mirrors.agree.stored pt member,known,if_pos coded,decoded_code f member,Option.some.injEq,eq_comm]
    constructor
    · intro held
      have member := mirrors.agree.sorted.known _ held
      exact ⟨member,(stored member).mp held⟩
    · rintro ⟨member,same⟩
      exact (stored member).mpr same
  · intro k call listed pt called seen
    refine fresh k (call.map (code keys)) ?_ (code keys pt) (List.mem_map_of_mem called) ?_
    · rw [mirrors.calls,List.getElem?_map,listed]
      rfl
    · rw [← List.map_take,← List.map_flatten]
      exact List.mem_map_of_mem seen

omit [LT vType] [DecidableLT vType] [Zero vType] in
/-- Of two evaluated points that a map in order holds one is less. -/
theorem MapSearch.Memoised.orders (memoised : m.Memoised c f count)
    (strict : Strict ptCompare (· ∈ (m.evaluatedFrames c count).flatten))
    (sorted : Sorted ptCompare (· ∈ (m.evaluatedFrames c count).flatten) m.pt2Val) :
    Orders ptCompare (· ∈ (m.evaluatedFrames c count).flatten) := by
  refine ⟨strict,fun a b aPoint bPoint apart => ?_⟩
  have aStored := (memoised.stored a (f a)).mpr ⟨aPoint,rfl⟩
  have bStored := (memoised.stored b (f b)).mpr ⟨bPoint,rfl⟩
  exact sorted.compared aStored bStored fun same => apart (congrArg Prod.fst same)

/-- Evaluation through the map is plain evaluation, in any number of turns, exactly if the comparison
orders the points evaluated. (A comparison that is not even a strict order of them leaves the map
open.) -/
theorem MapSearch.exec_memoised_iff (c : Settings aType vType) (f : List aType → vType)
    (pointwise : ∀ points, c.evaluateFunc points = points.map f) (d : MapDerived aType vType σ)
    (limit : vType) (firstFrm : List (List aType)) (members own : σ) (count : Nat)
    (within : count ≤ c.iterNum) (m : MapSearch aType vType)
    (ran : MapSearch.turns c d count (MapSearch.start limit firstFrm,members) = some (m,own)) :
    Strict ptCompare (· ∈ (m.evaluatedFrames c count).flatten) ∧ m.Memoised c f count ↔
      Orders ptCompare (· ∈ (m.evaluatedFrames c count).flatten) := by
  constructor
  · rintro ⟨strict,memoised⟩
    exact memoised.orders strict (MapSearch.turns_sorted within strict ran)
  · intro orders
    exact ⟨orders.toStrict,MapSearch.memoised_of_orders pointwise within ran orders⟩

/-- A first frame that repeats a point, and a second that is half known. -/
theorem MapSearch.exec_memoised_repeated :
    let c : Settings (Floating ℤ) ℤ := ⟨[.number 0],[.number 3],1,2,2,List.map fun pt => pt.length⟩
    let d : MapDerived (Floating ℤ) ℤ Unit :=
      ⟨fun _ _ => some (),fun _ _ => some ([[.number 1],[.number 2,.number 0]],())⟩
    ∃ m, MapSearch.exec c d (MapSearch.start 9 [[.number 1],[.number 1]],()) = some (m,()) ∧
      m.Memoised c (fun pt => pt.length) 2 := by
  intro c d
  have frames : (MapSearch.exec c d (MapSearch.start 9 [[.number 1],[.number 1]],())).map
      (fun done => (done.1.evaluatedFrames c 2).flatten) =
      some [[.number 1],[.number 1],[.number 1],[.number 2,.number 0]] := by decide +kernel
  obtain ⟨⟨m,own⟩,ran,points⟩ := Option.map_eq_some_iff.mp frames
  refine ⟨m,ran,((MapSearch.exec_memoised_iff c (fun pt => pt.length) (fun _ => rfl) d 9
    [[.number 1],[.number 1]] () () 2 le_rfl m ran).mpr ?_).2⟩
  rw [points]
  exact orders_of_clean (by simp [Clean])

/-- A point that is no number is taken for the one stored before it. -/
theorem MapSearch.exec_not_memoised :
    let f : List (Floating ℤ) → ℤ := fun pt => if pt = [.number 1] then 5 else 7
    let c : Settings (Floating ℤ) ℤ := ⟨[.number 0],[.number 3],1,1,2,List.map f⟩
    let d : MapDerived (Floating ℤ) ℤ Unit := ⟨fun _ _ => some (),fun _ _ => some ([[.nan]],())⟩
    ∃ m, MapSearch.exec c d (MapSearch.start 9 [[.number 1]],()) = some (m,()) ∧
      m.valHistory = [[5],[5]] ∧ (m.evaluatedFrames c 2).map (List.map f) = [[5],[7]] ∧
      ¬ m.Memoised c f 2 := by
  intro f c d
  have histories : (MapSearch.exec c d (MapSearch.start 9 [[.number 1]],())).map
      (fun done => (done.1.valHistory,(done.1.evaluatedFrames c 2).map (List.map f))) =
      some ([[5],[5]],[[5],[7]]) := by decide +kernel
  obtain ⟨⟨m,own⟩,ran,same⟩ := Option.map_eq_some_iff.mp histories
  obtain ⟨values,plain⟩ := Prod.mk.inj same
  refine ⟨m,ran,values,plain,fun memoised => ?_⟩
  have wrong := values.symm.trans (memoised.values.trans plain)
  simp at wrong

end Run
end MetaPB.Optimizer

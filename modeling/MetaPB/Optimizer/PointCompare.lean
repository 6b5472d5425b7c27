import MetaPB.Lib.OrderedMap
import MetaPB.Optimizer.OptimizerBase

/-! The main loop over coordinates and values that are only compared by `<`, as floating ones that
may be no numbers. The cache is a map under the comparison of points, in which what is no number
is neither less nor greater than anything: a point that differs from a stored one there only is
taken for it. (Where the comparison does not order the keys, a tree's search depends on its
shape; here it ends at the first key that is not less.) -/
namespace MetaPB.Optimizer
open Lib.Loop Lib.OrderedMap

/-- `std::lexicographical_compare` of the coordinates. -/
def ptCompare {aType : Type} [LT aType] [DecidableLT aType] : List aType → List aType → Bool
  | _, [] => false
  | [], _::_ => true
  | x::xs, y::ys => if x < y then true else if y < x then false else ptCompare xs ys

theorem ptCompare_eq {aType : Type} [LinearOrder aType] (xs ys : List aType) :
    ptCompare xs ys = decide (xs < ys) := by
  induction xs generalizing ys with
  | nil => cases ys <;> simp [ptCompare]
  | cons x xs ih =>
    cases ys with
    | nil => simp [ptCompare]
    | cons y ys =>
      simp only [ptCompare,ih,List.cons_lt_cons_iff]
      rcases lt_trichotomy x y with less | rfl | greater
      · simp [less]
      · simp
      · simp [greater,greater.not_gt,greater.ne']

/-- Coordinates of a linear order tell any points apart. -/
theorem orders_points {aType : Type} [LinearOrder aType] (keys : List aType → Prop) :
    Orders ptCompare keys := by
  refine ⟨⟨fun pt _ => by simp [ptCompare_eq],?_⟩,?_⟩
  · intro a b c _ _ _ first second
    rw [ptCompare_eq,decide_eq_true_eq] at first second ⊢
    exact first.trans second
  · intro a b _ _ apart
    simpa [ptCompare_eq] using lt_or_gt_of_ne apart

/-- A floating value. -/
inductive Floating (ι : Type)
  | nan
  | number (x : ι)
  deriving DecidableEq

section Floating
variable {ι : Type} [LinearOrder ι]

/-- `<`, which is false where a side is not a number. -/
def Floating.Less : Floating ι → Floating ι → Prop
  | .number x, .number y => x < y
  | _, _ => False

instance : LT (Floating ι) := ⟨Floating.Less⟩

instance : DecidableLT (Floating ι)
  | .number x, .number y => inferInstanceAs (Decidable (x < y))
  | .nan, _ => .isFalse id
  | .number _, .nan => .isFalse id

theorem Floating.number_lt {x y : ι} : Floating.number x < Floating.number y ↔ x < y := Iff.rfl

/-- Every coordinate is a number. -/
def Clean (pt : List (Floating ι)) : Prop := ∀ x ∈ pt, x ≠ .nan

omit [LinearOrder ι] in
theorem Clean.numbers {pt : List (Floating ι)} (clean : Clean pt) :
    ∃ xs : List ι, pt = xs.map Floating.number := by
  induction pt with
  | nil => exact ⟨[],rfl⟩
  | cons x rest ih =>
    obtain ⟨xs,rfl⟩ := ih fun y member => clean y (List.mem_cons_of_mem x member)
    cases x with
    | nan => exact absurd rfl (clean .nan List.mem_cons_self)
    | number x => exact ⟨x::xs,rfl⟩

theorem ptCompare_numbers (xs ys : List ι) :
    ptCompare (xs.map Floating.number) (ys.map Floating.number) = ptCompare xs ys := by
  induction xs generalizing ys with
  | nil => cases ys <;> rfl
  | cons x xs ih =>
    cases ys with
    | nil => rfl
    | cons y ys => simp only [List.map_cons,ptCompare,Floating.number_lt,ih]

/-- Points whose coordinates are numbers are told apart. -/
theorem orders_of_clean {keys : List (Floating ι) → Prop} (clean : ∀ pt, keys pt → Clean pt) :
    Orders ptCompare keys := by
  have numbers := orders_points fun xs : List ι => keys (xs.map Floating.number)
  refine ⟨⟨?_,?_⟩,?_⟩
  · intro a aKey
    obtain ⟨xs,rfl⟩ := (clean a aKey).numbers
    rw [ptCompare_numbers]
    exact numbers.irrefl xs aKey
  · intro a b c aKey bKey cKey first second
    obtain ⟨xs,rfl⟩ := (clean a aKey).numbers
    obtain ⟨ys,rfl⟩ := (clean b bKey).numbers
    obtain ⟨zs,rfl⟩ := (clean c cKey).numbers
    rw [ptCompare_numbers] at first second ⊢
    exact numbers.trans xs ys zs aKey bKey cKey first second
  · intro a b aKey bKey apart
    obtain ⟨xs,rfl⟩ := (clean a aKey).numbers
    obtain ⟨ys,rfl⟩ := (clean b bKey).numbers
    rw [ptCompare_numbers,ptCompare_numbers]
    exact numbers.total xs ys aKey bKey fun same => apart (by rw [same])

end Floating

/-- The members of the base class, the cache as the map compares its keys. -/
structure MapSearch (aType vType : Type) where
  pt2Val : List (List aType × vType) := []
  gBestPt : List aType := []
  gBestVal : vType
  ptHistory : List (List (List aType))
  valHistory : List (List vType) := []
  gBestPtHist : List (List aType) := []
  gBestValHist : List vType := []
  -- what `evaluateFunc` was called with, for reasoning only
  evaluateCalls : List (List (List aType)) := []

structure MapDerived (aType vType σ : Type) where
  extraction : MapSearch aType vType → σ → Option σ
  exploration : MapSearch aType vType → σ → Option (List (List aType) × σ)

namespace MapSearch
variable {aType vType σ : Type} [LT aType] [DecidableLT aType] [LT vType] [DecidableLT vType]
  [Zero vType]

def find (pt2Val : List (List aType × vType)) (frame : List (List aType)) (ptIdx : Nat)
    (found : Partition aType vType) : Option (Partition aType vType) := do
  let pt ← frame[ptIdx]?
  match lookup ptCompare pt pt2Val with
  | some val =>
    let result ← write found.result ptIdx val
    return { found with result := result }
  | none =>
    return { found with newPoints := found.newPoints ++ [pt], newPtIdx := found.newPtIdx ++ [ptIdx] }

def scatter (found : Partition aType vType) (newResults : List vType) (newIdx : Nat)
    (stored : List vType × List (List aType × vType)) :
    Option (List vType × List (List aType × vType)) := do
  let val ← newResults[newIdx]?
  let ptIdx ← found.newPtIdx[newIdx]?
  let result ← write stored.1 ptIdx val
  let pt ← found.newPoints[newIdx]?
  return (result,assign ptCompare pt val stored.2)

def exploitation (c : Settings aType vType) (s : MapSearch aType vType) : Option (MapSearch aType vType) := do
  let frame ← s.ptHistory.getLast?
  let found ← loop c.pointNum (find s.pt2Val frame) { result := List.replicate c.pointNum 0 }
  let newResults := c.evaluateFunc found.newPoints
  let (result,pt2Val) ← loop newResults.length (scatter found newResults) (found.result,s.pt2Val)
  return { s with
    pt2Val := pt2Val
    valHistory := s.valHistory ++ [result]
    evaluateCalls := s.evaluateCalls ++ [found.newPoints] }

def better (lastFrmVal : List vType) (valIdx fBestIdx : Nat) : Option Nat := do
  let val ← lastFrmVal[valIdx]?
  let best ← lastFrmVal[fBestIdx]?
  return if val < best then valIdx else fBestIdx

def improve (s : MapSearch aType vType) (fBestIdx : Nat) (fBestVal : vType) :
    Option (vType × List aType) :=
  if fBestVal < s.gBestVal then do
    let frame ← s.ptHistory.getLast?
    let pt ← frame[fBestIdx]?
    return (fBestVal,pt)
  else some (s.gBestVal,s.gBestPt)

def convergeLogging (s : MapSearch aType vType) : Option (MapSearch aType vType) := do
  let lastFrmVal ← s.valHistory.getLast?
  let fBestIdx ← loop lastFrmVal.length (better lastFrmVal) 0
  let fBestVal ← lastFrmVal[fBestIdx]?
  let (gBestVal,gBestPt) ← improve s fBestIdx fBestVal
  return { s with
    gBestVal := gBestVal
    gBestPt := gBestPt
    gBestPtHist := s.gBestPtHist ++ [gBestPt]
    gBestValHist := s.gBestValHist ++ [gBestVal] }

def turn (c : Settings aType vType) (d : MapDerived aType vType σ) (frmIdx : Nat)
    (current : MapSearch aType vType × σ) : Option (MapSearch aType vType × σ) := do
  let s ← current.1.exploitation c
  let s ← s.convergeLogging
  let members ← d.extraction s current.2
  if frmIdx ≠ c.iterNum - 1 then
    let (newFrm,members) ← d.exploration s members
    return ({ s with ptHistory := s.ptHistory ++ [newFrm] },members)
  else return (s,members)

/-- The first `count` turns of the main loop. -/
def turns (c : Settings aType vType) (d : MapDerived aType vType σ) (count : Nat) :
    MapSearch aType vType × σ → Option (MapSearch aType vType × σ) :=
  loop count (turn c d)

def exec (c : Settings aType vType) (d : MapDerived aType vType σ) :
    MapSearch aType vType × σ → Option (MapSearch aType vType × σ) :=
  turns c d c.iterNum

/-- The object a constructed optimiser starts `exec` from; `max` is that of the value type. -/
def start (max : vType) (firstFrm : List (List aType)) : MapSearch aType vType :=
  { gBestVal := max, ptHistory := [firstFrm] }

omit [LT aType] [DecidableLT aType] [Zero vType] in
theorem convergeLogging_frame {m after : MapSearch aType vType}
    (ran : m.convergeLogging = some after) :
    (∃ values, m.valHistory.getLast? = some values ∧ 0 < values.length) ∧ after = { m with
      gBestVal := after.gBestVal
      gBestPt := after.gBestPt
      gBestPtHist := m.gBestPtHist ++ [after.gBestPt]
      gBestValHist := m.gBestValHist ++ [after.gBestVal] } := by
  simp only [MapSearch.convergeLogging,Option.bind_eq_bind,Option.bind_eq_some_iff] at ran
  obtain ⟨values,last,index,-,best,held,chosen,-,same⟩ := ran
  cases Option.some.inj same
  have inside := (List.getElem?_eq_some_iff.mp held).1
  exact ⟨⟨values,last,Nat.zero_lt_of_lt inside⟩,rfl⟩

theorem turn_cases {c : Settings aType vType}
    {d : MapDerived aType vType σ} {frmIdx : Nat} {m after : MapSearch aType vType} {members own : σ}
    (ran : turn c d frmIdx (m,members) = some (after,own)) :
    ∃ evaluated logged extracted, m.exploitation c = some evaluated ∧
      evaluated.convergeLogging = some logged ∧ d.extraction logged members = some extracted ∧
      (frmIdx = c.iterNum - 1 ∧ after = logged ∧ own = extracted ∨
        frmIdx ≠ c.iterNum - 1 ∧ ∃ newFrm, d.exploration logged extracted = some (newFrm,own) ∧
          after = { logged with ptHistory := logged.ptHistory ++ [newFrm] }) := by
  simp only [turn,Option.bind_eq_bind,Option.bind_eq_some_iff] at ran
  obtain ⟨evaluated,exploited,logged,converged,extracted,gathered,rest⟩ := ran
  refine ⟨evaluated,logged,extracted,exploited,converged,gathered,?_⟩
  split at rest
  next explores =>
    obtain ⟨explored,proposed,same⟩ := Option.bind_eq_some_iff.mp rest
    cases Option.some.inj same
    exact Or.inr ⟨explores,explored.1,proposed,rfl⟩
  next last =>
    cases Option.some.inj rest
    exact Or.inl ⟨not_not.mp last,rfl,rfl⟩

theorem turn_points {c : Settings aType vType} {d : MapDerived aType vType σ} {frmIdx : Nat}
    {m after : MapSearch aType vType} {members own : σ} (ran : turn c d frmIdx (m,members) = some (after,own)) :
    frmIdx = c.iterNum - 1 ∧ after.ptHistory = m.ptHistory ∨
      frmIdx ≠ c.iterNum - 1 ∧ ∃ newFrm, after.ptHistory = m.ptHistory ++ [newFrm] := by
  obtain ⟨evaluated,logged,extracted,exploited,converged,-,rest⟩ := turn_cases ran
  have samePoints : logged.ptHistory = m.ptHistory := by
    rw [(convergeLogging_frame converged).2]
    simp only [exploitation,Option.bind_eq_bind,Option.bind_eq_some_iff] at exploited
    obtain ⟨_,-,_,-,_,-,same⟩ := exploited
    cases Option.some.inj same
    rfl
  rcases rest with ⟨final,rfl,-⟩ | ⟨more,newFrm,-,rfl⟩
  · exact Or.inl ⟨final,samePoints⟩
  · exact Or.inr ⟨more,newFrm,by simp only [samePoints]⟩

theorem turns_points {c : Settings aType vType} {d : MapDerived aType vType σ} {count : Nat}
    {limit : vType} {firstFrm : List (List aType)} {m : MapSearch aType vType} {members own : σ}
    (within : count ≤ c.iterNum) (ran : turns c d count (start limit firstFrm,members) = some (m,own)) :
    m.ptHistory.length = min (count + 1) (max c.iterNum 1) := by
  refine loop_invariant (fun i (current : MapSearch aType vType × σ) =>
    current.1.ptHistory.length = min (i + 1) (max c.iterNum 1)) ?_ ?_ ran
  · simp [start]
  · intro i below before after length stepped
    rcases turn_points stepped with ⟨final,same⟩ | ⟨more,newFrm,longer⟩
    · rw [same,length]
      omega
    · rw [longer,List.length_append,length,List.length_singleton]
      omega

/-- The points of the frames evaluated in the first turns. -/
def evaluatedFrames (c : Settings aType vType) (count : Nat) (m : MapSearch aType vType) :
    List (List (List aType)) :=
  (m.ptHistory.take count).map (·.take c.pointNum)

/-- What holds of every turn, of frames whose points are among those evaluated in the whole run,
holds of the run. -/
theorem turns_invariant {c : Settings aType vType} {d : MapDerived aType vType σ} {limit : vType}
    {firstFrm keys : List (List aType)} {members : σ} (holds : Nat → MapSearch aType vType × σ → Prop)
    (first : holds 0 (start limit firstFrm,members))
    (kept : ∀ i current next, holds i current →
      (∀ frame, current.1.ptHistory.getLast? = some frame → ∀ pt ∈ frame.take c.pointNum, pt ∈ keys) →
      turn c d i current = some next → holds (i + 1) next)
    {count : Nat} {m : MapSearch aType vType} {own : σ} (within : count ≤ c.iterNum)
    (known : ∀ pt ∈ (m.evaluatedFrames c count).flatten, pt ∈ keys)
    (ran : turns c d count (start limit firstFrm,members) = some (m,own)) : holds count (m,own) := by
  induction count generalizing m own with
  | zero =>
    cases Option.some.inj ran
    exact first
  | succ count ih =>
    rw [turns,loop_succ] at ran
    obtain ⟨⟨middle,held⟩,before,last⟩ := Option.bind_eq_some_iff.mp ran
    have length := turns_points (Nat.le_of_succ_le within) before
    -- the frames of the run so far are the first of the whole run
    have earlier : m.ptHistory.take (count + 1) = middle.ptHistory := by
      rcases turn_points last with ⟨-,same⟩ | ⟨-,newFrm,longer⟩
      · rw [same,List.take_of_length_le (by omega)]
      · rw [longer,List.take_append_of_le_length (by omega),List.take_of_length_le (by omega)]
    have listed (frame : List (List aType)) (member : frame ∈ middle.ptHistory) :
        ∀ pt ∈ frame.take c.pointNum, pt ∈ keys := by
      intro pt point
      apply known
      rw [evaluatedFrames,earlier]
      exact List.mem_flatten.mpr ⟨_,List.mem_map_of_mem member,point⟩
    have reached : holds count (middle,held) := by
      refine ih (Nat.le_of_succ_le within) ?_ before
      intro pt member
      obtain ⟨points,frameListed,point⟩ := List.mem_flatten.mp member
      obtain ⟨frame,taken,rfl⟩ := List.mem_map.mp frameListed
      exact listed frame (List.mem_of_mem_take taken) pt point
    exact kept count _ _ reached (fun frame at_ => listed frame (List.mem_of_getLast? at_)) last

omit [LT vType] [DecidableLT vType] [Zero vType] in
theorem find_known {entries : List (List aType × vType)} {frame : List (List aType)} {pointNum : Nat}
    {first found : Partition aType vType} (empty : first.newPoints = [])
    (looked : loop pointNum (find entries frame) first = some found) :
    ∀ pt ∈ found.newPoints, pt ∈ frame.take pointNum := by
  refine loop_invariant (fun _ (found : Partition aType vType) =>
    ∀ pt ∈ found.newPoints, pt ∈ frame.take pointNum) (by simp [empty]) ?_ looked
  intro i small before after held stepped
  obtain ⟨pt,placed,stepped⟩ := Option.bind_eq_some_iff.mp stepped
  split at stepped
  next =>
    obtain ⟨result,-,same⟩ := Option.bind_eq_some_iff.mp stepped
    cases Option.some.inj same
    exact held
  next =>
    cases Option.some.inj stepped
    exact forall_mem_snoc held (mem_take_of_getElem? small placed)

omit [LT vType] [DecidableLT vType] in
/-- The entries stay in the order of the comparison. -/
theorem exploitation_sorted {keys : List aType → Prop} (strict : Strict ptCompare keys)
    {c : Settings aType vType} {m after : MapSearch aType vType} (sorted : Sorted ptCompare keys m.pt2Val)
    (known : ∀ frame, m.ptHistory.getLast? = some frame → ∀ pt ∈ frame.take c.pointNum, keys pt)
    (ran : m.exploitation c = some after) : Sorted ptCompare keys after.pt2Val := by
  simp only [exploitation,Option.bind_eq_bind,Option.bind_eq_some_iff] at ran
  obtain ⟨frame,last,found,looked,stored,scattered,same⟩ := ran
  cases Option.some.inj same
  refine loop_invariant (fun _ (stored : List vType × List (List aType × vType)) =>
    Sorted ptCompare keys stored.2) sorted ?_ scattered
  intro i _ before next held stepped
  simp only [scatter,Option.bind_eq_bind,Option.bind_eq_some_iff] at stepped
  obtain ⟨val,-,ptIdx,-,written,-,pt,ptAt,same⟩ := stepped
  cases Option.some.inj same
  exact held.assign strict (known frame last pt (find_known rfl looked pt (List.mem_of_getElem? ptAt))) val

theorem turns_sorted {c : Settings aType vType} {d : MapDerived aType vType σ} {limit : vType}
    {firstFrm : List (List aType)} {members own : σ} {count : Nat} {m : MapSearch aType vType}
    (within : count ≤ c.iterNum) (strict : Strict ptCompare (· ∈ (m.evaluatedFrames c count).flatten))
    (ran : turns c d count (start limit firstFrm,members) = some (m,own)) :
    Sorted ptCompare (· ∈ (m.evaluatedFrames c count).flatten) m.pt2Val := by
  refine turns_invariant (fun _ (current : MapSearch aType vType × σ) =>
    Sorted ptCompare (· ∈ (m.evaluatedFrames c count).flatten) current.1.pt2Val) (sorted_nil _ _) ?_ within
    (fun pt member => member) ran
  intro i current next held known stepped
  obtain ⟨evaluated,logged,extracted,exploited,converged,-,rest⟩ := turn_cases stepped
  have stored : Sorted ptCompare (· ∈ (m.evaluatedFrames c count).flatten) logged.pt2Val := by
    have learnt := exploitation_sorted strict held known exploited
    rw [(convergeLogging_frame converged).2]
    exact learnt
  rcases rest with ⟨-,same,-⟩ | ⟨-,newFrm,-,same⟩
  · rw [same]
    exact stored
  · rw [same]
    exact stored

end MapSearch
end MetaPB.Optimizer

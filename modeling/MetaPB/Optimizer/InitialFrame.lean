import MetaPB.Lib.Rounding
import MetaPB.Optimizer.SearchBox

/-! The first frame as the constructor builds it in machine arithmetic: random points, then
ten grid points written over the first ten. For an integral type the difference of the
limits is taken in the promoted type, its product with the index modulo `2^64` and the rest
in `float`; for a floating type every step is rounded. -/
namespace MetaPB.Optimizer.Machine
open Lib.Loop Lib.Rounding

/-- An integral argument type; wider ones than `size_t` are left out. -/
structure IntegralType where
  width : Nat
  signed : Bool
  positive : 1 ≤ width
  narrow : width ≤ 64

namespace IntegralType

def lowest (t : IntegralType) : ℤ := if t.signed then -2^(t.width - 1) else 0

def highest (t : IntegralType) : ℤ := if t.signed then 2^(t.width - 1) - 1 else 2^t.width - 1

abbrev Value (t : IntegralType) := {n : ℤ // t.lowest ≤ n ∧ n ≤ t.highest}

theorem lowest_le (t : IntegralType) : t.lowest ≤ 0 := by
  unfold lowest
  split
  · exact neg_nonpos.mpr (by positivity)
  · exact le_rfl

theorem le_highest (t : IntegralType) : 0 ≤ t.highest := by
  unfold highest
  split <;> exact sub_nonneg.mpr (one_le_pow₀ (by norm_num))

instance (t : IntegralType) : Zero t.Value := ⟨⟨0,t.lowest_le,t.le_highest⟩⟩

/-- The type of `upper - lower`: `int` where the type is narrower. -/
def promoted (t : IntegralType) : IntegralType :=
  if t.width < 32 then ⟨32,true,by norm_num,by norm_num⟩ else t

/-- `upper - lower` does not overflow; only a signed difference of full width can. -/
def Fits (t : IntegralType) (low high : t.Value) : Prop := high.1 - low.1 ≤ t.promoted.highest

instance (t : IntegralType) (low high : t.Value) : Decidable (t.Fits low high) :=
  inferInstanceAs (Decidable (_ ≤ _))

/-- Narrow differences are taken in `int`, unsigned ones cannot be negative. -/
theorem fits_of_safe {t : IntegralType} (safe : t.width < 32 ∨ t.signed = false) (low high : t.Value) :
    t.Fits low high := by
  have least := low.2.1
  have most := high.2.2
  unfold Fits promoted
  split
  next narrow =>
    have half : (2 : ℤ)^(t.width - 1) ≤ 2^30 := pow_le_pow_right₀ (by norm_num) (by omega)
    have whole : (2 : ℤ)^t.width ≤ 2^31 := pow_le_pow_right₀ (by norm_num) (by omega)
    simp only [lowest,highest] at least most
    simp only [highest,if_true]
    norm_num at half whole ⊢
    split at least <;> simp_all <;> omega
  next wide =>
    have plain := safe.resolve_left wide
    simp only [lowest,plain] at least
    exact (sub_le_self _ (by simpa using least)).trans most

/-- A floating value assigned to the type, where it is in range. -/
def assign (t : IntegralType) (x : ℚ) : Option t.Value :=
  if inside : t.lowest ≤ towardZero x ∧ towardZero x ≤ t.highest then some ⟨towardZero x,inside⟩ else none

end IntegralType

/-- A floating argument type. -/
inductive FloatingType
  | float
  | double
  | longDouble

def FloatingType.format : FloatingType → Format
  | .float => binary32
  | .double => binary64
  | .longDouble => extended

/-- The grid coordinate of an integral type; an overflowing difference has no result. -/
def integralSpot (t : IntegralType) (low high : t.Value) (agtIdx : Nat) : Option t.Value :=
  if t.Fits low high then
    let product : Nat := (high.1 - low.1).toNat * agtIdx % 2^64
    let share := binary32.nearest (binary32.nearest product / 10)
    t.assign (binary32.nearest (binary32.nearest low.1 + share))
  else none

/-- The grid coordinate of a floating type; once a step overflows it is not a number any more
or infinite. -/
def floatingSpot (f : Format) (low high : f.Value) (agtIdx : Nat) : Option f.Value := do
  let difference ← f.finite (high.1 - low.1)
  let product ← f.finite (difference.1 * agtIdx)
  let share ← f.finite (product.1 / 10)
  f.finite (low.1 + share.1)

/-- The grid coordinate in exact arithmetic. -/
def exactSpot (low high : ℚ) (agtIdx : Nat) : Option ℚ := some (low + (high - low) * agtIdx / 10)

section Construct
variable {aType vType : Type} [LinearOrder aType] [Zero aType] [LinearOrder vType] [Zero vType]
  [NumericLimits vType] (spot : aType → aType → Nat → Option aType)

def gridPoint (c : Settings aType vType) (agtIdx : Nat) : Option (List aType) :=
  loop c.dimNum (fun dimIdx point => do
    let low ← c.lowerLimits[dimIdx]?
    let high ← c.upperLimits[dimIdx]?
    let x ← spot low high agtIdx
    write point dimIdx x) (List.replicate c.dimNum 0)

def firstFrame (c : Settings aType vType) (draws : Draws aType) : Option (List (List aType)) := do
  let (firstFrm,_) ← loop c.pointNum (fun _ (firstFrm,rng) => do
    let (point,rng) ← randomPoint c draws rng
    return (firstFrm ++ [point],rng)) ([],0)
  loop 10 (fun agtIdx firstFrm => do
    let point ← gridPoint spot c agtIdx
    write firstFrm agtIdx point) firstFrm

def construct (c : Settings aType vType) (draws : Draws aType) : Option (Search aType vType) :=
  (firstFrame spot c draws).map Search.start

/-- One frame of the right shape inside the box, built without an access outside it. -/
def WellFormed (c : Settings aType vType) (draws : Draws aType) : Prop :=
  ∃ s, construct spot c draws = some s ∧ ∃ frame, s.ptHistory = [frame] ∧ c.FrameInBox frame

/-- The ten grid coordinates between two limits exist and lie between them. -/
def Spans (low high : aType) : Prop :=
  ∀ agtIdx < 10, ∃ x, spot low high agtIdx = some x ∧ low ≤ x ∧ x ≤ high

/-- What is asked of the two limits of every dimension. -/
def Across (c : Settings aType vType) (holds : aType → aType → Prop) : Prop :=
  ∀ d < c.dimNum, ∀ low high, c.lowerLimits[d]? = some low → c.upperLimits[d]? = some high → holds low high

variable {spot} {c : Settings aType vType} {draws : Draws aType}

omit [LinearOrder vType] [Zero vType] [NumericLimits vType] in
theorem gridPoint_returns (limited : c.Limited) {agtIdx : Nat} (few : agtIdx < 10)
    (spans : ∀ d < c.dimNum, ∀ low high, c.lowerLimits[d]? = some low → c.upperLimits[d]? = some high →
      low ≤ high → Spans spot low high) :
    ∃ pt, gridPoint spot c agtIdx = some pt ∧ c.InBox pt := by
  have looped : ∃ pt, gridPoint spot c agtIdx = some pt ∧ Filling c c.dimNum pt := by
    apply loop_returns (Filling c) blank_filling
    intro dimIdx small pt before
    obtain ⟨low,high,lowAt,highAt,ordered⟩ := limited dimIdx small
    obtain ⟨x,made,inside⟩ := spans dimIdx small low high lowAt highAt ordered agtIdx few
    refine ⟨pt.set dimIdx x,?_,before.next (.of_limits lowAt highAt inside)⟩
    simp [lowAt,highAt,made,write_of_lt (before.size.symm ▸ small)]
  obtain ⟨pt,ran,filled⟩ := looped
  exact ⟨pt,ran,filled.inBox⟩

theorem construct_returns (limited : c.Limited) (points : 10 ≤ c.pointNum)
    (spans : ∀ d < c.dimNum, ∀ low high, c.lowerLimits[d]? = some low → c.upperLimits[d]? = some high →
      low ≤ high → Spans spot low high) : WellFormed spot c draws := by
  obtain ⟨⟨frame,next⟩,ran,box⟩ := randomFrame_returns limited draws
  have grid : ∃ final, loop 10 (fun agtIdx firstFrm => (gridPoint spot c agtIdx).bind fun point =>
      write firstFrm agtIdx point) frame = some final ∧ c.FrameInBox final := by
    apply loop_returns (fun _ frame => c.FrameInBox frame) box
    intro agtIdx few current before
    obtain ⟨pt,made,boxed⟩ := gridPoint_returns limited few spans
    have bound : agtIdx < current.length := by
      rw [before.size]
      exact few.trans_le points
    exact ⟨current.set agtIdx pt,by simp [made,write_of_lt bound],before.set boxed agtIdx⟩
  obtain ⟨final,settled,boxed⟩ := grid
  refine ⟨Search.start final,?_,final,rfl,boxed⟩
  have built : firstFrame spot c draws = some final := by
    simp only [firstFrame,Option.bind_eq_bind]
    rw [Option.bind_eq_some_iff]
    exact ⟨(frame,next),ran,settled⟩
  rw [construct,built,Option.map_some]

omit [LinearOrder aType] [LinearOrder vType] [Zero vType] [NumericLimits vType] in
/-- A point that was made holds in every coordinate what was computed for it. -/
theorem gridPoint_spot {agtIdx : Nat} {pt : List aType} (ran : gridPoint spot c agtIdx = some pt) :
    pt.length = c.dimNum ∧ ∀ d < c.dimNum, ∀ low high, c.lowerLimits[d]? = some low →
      c.upperLimits[d]? = some high → ∃ x, spot low high agtIdx = some x ∧ pt[d]? = some x := by
  refine loop_invariant (fun count (pt : List aType) => pt.length = c.dimNum ∧ ∀ d < count, ∀ low high,
    c.lowerLimits[d]? = some low → c.upperLimits[d]? = some high →
      ∃ x, spot low high agtIdx = some x ∧ pt[d]? = some x) ⟨by simp,by simp⟩ ?_ ran
  intro dimIdx _ pt next before turned
  obtain ⟨low,lowAt,turned⟩ := Option.bind_eq_some_iff.mp turned
  obtain ⟨high,highAt,turned⟩ := Option.bind_eq_some_iff.mp turned
  obtain ⟨x,made,wrote⟩ := Option.bind_eq_some_iff.mp turned
  obtain ⟨bound,rfl⟩ := write_eq_some.mp wrote
  refine ⟨by simpa using before.1,fun d small low' high' lowAt' highAt' => ?_⟩
  rcases Nat.lt_succ_iff_lt_or_eq.mp small with earlier | rfl
  · rw [List.getElem?_set_ne earlier.ne']
    exact before.2 d earlier low' high' lowAt' highAt'
  · cases lowAt.symm.trans lowAt'
    cases highAt.symm.trans highAt'
    exact ⟨x,made,List.getElem?_set_self bound⟩

omit [LinearOrder aType] [LinearOrder vType] [Zero vType] [NumericLimits vType] in
theorem gridFrame_points {start final : List (List aType)}
    (ran : loop 10 (fun agtIdx firstFrm => (gridPoint spot c agtIdx).bind fun point =>
      write firstFrm agtIdx point) start = some final) :
    final.length = start.length ∧ ∀ agtIdx < 10, ∃ pt, gridPoint spot c agtIdx = some pt ∧
      final[agtIdx]? = some pt := by
  refine loop_invariant (fun count (current : List (List aType)) => current.length = start.length ∧
    ∀ agtIdx < count, ∃ pt, gridPoint spot c agtIdx = some pt ∧ current[agtIdx]? = some pt)
    ⟨rfl,by simp⟩ ?_ ran
  intro agtIdx _ current next before turned
  obtain ⟨pt,made,wrote⟩ := Option.bind_eq_some_iff.mp turned
  obtain ⟨bound,rfl⟩ := write_eq_some.mp wrote
  refine ⟨by simpa using before.1,fun index small => ?_⟩
  rcases Nat.lt_succ_iff_lt_or_eq.mp small with earlier | rfl
  · rw [List.getElem?_set_ne earlier.ne']
    exact before.2 index earlier
  · exact ⟨pt,made,List.getElem?_set_self bound⟩

/-- The first frame is well formed exactly when it has the ten points the grid is written over
and the grid coordinates exist between the limits. -/
theorem wellFormed_iff (limited : c.Limited) :
    WellFormed spot c draws ↔ 10 ≤ c.pointNum ∧ Across c (Spans spot) := by
  constructor
  · intro wellFormed
    obtain ⟨s,built,frame,only,box⟩ := wellFormed
    obtain ⟨final,settled,rfl⟩ := Option.map_eq_some_iff.mp built
    cases only
    obtain ⟨⟨start,next⟩,ran,started⟩ := randomFrame_returns limited draws
    simp only [firstFrame,Option.bind_eq_bind] at settled
    obtain ⟨_,again,grid⟩ := Option.bind_eq_some_iff.mp settled
    cases ran.symm.trans again
    obtain ⟨size,points⟩ := gridFrame_points grid
    constructor
    · obtain ⟨pt,-,last⟩ := points 9 (by norm_num)
      have bound := (List.getElem?_eq_some_iff.mp last).1
      rw [box.size] at bound
      exact bound
    · intro d small low high lowAt highAt agtIdx few
      obtain ⟨pt,made,placed⟩ := points agtIdx few
      obtain ⟨x,computed,held⟩ := (gridPoint_spot made).2 d small low high lowAt highAt
      exact ⟨x,computed,(box.inside pt (List.mem_of_getElem? placed)).within d x held low high lowAt highAt⟩
  · intro both
    exact construct_returns limited both.1 fun d small low high lowAt highAt _ =>
      both.2 d small low high lowAt highAt

end Construct

/-- Draws of the least point and the greatest velocity. -/
def leastDraws (aType : Type) [LinearOrder aType] : Draws aType where
  uniform _ low _ := low
  dist01 _ := 0
  distV _ vMax := vMax
  choice _ _ := 0
  evoScaleDist _ := 0
  uniform_within _ _ _ ordered := ⟨le_rfl,ordered⟩
  dist01_within _ := ⟨le_rfl,zero_le_one⟩
  distV_within _ _ nonneg := ⟨neg_le_self nonneg,le_rfl⟩
  choice_lt _ _ positive := positive
  evoScaleDist_within _ := ⟨neg_nonpos.mpr zero_le_two,zero_le_two⟩

theorem construct_exact {vType : Type} [LinearOrder vType] [Zero vType] [NumericLimits vType]
    (c : Settings ℚ vType) (draws : Draws ℚ) :
    construct exactSpot c draws = MetaPB.Optimizer.construct c draws := rfl

end MetaPB.Optimizer.Machine

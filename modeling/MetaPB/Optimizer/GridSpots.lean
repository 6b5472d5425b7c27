import MetaPB.Optimizer.InitialFrame
import Mathlib.Tactic.IntervalCases

/-! Where the grid coordinates lie. In `float` a grid between integral limits starts at the
rounded lower limit and stays below an upper limit that `float` holds; between floating limits
it stays inside unless the last product is not finite. -/
namespace MetaPB.Optimizer.Machine
open Lib.Rounding Lib.Rounding.Format

section Integral
variable {t : IntegralType}

/-- The conversion to `float` leaves the number alone. -/
def Held (n : ℤ) : Prop := binary32.nearest n = n

instance (n : ℤ) : Decidable (Held n) := inferInstanceAs (Decidable (_ = _))

theorem binary32_near {x : ℚ} (large : 1/10 ≤ x) : binary32.nearest x ≤ x * (1 + 1/2^24) := by
  have positive : 0 < x := by linarith
  have error := (abs_le.mp (binary32.magnitude_error positive)).2
  have coarse : (2 : ℚ)^binary32.minExponent / 2 ≤ x / 2^24 := by
    rw [le_div_iff₀ (by norm_num)]
    apply le_trans _ large
    norm_num [binary32]
  rw [show binary32.precision = 24 from rfl,max_eq_right coarse] at error
  rw [nearest_of_nonneg positive.le]
  have parts : x * (1 + 1/2^24) = x + x / 2^24 := by ring
  linarith

/-- Nine tenths of the difference, rounded twice, are little more than that. -/
theorem float_share (difference : Nat) {agtIdx : Nat} (few : agtIdx < 10) :
    0 ≤ binary32.nearest (binary32.nearest (difference * agtIdx % 2^64 : Nat) / 10) ∧
      binary32.nearest (binary32.nearest (difference * agtIdx % 2^64 : Nat) / 10) ≤ difference * (91/100) := by
  have bound : difference * agtIdx % 2^64 ≤ difference * 9 :=
    (Nat.mod_le _ _).trans (Nat.mul_le_mul_left _ (Nat.le_of_lt_succ few))
  generalize difference * agtIdx % 2^64 = product at bound
  rcases Nat.eq_zero_or_pos product with rfl | positive
  · simp [nearest_zero]
  · have part : (product : ℚ) ≤ difference * 9 := by exact_mod_cast bound
    have whole : (1 : ℚ) ≤ product := by exact_mod_cast positive
    have one : binary32.Holds 1 := by
      have held : binary32.Holds (1 : ℤ) := holds_intCast (by decide) (by decide)
      exact_mod_cast held
    have tenth : (1 : ℚ)/10 ≤ binary32.nearest product / 10 := by linarith [one.le_nearest whole]
    have first := binary32_near (by linarith : (1 : ℚ)/10 ≤ product)
    have second := binary32_near tenth
    exact ⟨nearest_nonneg (by linarith),by linarith⟩

theorem towardZero_intCast (n : ℤ) : towardZero n = n := by
  unfold towardZero
  split
  · exact Int.floor_intCast n
  · exact Int.ceil_intCast n

/-- `float` holds the limits, or the range is no tiny part of them. -/
def Resolved (low high : ℤ) : Prop :=
  Held low ∧ Held high ∨ |low| ≤ (high - low) * 2^18 ∧ |high| ≤ (high - low) * 2^18

instance (low high : ℤ) : Decidable (Resolved low high) := inferInstanceAs (Decidable (_ ∨ _))

theorem float_error (n : ℚ) {bound : ℚ} (large : |n| ≤ bound * 2^18) (whole : 1 ≤ bound) :
    |binary32.nearest n - n| ≤ bound / 2^6 := by
  apply (binary32.nearest_error n).trans
  apply max_le
  · have tiny : (2 : ℚ)^binary32.minExponent / 2 ≤ 1 / 2^6 := by norm_num [binary32]
    linarith
  · rw [show binary32.precision = 24 from rfl]
    linarith

/-- A share of the range beyond the rounded lower limit is rounded to below the upper limit. -/
theorem Resolved.nearest_le {low high : ℤ} (resolved : Resolved low high) (ordered : low ≤ high)
    {share : ℚ} (nonneg : 0 ≤ share) (small : share ≤ (high - low) * (91/100)) :
    binary32.nearest (binary32.nearest low + share) ≤ high := by
  have span : (0 : ℚ) ≤ high - low := by exact_mod_cast sub_nonneg.mpr ordered
  rcases resolved with ⟨lowHeld,highHeld⟩ | ⟨lowSmall,highSmall⟩
  · have highest : binary32.Holds high := highHeld ▸ binary32.holds_nearest high
    apply highest.nearest_le
    rw [lowHeld]
    linarith
  · rcases ordered.lt_or_eq with apart | rfl
    · have whole : (1 : ℚ) ≤ high - low := by exact_mod_cast Int.add_one_le_iff.mpr (sub_pos.mpr apart)
      have lower : |(low : ℚ)| ≤ (high - low) * 2^18 := by exact_mod_cast lowSmall
      have upper : |(high : ℚ)| ≤ (high - low) * 2^18 := by exact_mod_cast highSmall
      obtain ⟨down,up⟩ := abs_le.mp (float_error low lower whole)
      obtain ⟨lowest,-⟩ := abs_le.mp lower
      obtain ⟨-,highest⟩ := abs_le.mp upper
      set start := binary32.nearest low
      have size : |start + share| ≤ (2 * (high - low)) * 2^18 :=
        abs_le.mpr ⟨by linarith,by linarith⟩
      obtain ⟨-,last⟩ := abs_le.mp (float_error _ size (by linarith))
      linarith
    · have zero : low = 0 := by simpa using lowSmall
      have lost : share = 0 := le_antisymm (by simpa using small) nonneg
      rw [zero,lost,Int.cast_zero,nearest_zero,add_zero,nearest_zero]

/-- The grid lies between resolved limits, even where the product wraps, once the lower one is
not rounded down. -/
theorem integral_spans {low high : t.Value} (ordered : low ≤ high) (resolved : Resolved low.1 high.1)
    (fits : t.Fits low high) (up : (low.1 : ℚ) ≤ binary32.nearest low.1) :
    Spans (integralSpot t) low high := by
  intro agtIdx few
  obtain ⟨nonneg,below⟩ := float_share (high.1 - low.1).toNat few
  have whole : (((high.1 - low.1).toNat : ℕ) : ℚ) = high.1 - low.1 := by
    have same := Int.toNat_of_nonneg (sub_nonneg.mpr (Subtype.coe_le_coe.mpr ordered))
    exact_mod_cast congrArg (Int.cast : ℤ → ℚ) same
  rw [whole] at below
  set share := binary32.nearest (binary32.nearest ((high.1 - low.1).toNat * agtIdx % 2^64 : Nat) / 10)
  have above : (low.1 : ℚ) ≤ binary32.nearest (binary32.nearest low.1 + share) :=
    up.trans ((binary32.holds_nearest low.1).le_nearest (by linarith))
  have under := resolved.nearest_le (Subtype.coe_le_coe.mpr ordered) nonneg below
  obtain ⟨least,most⟩ := towardZero_within low.1 high.1 _ above under
  have inside : t.lowest ≤ towardZero (binary32.nearest (binary32.nearest low.1 + share)) ∧
      towardZero (binary32.nearest (binary32.nearest low.1 + share)) ≤ t.highest :=
    ⟨low.2.1.trans least,most.trans high.2.2⟩
  refine ⟨⟨_,inside⟩,?_,least,most⟩
  rw [integralSpot,if_pos fits]
  exact dif_pos inside

/-- The first grid coordinate is the lower limit as `float` rounds it. -/
theorem integral_needs {low high : t.Value} (spans : Spans (integralSpot t) low high) :
    t.Fits low high ∧ (low.1 : ℚ) ≤ binary32.nearest low.1 := by
  obtain ⟨x,made,least,-⟩ := spans 0 (by norm_num)
  unfold integralSpot at made
  split at made
  next fits =>
    refine ⟨fits,?_⟩
    simp only [Nat.mul_zero,Nat.zero_mod,Nat.cast_zero,nearest_zero,zero_div,add_zero,
      (binary32.holds_nearest low.1).fixed] at made
    unfold IntegralType.assign at made
    split at made
    next =>
      cases Option.some.inj made
      obtain ⟨m,rounded⟩ := nearest_intCast (f := binary32) (by decide) low.1
      have reached : low.1 ≤ towardZero (binary32.nearest low.1) := least
      rw [rounded,towardZero_intCast] at reached
      rw [rounded]
      exact_mod_cast reached
    next => cases made
  next => cases made

end Integral

section Floating
variable {f : Format} {low high : f.Value}

/-- Nine times the difference of the limits, as the format rounds both, is finite. -/
def Roomy (f : Format) (low high : f.Value) : Prop :=
  f.nearest (f.nearest (high.1 - low.1) * 9) < f.infinity

theorem difference_whole (low high : f.Value) : ∃ n : ℤ, high.1 - low.1 = n * 2^f.minExponent := by
  obtain ⟨a,lower⟩ := low.holds.whole
  obtain ⟨b,upper⟩ := high.holds.whole
  exact ⟨b - a,by rw [lower,upper]; push_cast; ring⟩

theorem nearest_grows (wide : 24 ≤ f.precision) {n : ℤ} {x : ℚ} (whole : x = n * 2^f.minExponent)
    (nonneg : 0 ≤ x) : f.nearest x ≤ x * (1 + 1/2^24) := by
  apply (nearest_le_of_whole whole nonneg).trans
  apply mul_le_mul_of_nonneg_left _ nonneg
  gcongr
  exact one_le_two

/-- Up to nine tenths of a difference of values, rounded at every step, are no more than it. -/
theorem share_le (wide : 24 ≤ f.precision) (ordered : low ≤ high) {agtIdx : Nat} (few : agtIdx < 10) :
    f.nearest (f.nearest (f.nearest (high.1 - low.1) * agtIdx) / 10) ≤ high.1 - low.1 := by
  obtain ⟨n,whole⟩ := difference_whole low high
  have span : 0 ≤ high.1 - low.1 := sub_nonneg.mpr ordered
  set difference := high.1 - low.1
  have least := nearest_nonneg (f := f) span
  obtain ⟨m,rounded⟩ := (f.holds_nearest difference).whole
  have first := nearest_grows wide whole span
  have count : f.nearest difference * agtIdx ≤ f.nearest difference * 9 :=
    mul_le_mul_of_nonneg_left (by exact_mod_cast Nat.le_of_lt_succ few) least
  have turned : f.nearest difference * agtIdx = (m * agtIdx : ℤ) * 2^f.minExponent := by
    rw [rounded]
    push_cast
    ring
  have stepped : 0 ≤ f.nearest difference * agtIdx := mul_nonneg least (Nat.cast_nonneg agtIdx)
  have second := nearest_grows wide turned stepped
  have atLeast := nearest_nonneg (f := f) stepped
  set product := f.nearest (f.nearest difference * agtIdx)
  rcases le_or_gt |n| (2^f.precision) with small | large
  · -- the difference is a value itself
    have holds : f.Holds difference := ⟨n,f.minExponent,le_rfl,small,whole⟩
    rw [holds.fixed] at count second
    exact holds.nearest_le (by linarith)
  · rcases atLeast.lt_or_eq with positive | zero
    · -- the smallest value is small beside the difference
      have error := (abs_le.mp (f.magnitude_error (by linarith : 0 < product / 10))).2
      have bits : (2 : ℚ)^24 ≤ 2^f.precision := pow_le_pow_right₀ one_le_two wide
      have many : (2 : ℚ)^24 ≤ n := by
        have sign : 0 ≤ n := by
          have scaled : (0 : ℚ) ≤ n := nonneg_of_mul_nonneg_left (whole ▸ span) (by positivity)
          exact_mod_cast scaled
        rw [abs_of_nonneg sign] at large
        exact bits.trans (by exact_mod_cast large.le)
      have fine : 2^24 * (2 : ℚ)^f.minExponent ≤ difference := by
        rw [whole]
        exact mul_le_mul_of_nonneg_right many (by positivity)
      have part : product / 10 / 2^f.precision ≤ product / 10 / 2^24 :=
        div_le_div_of_nonneg_left (by linarith) (by norm_num) bits
      have room : max ((2 : ℚ)^f.minExponent / 2) (product / 10 / 2^f.precision) ≤ difference / 2^20 :=
        max_le (by linarith) (by linarith)
      rw [nearest_of_nonneg (by linarith)]
      linarith
    · rw [← zero,zero_div,nearest_zero]
      exact span

/-- The last product is the largest one, so the grid is inside where that is finite. -/
theorem floating_spans_iff (wide : 24 ≤ f.precision) (ordered : low ≤ high) :
    Spans (floatingSpot f) low high ↔ Roomy f low high := by
  have span : 0 ≤ high.1 - low.1 := sub_nonneg.mpr ordered
  have least := nearest_nonneg (f := f) span
  constructor
  · intro spans
    obtain ⟨x,made,-⟩ := spans 9 (by norm_num)
    obtain ⟨difference,first,made⟩ := Option.bind_eq_some_iff.mp made
    obtain ⟨product,second,-⟩ := Option.bind_eq_some_iff.mp made
    obtain ⟨-,inside⟩ := finite_eq_some second
    rw [(finite_eq_some first).1] at inside
    exact lt_of_abs_lt inside
  · intro roomy agtIdx few
    have count : (agtIdx : ℚ) ≤ 9 := by exact_mod_cast Nat.le_of_lt_succ few
    have stepped : 0 ≤ f.nearest (high.1 - low.1) * agtIdx := mul_nonneg least (Nat.cast_nonneg agtIdx)
    have nine : f.nearest (high.1 - low.1) ≤ f.nearest (f.nearest (high.1 - low.1) * 9) :=
      (f.holds_nearest _).le_nearest (by linarith)
    obtain ⟨difference,first,differs⟩ := finite_of_lt span (nine.trans_lt roomy)
    rw [Roomy] at roomy
    rw [← differs] at stepped least roomy
    have most : f.nearest (difference.1 * agtIdx) ≤ f.nearest (difference.1 * 9) :=
      f.nearest_mono (mul_le_mul_of_nonneg_left count least)
    obtain ⟨product,second,multiplied⟩ := finite_of_lt stepped (most.trans_lt roomy)
    have atLeast : 0 ≤ product.1 := multiplied ▸ nearest_nonneg stepped
    have tenth : f.nearest (product.1 / 10) ≤ product.1 := product.holds.nearest_le (by linarith)
    obtain ⟨share,third,divided⟩ :=
      finite_of_lt (by linarith : 0 ≤ product.1 / 10) (tenth.trans_lt (lt_of_abs_lt product.2.2))
    have positive : 0 ≤ share.1 := divided ▸ nearest_nonneg (by linarith)
    have small : share.1 ≤ high.1 - low.1 := by
      rw [divided,multiplied,differs]
      exact share_le wide ordered few
    obtain ⟨value,last,above,below⟩ := finite_between
      (by linarith : low.1 ≤ low.1 + share.1) (by linarith : low.1 + share.1 ≤ high.1)
    refine ⟨value,?_,above,below⟩
    simp only [floatingSpot,first,second,third,last,Option.bind_eq_bind,Option.bind_some]

end Floating

theorem FloatingType.wide (k : FloatingType) : 24 ≤ k.format.precision := by
  cases k <;> decide

/-- The first frame needs the ten points the grid is written over. Beyond that, an integral grid
needs differences that do not overflow and lower limits that `float` does not round down, which
is enough for limits it resolves; a floating grid needs the last products to be finite, and no
more. -/
theorem construct_wellFormed_iff {vType : Type} [LinearOrder vType] [Zero vType] [NumericLimits vType] :
    (∀ (t : IntegralType) (c : Settings t.Value vType) (draws : Draws t.Value), c.Limited →
      (WellFormed (integralSpot t) c draws → 10 ≤ c.pointNum ∧
        Across c fun low high => t.Fits low high ∧ (low.1 : ℚ) ≤ binary32.nearest low.1) ∧
      ((Across c fun low high => Resolved low.1 high.1) → (WellFormed (integralSpot t) c draws ↔
        10 ≤ c.pointNum ∧ Across c fun low high =>
          t.Fits low high ∧ (low.1 : ℚ) ≤ binary32.nearest low.1))) ∧
      ∀ (k : FloatingType) (c : Settings k.format.Value vType) (draws : Draws k.format.Value), c.Limited →
        (WellFormed (floatingSpot k.format) c draws ↔ 10 ≤ c.pointNum ∧ Across c (Roomy k.format)) := by
  constructor
  · intro t c draws limited
    rw [wellFormed_iff limited]
    have needed : Across c (Spans (integralSpot t)) →
        Across c fun low high => t.Fits low high ∧ (low.1 : ℚ) ≤ binary32.nearest low.1 :=
      fun spans d small low high lowAt highAt => integral_needs (spans d small low high lowAt highAt)
    refine ⟨And.imp_right needed,fun resolved => and_congr_right fun _ => ⟨needed,?_⟩⟩
    intro both d small low high lowAt highAt
    obtain ⟨fits,up⟩ := both d small low high lowAt highAt
    obtain ⟨_,_,lowAgain,highAgain,ordered⟩ := limited d small
    cases lowAt.symm.trans lowAgain
    cases highAt.symm.trans highAgain
    exact integral_spans ordered (resolved d small low high lowAt highAt) fits up
  · intro k c draws limited
    rw [wellFormed_iff limited]
    refine and_congr_right fun _ => forall₂_congr fun d small => forall₄_congr fun low high lowAt highAt => ?_
    obtain ⟨_,_,lowAgain,highAgain,ordered⟩ := limited d small
    cases lowAt.symm.trans lowAgain
    cases highAt.symm.trans highAgain
    exact floating_spans_iff k.wide ordered

section Hundred

def int32 : IntegralType := ⟨32,true,by decide,by decide⟩

def hundred : int32.Value := ⟨100,by decide⟩

def floatHundred : FloatingType.float.format.Value := ⟨100,by decide +kernel⟩

/-- One dimension with the limits 0 and `high`. -/
def shortSettings {aType : Type} [Zero aType] (high : aType) (pointNum : Nat) : Settings aType ℚ :=
  ⟨[0],[high],1,pointNum,1,fun points => points.map fun _ => 0⟩

theorem shortSettings_limited {aType : Type} [LinearOrder aType] [Zero aType] {high : aType}
    (positive : 0 ≤ high) (pointNum : Nat) : (shortSettings high pointNum).Limited := by
  intro d small
  cases Nat.lt_one_iff.mp small
  exact ⟨_,_,rfl,rfl,positive⟩

theorem shortSettings_across {aType : Type} [Zero aType] {high : aType} {pointNum : Nat}
    {holds : aType → aType → Prop} (given : holds 0 high) : Across (shortSettings high pointNum) holds := by
  intro d small low high lowAt highAt
  cases Nat.lt_one_iff.mp small
  cases Option.some.inj lowAt
  cases Option.some.inj highAt
  exact given

theorem construct_wellFormed_ten :
    WellFormed (integralSpot int32) (shortSettings hundred 10) (leastDraws int32.Value) ∧
      WellFormed (floatingSpot FloatingType.float.format) (shortSettings floatHundred 10)
        (leastDraws FloatingType.float.format.Value) := by
  obtain ⟨integral,floating⟩ := @construct_wellFormed_iff ℚ _ _ _
  have limited := shortSettings_limited (by decide : 0 ≤ hundred) 10
  have floatLimited := shortSettings_limited (by decide +kernel : 0 ≤ floatHundred) 10
  constructor
  · obtain ⟨-,enough⟩ := integral int32 _ (leastDraws _) limited
    exact (enough (shortSettings_across (by decide +kernel))).mpr
      ⟨le_rfl,shortSettings_across (by decide +kernel)⟩
  · exact (floating .float _ (leastDraws _) floatLimited).mpr
      ⟨le_rfl,shortSettings_across (by unfold Roomy; decide +kernel)⟩

/-- A single point is a size the constructor accepts, and nine grid points are written after it. -/
theorem construct_not_wellFormed : 1 ≤ (shortSettings hundred 1).pointNum ∧
    (shortSettings hundred 1).Limited ∧
    ∀ draws, ¬ WellFormed (integralSpot int32) (shortSettings hundred 1) draws := by
  have limited := shortSettings_limited (by decide : 0 ≤ hundred) 1
  refine ⟨le_rfl,limited,fun draws wellFormed => ?_⟩
  have enough := ((wellFormed_iff limited).mp wellFormed).1
  simp [shortSettings] at enough

/-- `float` rounds the lower limit down, and with it the first grid coordinate. -/
example : integralSpot int32 ⟨16777217,by decide⟩ ⟨16777227,by decide⟩ 0 = some ⟨16777216,by decide⟩ := by
  decide +kernel

end Hundred
end MetaPB.Optimizer.Machine

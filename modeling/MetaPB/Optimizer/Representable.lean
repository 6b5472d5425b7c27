import MetaPB.Optimizer.Exploration

/-! The quotients and products of a reptile search against the largest `double`. Adding
`__DBL_MIN__` keeps a denominator from being zero only by that much, so the values stay in
range exactly when every numerator does relative to its denominator. -/
namespace MetaPB.Optimizer.RSA
open Lib.Loop Lib.Best Coordinate

/-- The largest `double`. -/
abbrev dblMax : ℚ := NumericLimits.max

theorem dblMin_pos : 0 < dblMin := by
  unfold dblMin
  positivity

theorem dblMin_le_one : dblMin ≤ 1 := by
  unfold dblMin
  exact div_le_self zero_le_one (one_le_pow₀ (by norm_num))

theorem dblMax_mul_dblMin : dblMax * dblMin = 4 - 1/2^51 := by
  have scale : (2 : ℚ)^971 * dblMin = 1/2^51 := by
    have split : (2 : ℚ)^1022 = 2^971 * 2^51 := by rw [← pow_add]
    rw [dblMin,split]
    field_simp
  rw [dblMax,NumericLimits.max,instNumericLimitsRat,mul_assoc,scale]
  norm_num

theorem abs_add_dblMin (a : ℚ) : |a| - dblMin ≤ |a + dblMin| ∧ |a + dblMin| ≤ |a| + dblMin := by
  have lower := abs_sub_abs_le_abs_sub a (-dblMin)
  have upper := abs_add_le a dblMin
  rw [sub_neg_eq_add,abs_neg,abs_of_pos dblMin_pos] at lower
  rw [abs_of_pos dblMin_pos] at upper
  exact ⟨lower,upper⟩

theorem abs_mul_range (g : ℚ) : |g * 200| = |g| * 200 := by
  rw [abs_mul,abs_of_pos (by norm_num : (0 : ℚ) < 200)]

theorem large_le_dblMax : (100000 : ℚ) ≤ dblMax := (lt_max_of_lt (by norm_num)).le

/-- How far from zero a best coordinate has to be: every `float` but zero is. -/
def clearance : ℚ := 1 / 2^1000

theorem clearance_pos : 0 < clearance := by
  unfold clearance
  positivity

theorem clearance_le_one : clearance ≤ 1 := by
  unfold clearance
  exact div_le_self zero_le_one (one_le_pow₀ one_le_two)

theorem dblMin_le_clearance : dblMin ≤ clearance / 2 := by
  rw [dblMin,clearance,div_div,← pow_succ]
  exact one_div_le_one_div_of_le (by positivity) (pow_le_pow_right₀ one_le_two (by norm_num))

theorem large_le_clearance : 100000 ≤ dblMax * (clearance / 2) := by
  have scale : (2 : ℚ)^1001 = 2^30 * 2^971 := by rw [← pow_add]
  rw [dblMax,NumericLimits.max,instNumericLimitsRat,clearance,div_div,← pow_succ,mul_one_div,
    le_div_iff₀ (by positivity),scale,← mul_assoc]
  exact mul_le_mul_of_nonneg_right (by norm_num) (by positivity)

/-- The quotient exists and is in range. -/
def Dominated (numerator denominator : ℚ) : Prop :=
  denominator ≠ 0 ∧ |numerator| ≤ dblMax * |denominator|

theorem dominated_iff {a b : ℚ} (nonzero : b ≠ 0) : Dominated a b ↔ |a / b| ≤ dblMax := by
  rw [Dominated,abs_div,div_le_iff₀ (abs_pos.mpr nonzero)]
  exact and_iff_right nonzero

section Values
variable {q : Quotient} {iterNum currIterIdx : Nat} {evoSense g x y r : ℚ}

/-- The weight of `Eta` in the first and the last stage. -/
def etaWeight (iterNum currIterIdx : Nat) : Option ℚ :=
  if currIterIdx ≤ iterNum / 4 then some argBETA
  else if currIterIdx ≤ iterNum / 2 ∧ currIterIdx > iterNum / 4 then none
  else if currIterIdx ≤ 3 * iterNum / 4 ∧ currIterIdx > iterNum / 2 then none
  else some dblMin

/-- The products of the stage that the proposal is put together from. -/
def stageProducts (iterNum currIterIdx : Nat) (evoSense gBest other rValue pValue r : ℚ) : List ℚ :=
  let eta := gBest * pValue
  if currIterIdx ≤ iterNum / 4 then [eta * argBETA,rValue * r]
  else if currIterIdx ≤ iterNum / 2 ∧ currIterIdx > iterNum / 4 then
    [gBest * other,gBest * other * evoSense]
  else if currIterIdx ≤ 3 * iterNum / 4 ∧ currIterIdx > iterNum / 2 then [gBest * pValue]
  else [eta * dblMin,rValue * r]

/-- All values formed on the way to one proposal, and the proposal. -/
def formed (q : Quotient) (iterNum currIterIdx : Nat) (evoSense gBest other this mean dimRange r : ℚ) : List ℚ :=
  let rValue := R q gBest other
  let pValue := P q gBest this mean dimRange
  [mean,q.div other (gBest + dblMin),rValue,gBest * dimRange,
    q.div (this - mean) (gBest * dimRange + dblMin),pValue,gBest * pValue] ++
    stageProducts iterNum currIterIdx evoSense gBest other rValue pValue r ++
    [propose iterNum currIterIdx evoSense gBest other rValue pValue r]

/-- How a best coordinate `g` goes with another point's coordinate `x` and with one that is `y`
away from its point's mean: no numerator is too large for its denominator. -/
structure Tame (weight : Option ℚ) (g x y : ℚ) : Prop where
  other : Dominated x (g + dblMin)
  reduced : Dominated (g * (g + dblMin) - x) (g + dblMin)
  spread : Dominated y (g * 200 + dblMin)
  raised : Dominated (argALPHA * (g * 200 + dblMin) + y) (g * 200 + dblMin)
  proposed : ∀ w ∈ weight, Dominated
    (x * (g * 200 + dblMin) - w * g * (g + dblMin) * (argALPHA * (g * 200 + dblMin) + y))
    ((g + dblMin) * (g * 200 + dblMin))

/-- Near zero the best coordinate itself makes up for a small denominator. -/
theorem abs_eta_le (best : |g| ≤ 100) (near : |y| ≤ 200) (spread : Dominated y (g * 200 + dblMin)) :
    |g * (argALPHA + y / (g * 200 + dblMin))| ≤ 14 := by
  have positive := dblMin_pos
  have quotient := (dominated_iff spread.1).mp spread
  have share : |g * (y / (g * 200 + dblMin))| ≤ 4 := by
    rcases le_or_gt dblMin |g| with far | close
    · have wide : 199 * |g| ≤ |g * 200 + dblMin| := by
        have triangle := (abs_add_dblMin (g * 200)).1
        rw [abs_mul_range] at triangle
        linarith
      rw [mul_div_assoc',abs_div,abs_mul,div_le_iff₀ (abs_pos.mpr spread.1)]
      calc |g| * |y| ≤ |g| * 200 := mul_le_mul_of_nonneg_left near (abs_nonneg g)
        _ ≤ 4 * (199 * |g|) := by linarith [abs_nonneg g]
        _ ≤ 4 * |g * 200 + dblMin| := mul_le_mul_of_nonneg_left wide (by norm_num)
    · rw [abs_mul]
      calc |g| * |y / (g * 200 + dblMin)| ≤ dblMin * dblMax :=
            mul_le_mul close.le quotient (abs_nonneg _) positive.le
        _ ≤ 4 := by rw [mul_comm]; exact dblMax_mul_dblMin.trans_le (by norm_num)
  have tenth : |g * argALPHA| ≤ 10 := by
    rw [abs_mul,argALPHA,abs_of_pos (by norm_num : (0 : ℚ) < 1/10)]
    linarith
  calc |g * (argALPHA + y / (g * 200 + dblMin))|
      = |g * argALPHA + g * (y / (g * 200 + dblMin))| := by rw [mul_add]
    _ ≤ |g * argALPHA| + |g * (y / (g * 200 + dblMin))| := abs_add_le _ _
    _ ≤ 14 := by linarith

theorem stage_cases (iterNum currIterIdx : Nat) (evoSense gBest other rValue pValue : ℚ) :
    (∃ w, etaWeight iterNum currIterIdx = some w ∧ (0 ≤ w ∧ w ≤ 1) ∧ ∀ r,
      stageProducts iterNum currIterIdx evoSense gBest other rValue pValue r = [gBest * pValue * w,rValue * r] ∧
      propose iterNum currIterIdx evoSense gBest other rValue pValue r = gBest - gBest * pValue * w - rValue * r) ∨
    (etaWeight iterNum currIterIdx = none ∧ ∀ r,
      stageProducts iterNum currIterIdx evoSense gBest other rValue pValue r =
        [gBest * other,gBest * other * evoSense] ∧
      propose iterNum currIterIdx evoSense gBest other rValue pValue r = gBest * other * evoSense * r) ∨
    etaWeight iterNum currIterIdx = none ∧ ∀ r,
      stageProducts iterNum currIterIdx evoSense gBest other rValue pValue r = [gBest * pValue] ∧
      propose iterNum currIterIdx evoSense gBest other rValue pValue r = gBest * pValue * r := by
  simp only [etaWeight,stageProducts,propose]
  split
  · exact Or.inl ⟨argBETA,rfl,by norm_num [argBETA],fun _ => ⟨rfl,rfl⟩⟩
  · split
    · exact Or.inr (Or.inl ⟨rfl,fun _ => ⟨rfl,rfl⟩⟩)
    · split
      · exact Or.inr (Or.inr ⟨rfl,fun _ => ⟨rfl,rfl⟩⟩)
      · exact Or.inl ⟨dblMin,rfl,⟨dblMin_pos.le,dblMin_le_one⟩,fun _ => ⟨rfl,rfl⟩⟩

theorem abs_sub_mul_le {a b : ℚ} (start : |a| ≤ dblMax) (whole : |a - b * 1| ≤ dblMax) (nonneg : 0 ≤ r)
    (below : r ≤ 1) : |a - b * r| ≤ dblMax := by
  have mixture : a - b * r = (1 - r) * a + r * (a - b * 1) := by ring
  calc |a - b * r| ≤ |(1 - r) * a| + |r * (a - b * 1)| := by rw [mixture]; exact abs_add_le _ _
    _ = (1 - r) * |a| + r * |a - b * 1| := by
        rw [abs_mul,abs_mul,abs_of_nonneg nonneg,abs_of_nonneg (sub_nonneg.mpr below)]
    _ ≤ (1 - r) * dblMax + r * dblMax :=
        add_le_add (mul_le_mul_of_nonneg_left start (sub_nonneg.mpr below))
          (mul_le_mul_of_nonneg_left whole nonneg)
    _ = dblMax := by ring

theorem stage_le {rValue pValue : ℚ} (best : |g| ≤ 100) (chosen : |x| ≤ 100) (sense : |evoSense| ≤ 2)
    (eta : |g * pValue| ≤ 14) (reduced : |rValue| ≤ dblMax)
    (proposed : ∀ w ∈ etaWeight iterNum currIterIdx, |g - g * pValue * w - rValue * 1| ≤ dblMax)
    (nonneg : 0 ≤ r) (below : r ≤ 1) :
    (∀ v ∈ stageProducts iterNum currIterIdx evoSense g x rValue pValue r, |v| ≤ dblMax) ∧
      |propose iterNum currIterIdx evoSense g x rValue pValue r| ≤ dblMax := by
  have large := large_le_dblMax
  have shrink (a : ℚ) : |a * r| ≤ |a| := by
    rw [abs_mul,abs_of_nonneg nonneg]
    exact mul_le_of_le_one_right (abs_nonneg a) below
  rcases stage_cases iterNum currIterIdx evoSense g x rValue pValue with
    ⟨w,weight,⟨positive,unit⟩,stage⟩ | ⟨-,stage⟩ | ⟨-,stage⟩
  · obtain ⟨products,proposal⟩ := stage r
    have weighted : |g * pValue * w| ≤ 14 := by
      rw [abs_mul,abs_of_nonneg positive]
      exact (mul_le_of_le_one_right (abs_nonneg _) unit).trans eta
    have start : |g - g * pValue * w| ≤ dblMax := (abs_sub _ _).trans (by linarith)
    rw [products,proposal]
    refine ⟨?_,abs_sub_mul_le start (proposed w weight) nonneg below⟩
    intro v member
    rcases List.mem_cons.mp member with rfl | member
    · linarith
    · rw [List.mem_singleton.mp member]
      exact (shrink rValue).trans reduced
  · obtain ⟨products,proposal⟩ := stage r
    have two : |g * x| ≤ 10000 := by
      rw [abs_mul]
      exact (mul_le_mul best chosen (abs_nonneg x) (by norm_num)).trans (by norm_num)
    have three : |g * x * evoSense| ≤ 20000 := by
      rw [abs_mul]
      exact (mul_le_mul two sense (abs_nonneg _) (by norm_num)).trans (by norm_num)
    rw [products,proposal]
    refine ⟨?_,(shrink _).trans (by linarith)⟩
    intro v member
    rcases List.mem_cons.mp member with rfl | member
    · linarith
    · rw [List.mem_singleton.mp member]
      linarith
  · obtain ⟨products,proposal⟩ := stage r
    rw [products,proposal]
    refine ⟨?_,(shrink _).trans (by linarith)⟩
    intro v member
    rw [List.mem_singleton.mp member]
    linarith

/-- The values of one proposal, over all draws, are in range exactly when the coordinates are tame. -/
theorem formed_iff {this mean : ℚ} (best : |g| ≤ 100) (chosen : |x| ≤ 100) (middle : |mean| ≤ 100) (near : |this - mean| ≤ 200)
    (sense : |evoSense| ≤ 2) :
    (g + dblMin ≠ 0 ∧ g * 200 + dblMin ≠ 0 ∧ ∀ r, 0 ≤ r → r ≤ 1 →
      ∀ v ∈ formed q iterNum currIterIdx evoSense g x this mean 200 r, |v| ≤ dblMax) ↔
      Tame (etaWeight iterNum currIterIdx) g x (this - mean) := by
  have quotients (first : g + dblMin ≠ 0) (second : g * 200 + dblMin ≠ 0) :
      q.div x (g + dblMin) = x / (g + dblMin) ∧
        R q g x = (g * (g + dblMin) - x) / (g + dblMin) ∧
        q.div (this - mean) (g * 200 + dblMin) = (this - mean) / (g * 200 + dblMin) ∧
        P q g this mean 200 = (argALPHA * (g * 200 + dblMin) + (this - mean)) / (g * 200 + dblMin) := by
    rw [R,P,q.div_of_ne_zero _ _ first,q.div_of_ne_zero _ _ second]
    refine ⟨rfl,?_,rfl,?_⟩
    · rw [sub_div,mul_div_assoc,div_self first,mul_one]
    · rw [add_div,mul_div_assoc,div_self second,mul_one]
  have mixed (first : g + dblMin ≠ 0) (second : g * 200 + dblMin ≠ 0) (w : ℚ) :
      (x * (g * 200 + dblMin) - w * g * (g + dblMin) * (argALPHA * (g * 200 + dblMin) + (this - mean))) /
        ((g + dblMin) * (g * 200 + dblMin)) = g - g * P q g this mean 200 * w - R q g x * 1 := by
    obtain ⟨-,reduced,-,raised⟩ := quotients first second
    rw [reduced,raised]
    field_simp
    ring
  constructor
  · rintro ⟨first,second,small⟩
    have values := small 1 zero_le_one le_rfl
    obtain ⟨divided,reduced,spread,raised⟩ := quotients first second
    simp only [formed,List.mem_append,List.mem_cons,List.not_mem_nil,or_false] at values
    refine ⟨(dominated_iff first).mpr ?_,(dominated_iff first).mpr ?_,(dominated_iff second).mpr ?_,
      (dominated_iff second).mpr ?_,?_⟩
    · rw [← divided]
      exact values _ (Or.inl (Or.inl (Or.inr (Or.inl rfl))))
    · rw [← reduced]
      exact values _ (Or.inl (Or.inl (Or.inr (Or.inr (Or.inl rfl)))))
    · rw [← spread]
      exact values _ (Or.inl (Or.inl (Or.inr (Or.inr (Or.inr (Or.inr (Or.inl rfl)))))))
    · rw [← raised]
      exact values _ (Or.inl (Or.inl (Or.inr (Or.inr (Or.inr (Or.inr (Or.inr (Or.inl rfl))))))))
    · intro w member
      rw [dominated_iff (mul_ne_zero first second),mixed first second]
      rcases stage_cases iterNum currIterIdx evoSense g x (R q g x) (P q g this mean 200) with
        ⟨v,weight,-,stage⟩ | ⟨unscaled,-⟩ | ⟨unscaled,-⟩
      · rw [weight] at member
        cases Option.mem_some_iff.mp member
        rw [← (stage 1).2]
        exact values _ (Or.inr rfl)
      · rw [unscaled] at member
        cases member
      · rw [unscaled] at member
        cases member
  · intro tame
    have first := tame.other.1
    have second := tame.spread.1
    have large := large_le_dblMax
    obtain ⟨divided,reduced,spread,raised⟩ := quotients first second
    have divided' := (dominated_iff first).mp tame.other
    have reduced' := (dominated_iff first).mp tame.reduced
    have spread' := (dominated_iff second).mp tame.spread
    have raised' := (dominated_iff second).mp tame.raised
    rw [← divided] at divided'
    rw [← reduced] at reduced'
    rw [← spread] at spread'
    rw [← raised] at raised'
    have eta : |g * P q g this mean 200| ≤ 14 := by
      rw [P,q.div_of_ne_zero _ _ second]
      exact abs_eta_le best near tame.spread
    refine ⟨first,second,fun r nonneg below v member => ?_⟩
    obtain ⟨products,proposal⟩ := stage_le best chosen sense eta reduced' (fun w weight => by
      have mixture := tame.proposed w weight
      rw [dominated_iff (mul_ne_zero first second),mixed first second] at mixture
      exact mixture) nonneg below
    simp only [formed,List.mem_append,List.mem_cons,List.not_mem_nil,or_false] at member
    rcases member with ((rfl | rfl | rfl | rfl | rfl | rfl | rfl) | product) | rfl
    · linarith
    · exact divided'
    · exact reduced'
    · rw [abs_mul]
      norm_num
      linarith
    · exact spread'
    · exact raised'
    · linarith
    · exact products v product
    · exact proposal

/-- Any best coordinate that is not next to zero is tame. -/
theorem tame_of_far (far : clearance ≤ |g|) (best : |g| ≤ 100) (chosen : |x| ≤ 100) (near : |y| ≤ 200)
    (iterNum currIterIdx : Nat) : Tame (etaWeight iterNum currIterIdx) g x y := by
  have positive := dblMin_pos
  have tiny := dblMin_le_clearance
  have room {b : ℚ} (wide : clearance / 2 ≤ |b|) : b ≠ 0 ∧ 100000 ≤ dblMax * |b| := by
    refine ⟨?_,large_le_clearance.trans
      (mul_le_mul_of_nonneg_left wide (le_trans (by norm_num) large_le_dblMax))⟩
    rintro rfl
    rw [abs_zero] at wide
    exact absurd wide (not_le.mpr (half_pos clearance_pos))
  have first : clearance / 2 ≤ |g + dblMin| ∧ |g + dblMin| ≤ 101 := by
    obtain ⟨lower,upper⟩ := abs_add_dblMin g
    exact ⟨by linarith,by linarith [dblMin_le_one]⟩
  have second : clearance / 2 ≤ |g * 200 + dblMin| ∧ |g * 200 + dblMin| ≤ 20001 := by
    obtain ⟨lower,upper⟩ := abs_add_dblMin (g * 200)
    rw [abs_mul_range] at lower upper
    exact ⟨by linarith [abs_nonneg g],by linarith [dblMin_le_one]⟩
  obtain ⟨nonzero,wide⟩ := room first.1
  obtain ⟨nonzero',wide'⟩ := room second.1
  have spread : Dominated y (g * 200 + dblMin) := ⟨nonzero',by linarith⟩
  refine ⟨⟨nonzero,by linarith⟩,⟨nonzero,?_⟩,spread,⟨nonzero',?_⟩,?_⟩
  · have product : |g * (g + dblMin)| ≤ 10100 := by
      rw [abs_mul]
      exact (mul_le_mul best first.2 (abs_nonneg _) (by norm_num)).trans (by norm_num)
    linarith [abs_sub (g * (g + dblMin)) x]
  · have tenth : |argALPHA * (g * 200 + dblMin)| ≤ 2001 := by
      rw [abs_mul,argALPHA,abs_of_pos (by norm_num : (0 : ℚ) < 1/10)]
      linarith
    linarith [abs_add_le (argALPHA * (g * 200 + dblMin)) y]
  · intro w weight
    have unit : 0 ≤ w ∧ w ≤ 1 := by
      rcases stage_cases iterNum currIterIdx 0 0 0 0 0 with ⟨v,found,within,-⟩ | ⟨unscaled,-⟩ | ⟨unscaled,-⟩
      · rw [found] at weight
        cases Option.mem_some_iff.mp weight
        exact within
      · rw [unscaled] at weight
        cases weight
      · rw [unscaled] at weight
        cases weight
    have eta := abs_eta_le best near spread
    have quotient : |x / (g + dblMin)| ≤ dblMax / 1000 := by
      rw [abs_div,div_le_iff₀ (abs_pos.mpr nonzero)]
      linarith
    have mixture : (x * (g * 200 + dblMin) - w * g * (g + dblMin) * (argALPHA * (g * 200 + dblMin) + y)) /
        ((g + dblMin) * (g * 200 + dblMin)) =
          x / (g + dblMin) - g * (argALPHA + y / (g * 200 + dblMin)) * w := by
      field_simp
    rw [dominated_iff (mul_ne_zero nonzero nonzero'),mixture]
    have weighted : |g * (argALPHA + y / (g * 200 + dblMin)) * w| ≤ 14 := by
      rw [abs_mul,abs_of_nonneg unit.1]
      exact (mul_le_of_le_one_right (abs_nonneg _) unit.2).trans eta
    linarith [abs_sub (x / (g + dblMin)) (g * (argALPHA + y / (g * 200 + dblMin)) * w),large_le_dblMax]

theorem dominated_dblMin {a : ℚ} : Dominated a dblMin ↔ |a| ≤ 4 - 1/2^51 := by
  rw [Dominated,abs_of_pos dblMin_pos,dblMax_mul_dblMin]
  exact and_iff_right dblMin_pos.ne'

/-- Zero is, among coordinates that are close to zero themselves. -/
theorem tame_zero_iff (weight : Option ℚ) :
    Tame weight 0 x y ↔ |x| ≤ 4 - 1/2^51 ∧ |y| ≤ 4 - 1/2^51 ∧ |argALPHA * dblMin + y| ≤ 4 - 1/2^51 := by
  have positive := dblMin_pos
  have whole (w : ℚ) : Dominated
      (x * (0 * 200 + dblMin) - w * 0 * (0 + dblMin) * (argALPHA * (0 * 200 + dblMin) + y))
        ((0 + dblMin) * (0 * 200 + dblMin)) ↔ |x| ≤ 4 - 1/2^51 := by
    simp only [mul_zero,zero_mul,sub_zero,zero_add]
    rw [Dominated,abs_mul,abs_mul,abs_of_pos positive,← mul_assoc,mul_le_mul_iff_left₀ positive,dblMax_mul_dblMin]
    exact and_iff_right (mul_pos positive positive).ne'
  constructor
  · intro tame
    have other := tame.other
    have spread := tame.spread
    have raised := tame.raised
    rw [zero_add,dominated_dblMin] at other
    rw [zero_mul,zero_add,dominated_dblMin] at spread raised
    exact ⟨other,spread,raised⟩
  · rintro ⟨other,spread,raised⟩
    refine ⟨?_,?_,?_,?_,fun w _ => (whole w).mpr other⟩
    · rwa [zero_add,dominated_dblMin]
    · rwa [zero_mul,zero_add,zero_sub,dominated_dblMin,abs_neg]
    · rwa [zero_mul,zero_add,dominated_dblMin]
    · rwa [zero_mul,zero_add,dominated_dblMin]

/-- A best coordinate that is not next to zero, or zero among small coordinates: `x` is another
point's, `y` how far a coordinate is from its point's mean. -/
def Clear (g x y : ℚ) : Prop :=
  clearance ≤ |g| ∨ g = 0 ∧ |x| ≤ 4 - 1/2^51 ∧ |y| ≤ 4 - 1/2^51 ∧ |argALPHA * dblMin + y| ≤ 4 - 1/2^51

theorem Clear.tame (clear : Clear g x y) (best : |g| ≤ 100) (chosen : |x| ≤ 100) (near : |y| ≤ 200)
    (iterNum currIterIdx : Nat) : Tame (etaWeight iterNum currIterIdx) g x y := by
  rcases clear with far | ⟨rfl,small⟩
  · exact tame_of_far far best chosen near iterNum currIterIdx
  · exact (tame_zero_iff _).mpr small

theorem Tame.clear {weight : Option ℚ} (tame : Tame weight g x y) (spaced : g = 0 ∨ clearance ≤ |g|) :
    Clear g x y := by
  rcases spaced with rfl | far
  · exact Or.inr ⟨rfl,(tame_zero_iff weight).mp tame⟩
  · exact Or.inl far

end Values

section Runs
variable {aType vType : Type} [LinearOrder aType] [Zero aType] [Add aType] [Coordinate aType]
  [LinearOrder vType] [Zero vType] {c : Settings aType vType} {draws : Draws aType}
  {q : Quotient}

/-- The limits -100 and 100 in every dimension. -/
def Hundred (c : Settings aType vType) : Prop :=
  ∀ (d : Nat) low high, c.lowerLimits[d]? = some low → c.upperLimits[d]? = some high →
    toDouble low = -100 ∧ toDouble high = 100

/-- What holds of the numbers of every possible proposal: the best coordinate, the chosen other
point's, this point's, the mean of this point and the range. -/
def Everywhere (c : Settings aType vType) (s : Search aType vType) (holds : ℚ → ℚ → ℚ → ℚ → ℚ → Prop) : Prop :=
  ∀ thisFrm, s.ptHistory.getLast? = some thisFrm → ∀ thisPt ∈ thisFrm, ∀ otherPt ∈ thisFrm,
    ∀ (dimIdx : Nat) gBest other this low high, s.gBestPt[dimIdx]? = some gBest → otherPt[dimIdx]? = some other →
      thisPt[dimIdx]? = some this → c.lowerLimits[dimIdx]? = some low → c.upperLimits[dimIdx]? = some high →
        holds (toDouble gBest) (toDouble other) (toDouble this) (toDouble thisPt.sum / c.dimNum)
          (toDouble high - toDouble low)

omit [LinearOrder vType] [Zero vType] in
theorem Everywhere.mono {s : Search aType vType} {side first second : ℚ → ℚ → ℚ → ℚ → ℚ → Prop}
    (numbers : Everywhere c s side) (step : ∀ gBest other this mean dimRange,
      side gBest other this mean dimRange → first gBest other this mean dimRange →
        second gBest other this mean dimRange) (all : Everywhere c s first) : Everywhere c s second := by
  intro frame last thisPt thisIn otherPt otherIn d gBest other this low high bestAt otherAt thisAt lowAt highAt
  apply step
  · exact numbers frame last thisPt thisIn otherPt otherIn d _ _ _ low high bestAt otherAt thisAt lowAt highAt
  · exact all frame last thisPt thisIn otherPt otherIn d _ _ _ low high bestAt otherAt thisAt lowAt highAt

/-- Every value formed from here, whatever is drawn, is in the range of a `double`. -/
def Representable (c : Settings aType vType) (q : Quotient) (s : Search aType vType) (m : RSA) : Prop :=
  Everywhere c s fun gBest other this mean dimRange =>
    gBest + dblMin ≠ 0 ∧ gBest * dimRange + dblMin ≠ 0 ∧ ∀ r, 0 ≤ r → r ≤ 1 →
      ∀ v ∈ formed q c.iterNum m.currIterIdx m.evoSense gBest other this mean dimRange r, |v| ≤ dblMax

/-- In every dimension the best coordinate is clear of zero or all coordinates are small. -/
def ClearState (c : Settings aType vType) (s : Search aType vType) : Prop :=
  Everywhere c s fun gBest other this mean _ => Clear gBest other (this - mean)

/-- A search and the members some turn of the run explores from. -/
def Explores (c : Settings aType vType) (draws : Draws aType) (q : Quotient) (start logged : Search aType vType)
    (extracted : RSA) : Prop :=
  ∃ count s members evaluated, count < c.iterNum - 1 ∧
    turns c (derived c draws q) count (start,{}) = some (s,members) ∧ s.exploitation c = some evaluated ∧
      evaluated.convergeLogging = some logged ∧ extraction c draws logged members = some extracted

omit [LinearOrder vType] [Zero vType] in
theorem Hundred.magnitude (hundred : Hundred c) {d : Nat} {x : aType} (within : c.Within d x) {low high : aType}
    (lowAt : c.lowerLimits[d]? = some low) (highAt : c.upperLimits[d]? = some high) : |toDouble x| ≤ 100 := by
  obtain ⟨least,most⟩ := within low high lowAt highAt
  obtain ⟨lower,upper⟩ := hundred d low high lowAt highAt
  have above := toDouble_strictMono.monotone least
  have below := toDouble_strictMono.monotone most
  rw [lower] at above
  rw [upper] at below
  exact abs_le.mpr ⟨above,below⟩

theorem mean_le {pt : List aType} (each : ∀ x ∈ pt, |toDouble x| ≤ 100) : |toDouble pt.sum| ≤ 100 * pt.length := by
  induction pt with
  | nil => simp [toDouble_zero]
  | cons x rest ih =>
    have own := each x List.mem_cons_self
    have others := ih fun y member => each y (List.mem_cons_of_mem x member)
    rw [List.sum_cons,toDouble_add,List.length_cons]
    push_cast
    linarith [abs_add_le (toDouble x) (toDouble rest.sum)]

omit [Zero vType] [LinearOrder vType] in
theorem mean_within (bounds : c.Limited) (hundred : Hundred c) {pt : List aType} (box : c.InBox pt) {d : Nat}
    {x : aType} (listed : pt[d]? = some x) : |toDouble pt.sum / c.dimNum| ≤ 100 := by
  have small := (List.getElem?_eq_some_iff.mp listed).1
  rw [box.size] at small
  have each : ∀ y ∈ pt, |toDouble y| ≤ 100 := by
    intro y member
    obtain ⟨e,placed⟩ := List.mem_iff_getElem?.mp member
    have inside := (List.getElem?_eq_some_iff.mp placed).1
    obtain ⟨low,high,lowAt,highAt,-⟩ := bounds e (box.size ▸ inside)
    exact hundred.magnitude (box.within e y placed) lowAt highAt
  have total := mean_le each
  have positive : (0 : ℚ) < c.dimNum := by exact_mod_cast (Nat.zero_le d).trans_lt small
  rw [box.size] at total
  rw [abs_div,abs_of_pos positive,div_le_iff₀ positive]
  exact total

omit [LinearOrder vType] [Zero vType] in
theorem move_currIterIdx {s : Search aType vType} {ptIdx dimIdx : Nat} {newPt : List aType} {moved : aType}
    {m next : RSA} (ran : RSA.move c draws q s ptIdx dimIdx newPt m = some (moved,next)) :
    next.currIterIdx = m.currIterIdx := by
  simp only [RSA.move,Option.bind_eq_bind,Option.bind_eq_some_iff] at ran
  obtain ⟨_,-,_,-,_,-,_,-,_,-,_,-,_,-,_,-,same⟩ := ran
  cases Option.some.inj same
  rfl

variable [NumericLimits vType]

theorem turns_counted (bounds : c.Limited)
    (limited : ∀ points, ∀ val ∈ c.evaluateFunc points, val < NumericLimits.max) {start s : Search aType vType}
    {m : RSA} {count : Nat} (made : construct c draws = some start) (within : count ≤ c.iterNum)
    (ran : turns c (derived c draws q) count (start,{}) = some (s,m)) :
    (∀ frame ∈ s.ptHistory, c.FrameInBox frame) ∧ m.currIterIdx = count := by
  obtain ⟨firstFrm,first,rfl⟩ := Option.map_eq_some_iff.mp made
  refine turns_explored limited (fun count s m => (∀ frame ∈ s.ptHistory, c.FrameInBox frame) ∧
    m.currIterIdx = count) ⟨?_,rfl⟩ ?_ within ran
  · intro frame member
    rw [List.mem_singleton.mp member]
    exact firstFrame_inBox bounds first
  · intro count s m logged extracted frame result t own _ explored before
    have counted : extracted.currIterIdx = count + 1 := by
      rw [← before.2]
      cases Option.some.inj explored.gathered
      rfl
    rcases explored.ended with ⟨rfl,rfl⟩ | ⟨newFrm,moved,rfl⟩
    · rw [explored.points]
      exact ⟨before.1,counted⟩
    · rw [explored.points]
      refine ⟨forall_mem_snoc before.1 (exploration_inBox bounds moved),?_⟩
      have moves : ∀ ptIdx < c.pointNum, ∀ dimIdx < c.dimNum, ∀ start newPt now moved next low high,
          blankOrigin c logged ptIdx = some start → newPt[dimIdx]? = start[dimIdx]? →
          now.currIterIdx = extracted.currIterIdx →
          RSA.move c draws q logged ptIdx dimIdx newPt now = some (moved,next) →
          c.lowerLimits[dimIdx]? = some low → c.upperLimits[dimIdx]? = some high →
            True ∧ next.currIterIdx = extracted.currIterIdx := by
        intro ptIdx _ dimIdx _ start newPt now moved next low high _ _ same called _ _
        exact ⟨trivial,(move_currIterIdx called).trans same⟩
      obtain ⟨-,same,-⟩ := exploreFrame_settled (fun now => now.currIterIdx = extracted.currIterIdx)
        (fun _ _ _ => True) rfl moves moved
      exact same.trans counted

theorem Explores.bounds (bounds : c.Limited) (hundred : Hundred c)
    (limited : ∀ points, ∀ val ∈ c.evaluateFunc points, val < NumericLimits.max) {start s : Search aType vType}
    {m : RSA} (made : construct c draws = some start) (explores : Explores c draws q start s m) :
    |m.evoSense| ≤ 2 ∧ Everywhere c s fun gBest other this mean dimRange =>
      |gBest| ≤ 100 ∧ |other| ≤ 100 ∧ |mean| ≤ 100 ∧ |this - mean| ≤ 200 ∧ dimRange = 200 := by
  obtain ⟨count,before,members,evaluated,inside,ran,exploited,logging,gathered⟩ := explores
  have small : count < c.iterNum := by omega
  obtain ⟨frames,counted⟩ := turns_counted bounds limited made small.le ran
  have run : Shaped c count before ∧ Converged count before := by
    obtain ⟨firstFrm,-,rfl⟩ := Option.map_eq_some_iff.mp made
    exact turns_converged limited firstFrm small.le ran
  obtain ⟨frame,result,logged⟩ := logging_logged limited small run.1 run.2 exploited logging
  constructor
  · cases Option.some.inj gathered
    have positive : (0 : ℚ) < c.iterNum := by exact_mod_cast (Nat.zero_le count).trans_lt small
    have share : ((members.currIterIdx + 1 : Nat) : ℚ) / c.iterNum ≤ 1 := by
      rw [div_le_one positive,counted]
      exact_mod_cast small
    have nonneg : 0 ≤ ((members.currIterIdx + 1 : Nat) : ℚ) / c.iterNum := by positivity
    obtain ⟨least,most⟩ := draws.evoScaleDist_within members.rng
    have sense : |(draws.evoScaleDist members.rng : ℚ)| ≤ 2 :=
      abs_le.mpr ⟨by exact_mod_cast least,by exact_mod_cast most⟩
    have unit : 1 - ((members.currIterIdx + 1 : Nat) : ℚ) / c.iterNum ≤ 1 := by linarith
    simp only
    rw [abs_mul,abs_of_nonneg (sub_nonneg.mpr share)]
    exact (mul_le_mul sense unit (sub_nonneg.mpr share) (by norm_num)).trans (by norm_num)
  · intro thisFrm last thisPt thisIn otherPt otherIn d gBest other this low high bestAt otherAt thisAt lowAt highAt
    rw [logged.points,logged.last] at last
    cases Option.some.inj last
    have box := frames frame (List.mem_of_getLast? logged.last)
    obtain ⟨ptFrm,member,inFrame⟩ := logged.best.mem
    have best := ((frames ptFrm member).inside _ inFrame).within d gBest bestAt
    have chosen := (box.inside _ otherIn).within d other otherAt
    have own := hundred.magnitude ((box.inside _ thisIn).within d this thisAt) lowAt highAt
    have middle := mean_within bounds hundred (box.inside _ thisIn) thisAt
    obtain ⟨lower,upper⟩ := hundred d low high lowAt highAt
    refine ⟨hundred.magnitude best lowAt highAt,hundred.magnitude chosen lowAt highAt,middle,?_,?_⟩
    · linarith [abs_sub (toDouble this) (toDouble thisPt.sum / c.dimNum)]
    · rw [lower,upper]
      norm_num

/-- In a run between -100 and 100 whose explorations all start clear of zero, everything that they
form is in range; and where no best coordinate is next to zero without being zero, as no `int` and
no `float` is, no other run keeps in range. -/
theorem exec_representable_iff (bounds : c.Limited) (hundred : Hundred c)
    (limited : ∀ points, ∀ val ∈ c.evaluateFunc points, val < NumericLimits.max) (start : Search aType vType)
    (made : construct c draws = some start) :
    ((∀ s m, Explores c draws q start s m → ClearState c s) →
      ∀ s m, Explores c draws q start s m → Representable c q s m) ∧
    ((∀ s m, Explores c draws q start s m → ∀ gBest ∈ s.gBestPt,
        toDouble gBest = 0 ∨ clearance ≤ |toDouble gBest|) →
      (∀ s m, Explores c draws q start s m → Representable c q s m) →
        ∀ s m, Explores c draws q start s m → ClearState c s) := by
  constructor
  · intro clear s m explores
    obtain ⟨sense,numbers⟩ := explores.bounds bounds hundred limited made
    refine numbers.mono (fun gBest other this mean dimRange sizes clear => ?_) (clear s m explores)
    obtain ⟨best,chosen,middle,near,rfl⟩ := sizes
    exact (formed_iff best chosen middle near sense).mpr (clear.tame best chosen near _ _)
  · intro spaced small s m explores frame last thisPt thisIn otherPt otherIn d gBest other this low high bestAt
      otherAt thisAt lowAt highAt
    obtain ⟨sense,numbers⟩ := explores.bounds bounds hundred limited made
    obtain ⟨best,chosen,middle,near,range⟩ :=
      numbers frame last thisPt thisIn otherPt otherIn d _ _ _ low high bestAt otherAt thisAt lowAt highAt
    have formed :=
      small s m explores frame last thisPt thisIn otherPt otherIn d _ _ _ low high bestAt otherAt thisAt lowAt highAt
    rw [range] at formed
    exact ((formed_iff best chosen middle near sense).mp formed).clear
      (spaced s m explores gBest (List.mem_of_getElem? bestAt))

end Runs

/-- One dimension between -100 and 100 with ten points. -/
def hundredFloats (iterNum : Nat) (value : List ℚ → ℚ) : Settings ℚ ℚ :=
  ⟨[-100],[100],1,10,iterNum,List.map fun pt => min 300 (value pt)⟩

section Hundreds
variable (iterNum : Nat) (value : List ℚ → ℚ)

theorem hundredFloats_limited : (hundredFloats iterNum value).Limited := by
  intro d small
  cases Nat.lt_one_iff.mp small
  exact ⟨_,_,rfl,rfl,by norm_num⟩

theorem hundredFloats_hundred : Hundred (hundredFloats iterNum value) :=
  forall_singleton ⟨rfl,rfl⟩

theorem hundredFloats_values (points : List (List ℚ)) :
    ∀ val ∈ (hundredFloats iterNum value).evaluateFunc points, val < NumericLimits.max := by
  intro val member
  obtain ⟨pt,-,rfl⟩ := List.mem_map.mp member
  exact (min_le_left _ _).trans_lt (lt_max_of_lt (by norm_num))

end Hundreds

/-- Where the best point lies on the lower limit the one exploration of a run of two turns keeps in range. -/
theorem exec_representable_corner : ∃ start, construct (hundredFloats 2 fun pt => pt.sum + 100) extremeDraws = some start ∧
    ∀ s m, Explores (hundredFloats 2 fun pt => pt.sum + 100) extremeDraws ⟨(· / ·),fun _ _ _ => rfl⟩ start s m →
      Representable (hundredFloats 2 fun pt => pt.sum + 100) ⟨(· / ·),fun _ _ _ => rfl⟩ s m := by
  have logged : ((construct (hundredFloats 2 fun pt => pt.sum + 100) extremeDraws).bind fun start =>
      (start.exploitation (hundredFloats 2 fun pt => pt.sum + 100)).bind Search.convergeLogging).map
        Search.gBestPt = some [-100] := by decide +kernel
  obtain ⟨best,ran,corner⟩ := Option.map_eq_some_iff.mp logged
  obtain ⟨start,made,ran⟩ := Option.bind_eq_some_iff.mp ran
  refine ⟨start,made,(exec_representable_iff (hundredFloats_limited _ _) (hundredFloats_hundred _ _)
    (hundredFloats_values _ _) start made).1 ?_⟩
  intro s m explores
  obtain ⟨count,before,members,evaluated,inside,turned,exploited,logging,-⟩ := explores
  have first : count = 0 := by
    have bound : count < 2 - 1 := inside
    omega
  rw [first] at turned
  cases Option.some.inj turned
  rw [exploited,Option.bind_some,logging] at ran
  cases Option.some.inj ran
  intro frame last thisPt thisIn otherPt otherIn d gBest other this low high bestAt otherAt thisAt lowAt highAt
  have lowest : gBest = -100 := by
    rw [corner] at bestAt
    exact List.mem_singleton.mp (List.mem_of_getElem? bestAt)
  left
  rw [lowest]
  refine clearance_le_one.trans ?_
  norm_num [toDouble]

/-- The best of the ten grid points is 0, and the quotient of -100 by `__DBL_MIN__` is out of range. -/
theorem exec_not_representable : ∃ start, construct (hundredFloats 4 fun pt => |pt.sum|) extremeDraws = some start ∧
    ¬ ∀ s m, Explores (hundredFloats 4 fun pt => |pt.sum|) extremeDraws ⟨(· / ·),fun _ _ _ => rfl⟩ start s m →
      Representable (hundredFloats 4 fun pt => |pt.sum|) ⟨(· / ·),fun _ _ _ => rfl⟩ s m := by
  have logged : ((construct (hundredFloats 4 fun pt => |pt.sum|) extremeDraws).bind fun start =>
      (start.exploitation (hundredFloats 4 fun pt => |pt.sum|)).bind Search.convergeLogging).map
        (fun s => (s.gBestPt,s.ptHistory)) =
          some ([0],[[[-100],[-80],[-60],[-40],[-20],[0],[20],[40],[60],[80]]]) := by decide +kernel
  obtain ⟨best,ran,read⟩ := Option.map_eq_some_iff.mp logged
  obtain ⟨start,made,ran⟩ := Option.bind_eq_some_iff.mp ran
  obtain ⟨evaluated,exploited,logging⟩ := Option.bind_eq_some_iff.mp ran
  obtain ⟨zero,points⟩ := Prod.mk.inj read
  refine ⟨start,made,fun small => ?_⟩
  have formed := small best _ ⟨0,start,{},evaluated,by decide,rfl,exploited,logging,rfl⟩
  have corner : [(-100 : ℚ)] ∈ [[(-100 : ℚ)],[-80],[-60],[-40],[-20],[0],[20],[40],[60],[80]] := List.mem_cons_self
  obtain ⟨nonzero,-,values⟩ := formed _ (by rw [points]; rfl) [-100] corner [-100] corner 0 0 (-100) (-100) (-100) 100
    (by rw [zero]; rfl) rfl rfl rfl rfl
  have quotient := values 0 le_rfl zero_le_one _ (List.mem_cons_of_mem _ List.mem_cons_self)
  have bound := ((dominated_iff nonzero).mpr quotient).2
  rw [toDouble_zero,zero_add,abs_of_pos dblMin_pos,dblMax_mul_dblMin] at bound
  norm_num [toDouble] at bound

end MetaPB.Optimizer.RSA

import Mathlib.Algebra.Order.Field.Power
import Mathlib.Algebra.Order.Floor.Ring
import Mathlib.Data.Int.ConditionallyCompleteOrder
import Mathlib.Data.Int.Log
import Mathlib.Data.Rat.Floor
import Mathlib.Tactic.Linarith
import Mathlib.Tactic.NormNum
import Mathlib.Tactic.Positivity
import Mathlib.Tactic.Ring

/-! Rounding to a binary floating-point format: to the nearest of its values, ties to the even
one, subnormal values included. Rounding leaves the values of the format alone and crosses
none of them, from which it follows that it is monotone; the error is half a spacing. -/
namespace MetaPB.Lib.Rounding

/-- The nearest integer, the even one of two. -/
def nearestEven (x : ℚ) : ℤ :=
  if Int.fract x < 1/2 ∨ Int.fract x = 1/2 ∧ Even ⌊x⌋ then ⌊x⌋ else ⌊x⌋ + 1

theorem floor_le_nearestEven (x : ℚ) : ⌊x⌋ ≤ nearestEven x ∧ nearestEven x ≤ ⌊x⌋ + 1 := by
  unfold nearestEven
  split <;> omega

theorem nearestEven_intCast (n : ℤ) : nearestEven n = n := by
  rw [nearestEven,if_pos (Or.inl (by simp)),Int.floor_intCast]

theorem nearestEven_mono : Monotone nearestEven := by
  intro x y below
  have floors := Int.floor_le_floor below
  rcases floors.lt_or_eq with apart | same
  · exact (floor_le_nearestEven x).2.trans ((Int.add_one_le_iff.mpr apart).trans (floor_le_nearestEven y).1)
  · have fracts : Int.fract x ≤ Int.fract y := by
      rw [Int.fract,Int.fract,same]
      exact sub_le_sub_right below _
    unfold nearestEven
    rw [same]
    split
    next => split <;> omega
    next up =>
      rw [if_neg]
      intro down
      apply up
      rcases down with less | ⟨tie,even⟩
      · exact Or.inl (fracts.trans_lt less)
      · exact (fracts.trans_eq tie).lt_or_eq.imp_right fun equal => ⟨equal,even⟩

theorem nearestEven_error (x : ℚ) : |nearestEven x - x| ≤ 1/2 := by
  have split := Int.floor_add_fract x
  have least := Int.fract_nonneg x
  have most := Int.fract_lt_one x
  unfold nearestEven
  rw [abs_le]
  split
  next down =>
    have half : Int.fract x ≤ 1/2 := down.elim le_of_lt fun tie => tie.1.le
    constructor <;> linarith
  next up =>
    have half : 1/2 ≤ Int.fract x := not_lt.mp fun less => up (Or.inl less)
    push_cast
    constructor <;> linarith

/-- Significands of so many bits, the exponent of the smallest value, and the power of two
that all finite values are below. -/
structure Format where
  precision : Nat
  minExponent : ℤ
  maxExponent : ℤ
  positive : 1 ≤ precision

def binary32 : Format := ⟨24,-149,128,by decide⟩

def binary64 : Format := ⟨53,-1074,1024,by decide⟩

/-- The extended format of 80 bits. -/
def extended : Format := ⟨64,-16445,16384,by decide⟩

namespace Format
variable (f : Format)

/-- The exponent of the spacing of values around a magnitude. -/
def spacing (x : ℚ) : ℤ := max f.minExponent (Int.log 2 x + 1 - f.precision)

def magnitude (x : ℚ) : ℚ := nearestEven (x / 2^f.spacing x) * 2^f.spacing x

/-- The nearest value, were there no largest one. -/
def nearest (x : ℚ) : ℚ := if x < 0 then -f.magnitude (-x) else f.magnitude x

/-- A value of the format, were there no largest one. -/
def Holds (x : ℚ) : Prop := ∃ m e : ℤ, f.minExponent ≤ e ∧ |m| ≤ 2^f.precision ∧ x = m * 2^e

variable {f} {x y r : ℚ}

theorem nearest_of_nonneg (nonneg : 0 ≤ x) : f.nearest x = f.magnitude x := if_neg nonneg.not_gt

theorem magnitude_nonneg (nonneg : 0 ≤ x) : 0 ≤ f.magnitude x := by
  have part : (0 : ℚ) ≤ x / 2^f.spacing x := by positivity
  have whole := nearestEven_mono part
  rw [← Int.cast_zero,nearestEven_intCast] at whole
  exact mul_nonneg (by exact_mod_cast whole) (by positivity)

theorem nearest_nonneg (nonneg : 0 ≤ x) : 0 ≤ f.nearest x := by
  rw [nearest_of_nonneg nonneg]
  exact magnitude_nonneg nonneg

theorem nearest_zero : f.nearest 0 = 0 := by
  have whole : nearestEven 0 = 0 := nearestEven_intCast 0
  rw [nearest_of_nonneg le_rfl,magnitude,zero_div,whole,Int.cast_zero,zero_mul]

theorem nearest_neg (x : ℚ) : f.nearest (-x) = -f.nearest x := by
  rcases lt_trichotomy x 0 with negative | rfl | positive
  · rw [nearest_of_nonneg (by linarith),nearest,if_pos negative,neg_neg]
  · rw [neg_zero,nearest_zero,neg_zero]
  · rw [nearest,if_pos (by linarith),nearest_of_nonneg positive.le,neg_neg]

theorem Holds.neg (holds : f.Holds r) : f.Holds (-r) := by
  obtain ⟨m,e,least,bound,rfl⟩ := holds
  exact ⟨-m,e,least,by rwa [abs_neg],by push_cast; ring⟩

theorem two_zpow_split (a b : ℤ) : (2 : ℚ)^(a + b) = 2^a * 2^b := zpow_add₀ two_ne_zero a b

/-- Where the spacing is not the smallest one, it is the leading power over the precision. -/
theorem spacing_of_lt (above : f.minExponent < f.spacing x) :
    (2 : ℚ)^Int.log 2 x = ((2^(f.precision - 1) : ℤ) : ℚ) * 2^f.spacing x := by
  have exponent : f.spacing x = Int.log 2 x + 1 - f.precision := by
    unfold spacing at above ⊢
    omega
  have wide := f.positive
  have total : Int.log 2 x = ((f.precision - 1 : ℕ) : ℤ) + f.spacing x := by omega
  rw [total,two_zpow_split]
  push_cast
  rw [zpow_natCast]

/-- A value is a multiple of the spacing around a magnitude, or at most its leading power. -/
theorem Holds.multiple (holds : f.Holds r) (x : ℚ) :
    (∃ n : ℤ, r = n * 2^f.spacing x) ∨ f.minExponent < f.spacing x ∧ |r| ≤ 2^Int.log 2 x := by
  obtain ⟨m,e,least,bound,rfl⟩ := holds
  rcases le_or_gt (f.spacing x) e with coarse | fine
  · left
    refine ⟨m * 2^(e - f.spacing x).toNat,?_⟩
    have shift : e = ((e - f.spacing x).toNat : ℤ) + f.spacing x := by omega
    push_cast
    rw [mul_assoc,← zpow_natCast,← two_zpow_split,← shift]
  · right
    refine ⟨least.trans_lt fine,?_⟩
    have wide := f.positive
    have whole : (2 : ℚ)^f.precision = 2^(f.precision - 1) * 2 := by rw [← pow_succ,Nat.sub_add_cancel wide]
    have step : (2 : ℚ)^e * 2 ≤ 2^f.spacing x := by
      rw [← zpow_add_one₀ two_ne_zero]
      exact zpow_le_zpow_right₀ one_le_two fine
    have size : (|m| : ℚ) ≤ 2^f.precision := by exact_mod_cast bound
    calc |(m : ℚ) * 2^e| = |(m : ℚ)| * 2^e := by rw [abs_mul,abs_of_pos (by positivity : (0 : ℚ) < 2^e)]
      _ ≤ 2^f.precision * 2^e := mul_le_mul_of_nonneg_right size (by positivity)
      _ = 2^(f.precision - 1) * (2^e * 2) := by rw [whole]; ring
      _ ≤ 2^(f.precision - 1) * 2^f.spacing x := mul_le_mul_of_nonneg_left step (by positivity)
      _ = 2^Int.log 2 x := by
        rw [spacing_of_lt (least.trans_lt fine)]
        push_cast
        rfl

theorem multiple_le_magnitude {n : ℤ} (below : n * 2^f.spacing x ≤ x) : n * 2^f.spacing x ≤ f.magnitude x := by
  have part : (n : ℚ) ≤ x / 2^f.spacing x := (le_div_iff₀ (by positivity)).mpr below
  have whole := nearestEven_mono part
  rw [nearestEven_intCast] at whole
  exact mul_le_mul_of_nonneg_right (by exact_mod_cast whole) (by positivity)

theorem magnitude_le_multiple {n : ℤ} (above : x ≤ n * 2^f.spacing x) : f.magnitude x ≤ n * 2^f.spacing x := by
  have part : x / 2^f.spacing x ≤ n := (div_le_iff₀ (by positivity)).mpr above
  have whole := nearestEven_mono part
  rw [nearestEven_intCast] at whole
  exact mul_le_mul_of_nonneg_right (by exact_mod_cast whole) (by positivity)

private theorem Holds.le_magnitude (holds : f.Holds r) (positive : 0 < x) (below : r ≤ x) : r ≤ f.magnitude x := by
  rcases holds.multiple x with ⟨n,rfl⟩ | ⟨above,small⟩
  · exact multiple_le_magnitude below
  · have leading : (2 : ℚ)^Int.log 2 x ≤ x := Int.zpow_log_le_self one_lt_two positive
    apply (le_of_abs_le small).trans
    rw [spacing_of_lt above] at leading ⊢
    exact multiple_le_magnitude leading

private theorem Holds.magnitude_le (holds : f.Holds r) (positive : 0 < x) (above : x ≤ r) : f.magnitude x ≤ r := by
  rcases holds.multiple x with ⟨n,rfl⟩ | ⟨higher,small⟩
  · exact magnitude_le_multiple above
  · have leading : (2 : ℚ)^Int.log 2 x ≤ x := Int.zpow_log_le_self one_lt_two positive
    have same : x = 2^Int.log 2 x := le_antisymm (above.trans (le_of_abs_le small)) leading
    rw [spacing_of_lt higher] at same
    have top := magnitude_le_multiple same.le
    exact top.trans (same.ge.trans above)

/-- No value is crossed from above. -/
theorem Holds.le_nearest (holds : f.Holds r) (below : r ≤ x) : r ≤ f.nearest x := by
  rcases lt_trichotomy x 0 with negative | rfl | positive
  · rw [nearest,if_pos negative]
    exact le_neg_of_le_neg (holds.neg.magnitude_le (by linarith) (by linarith))
  · rwa [nearest_zero]
  · rw [nearest_of_nonneg positive.le]
    exact holds.le_magnitude positive below

/-- No value is crossed from below. -/
theorem Holds.nearest_le (holds : f.Holds r) (above : x ≤ r) : f.nearest x ≤ r := by
  have mirrored := holds.neg.le_nearest (neg_le_neg above)
  rw [nearest_neg] at mirrored
  exact neg_le_neg_iff.mp mirrored

theorem Holds.fixed (holds : f.Holds r) : f.nearest r = r :=
  le_antisymm (holds.nearest_le le_rfl) (holds.le_nearest le_rfl)

theorem holds_zero : f.Holds 0 := ⟨0,f.minExponent,le_rfl,by simp,by simp⟩

theorem holds_two_zpow {e : ℤ} (least : f.minExponent ≤ e) : f.Holds (2^e) :=
  ⟨1,e,least,by simpa using one_le_pow₀ (one_le_two (α := ℤ)),by simp⟩

/-- Every integer that the significand has room for. -/
theorem holds_intCast {n : ℤ} (whole : f.minExponent ≤ 0) (small : |n| ≤ 2^f.precision) : f.Holds n :=
  ⟨n,0,whole,small,by simp⟩

private theorem magnitude_mono (positive : 0 < x) (below : x ≤ y) : f.magnitude x ≤ f.magnitude y := by
  have logs := Int.log_mono_right (b := 2) positive below
  have spacings : f.spacing x ≤ f.spacing y := by
    unfold spacing
    omega
  rcases spacings.lt_or_eq with apart | same
  · -- a power of two lies between magnitudes of different spacings
    have higher : f.minExponent < f.spacing y := (le_max_left _ _).trans_lt apart
    have wide := f.positive
    have steps : Int.log 2 x + 1 ≤ Int.log 2 y ∧ f.minExponent ≤ Int.log 2 y := by
      unfold spacing at apart higher
      omega
    have between := holds_two_zpow steps.2
    have ends : x ≤ 2^Int.log 2 y :=
      (Int.lt_zpow_succ_log_self one_lt_two x).le.trans (zpow_le_zpow_right₀ one_le_two steps.1)
    have starts : (2 : ℚ)^Int.log 2 y ≤ y := Int.zpow_log_le_self one_lt_two (positive.trans_le below)
    exact (between.magnitude_le positive ends).trans (between.le_magnitude (positive.trans_le below) starts)
  · unfold magnitude
    rw [same]
    have whole := nearestEven_mono (div_le_div_of_nonneg_right below (by positivity : (0 : ℚ) ≤ 2^f.spacing y))
    exact mul_le_mul_of_nonneg_right (by exact_mod_cast whole) (by positivity)

theorem nearest_mono (f : Format) : Monotone f.nearest := by
  intro x y below
  rcases lt_or_ge 0 x with positive | left
  · rw [nearest_of_nonneg positive.le,nearest_of_nonneg (positive.le.trans below)]
    exact magnitude_mono positive below
  · rcases lt_or_ge y 0 with negative | right
    · rw [nearest,nearest,if_pos (below.trans_lt negative),if_pos negative]
      exact neg_le_neg (magnitude_mono (by linarith) (neg_le_neg below))
    · exact (holds_zero.nearest_le left).trans (holds_zero.le_nearest right)

theorem holds_magnitude (positive : 0 < x) : f.Holds (f.magnitude x) := by
  refine ⟨_,f.spacing x,le_max_left _ _,?_,rfl⟩
  have small : x / 2^f.spacing x ≤ ((2^f.precision : ℤ) : ℚ) := by
    have exponent : Int.log 2 x + 1 ≤ f.precision + f.spacing x := by
      unfold spacing
      omega
    rw [div_le_iff₀ (by positivity)]
    calc x ≤ 2^(Int.log 2 x + 1) := (Int.lt_zpow_succ_log_self one_lt_two x).le
      _ ≤ 2^((f.precision : ℤ) + f.spacing x) := zpow_le_zpow_right₀ one_le_two exponent
      _ = ((2^f.precision : ℤ) : ℚ) * 2^f.spacing x := by
        rw [two_zpow_split,zpow_natCast]
        push_cast
        rfl
  have part : (0 : ℚ) ≤ x / 2^f.spacing x := by positivity
  have below := nearestEven_mono small
  have above := nearestEven_mono part
  rw [nearestEven_intCast] at below
  rw [← Int.cast_zero,nearestEven_intCast] at above
  rwa [abs_of_nonneg above]

theorem holds_nearest (f : Format) (x : ℚ) : f.Holds (f.nearest x) := by
  rcases lt_trichotomy x 0 with negative | rfl | positive
  · rw [nearest,if_pos negative]
    exact (holds_magnitude (by linarith)).neg
  · rw [nearest_zero]
    exact holds_zero
  · rw [nearest_of_nonneg positive.le]
    exact holds_magnitude positive

private theorem magnitude_intCast {n : ℤ} (large : 2^f.precision < n) : ∃ m : ℤ, f.magnitude n = m := by
  have positive : (0 : ℚ) < n := by exact_mod_cast (by positivity : (0 : ℤ) < 2^f.precision).trans large
  have bound : (2 : ℚ)^(f.precision : ℤ) ≤ n := by
    rw [zpow_natCast]
    exact_mod_cast large.le
  have digits : (f.precision : ℤ) ≤ Int.log 2 (n : ℚ) := (Int.zpow_le_iff_le_log one_lt_two positive).mp bound
  have coarse : 0 ≤ f.spacing n := by
    unfold spacing
    omega
  refine ⟨nearestEven (n / 2^f.spacing n) * 2^(f.spacing n).toNat,?_⟩
  have power : (2 : ℚ)^f.spacing n = 2^(f.spacing n).toNat := by
    rw [← zpow_natCast,Int.toNat_of_nonneg coarse]
  rw [magnitude,Int.cast_mul,Int.cast_pow,Int.cast_ofNat,← power]

/-- An integer is rounded to an integer. -/
theorem nearest_intCast (whole : f.minExponent ≤ 0) (n : ℤ) : ∃ m : ℤ, f.nearest n = m := by
  rcases le_or_gt |n| (2^f.precision) with small | large
  · exact ⟨n,(holds_intCast whole small).fixed⟩
  · rcases abs_cases n with ⟨same,nonneg⟩ | ⟨same,negative⟩
    · rw [nearest_of_nonneg (by exact_mod_cast nonneg)]
      exact magnitude_intCast (same ▸ large)
    · obtain ⟨m,rounded⟩ := magnitude_intCast (same ▸ large)
      refine ⟨-m,?_⟩
      have below : (n : ℚ) < 0 := by exact_mod_cast negative
      rw [nearest,if_pos below,Int.cast_neg,← rounded,Int.cast_neg]

/-- Half the smallest value, or one part in a power of two. -/
theorem magnitude_error (f : Format) (positive : 0 < x) :
    |f.magnitude x - x| ≤ max (2^f.minExponent / 2) (x / 2^f.precision) := by
  have scaled : f.magnitude x - x =
      (nearestEven (x / 2^f.spacing x) - x / 2^f.spacing x) * 2^f.spacing x := by
    rw [magnitude,sub_mul,div_mul_cancel₀ _ (by positivity)]
  have half : |f.magnitude x - x| ≤ 2^f.spacing x / 2 := by
    rw [scaled,abs_mul,abs_of_pos (by positivity : (0 : ℚ) < 2^f.spacing x)]
    have error := mul_le_mul_of_nonneg_right (nearestEven_error (x / 2^f.spacing x))
      (by positivity : (0 : ℚ) ≤ 2^f.spacing x)
    linarith
  apply half.trans
  rcases (le_max_left _ _ : f.minExponent ≤ f.spacing x).lt_or_eq with above | same
  · apply le_max_of_le_right
    have leading : (2 : ℚ)^Int.log 2 x ≤ x := Int.zpow_log_le_self one_lt_two positive
    have wide := f.positive
    have whole : (2 : ℚ)^f.precision = 2^(f.precision - 1) * 2 := by rw [← pow_succ,Nat.sub_add_cancel wide]
    rw [spacing_of_lt above] at leading
    push_cast at leading
    rw [le_div_iff₀ (by positivity),whole]
    linarith
  · have least : f.spacing x = f.minExponent := same.symm
    rw [least]
    exact le_max_left _ _

theorem nearest_error (f : Format) (x : ℚ) :
    |f.nearest x - x| ≤ max (2^f.minExponent / 2) (|x| / 2^f.precision) := by
  rcases lt_trichotomy x 0 with negative | rfl | positive
  · have mirrored := f.magnitude_error (neg_pos.mpr negative)
    rw [nearest,if_pos negative,abs_of_neg negative]
    have same : -f.magnitude (-x) - x = -(f.magnitude (-x) - -x) := by ring
    rwa [same,abs_neg]
  · rw [nearest_zero,sub_zero,abs_zero]
    exact le_max_of_le_left (by positivity)
  · rw [nearest_of_nonneg positive.le,abs_of_pos positive]
    exact f.magnitude_error positive

/-- The power of two past the finite values; among values that are not negative it stands
for infinity. -/
def infinity (f : Format) : ℚ := 2^f.maxExponent

/-- The finite values of the format. -/
abbrev Value (f : Format) := {x : ℚ // f.nearest x = x ∧ |x| < f.infinity}

theorem Value.holds (x : f.Value) : f.Holds x.1 := x.2.1 ▸ f.holds_nearest x.1

instance (f : Format) : Zero f.Value :=
  ⟨⟨0,nearest_zero,by rw [abs_zero,infinity]; positivity⟩⟩

/-- The nearest value, where it is finite. -/
def finite (f : Format) (x : ℚ) : Option f.Value :=
  if inside : |f.nearest x| < f.infinity then some ⟨f.nearest x,(f.holds_nearest x).fixed,inside⟩ else none

theorem finite_eq_some {value : f.Value} (rounded : f.finite x = some value) :
    value.1 = f.nearest x ∧ |f.nearest x| < f.infinity := by
  unfold finite at rounded
  split at rounded
  next inside =>
    cases Option.some.inj rounded
    exact ⟨rfl,inside⟩
  next => cases rounded

theorem finite_of_lt (nonneg : 0 ≤ x) (inside : f.nearest x < f.infinity) :
    ∃ value, f.finite x = some value ∧ value.1 = f.nearest x := by
  have bound : |f.nearest x| < f.infinity := by rwa [abs_of_nonneg (nearest_nonneg nonneg)]
  exact ⟨_,dif_pos bound,rfl⟩

/-- What lies between two finite values is rounded to one between them. -/
theorem finite_between {low high : f.Value} (above : low.1 ≤ x) (below : x ≤ high.1) :
    ∃ value, f.finite x = some value ∧ low ≤ value ∧ value ≤ high := by
  have least := low.holds.le_nearest above
  have most := high.holds.nearest_le below
  have inside : |f.nearest x| < f.infinity :=
    abs_lt.mpr ⟨(neg_lt_of_abs_lt low.2.2).trans_le least,most.trans_lt (lt_of_abs_lt high.2.2)⟩
  exact ⟨_,dif_pos inside,least,most⟩

/-- Every value is a multiple of the smallest one. -/
theorem Holds.whole (holds : f.Holds x) : ∃ n : ℤ, x = n * 2^f.minExponent := by
  obtain ⟨m,e,least,-,rfl⟩ := holds
  refine ⟨m * 2^(e - f.minExponent).toNat,?_⟩
  have shift : e = ((e - f.minExponent).toNat : ℤ) + f.minExponent := by omega
  push_cast
  rw [mul_assoc,← zpow_natCast,← two_zpow_split,← shift]

/-- Rounding moves a multiple of the smallest value by a part of itself only. -/
theorem nearest_le_of_whole {n : ℤ} (whole : x = n * 2^f.minExponent) (nonneg : 0 ≤ x) :
    f.nearest x ≤ x * (1 + 1/2^f.precision) := by
  have least : (0 : ℚ) < 2^f.minExponent := by positivity
  have bits : (0 : ℚ) < 2^f.precision := by positivity
  have grown : x ≤ x * (1 + 1/2^f.precision) := le_mul_of_one_le_right nonneg (by simp)
  rcases le_or_gt |n| (2^f.precision) with small | large
  · have holds : f.Holds x := ⟨n,f.minExponent,le_rfl,small,whole⟩
    rwa [holds.fixed]
  · have count : 0 ≤ n := by
      have scaled : (0 : ℚ) ≤ n := by
        rw [whole] at nonneg
        exact nonneg_of_mul_nonneg_left nonneg least
      exact_mod_cast scaled
    rw [abs_of_nonneg count] at large
    have many : (2 : ℚ)^f.precision ≤ n := by exact_mod_cast large.le
    have room : 2^f.minExponent / 2 ≤ x / 2^f.precision := by
      rw [le_div_iff₀ bits,whole]
      nlinarith
    have positive : 0 < x := by
      rw [whole]
      exact mul_pos (bits.trans_le many) least
    have error := (abs_le.mp (f.magnitude_error positive)).2
    rw [max_eq_right room] at error
    rw [nearest_of_nonneg nonneg]
    have parts : x * (1 + 1/2^f.precision) = x + x / 2^f.precision := by ring
    linarith

/-- The nearest value of one that is not negative, infinity where it is not finite. -/
def saturated (f : Format) (x : ℚ) : ℚ := min (f.nearest x) f.infinity

theorem saturated_mono (f : Format) : Monotone f.saturated :=
  fun _ _ below => min_le_min_right _ (f.nearest_mono below)

theorem saturated_nonneg (nonneg : 0 ≤ x) : 0 ≤ f.saturated x :=
  le_min (nearest_nonneg nonneg) (by unfold infinity; positivity)

end Format
end MetaPB.Lib.Rounding

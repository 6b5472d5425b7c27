import Mathlib.Data.Rat.Floor
import Mathlib.Tactic.NormNum
import Mathlib.Tactic.Ring

/-! Coordinates of search points, integral or floating, the limits of their values and
the random draws the optimisers take. Floating values are exact, division by zero is
left open, and a draw is whatever its distribution may return. -/
namespace MetaPB.Optimizer

/-- `std::lround`: to the nearest integer, halves away from zero. -/
def lround (x : ℚ) : ℤ := if 0 ≤ x then ⌊x + 1/2⌋ else ⌈x - 1/2⌉

/-- The implicit conversion of a floating value to an integral type. -/
def towardZero (x : ℚ) : ℤ := if 0 ≤ x then ⌊x⌋ else ⌈x⌉

/-- The argument types the templates tell apart: `adapt` is the data type adaptation of a
proposed value, `convert` the implicit conversion of an assignment. -/
class Coordinate (aType : Type) [LinearOrder aType] [Zero aType] [Add aType] where
  toDouble : aType → ℚ
  adapt : ℚ → aType
  convert : ℚ → aType
  toDouble_strictMono : StrictMono toDouble
  toDouble_zero : toDouble 0 = 0
  toDouble_add : ∀ x y, toDouble (x + y) = toDouble x + toDouble y
  adapt_toDouble : ∀ x, adapt (toDouble x) = x
  convert_within : ∀ low high x, toDouble low ≤ x → x ≤ toDouble high →
    low ≤ convert x ∧ convert x ≤ high

/-- `std::numeric_limits` of a value type. -/
class NumericLimits (vType : Type) [LinearOrder vType] [Zero vType] where
  max : vType
  min : vType
  zero_lt_max : 0 < max

/-- `__DBL_MIN__`. -/
def dblMin : ℚ := 1 / 2^1022

theorem lround_intCast (n : ℤ) : lround n = n := by
  unfold lround
  split
  · rw [Int.floor_intCast_add]
    norm_num
  · have shift : (n : ℚ) - 1/2 = n + (-1/2) := by ring
    rw [shift,Int.ceil_intCast_add]
    norm_num

theorem towardZero_within (low high : ℤ) (x : ℚ) (above : (low : ℚ) ≤ x) (below : x ≤ high) :
    low ≤ towardZero x ∧ towardZero x ≤ high := by
  unfold towardZero
  split
  · exact ⟨Int.le_floor.mpr above,by exact_mod_cast (Int.floor_le x).trans below⟩
  · exact ⟨by exact_mod_cast above.trans (Int.le_ceil x),Int.ceil_le.mpr below⟩

instance : Coordinate ℤ where
  toDouble n := n
  adapt := lround
  convert := towardZero
  toDouble_strictMono := Int.cast_strictMono
  toDouble_zero := Int.cast_zero
  toDouble_add := Int.cast_add
  adapt_toDouble := lround_intCast
  convert_within := towardZero_within

instance : Coordinate ℚ where
  toDouble := id
  adapt := id
  convert := id
  toDouble_strictMono := strictMono_id
  toDouble_zero := rfl
  toDouble_add _ _ := rfl
  adapt_toDouble _ := rfl
  convert_within _ _ _ above below := ⟨above,below⟩

instance : NumericLimits ℚ where
  max := (2^53 - 1) * 2^971
  min := dblMin
  zero_lt_max := by norm_num

theorem lt_max_of_lt {x : ℚ} (small : x < 2^53 - 1) : x < NumericLimits.max := by
  have scale : (1 : ℚ) ≤ 2^971 := one_le_pow₀ (by norm_num)
  have least : (0 : ℚ) ≤ 2^53 - 1 := by norm_num
  exact small.trans_le (le_mul_of_one_le_right least scale)

/-- A stream of draws, by how many were taken before: each answer is one its
distribution may give. -/
structure Draws (aType : Type) [LinearOrder aType] where
  uniform : Nat → aType → aType → aType
  dist01 : Nat → ℚ
  distV : Nat → ℚ → ℚ
  choice : Nat → Nat → Nat
  evoScaleDist : Nat → ℤ
  uniform_within : ∀ n low high, low ≤ high → low ≤ uniform n low high ∧ uniform n low high ≤ high
  dist01_within : ∀ n, 0 ≤ dist01 n ∧ dist01 n ≤ 1
  distV_within : ∀ n vMax, 0 ≤ vMax → -vMax ≤ distV n vMax ∧ distV n vMax ≤ vMax
  choice_lt : ∀ n count, 0 < count → choice n count < count
  evoScaleDist_within : ∀ n, -2 ≤ evoScaleDist n ∧ evoScaleDist n ≤ 2

/-- A division that is exact wherever the quotient exists. -/
structure Quotient where
  div : ℚ → ℚ → ℚ
  div_of_ne_zero : ∀ a b, b ≠ 0 → div a b = a / b

end MetaPB.Optimizer

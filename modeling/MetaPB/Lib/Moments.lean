import Mathlib.Algebra.BigOperators.Group.List.Basic
import Mathlib.Algebra.BigOperators.Ring.List
import Mathlib.Data.Nat.Cast.Field
import Mathlib.Tactic.FieldSimp
import Mathlib.Tactic.Ring

/-! Mean and squared deviations of a list over a field: how both change when a value is
appended, which is all a one-pass accumulation needs, and when all values are shifted. -/
namespace MetaPB.Lib.Moments

variable {K : Type*} [Field K]

def mean (xs : List K) : K := xs.sum / xs.length

/-- The sum of the squared deviations from the mean. -/
def deviations (xs : List K) : K := (xs.map fun x => (x - mean xs)^2).sum

theorem mean_perm {xs ys : List K} (same : xs.Perm ys) : mean xs = mean ys := by
  rw [mean,mean,same.sum_eq,same.length_eq]

theorem deviations_perm {xs ys : List K} (same : xs.Perm ys) : deviations xs = deviations ys := by
  rw [deviations,deviations,mean_perm same]
  exact (same.map _).sum_eq

theorem mean_singleton (x : K) : mean [x] = x := by simp [mean]

theorem deviations_singleton (x : K) : deviations [x] = 0 := by simp [deviations,mean]

theorem sum_sq_sub (xs : List K) (a : K) :
    (xs.map fun x => (x - a)^2).sum = (xs.map (·^2)).sum - 2 * a * xs.sum + xs.length * a^2 := by
  induction xs with
  | nil => simp
  | cons x rest ih =>
    simp only [List.map_cons,List.sum_cons,ih,List.length_cons]
    push_cast
    ring

theorem sum_map_sub (xs : List K) (b : K) :
    (xs.map fun x => x - b).sum = xs.sum - xs.length * b := by
  induction xs with
  | nil => simp
  | cons x rest ih =>
    simp only [List.map_cons,List.sum_cons,ih,List.length_cons]
    push_cast
    ring

section CharZero
variable [CharZero K] {xs : List K}

theorem length_ne_zero (filled : xs ≠ []) : (xs.length : K) ≠ 0 :=
  Nat.cast_ne_zero.mpr (List.length_pos_iff.mpr filled).ne'

theorem sum_eq_mean (filled : xs ≠ []) : xs.sum = xs.length * mean xs := by
  rw [mean,mul_div_cancel₀ _ (length_ne_zero filled)]

theorem deviations_eq (filled : xs ≠ []) :
    deviations xs = (xs.map (·^2)).sum - xs.length * (mean xs)^2 := by
  rw [deviations,sum_sq_sub,sum_eq_mean filled]
  ring

theorem mean_snoc (filled : xs ≠ []) (x : K) :
    mean (xs ++ [x]) = mean xs + 1 / (xs.length + 1 : Nat) * (x - mean xs) := by
  have positive : ((xs.length + 1 : Nat) : K) ≠ 0 := Nat.cast_ne_zero.mpr (Nat.succ_ne_zero _)
  have total : (xs ++ [x]).sum = xs.length * mean xs + x := by simp [sum_eq_mean filled]
  rw [mean,total,List.length_append,List.length_singleton]
  field_simp
  push_cast
  ring

/-- The one-pass update: a value adds the square of its distance from the earlier mean, scaled
by the number of earlier values over the number now. -/
theorem deviations_snoc (filled : xs ≠ []) (x : K) :
    deviations (xs ++ [x]) =
      deviations xs + xs.length * (x - mean xs)^2 / (xs.length + 1 : Nat) := by
  have positive : ((xs.length + 1 : Nat) : K) ≠ 0 := Nat.cast_ne_zero.mpr (Nat.succ_ne_zero _)
  rw [deviations_eq (by simp),deviations_eq filled,mean_snoc filled]
  simp only [List.map_append,List.sum_append,List.map_singleton,List.sum_singleton,List.length_append,
    List.length_singleton]
  field_simp
  push_cast
  ring

theorem mean_shift (filled : xs ≠ []) (b : K) : mean (xs.map fun x => x - b) = mean xs - b := by
  have positive := length_ne_zero filled
  rw [mean,mean,sum_map_sub,List.length_map]
  field_simp

theorem deviations_shift (filled : xs ≠ []) (b : K) :
    deviations (xs.map fun x => x - b) = deviations xs := by
  rw [deviations,deviations,mean_shift filled,List.map_map]
  congr 1
  apply List.map_congr_left
  intro x _
  simp only [Function.comp_apply,sub_sub_sub_cancel_right]

end CharZero
end MetaPB.Lib.Moments

import MetaPB.Lib.Moments
import Mathlib.Algebra.Order.Field.Rat
import Mathlib.Algebra.Order.Ring.Abs
import Mathlib.Data.List.Induction
import Mathlib.Data.Rat.Sqrt
import Mathlib.Order.Bounds.Basic

/-! The statistics of a series of measurements, kept up to date one value at a time. After
any non-empty series the record is the summary of the series as a whole, so the order in
which its values came does not matter. -/
namespace MetaPB.Utils
open Lib.Moments

/-- `__DBL_MAX__`. -/
def dblMax : ℚ := (2^53 - 1) * 2^971

/-- A finite double, read as an exact rational. -/
structure Double where
  val : ℚ
  lower : -dblMax ≤ val
  upper : val ≤ dblMax

/-- A square root that is exact wherever it is rational. -/
structure Root where
  sqrt : ℚ → ℚ
  sqrt_mul_self : ∀ x, 0 ≤ x → sqrt (x * x) = x

/-- A square root that truncates where it is not rational. -/
def Root.exact : Root := ⟨Rat.sqrt,fun x nonneg => (Rat.sqrt_eq x).trans (abs_of_nonneg nonneg)⟩

structure Stats where
  rep : Nat := 0
  mean : ℚ := 0
  variance : ℚ := 0
  stdVar : ℚ := 0
  upperBound : ℚ := -dblMax
  lowerBound : ℚ := dblMax
  upperBias : ℚ := 0
  lowerBias : ℚ := 0
  sum : ℚ := 0
  deriving DecidableEq

namespace Stats

def add (root : Root) (stats : Stats) (newVal : Double) : Stats :=
  let rep := stats.rep + 1
  let prevMean := stats.mean
  let prevVar := stats.variance
  let mean := stats.mean + 1 / rep * (newVal.val - prevMean)
  let variance := if rep ≠ 1 then
      (rep - 2 : Nat) * prevVar / (rep - 1 : Nat) + (newVal.val - prevMean) * (newVal.val - prevMean) / rep
    else stats.variance
  let stdVar := if rep ≠ 1 then root.sqrt variance else stats.stdVar
  let upperBound := if newVal.val > stats.upperBound then newVal.val else stats.upperBound
  let lowerBound := if newVal.val < stats.lowerBound then newVal.val else stats.lowerBound
  { rep := rep
    mean := mean
    variance := variance
    stdVar := stdVar
    upperBound := upperBound
    lowerBound := lowerBound
    lowerBias := mean - lowerBound
    upperBias := upperBound - mean
    sum := stats.sum + newVal.val }

/-- A series of values added one after the other. -/
def addAll (root : Root) (stats : Stats) (xs : List Double) : Stats := xs.foldl (add root) stats

theorem addAll_snoc (root : Root) (stats : Stats) (xs : List Double) (x : Double) :
    addAll root stats (xs ++ [x]) = add root (addAll root stats xs) x := by
  rw [addAll,List.foldl_append]
  rfl

def sampleVariance (values : List ℚ) : ℚ :=
  if values.length = 1 then 0 else deviations values / (values.length - 1 : Nat)

/-- The record holds what the definitions of the statistics give for the series as a whole. -/
structure Summary (root : Root) (values : List ℚ) (stats : Stats) : Prop where
  rep : stats.rep = values.length
  mean : stats.mean = Lib.Moments.mean values
  variance : stats.variance = sampleVariance values
  stdVar : stats.stdVar = if values.length = 1 then 0 else root.sqrt (sampleVariance values)
  upperBound : IsGreatest {x | x ∈ values} stats.upperBound
  lowerBound : IsLeast {x | x ∈ values} stats.lowerBound
  upperBias : stats.upperBias = stats.upperBound - stats.mean
  lowerBias : stats.lowerBias = stats.mean - stats.lowerBound
  sum : stats.sum = values.sum

section Summary
variable {root : Root} {values : List ℚ} {stats : Stats}

theorem sampleVariance_perm {xs ys : List ℚ} (same : xs.Perm ys) :
    sampleVariance xs = sampleVariance ys := by
  rw [sampleVariance,sampleVariance,deviations_perm same,same.length_eq]

theorem sampleVariance_snoc (filled : values ≠ []) (x : ℚ) :
    sampleVariance (values ++ [x]) = (values.length - 1 : Nat) * sampleVariance values / values.length +
      (x - Lib.Moments.mean values) * (x - Lib.Moments.mean values) / (values.length + 1 : Nat) := by
  have positive := length_ne_zero filled
  have next : ((values.length + 1 : Nat) : ℚ) ≠ 0 := Nat.cast_ne_zero.mpr (Nat.succ_ne_zero _)
  have longer : (values ++ [x]).length ≠ 1 := by
    have := List.length_pos_iff.mpr filled
    simp only [List.length_append,List.length_singleton]
    omega
  have before : (values.length - 1 : Nat) * sampleVariance values = deviations values := by
    unfold sampleVariance
    split
    next single =>
      obtain ⟨y,rfl⟩ := List.length_eq_one_iff.mp single
      simp [deviations_singleton]
    next several =>
      have apart : ((values.length - 1 : Nat) : ℚ) ≠ 0 := by
        have := List.length_pos_iff.mpr filled
        exact Nat.cast_ne_zero.mpr (by omega)
      rw [mul_div_cancel₀ _ apart]
  rw [before,sampleVariance,if_neg longer,deviations_snoc filled,List.length_append,List.length_singleton,
    Nat.add_sub_cancel]
  field_simp

theorem isGreatest_snoc {best : ℚ} (greatest : IsGreatest {x | x ∈ values} best) (x : ℚ) :
    IsGreatest {y | y ∈ values ++ [x]} (if x > best then x else best) := by
  obtain ⟨attained,above⟩ := greatest
  split
  next larger =>
    refine ⟨List.mem_append_right _ (List.mem_singleton_self x),?_⟩
    intro y member
    rcases List.mem_append.mp member with old | new
    · exact (above old).trans larger.le
    · exact (List.mem_singleton.mp new).le
  next smaller =>
    refine ⟨List.mem_append_left _ attained,?_⟩
    intro y member
    rcases List.mem_append.mp member with old | new
    · exact above old
    · exact (List.mem_singleton.mp new).trans_le (not_lt.mp smaller)

theorem isLeast_snoc {best : ℚ} (least : IsLeast {x | x ∈ values} best) (x : ℚ) :
    IsLeast {y | y ∈ values ++ [x]} (if x < best then x else best) := by
  obtain ⟨attained,below⟩ := least
  split
  next smaller =>
    refine ⟨List.mem_append_right _ (List.mem_singleton_self x),?_⟩
    intro y member
    rcases List.mem_append.mp member with old | new
    · exact smaller.le.trans (below old)
    · exact (List.mem_singleton.mp new).ge
  next larger =>
    refine ⟨List.mem_append_left _ attained,?_⟩
    intro y member
    rcases List.mem_append.mp member with old | new
    · exact below old
    · exact (not_lt.mp larger).trans (List.mem_singleton.mp new).ge

/-- The first value replaces both limits of the range, unless it is a limit itself. -/
theorem add_first (root : Root) (x : Double) : Summary root [x.val] (add root {} x) := by
  have top : (if x.val > -dblMax then x.val else -dblMax) = x.val := by
    split
    · rfl
    next small => exact le_antisymm x.lower (not_lt.mp small)
  have bottom : (if x.val < dblMax then x.val else dblMax) = x.val := by
    split
    · rfl
    next large => exact le_antisymm (not_lt.mp large) x.upper
  have single : {y | y ∈ [x.val]} = {x.val} := by simp
  refine ⟨rfl,?_,by simp [add,sampleVariance],by simp [add],?_,?_,rfl,rfl,by simp [add]⟩
  · simp [add,mean_singleton]
  · simp only [add,top,single]
    exact isGreatest_singleton
  · simp only [add,bottom,single]
    exact isLeast_singleton

theorem Summary.add (filled : values ≠ []) (before : Summary root values stats) (x : Double) :
    Summary root (values ++ [x.val]) (Stats.add root stats x) := by
  have more : stats.rep + 1 ≠ 1 := by
    have := List.length_pos_iff.mpr filled
    rw [before.rep]
    omega
  have longer : (values ++ [x.val]).length ≠ 1 := by simpa using filled
  have spread : (Stats.add root stats x).variance = sampleVariance (values ++ [x.val]) := by
    have two : values.length + 1 - 2 = values.length - 1 := by omega
    simp only [Stats.add,if_pos more]
    rw [sampleVariance_snoc filled,before.rep,before.mean,before.variance,two,Nat.add_sub_cancel]
  refine ⟨by simp [Stats.add,before.rep],?_,spread,?_,?_,?_,rfl,rfl,?_⟩
  · rw [mean_snoc filled,← before.mean,← before.rep]
    rfl
  · rw [if_neg longer,← spread]
    simp only [Stats.add,if_pos more]
  · exact isGreatest_snoc before.upperBound x.val
  · exact isLeast_snoc before.lowerBound x.val
  · simp [Stats.add,before.sum]

theorem addAll_summary (root : Root) {xs : List Double} (filled : xs ≠ []) :
    Summary root (xs.map (·.val)) (addAll root {} xs) := by
  induction xs using List.reverseRecOn with
  | nil => contradiction
  | append_singleton rest x ih =>
    rw [addAll_snoc,List.map_append,List.map_singleton]
    rcases eq_or_ne rest [] with rfl | more
    · exact add_first root x
    · exact (ih more).add (by simpa using more) x

theorem Summary.perm {others : List ℚ} (same : values.Perm others) (summary : Summary root values stats) :
    Summary root others stats := by
  have members : {x | x ∈ values} = {x | x ∈ others} := by
    ext x
    exact same.mem_iff
  have size := same.length_eq
  have variance := sampleVariance_perm same
  refine ⟨summary.rep.trans size,summary.mean.trans (mean_perm same),summary.variance.trans variance,?_,
    members ▸ summary.upperBound,members ▸ summary.lowerBound,summary.upperBias,summary.lowerBias,
    summary.sum.trans same.sum_eq⟩
  rw [← size,← variance]
  exact summary.stdVar

theorem Summary.unique {other : Stats} (left : Summary root values stats)
    (right : Summary root values other) : stats = other := by
  have mean := left.mean.trans right.mean.symm
  have upper := left.upperBound.unique right.upperBound
  have lower := left.lowerBound.unique right.lowerBound
  have variance := left.variance.trans right.variance.symm
  have stdVar := left.stdVar.trans right.stdVar.symm
  have rep := left.rep.trans right.rep.symm
  have sum := left.sum.trans right.sum.symm
  have upperBias := left.upperBias
  have lowerBias := left.lowerBias
  rw [upper,mean,← right.upperBias] at upperBias
  rw [lower,mean,← right.lowerBias] at lowerBias
  obtain ⟨⟩ := stats
  obtain ⟨⟩ := other
  simp_all

/-- Adding values one at a time gives the statistics of the series, in whatever order. -/
theorem addAll_batch (root : Root) (xs : List Double) (nonempty : xs ≠ []) :
    let values := xs.map (·.val)
    let average := values.sum / values.length
    let stats := addAll root {} xs
    stats.rep = xs.length ∧ stats.sum = values.sum ∧ stats.mean = average ∧
      (xs.length = 1 → stats.variance = 0) ∧
      (2 ≤ xs.length → stats.variance =
        (values.map fun x => (x - average)^2).sum / (xs.length - 1 : Nat)) ∧
      IsGreatest {x | x ∈ values} stats.upperBound ∧ IsLeast {x | x ∈ values} stats.lowerBound ∧
      stats.upperBias = stats.upperBound - average ∧ stats.lowerBias = average - stats.lowerBound ∧
      ∀ ys, ys.Perm xs → addAll root {} ys = stats := by
  intro values average stats
  have summary : Summary root values stats := addAll_summary root nonempty
  have size : values.length = xs.length := List.length_map _
  have upperBias := summary.upperBias
  have lowerBias := summary.lowerBias
  rw [summary.mean] at upperBias lowerBias
  refine ⟨summary.rep.trans size,summary.sum,summary.mean,?_,?_,summary.upperBound,summary.lowerBound,
    upperBias,lowerBias,?_⟩
  · intro single
    rw [summary.variance,sampleVariance,if_pos (size.trans single)]
  · intro several
    have more : values.length ≠ 1 := by omega
    rw [summary.variance,sampleVariance,if_neg more,size]
    rfl
  · intro ys same
    have filled : ys ≠ [] := by
      rintro rfl
      exact nonempty same.nil_eq.symm
    exact (addAll_summary root filled).unique (summary.perm (same.map _).symm)

theorem addAll_batch_three :
    let xs : List Double := [⟨1,by decide +kernel,by decide +kernel⟩,
      ⟨5,by decide +kernel,by decide +kernel⟩,⟨3,by decide +kernel,by decide +kernel⟩]
    (addAll .exact {} xs).variance = 4 ∧ (addAll .exact {} xs).upperBias = 2 ∧
      addAll .exact {} xs.reverse = addAll .exact {} xs := by
  intro xs
  obtain ⟨-,-,-,-,variance,-,-,-,-,order⟩ := addAll_batch .exact xs (by simp [xs])
  refine ⟨?_,by decide +kernel,order _ (List.reverse_perm xs)⟩
  rw [variance (by simp [xs])]
  norm_num [xs]

end Summary
end Stats
end MetaPB.Utils

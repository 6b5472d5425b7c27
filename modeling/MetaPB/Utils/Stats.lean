import Mathlib.Algebra.Order.Field.Rat

/-! The performance record the operators report and the pool sums up, with its
arithmetic. Doubles are read as exact rationals throughout the development. -/
namespace MetaPB.Utils

@[ext] structure PerfStats where
  energyCostJoule : ℚ := 0
  timeCostSecond : ℚ := 0
  dataMovementMiB : ℚ := 0
  deriving DecidableEq

namespace PerfStats

instance : Zero PerfStats := ⟨{}⟩

instance : Add PerfStats := ⟨fun lhs rhs =>
  ⟨lhs.energyCostJoule + rhs.energyCostJoule,lhs.timeCostSecond + rhs.timeCostSecond,
    lhs.dataMovementMiB + rhs.dataMovementMiB⟩⟩

instance : Sub PerfStats := ⟨fun lhs rhs =>
  ⟨lhs.energyCostJoule - rhs.energyCostJoule,lhs.timeCostSecond - rhs.timeCostSecond,
    lhs.dataMovementMiB - rhs.dataMovementMiB⟩⟩

def mul (stats : PerfStats) (rhs : Nat) : PerfStats :=
  ⟨stats.energyCostJoule * rhs,stats.timeCostSecond * rhs,stats.dataMovementMiB * rhs⟩

def div (stats : PerfStats) (rhs : Nat) : PerfStats :=
  ⟨stats.energyCostJoule / rhs,stats.timeCostSecond / rhs,stats.dataMovementMiB / rhs⟩

def Between (stats low high : PerfStats) : Prop :=
  stats.energyCostJoule ∈ Set.uIcc low.energyCostJoule high.energyCostJoule ∧
    stats.timeCostSecond ∈ Set.uIcc low.timeCostSecond high.timeCostSecond ∧
    stats.dataMovementMiB ∈ Set.uIcc low.dataMovementMiB high.dataMovementMiB

end PerfStats
end MetaPB.Utils

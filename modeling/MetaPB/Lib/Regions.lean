import Mathlib.Data.List.Basic
import Mathlib.Order.CompletePartialOrder
import Mathlib.Order.Interval.Set.Disjoint

/-! Regions of consecutive cells laid out in one address space. Regions of one extent are
laid out exactly when each ends before any later one starts. -/
namespace MetaPB.Lib.Regions

structure Region where
  base : Nat
  extent : Nat
  deriving DecidableEq

namespace Region

def cells (region : Region) : Set Nat := Set.Ico region.base (region.base + region.extent)

def finish (region : Region) : Nat := region.base + region.extent

end Region

/-- No cell in two regions, and no base below an earlier one. The bases of empty
regions may coincide. -/
structure LaidOut (regions : List Region) : Prop where
  disjoint : regions.Pairwise fun r s => Disjoint r.cells s.cells
  increasing : regions.Pairwise fun r s => r.base ≤ s.base

theorem disjoint_cells_iff {r s : Region} (order : r.base ≤ s.base) :
    Disjoint r.cells s.cells ↔ r.extent = 0 ∨ s.extent = 0 ∨ r.finish ≤ s.base := by
  rw [Region.cells,Region.cells,Set.Ico_disjoint_Ico,Region.finish]
  omega

theorem disjoint_of_finish_le {r s : Region} (after : r.finish ≤ s.base) : Disjoint r.cells s.cells := by
  have order : r.base ≤ s.base := (Nat.le_add_right _ _).trans after
  exact (disjoint_cells_iff order).mpr (Or.inr (Or.inr after))

theorem laidOut_iff {regions : List Region} {extent : Nat}
    (same : ∀ region ∈ regions, region.extent = extent) :
    LaidOut regions ↔ regions.Pairwise fun r s => r.finish ≤ s.base := by
  constructor
  · intro laid
    refine (laid.disjoint.and laid.increasing).imp_of_mem ?_
    intro r s first second both
    obtain ⟨apart,order⟩ := both
    have empty : r.extent = 0 → r.finish ≤ s.base := fun blank => by rw [Region.finish,blank]; exact order
    rcases (disjoint_cells_iff order).mp apart with blank | blank | after
    · exact empty blank
    · exact empty ((same r first).trans ((same s second).symm.trans blank))
    · exact after
  · intro after
    refine ⟨after.imp disjoint_of_finish_le,after.imp ?_⟩
    intro r s ends
    exact (Nat.le_add_right _ _).trans ends

end MetaPB.Lib.Regions

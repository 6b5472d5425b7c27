import Mathlib.Algebra.Order.Monoid.Unbundled.Basic
import Mathlib.Data.Set.Card
import Mathlib.Logic.Relation
import Mathlib.Order.Bounds.Basic
import Mathlib.Order.WellFounded

/-! Greatest values of paths of a relation without cycles, each vertex adding to the value of
the path behind it in a monotone way. Values that satisfy the recursion over the next vertices
are the greatest ones of paths, on any part of the vertices that no edge leaves; the weights
of paths are the case of plain sums. -/
namespace MetaPB.Lib.LongestPath

variable {V K : Type*} {edge : V → V → Prop}

/-- `PathWeight edge weight v c`: some path that starts at `v` weighs `c`. -/
inductive PathWeight [Add K] (edge : V → V → Prop) (weight : V → K) : V → K → Prop
  | single (v) : PathWeight edge weight v (weight v)
  | step (v w c) (linked : edge v w) (path : PathWeight edge weight w c) :
      PathWeight edge weight v (weight v + c)

/-- `PathValue edge extend v c`: some path that starts at `v` comes to `c`, each vertex adding its own
to what the rest of the path came to. -/
inductive PathValue [Zero K] (edge : V → V → Prop) (extend : V → K → K) : V → K → Prop
  | single (v) : PathValue edge extend v (extend v 0)
  | step (v w c) (linked : edge v w) (path : PathValue edge extend w c) : PathValue edge extend v (extend v c)

theorem pathWeight_iff [AddMonoid K] {weight : V → K} {v : V} {c : K} :
    PathWeight edge weight v c ↔ PathValue edge (fun v c => weight v + c) v c := by
  constructor
  · intro path
    induction path with
    | single v =>
      have path : PathValue edge (fun v c => weight v + c) v (weight v + 0) := .single v
      rwa [add_zero] at path
    | step v w c linked _ ih => exact .step v w c linked ih
  · intro path
    induction path with
    | single v =>
      rw [add_zero]
      exact .single v
    | step v w c linked _ ih => exact .step v w c linked ih

/-- The greatest value one edge on, or 0 where no edge leaves. -/
def NextBest [Zero K] [LE K] (edge : V → V → Prop) (value : V → K) (v : V) (best : K) : Prop :=
  (∀ w, ¬ edge v w) ∧ best = 0 ∨ IsGreatest {c | ∃ w, edge v w ∧ value w = c} best

/-- Without cycles every vertex reaches more vertices than those it has an edge to. -/
theorem wellFounded_of_acyclic (finite : {w | ∃ v, edge v w}.Finite)
    (acyclic : ∀ v, ¬ Relation.TransGen edge v v) : WellFounded fun w v => edge v w := by
  have reached (v : V) : {w | Relation.TransGen edge v w}.Finite := by
    refine finite.subset ?_
    intro w path
    obtain ⟨u,-,linked⟩ := Relation.TransGen.tail'_iff.mp path
    exact ⟨u,linked⟩
  apply Subrelation.wf _ (measure fun v => {w | Relation.TransGen edge v w}.ncard).wf
  intro w v linked
  apply Set.ncard_lt_ncard _ (reached v)
  constructor
  · intro x path
    exact Relation.TransGen.head linked path
  · intro all
    exact acyclic w (all (Relation.TransGen.single linked))

section Values
variable [Zero K] [PartialOrder K] {extend : V → K → K} {value : V → K} {region : V → Prop}

/-- Each value is what the vertex makes of the greatest value one edge on. -/
structure Solves (edge : V → V → Prop) (extend : V → K → K) (value : V → K) (region : V → Prop) : Prop where
  closed : ∀ v w, region v → edge v w → region w
  nonneg : ∀ v, region v → 0 ≤ value v
  equation : ∀ v, region v → ∃ best, NextBest edge value v best ∧ value v = extend v best

theorem Solves.extend_zero_le (solves : Solves edge extend value region) {v : V} (mono : Monotone (extend v))
    (inside : region v) : extend v 0 ≤ value v := by
  obtain ⟨best,next,same⟩ := solves.equation v inside
  rw [same]
  apply mono
  rcases next with ⟨-,rfl⟩ | ⟨⟨w,linked,rfl⟩,-⟩
  · exact le_rfl
  · exact solves.nonneg w (solves.closed v w inside linked)

theorem Solves.extend_le (solves : Solves edge extend value region) {v w : V} (mono : Monotone (extend v))
    (inside : region v) (linked : edge v w) : extend v (value w) ≤ value v := by
  obtain ⟨best,next,same⟩ := solves.equation v inside
  rw [same]
  apply mono
  rcases next with ⟨unlinked,-⟩ | ⟨-,above⟩
  · exact absurd linked (unlinked w)
  · exact above ⟨w,linked,rfl⟩

theorem Solves.pathValue_le (solves : Solves edge extend value region) (mono : ∀ v, region v → Monotone (extend v))
    {v : V} {c : K} (inside : region v) (path : PathValue edge extend v c) : c ≤ value v := by
  induction path with
  | single v => exact solves.extend_zero_le (mono v inside) inside
  | step v w c linked _ ih =>
    have below := ih (solves.closed v w inside linked)
    exact (mono v inside below).trans (solves.extend_le (mono v inside) inside linked)

theorem Solves.pathValue_self (solves : Solves edge extend value region)
    (wf : WellFounded fun w v => edge v w) {v : V} (inside : region v) :
    PathValue edge extend v (value v) := by
  induction v using wf.induction with
  | _ v ih =>
    obtain ⟨best,next,same⟩ := solves.equation v inside
    rw [same]
    rcases next with ⟨-,rfl⟩ | ⟨⟨w,linked,rfl⟩,-⟩
    · exact .single v
    · exact .step v w _ linked (ih w linked (solves.closed v w inside linked))

theorem Solves.isGreatest (solves : Solves edge extend value region) (wf : WellFounded fun w v => edge v w)
    (mono : ∀ v, region v → Monotone (extend v)) {v : V} (inside : region v) :
    IsGreatest {c | PathValue edge extend v c} (value v) :=
  ⟨solves.pathValue_self wf inside,fun _ path => solves.pathValue_le mono inside path⟩

end Values

section Weights
variable [AddCommMonoid K] [PartialOrder K] [IsOrderedAddMonoid K] {weight value : V → K}
  {region : V → Prop}

theorem Solves.pathWeight_le (solves : Solves edge (fun v c => weight v + c) value region) {v : V} {c : K}
    (inside : region v) (path : PathWeight edge weight v c) : c ≤ value v :=
  solves.pathValue_le (fun _ _ => add_right_mono) inside (pathWeight_iff.mp path)

omit [IsOrderedAddMonoid K] in
theorem Solves.pathWeight_value (solves : Solves edge (fun v c => weight v + c) value region)
    (wf : WellFounded fun w v => edge v w) {v : V} (inside : region v) :
    PathWeight edge weight v (value v) :=
  pathWeight_iff.mpr (solves.pathValue_self wf inside)

theorem Solves.isGreatest_weight (solves : Solves edge (fun v c => weight v + c) value region)
    (wf : WellFounded fun w v => edge v w) {v : V} (inside : region v) :
    IsGreatest {c | PathWeight edge weight v c} (value v) :=
  ⟨solves.pathWeight_value wf inside,fun _ path => solves.pathWeight_le inside path⟩

end Weights
end MetaPB.Lib.LongestPath

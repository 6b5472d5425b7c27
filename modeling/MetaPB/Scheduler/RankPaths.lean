import MetaPB.Scheduler.RankOrder

/-! The memoised ranks against their recursive definition. Away from vertex 0, whose own
cost is a constant 10, a rank is the greatest sum of average costs along a path. -/
namespace MetaPB.Scheduler
open Executor Lib.Best Lib.LongestPath

/-- Average of a task's costs on the two processors. -/
def averageCost (info : TaskSchedulingInfo) : ℚ :=
  (info.computationCostCPU + info.computationCostDPU) / 2

/-- Vertices from which vertex 0 is not reachable. -/
def ClearOfEntry (g : TaskGraph) (v : Nat) : Prop :=
  v < g.numVertices ∧ ¬ Relation.ReflTransGen g.Linked v 0

section Ranks
variable {g : TaskGraph} {costs table : SchedulingInfo}

/-- Ranks are stored for every vertex without an infinite recursion; each is its vertex's
average cost, or 10 for vertex 0, over the greatest rank of a successor, and where vertex 0
is not reachable it is the greatest sum of average costs along a path. -/
theorem upwardRanks_recursive (acyclic : g.Acyclic)
    (nonneg : ∀ tn < g.numVertices, 0 ≤ (costs tn).computationCostCPU ∧ 0 ≤ (costs tn).computationCostDPU)
    (unset : ∀ tn, (costs tn).upwardRank = -1) :
    ∃ table, calculateUpwardRanks g costs = some table ∧
      (∀ v < g.numVertices, ∃ best, NextBest g.Linked (fun w => (table w).upwardRank) v best ∧
        (table v).upwardRank = if v = 0 then 10 + best else averageCost (costs v) + best) ∧
      ∀ v, ClearOfEntry g v →
        IsGreatest {c | PathWeight g.Linked (fun w => averageCost (costs w)) v c} (table v).upwardRank := by
  obtain ⟨table,filled,ranked,all⟩ := exactRanks_spec nonneg acyclic unset
  have ranks := ranked.ranks_nonneg nonneg all
  have equation : ∀ v < g.numVertices, ∃ best, NextBest g.Linked (fun w => (table w).upwardRank) v best ∧
      (table v).upwardRank = if v = 0 then 10 + best else averageCost (costs v) + best := by
    intro v inside
    exact ⟨_,largestRank_nextBest ranks v,by simpa [rankOver_exact,averageCost,ite_add] using (ranked.stored v (all v inside)).1⟩
  refine ⟨table,filled,equation,?_⟩
  have solves : Solves g.Linked (fun w c => averageCost (costs w) + c) (fun w => (table w).upwardRank)
      (ClearOfEntry g) := by
    constructor
    · intro v w clear linked
      exact ⟨linked.bounds.2,fun path => clear.2 (Relation.ReflTransGen.head linked path)⟩
    · intro v clear
      exact ranks v clear.1
    · intro v clear
      obtain ⟨best,next,same⟩ := equation v clear.1
      have inner : v ≠ 0 := by
        rintro rfl
        exact clear.2 .refl
      rw [if_neg inner] at same
      exact ⟨best,next,same⟩
  intro v clear
  exact solves.isGreatest_weight (acyclic_wellFounded acyclic) clear

end Ranks

private theorem pipeline_clear : ClearOfEntry pipeline 2 := by
  refine ⟨by decide,fun path => ?_⟩
  obtain same | ⟨v,-,edge,member,-,entered⟩ := Relation.ReflTransGen.cases_tail path
  · exact absurd same (by decide)
  · simp only [pipeline,List.mem_cons,List.not_mem_nil,or_false] at member
    rcases member with rfl | rfl <;> exact absurd entered (by decide)

theorem upwardRanks_recursive_pipeline :
    ∃ table, calculateUpwardRanks pipeline (initialInfo (constantPerf 1) pipeline) = some table ∧
      (∃ best, NextBest pipeline.Linked (fun w => (table w).upwardRank) 0 best ∧
        (table 0).upwardRank = 10 + best) ∧
      IsGreatest {c | PathWeight pipeline.Linked
        (fun w => averageCost (initialInfo (constantPerf 1) pipeline w)) 2 c} (table 2).upwardRank := by
  have acyclic : pipeline.Acyclic := (by decide : pipeline.Topological [0,2,1]).acyclic
  have nonneg : ∀ tn < pipeline.numVertices, 0 ≤ (initialInfo (constantPerf 1) pipeline tn).computationCostCPU ∧
      0 ≤ (initialInfo (constantPerf 1) pipeline tn).computationCostDPU := by
    intro tn _
    simp only [initialInfo,constantPerf]
    constructor <;> split <;> norm_num
  obtain ⟨table,filled,equation,longest⟩ := upwardRanks_recursive acyclic nonneg fun _ => rfl
  exact ⟨table,filled,equation 0 (by decide),longest 2 pipeline_clear⟩

end MetaPB.Scheduler

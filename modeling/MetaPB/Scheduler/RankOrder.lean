import MetaPB.Scheduler.UpwardRank

/-! The sort by rank. It is topological for every order of ties exactly when no vertex that has
a successor is absorbed, that is, when each still adds to the greatest value of a path behind
it. In exact arithmetic only an inner vertex that costs nothing is absorbed; in doubles also
one whose cost is lost in the rounding of the sum. -/
namespace MetaPB.Scheduler
open Executor Operator Lib Lib.LongestPath Lib.Rounding Lib.Sorting Lib.Sequence

theorem byRank_strictWeak (table : SchedulingInfo) : StrictWeak (byRank table) where
  asymm a b ahead := by
    simp only [byRank,decide_eq_true_eq,decide_eq_false_iff_not] at ahead ⊢
    exact not_lt.mpr ahead.le
  cotrans a b c ahead := by
    simp only [byRank,decide_eq_true_eq] at ahead ⊢
    exact (lt_or_ge (table b).upwardRank (table a).upwardRank).imp_right fun above =>
      lt_of_lt_of_le ahead above

/-- The greatest value of a path from a successor of the vertex. -/
def Behind (ar : Arithmetic) (g : TaskGraph) (costs : SchedulingInfo) (u : Nat) (best : ℚ) : Prop :=
  IsGreatest {c | ∃ v, g.Linked u v ∧ PathValue g.Linked (fun w => rankOver ar (costs w) w) v c} best

/-- The vertex adds nothing to the greatest value of a path behind it. -/
def Absorbed (ar : Arithmetic) (g : TaskGraph) (costs : SchedulingInfo) (u : Nat) : Prop :=
  ∃ best, Behind ar g costs u best ∧ rankOver ar (costs u) u best ≤ best

def FreeInner (om : PerfModel) (g : TaskGraph) (tn : Nat) : Prop :=
  tn ≠ 0 ∧ g.successors tn ≠ [] ∧
    (initialInfo om g tn).computationCostCPU + (initialInfo om g tn).computationCostDPU = 0

theorem initialInfo_nonneg {om : PerfModel} {g : TaskGraph} (nonneg : om.Nonneg) : ∀ tn < g.numVertices,
    0 ≤ (initialInfo om g tn).computationCostCPU ∧ 0 ≤ (initialInfo om g tn).computationCostDPU :=
  fun _ _ => ⟨nonneg.cpu _ _,nonneg.dpu _ _⟩

theorem scheduleIn_returns {ar : Arithmetic} {om : PerfModel} {g : TaskGraph} {table : SchedulingInfo}
    (filled : calculateUpwardRanksIn ar g (initialInfo om g) = some table)
    (sort : (Nat → Nat → Bool) → List Nat → List Nat) : ∃ sched, scheduleIn ar sort om g = some sched ∧
      sched.order = sort (byRank table) (List.range g.numVertices) :=
  ⟨_,congrArg (Option.map _) filled,rfl⟩

section Ranks
variable {ar : Arithmetic} {g : TaskGraph} {costs table : SchedulingInfo}
  (nonneg : ∀ tn < g.numVertices, 0 ≤ (costs tn).computationCostCPU ∧ 0 ≤ (costs tn).computationCostDPU)
  (acyclic : g.Acyclic) (ranked : RankedIn ar g costs table)
  (all : ∀ tn < g.numVertices, (table tn).upwardRank ≠ -1)

include nonneg acyclic ranked all

theorem RankedIn.behind {u : Nat} (filled : g.successors u ≠ []) :
    Behind ar g costs u (largestRank table (g.successors u) 0) := by
  have ranks := ranked.ranks_nonneg nonneg all
  rcases largestRank_nextBest ranks u with ⟨childless,-⟩ | ⟨⟨v,linked,same⟩,above⟩
  · obtain ⟨v,member⟩ := List.exists_mem_of_ne_nil _ filled
    exact absurd ((g.mem_successors u v).mp member) (childless v)
  · constructor
    · rw [← same]
      exact ⟨v,linked,(ranked.isGreatest nonneg all acyclic linked.bounds.2).1⟩
    · intro c found
      obtain ⟨w,toward,path⟩ := found
      have below := (ranked.isGreatest nonneg all acyclic toward.bounds.2).2 path
      exact le_trans below (above ⟨w,toward,rfl⟩)

/-- A vertex ranks above all its successors exactly when it is not absorbed. -/
theorem RankedIn.ahead_iff {u : Nat} :
    (∀ v, g.Linked u v → byRank table u v = true) ↔ ¬ Absorbed ar g costs u := by
  simp only [byRank,gt_iff_lt,decide_eq_true_eq]
  constructor
  · intro ahead absorbed
    obtain ⟨best,behind,lost⟩ := absorbed
    obtain ⟨v,linked,-⟩ := behind.1
    have filled : g.successors u ≠ [] := List.ne_nil_of_mem ((g.mem_successors u v).mpr linked)
    obtain rfl := (ranked.behind nonneg acyclic all filled).unique behind
    rw [← (ranked.stored u (all u linked.bounds.1)).1] at lost
    rcases largestRank_nextBest (ranked.ranks_nonneg nonneg all) u with ⟨childless,-⟩ | ⟨⟨w,toward,same⟩,-⟩
    · exact childless v linked
    · rw [← same] at lost
      exact (ahead w toward).not_ge lost
  · intro kept v linked
    have filled : g.successors u ≠ [] := List.ne_nil_of_mem ((g.mem_successors u v).mpr linked)
    have steep : largestRank table (g.successors u) 0 < rankOver ar (costs u) u
        (largestRank table (g.successors u) 0) :=
      not_le.mp fun lost => kept ⟨_,ranked.behind nonneg acyclic all filled,lost⟩
    rw [(ranked.stored u (all u linked.bounds.1)).1]
    exact ((le_largestRank table (g.successors u) 0).2 v ((g.mem_successors u v).mpr linked)).trans_lt steep

theorem RankedIn.sorted_topological (kept : ∀ u, ¬ Absorbed ar g costs u) {order : List Nat}
    (sorted : Sorted (byRank table) (List.range g.numVertices) order) : g.Topological order := by
  intro edge member
  have linked : g.Linked edge.source edge.target := ⟨edge,member,rfl,rfl⟩
  apply sorted.idxOf_lt
  · exact (ranked.ahead_iff nonneg acyclic all).mpr (kept _) _ linked
  · exact List.mem_range.mpr linked.bounds.1
  · exact List.mem_range.mpr linked.bounds.2
  · intro same
    exact acyclic edge.target (.single (same ▸ linked))

/-- A sort that favours a successor ranked no lower puts it before an absorbed vertex. -/
theorem RankedIn.exists_unsorted {u : Nat} (absorbed : Absorbed ar g costs u) :
    ∃ sort, StdSort sort ∧ ¬ g.Topological (sort (byRank table) (List.range g.numVertices)) := by
  have behind : ¬ ∀ v, g.Linked u v → byRank table u v = true :=
    fun ahead => (ranked.ahead_iff nonneg acyclic all).mp ahead absorbed
  push Not at behind
  obtain ⟨v,linked,tied⟩ := behind
  refine ⟨favour v,favour_stdSort v,fun topological => ?_⟩
  have distinct : v ≠ u := by
    rintro rfl
    exact acyclic v (.single linked)
  have later := favour_idxOf_lt (byRank_strictWeak table) List.nodup_range
    (List.mem_range.mpr linked.bounds.2) (List.mem_range.mpr linked.bounds.1) distinct (by simpa using tied)
  exact later.not_gt (topological.linked linked)

end Ranks

section Exact
variable {om : PerfModel} {g : TaskGraph}

theorem rankOver_exact (info : TaskSchedulingInfo) (tn : Nat) (below : ℚ) : rankOver .exact info tn below =
    (if tn = 0 then 10 else (info.computationCostCPU + info.computationCostDPU) / 2) + below := by
  unfold rankOver
  split <;> rfl

/-- In exact arithmetic only what costs nothing is absorbed. -/
theorem Absorbed.free {u : Nat} (absorbed : Absorbed .exact g (initialInfo om g) u)
    (nonneg : ∀ tn < g.numVertices, 0 ≤ (initialInfo om g tn).computationCostCPU ∧
      0 ≤ (initialInfo om g tn).computationCostDPU) : FreeInner om g u := by
  obtain ⟨best,behind,lost⟩ := absorbed
  obtain ⟨v,linked,-⟩ := behind.1
  obtain ⟨cpu,dpu⟩ := nonneg u linked.bounds.1
  rw [rankOver_exact] at lost
  have cost := nonpos_of_add_le_left lost
  split at cost
  next => norm_num at cost
  next inner =>
    refine ⟨inner,List.ne_nil_of_mem ((g.mem_successors u v).mpr linked),?_⟩
    linarith

theorem FreeInner.absorbed {u : Nat} (free : FreeInner om g u) (nonneg : om.Nonneg) (acyclic : g.Acyclic) :
    Absorbed .exact g (initialInfo om g) u := by
  obtain ⟨inner,filled,zero⟩ := free
  obtain ⟨table,-,ranked,all⟩ :=
    exactRanks_spec (initialInfo_nonneg nonneg) acyclic (fun _ => rfl)
  refine ⟨_,ranked.behind (initialInfo_nonneg nonneg) acyclic all filled,?_⟩
  rw [rankOver_exact,if_neg inner,zero,zero_div,zero_add]

theorem sorted_topological {table : SchedulingInfo} (nonneg : ∀ tn < g.numVertices,
      0 ≤ (initialInfo om g tn).computationCostCPU ∧ 0 ≤ (initialInfo om g tn).computationCostDPU)
    (acyclic : g.Acyclic) (ranked : Ranked g (initialInfo om g) table)
    (all : ∀ tn < g.numVertices, (table tn).upwardRank ≠ -1) (costly : ∀ tn, ¬ FreeInner om g tn)
    {order : List Nat} (sorted : Sorted (byRank table) (List.range g.numVertices) order) :
    g.Topological order :=
  ranked.sorted_topological nonneg acyclic all (fun u absorbed => costly u (absorbed.free nonneg)) sorted

theorem exists_unsorted (nonneg : om.Nonneg) (acyclic : g.Acyclic) {u : Nat} (free : FreeInner om g u) :
    ∃ sort, StdSort sort ∧
      ∀ result, schedule sort om g = some result → ¬ g.Topological result.order := by
  obtain ⟨table,filled,ranked,all⟩ :=
    exactRanks_spec (initialInfo_nonneg nonneg) acyclic (fun _ => rfl)
  obtain ⟨sort,contract,unsorted⟩ := ranked.exists_unsorted (initialInfo_nonneg nonneg) acyclic all
    (free.absorbed nonneg acyclic)
  refine ⟨sort,contract,fun result returned => ?_⟩
  obtain ⟨sched,same,order⟩ := scheduleIn_returns filled sort
  obtain rfl := Option.some.inj (returned.symm.trans same)
  rwa [order]

end Exact

section Double

/-- HEFT's order as doubles add up its ranks is a permutation whatever the sort does with ties,
and topological for all of them exactly when every vertex with a successor still adds, after
rounding, to the greatest value of a path behind it. -/
theorem schedule_topological_iff (om : PerfModel) (g : TaskGraph) (nonneg : om.Nonneg)
    (acyclic : g.Acyclic) :
    (∀ sort, StdSort sort → ∃ result, scheduleIn .double sort om g = some result ∧
      g.Orders result.order ∧ g.Topological result.order) ↔
      ∀ u best, Behind .double g (initialInfo om g) u best →
        best < rankOver .double (initialInfo om g u) u best := by
  obtain ⟨table,filled,ranked,all⟩ :=
    calculateUpwardRanks_spec .double (initialInfo_nonneg nonneg) acyclic (fun _ => rfl)
  have kept : (∀ u best, Behind .double g (initialInfo om g) u best →
      best < rankOver .double (initialInfo om g u) u best) ↔
      ∀ u, ¬ Absorbed .double g (initialInfo om g) u := by
    simp only [Absorbed,not_exists,not_and,not_le]
  rw [kept]
  constructor
  · intro every u absorbed
    obtain ⟨sort,contract,unsorted⟩ :=
      ranked.exists_unsorted (initialInfo_nonneg nonneg) acyclic all absorbed
    obtain ⟨result,returned,-,topological⟩ := every sort contract
    obtain ⟨sched,same,order⟩ := scheduleIn_returns filled sort
    obtain rfl := Option.some.inj (returned.symm.trans same)
    exact unsorted (order ▸ topological)
  · intro steep sort contract
    have sorted := contract (byRank table) (List.range g.numVertices) (byRank_strictWeak table)
    obtain ⟨sched,returned,order⟩ := scheduleIn_returns filled sort
    refine ⟨sched,returned,?_,?_⟩
    · rw [order]
      exact sorted.perm
    · rw [order]
      exact ranked.sorted_topological (initialInfo_nonneg nonneg) acyclic all steep sorted

def pipeline : TaskGraph where
  vertices := [{op := .LOGIC_START},{op := .LOGIC_END},{op := .MAC}]
  edges := [⟨0,2,1⟩,⟨2,1,1⟩]
  inside := by decide

def constantPerf (seconds : ℚ) : PerfModel where
  deducePerfCPU opTag _ := {timeCostSecond := if opTag = .MAC then seconds else 0}
  deducePerfDPU opTag _ := {timeCostSecond := if opTag = .MAC then seconds else 0}

private theorem constantPerf_nonneg {seconds : ℚ} (positive : 0 ≤ seconds) :
    (constantPerf seconds).Nonneg := by
  constructor <;> intro opTag _ <;> simp only [constantPerf] <;> split <;> first | exact positive | rfl

private theorem pipeline_acyclic : pipeline.Acyclic :=
  (by decide : pipeline.Topological [0,2,1]).acyclic

private theorem pipeline_linked {u v : Nat} (linked : pipeline.Linked u v) : u = 0 ∧ v = 2 ∨ u = 2 ∧ v = 1 := by
  obtain ⟨edge,member,rfl,rfl⟩ := linked
  simp only [pipeline,List.mem_cons,List.not_mem_nil,or_false] at member
  rcases member with rfl | rfl
  · exact Or.inl ⟨rfl,rfl⟩
  · exact Or.inr ⟨rfl,rfl⟩

private theorem pipeline_end {extend : Nat → ℚ → ℚ} {c : ℚ} (path : PathValue pipeline.Linked extend 1 c) :
    c = extend 1 0 := by
  cases path with
  | single => rfl
  | step v w c linked => rcases pipeline_linked linked with ⟨start,-⟩ | ⟨start,-⟩ <;> contradiction

theorem schedule_topological_iff_pipeline : ∃ result, scheduleIn .double (favour 1) (constantPerf 1) pipeline =
    some result ∧ pipeline.Orders result.order ∧ pipeline.Topological result.order := by
  apply (schedule_topological_iff (constantPerf 1) pipeline (constantPerf_nonneg (by norm_num))
    pipeline_acyclic).mpr _ (favour 1) (favour_stdSort 1)
  intro u best behind
  obtain ⟨v,linked,path⟩ := behind.1
  rcases pipeline_linked linked with ⟨rfl,rfl⟩ | ⟨rfl,rfl⟩
  · have one : best = 1 := by
      cases path with
      | single => decide +kernel
      | step v w c toward rest =>
        rcases pipeline_linked toward with ⟨start,-⟩ | ⟨-,rfl⟩
        · contradiction
        · rw [pipeline_end rest]
          decide +kernel
    rw [one]
    decide +kernel
  · rw [pipeline_end path]
    decide +kernel

/-- With MAC costing nothing, MAC and END tie at rank 0 and END may be sorted first. -/
theorem schedule_not_topological : ¬ ∀ (om : PerfModel) (g : TaskGraph)
    (sort : (Nat → Nat → Bool) → List Nat → List Nat), om.Nonneg → g.Acyclic →
      (∀ opTag cnt, opTag = .LOGIC_START ∨ opTag = .LOGIC_END →
        (om.deducePerfCPU opTag cnt).timeCostSecond = 0 ∧
          (om.deducePerfDPU opTag cnt).timeCostSecond = 0) → StdSort sort →
      ∃ result, scheduleIn .double sort om g = some result ∧ g.Orders result.order ∧
        g.Topological result.order := by
  intro always
  have nonneg := constantPerf_nonneg (le_refl 0)
  have behind : Behind .double pipeline (initialInfo (constantPerf 0) pipeline) 2
      (rankOver .double (initialInfo (constantPerf 0) pipeline 1) 1 0) := by
    refine ⟨⟨1,by decide,.single 1⟩,fun c found => ?_⟩
    obtain ⟨v,linked,path⟩ := found
    rcases pipeline_linked linked with ⟨start,-⟩ | ⟨-,rfl⟩
    · contradiction
    · exact (pipeline_end path).le
  obtain ⟨table,filled,ranked,all⟩ :=
    calculateUpwardRanks_spec .double (initialInfo_nonneg nonneg) pipeline_acyclic (fun _ => rfl)
  obtain ⟨sort,contract,unsorted⟩ := ranked.exists_unsorted (initialInfo_nonneg nonneg) pipeline_acyclic all
    ⟨_,behind,by decide +kernel⟩
  obtain ⟨result,returned,-,topological⟩ := always (constantPerf 0) pipeline sort nonneg
    pipeline_acyclic (fun _ _ _ => by simp [constantPerf]) contract
  obtain ⟨sched,same,order⟩ := scheduleIn_returns filled sort
  obtain rfl := Option.some.inj (returned.symm.trans same)
  exact unsorted (order ▸ topological)

/-- A nanosecond is lost behind four years. -/
example : Arithmetic.double.add (1/2^30) (2^27) = 2^27 := by decide +kernel

end Double
end MetaPB.Scheduler

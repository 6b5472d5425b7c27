import MetaPB.Lib.Best
import MetaPB.Lib.LongestPath
import MetaPB.Scheduler.HEFTScheduler

/-! Upward ranks on acyclic graphs, in any arithmetic. The recursion never repeats a vertex on
its stack, so the number of vertices is fuel enough; every rank it stores is the vertex's own
cost over its largest successor rank, and so the greatest value of a path from the vertex. -/
namespace MetaPB.Scheduler
open Executor Lib.Best Lib.LongestPath

def largestRank (table : SchedulingInfo) (tasks : List Nat) (best : ℚ) : ℚ :=
  tasks.foldl (fun best task => max best (table task).upwardRank) best

theorem le_largestRank (table : SchedulingInfo) (tasks : List Nat) (best : ℚ) :
    best ≤ largestRank table tasks best ∧
      ∀ task ∈ tasks, (table task).upwardRank ≤ largestRank table tasks best := by
  induction tasks generalizing best with
  | nil => exact ⟨le_rfl,by simp⟩
  | cons task rest ih =>
    obtain ⟨above,each⟩ := ih (max best (table task).upwardRank)
    refine ⟨(le_max_left _ _).trans above,?_⟩
    intro other member
    rcases List.mem_cons.mp member with rfl | later
    · exact (le_max_right _ _).trans above
    · exact each other later

theorem largestRank_congr {first second : SchedulingInfo} {tasks : List Nat} (best : ℚ)
    (same : ∀ task ∈ tasks, (first task).upwardRank = (second task).upwardRank) :
    largestRank first tasks best = largestRank second tasks best := by
  apply List.foldl_ext
  intro latest task member
  rw [same task member]

/-- The costs are as deduced, and each stored rank satisfies its equation over stored
successor ranks. -/
structure RankedIn (ar : Arithmetic) (g : TaskGraph) (costs table : SchedulingInfo) : Prop where
  frame : ∀ tn, table tn = { costs tn with upwardRank := (table tn).upwardRank }
  stored : ∀ tn, (table tn).upwardRank ≠ -1 →
    (table tn).upwardRank = rankOver ar (costs tn) tn (largestRank table (g.successors tn) 0) ∧
      ∀ succ ∈ g.successors tn, (table succ).upwardRank ≠ -1

abbrev Ranked := RankedIn .exact

def Extends (old new : SchedulingInfo) : Prop :=
  ∀ tn, (old tn).upwardRank ≠ -1 → (new tn).upwardRank = (old tn).upwardRank

def Delivers (ar : Arithmetic) (g : TaskGraph) (costs : SchedulingInfo) (fuel tn : Nat) : Prop :=
  ∀ table, RankedIn ar g costs table → ∃ rank next,
    calculateUpwardRank ar g fuel tn table = some (rank,next) ∧ RankedIn ar g costs next ∧ Extends table next ∧ (next tn).upwardRank = rank ∧ rank ≠ -1

theorem Extends.trans {first second third : SchedulingInfo} (one : Extends first second)
    (two : Extends second third) : Extends first third := by
  intro tn stored
  have kept := one tn stored
  rw [two tn (kept ▸ stored),kept]

theorem acyclic_wellFounded {g : TaskGraph} (acyclic : g.Acyclic) :
    WellFounded fun w v => g.Linked v w := by
  apply wellFounded_of_acyclic _ acyclic
  apply (Set.finite_lt_nat g.numVertices).subset
  intro w found
  obtain ⟨v,linked⟩ := found
  exact linked.bounds.2

theorem largestRank_nextBest {g : TaskGraph} {table : SchedulingInfo}
    (ranks : ∀ v < g.numVertices, 0 ≤ (table v).upwardRank) (v : Nat) :
    NextBest g.Linked (fun w => (table w).upwardRank) v (largestRank table (g.successors v) 0) := by
  rcases eq_or_ne (g.successors v) [] with childless | filled
  · left
    refine ⟨fun w linked => ?_,by rw [childless]; rfl⟩
    have member := (g.mem_successors v w).mpr linked
    rw [childless] at member
    exact List.not_mem_nil member
  · right
    have greatest : IsGreatest {c | c ∈ (g.successors v).map fun w => (table w).upwardRank}
        (((g.successors v).map fun w => (table w).upwardRank).foldl max 0) := by
      apply foldl_max_isGreatest (by simpa using filled)
      intro c member
      obtain ⟨w,listed,rfl⟩ := List.mem_map.mp member
      exact ranks w ((g.mem_successors v w).mp listed).bounds.2
    rw [List.foldl_map] at greatest
    simpa [largestRank,g.mem_successors] using greatest

section Rank
variable {ar : Arithmetic} {g : TaskGraph} {costs : SchedulingInfo}
  (nonneg : ∀ tn < g.numVertices, 0 ≤ (costs tn).computationCostCPU ∧ 0 ≤ (costs tn).computationCostDPU)

variable (ar) in
include nonneg in
theorem rankOver_nonneg {tn : Nat} (inside : tn < g.numVertices) {below : ℚ} (least : 0 ≤ below) :
    0 ≤ rankOver ar (costs tn) tn below := by
  obtain ⟨cpu,dpu⟩ := nonneg tn inside
  unfold rankOver
  split
  · exact ar.nonneg_add _ _ (by norm_num) least
  · exact ar.nonneg_add _ _ (ar.nonneg_half _ (ar.nonneg_add _ _ cpu dpu)) least

theorem rankOver_mono (info : TaskSchedulingInfo) (tn : Nat) : Monotone (rankOver ar info tn) := by
  unfold rankOver
  split
  · exact ar.mono_add _
  · exact ar.mono_add _

private theorem rankOver_frame {table : SchedulingInfo} (ranked : RankedIn ar g costs table) (tn : Nat)
    (below : ℚ) : rankOver ar (table tn) tn below = rankOver ar (costs tn) tn below := by
  rw [ranked.frame tn]
  rfl

theorem successors_loop {fuel : Nat} (succs : List Nat)
    (each : ∀ succ ∈ succs, Delivers ar g costs fuel succ) (best : ℚ) (table : SchedulingInfo)
    (ranked : RankedIn ar g costs table) :
    ∃ next, succs.foldlM (fun reached succ =>
        (calculateUpwardRank ar g fuel succ reached.2).map fun result =>
          (max reached.1 result.1,result.2)) (best,table) = some (largestRank next succs best,next) ∧
      RankedIn ar g costs next ∧ Extends table next ∧ ∀ succ ∈ succs, (next succ).upwardRank ≠ -1 := by
  induction succs generalizing best table with
  | nil => exact ⟨table,rfl,ranked,fun _ _ => rfl,by simp⟩
  | cons succ rest ih =>
    obtain ⟨rank,middle,called,middleRanked,extended,reads,stored⟩ := each succ (by simp) table ranked
    obtain ⟨next,looped,nextRanked,further,all⟩ :=
      ih (fun other member => each other (by simp [member])) (max best rank) middle middleRanked
    have kept : (next succ).upwardRank = rank := by rw [further succ (by rwa [reads]),reads]
    refine ⟨next,?_,nextRanked,extended.trans further,?_⟩
    · rw [List.foldlM_cons,called]
      simpa [largestRank,kept] using looped
    · intro other member
      rcases List.mem_cons.mp member with rfl | later
      · rwa [kept]
      · exact all other later

include nonneg in
/-- Storing the rank a vertex gets over its stored successors keeps the table ranked. -/
theorem RankedIn.store {table : SchedulingInfo} (ranked : RankedIn ar g costs table) {tn : Nat}
    (inside : tn < g.numVertices) (notOwn : tn ∉ g.successors tn) (all : ∀ succ ∈ g.successors tn, (table succ).upwardRank ≠ -1) :
    let rank := rankOver ar (table tn) tn (largestRank table (g.successors tn) 0)
    let next := Function.update table tn { table tn with upwardRank := rank }
    RankedIn ar g costs next ∧ Extends table next ∧ (next tn).upwardRank = rank ∧ rank ≠ -1 := by
  intro rank next
  have value : rank = rankOver ar (costs tn) tn (largestRank table (g.successors tn) 0) :=
    rankOver_frame ranked tn _
  have extended : Extends table next := by
    intro v stored
    rcases eq_or_ne v tn with rfl | apart
    · simp [next,value,(ranked.stored v stored).1.symm]
    · simp [next,apart]
  have written : ∀ v, (table v).upwardRank ≠ -1 → (next v).upwardRank ≠ -1 := fun v stored =>
    (extended v stored).symm ▸ stored
  have positive : rank ≠ -1 := by
    have least := (le_largestRank table (g.successors tn) 0).1
    have above := rankOver_nonneg ar nonneg inside least
    rw [← value] at above
    linarith
  have equation (v : Nat) (succs : ∀ succ ∈ g.successors v, (table succ).upwardRank ≠ -1) :
      largestRank next (g.successors v) 0 = largestRank table (g.successors v) 0 :=
    largestRank_congr 0 fun succ member => extended succ (succs succ member)
  refine ⟨⟨?_,?_⟩,extended,by simp [next],positive⟩
  · intro v
    rcases eq_or_ne v tn with rfl | apart
    · simp only [next,Function.update_self]
      rw [ranked.frame v]
    · simpa [next,apart] using ranked.frame v
  · intro v stored
    rcases eq_or_ne v tn with rfl | apart
    · refine ⟨?_,fun succ member => written succ (all succ member)⟩
      rw [equation v all,← value]
      simp [next]
    · have before : (table v).upwardRank ≠ -1 := by simpa [next,apart] using stored
      obtain ⟨holds,succs⟩ := ranked.stored v before
      refine ⟨?_,fun succ member => written succ (succs succ member)⟩
      rw [extended v before,equation v succs]
      exact holds

include nonneg in
/-- Vertices on the call stack are ancestors of the one being ranked, so they never repeat. -/
theorem calculateUpwardRank_delivers (acyclic : g.Acyclic) (fuel tn : Nat) (stack : List Nat)
    (inside : tn < g.numVertices) (nodup : (tn::stack).Nodup)
    (above : ∀ caller ∈ stack, caller < g.numVertices ∧ g.Ancestor caller tn)
    (enough : g.numVertices ≤ fuel + stack.length) : Delivers ar g costs fuel tn := by
  induction fuel generalizing tn stack with
  | zero =>
    have covered : (tn::stack) ⊆ List.range g.numVertices := by
      intro v member
      rcases List.mem_cons.mp member with rfl | later
      · exact List.mem_range.mpr inside
      · exact List.mem_range.mpr (above v later).1
    have short := (List.subperm_of_subset nodup covered).length_le
    simp only [List.length_cons,List.length_range] at short
    omega
  | succ fuel ih =>
    intro table ranked
    rw [calculateUpwardRank]
    split
    next stored => exact ⟨_,table,rfl,ranked,fun _ _ => rfl,rfl,stored⟩
    next =>
      have each : ∀ succ ∈ g.successors tn, Delivers ar g costs fuel succ := by
        intro succ member
        have linked := (g.mem_successors tn succ).mp member
        have callers : ∀ caller ∈ tn::stack, caller < g.numVertices ∧ g.Ancestor caller succ := by
          intro caller listed
          rcases List.mem_cons.mp listed with rfl | later
          · exact ⟨inside,.single linked⟩
          · exact ⟨(above caller later).1,(above caller later).2.tail linked⟩
        apply ih succ (tn::stack) linked.bounds.2 _ callers
        · simp only [List.length_cons]
          omega
        · refine List.nodup_cons.mpr ⟨fun again => ?_,nodup⟩
          exact acyclic succ (callers succ again).2
      obtain ⟨next,looped,nextRanked,extended,all⟩ := successors_loop _ each 0 table ranked
      have notOwn : tn ∉ g.successors tn := fun own =>
        acyclic tn (.single ((g.mem_successors tn tn).mp own))
      obtain ⟨storedRanked,storedExtends,reads,positive⟩ := nextRanked.store nonneg inside notOwn all
      exact ⟨_,_,by rw [looped]; rfl,storedRanked,extended.trans storedExtends,reads,positive⟩

variable (ar) in
include nonneg in
theorem calculateUpwardRanks_spec (acyclic : g.Acyclic) (unset : ∀ tn, (costs tn).upwardRank = -1) :
    ∃ table, calculateUpwardRanksIn ar g costs = some table ∧ RankedIn ar g costs table ∧
      ∀ tn < g.numVertices, (table tn).upwardRank ≠ -1 := by
  have start : RankedIn ar g costs costs := ⟨fun _ => rfl,fun tn stored => absurd (unset tn) stored⟩
  have loop (count : Nat) (bound : count ≤ g.numVertices) : ∃ table,
      (List.range count).foldlM (fun table tn =>
        (calculateUpwardRank ar g g.numVertices tn table).map (·.2)) costs = some table ∧
        RankedIn ar g costs table ∧ ∀ tn < count, (table tn).upwardRank ≠ -1 := by
    induction count with
    | zero => exact ⟨costs,rfl,start,by simp⟩
    | succ count ih =>
      obtain ⟨middle,looped,ranked,all⟩ := ih (by omega)
      obtain ⟨rank,table,called,rankedNow,extended,reads,positive⟩ :=
        calculateUpwardRank_delivers nonneg acyclic g.numVertices count [] bound (by simp) (by simp)
          (by simp) middle ranked
      refine ⟨table,?_,rankedNow,?_⟩
      · rw [List.range_succ,List.foldlM_append,looped]
        simp [called]
      · intro tn below
        rcases Nat.lt_succ_iff_lt_or_eq.mp below with earlier | rfl
        · rw [extended tn (all tn earlier)]
          exact all tn earlier
        · rwa [reads]
  exact loop g.numVertices le_rfl

include nonneg in
theorem exactRanks_spec (acyclic : g.Acyclic) (unset : ∀ tn, (costs tn).upwardRank = -1) :
    ∃ table, calculateUpwardRanks g costs = some table ∧ Ranked g costs table ∧
      ∀ tn < g.numVertices, (table tn).upwardRank ≠ -1 :=
  calculateUpwardRanks_spec .exact nonneg acyclic unset

section Filled
variable {table : SchedulingInfo} (ranked : RankedIn ar g costs table)
  (all : ∀ tn < g.numVertices, (table tn).upwardRank ≠ -1)

include ranked nonneg all

theorem RankedIn.ranks_nonneg (v : Nat) (inside : v < g.numVertices) : 0 ≤ (table v).upwardRank := by
  rw [(ranked.stored v (all v inside)).1]
  exact rankOver_nonneg ar nonneg inside (le_largestRank table (g.successors v) 0).1

theorem RankedIn.solves : Solves g.Linked (fun v => rankOver ar (costs v) v)
    (fun v => (table v).upwardRank) (· < g.numVertices) := by
  have ranks := ranked.ranks_nonneg nonneg all
  exact ⟨fun v w _ linked => linked.bounds.2,ranks,
    fun v inside => ⟨_,largestRank_nextBest ranks v,(ranked.stored v (all v inside)).1⟩⟩

/-- A rank is the greatest value of a path, added up from its end. -/
theorem RankedIn.isGreatest (acyclic : g.Acyclic) {v : Nat} (inside : v < g.numVertices) :
    IsGreatest {c | PathValue g.Linked (fun v => rankOver ar (costs v) v) v c} (table v).upwardRank :=
  (ranked.solves nonneg all).isGreatest (acyclic_wellFounded acyclic)
    (fun v _ => rankOver_mono (costs v) v) inside

end Filled
end Rank

end MetaPB.Scheduler

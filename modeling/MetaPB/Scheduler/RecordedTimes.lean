import MetaPB.Scheduler.Feasibility

/-! Start times as HEFT records them. A step stores the time its processor was free from,
before the data of predecessors are waited for, and the end time that includes the wait.
The two are a task's cost apart where the tasks can be dealt out to the processors so that
each works through its share back to back and no data come late. -/
namespace MetaPB.Scheduler
open Executor Operator Lib Lib.Sorting Lib.Sequence

/-- The recorded interval has the length of the task and follows the data it needs from
the other processor. -/
def Timed (om : PerfModel) (g : TaskGraph) (table : SchedulingInfo) (tn : Nat) : Prop :=
  (table tn).endTime - (table tn).startTime = computationCost (table tn) (table tn).assignedProcessor ∧
    ∀ edge ∈ g.inEdges tn, (table edge.source).assignedProcessor ≠ (table tn).assignedProcessor →
      (table edge.source).endTime + transferCost om g edge ≤ (table tn).startTime

/-- The processor that would finish the task first, the CPU where they tie or where the
DPU would not be done before the largest double. -/
def soonest (om : PerfModel) (g : TaskGraph) (tn : Nat) (table : SchedulingInfo)
    (processors : List Processor) : Processor :=
  let cpu := processors.getD 0 ⟨0,0⟩
  let dpu := processors.getD 1 ⟨1,0⟩
  if finishTime om g tn table dpu < min (finishTime om g tn table cpu) doubleMax then dpu else cpu

/-- Every arrival on that processor is past when it gets free, and the task is done by the
largest double. -/
def Ready (om : PerfModel) (g : TaskGraph) (tn : Nat) (table : SchedulingInfo)
    (processors : List Processor) : Prop :=
  let processor := soonest om g tn table processors
  (∀ arrival ∈ arrivals om g tn table processor.id, arrival ≤ processor.nextAvailableTime) ∧
    processor.nextAvailableTime + computationCost (table tn) processor.id ≤ doubleMax

/-- What the tasks cost that are dealt to a processor. -/
def load (om : PerfModel) (g : TaskGraph) (assigned : Nat → Int) (tasks : List Nat) (processor : Int) : ℚ :=
  ((tasks.filter fun tn => assigned tn = processor).map fun tn =>
    computationCost (initialInfo om g tn) processor).sum

/-- When a transfer is over whose source follows the earlier tasks of its processor back to back. -/
def delivery (om : PerfModel) (g : TaskGraph) (assigned : Nat → Int) (tasks : List Nat) (edge : Transfer) : ℚ :=
  load om g assigned (tasks.take (tasks.idxOf edge.source + 1)) (assigned edge.source) +
    transferCost om g edge

/-- When a task after these would be done on a processor. -/
def doneBy (om : PerfModel) (g : TaskGraph) (assigned : Nat → Int) (tasks : List Nat) (tn : Nat)
    (processor : Int) : ℚ :=
  (((g.inEdges tn).filter fun edge => assigned edge.source ≠ processor).map
    (delivery om g assigned tasks)).foldl max (load om g assigned tasks processor) +
      computationCost (initialInfo om g tn) processor

/-- The task needs no data late on its processor, and the other one would not have it done
sooner. -/
structure Settled (om : PerfModel) (g : TaskGraph) (assigned : Nat → Int) (tasks : List Nat) (tn : Nat) :
    Prop where
  onTime : ∀ edge ∈ g.inEdges tn, assigned edge.source ≠ assigned tn →
    delivery om g assigned tasks edge ≤ load om g assigned tasks (assigned tn)
  first : assigned tn = 0 ∧ doneBy om g assigned tasks tn 0 ≤ min (doneBy om g assigned tasks tn 1) doubleMax ∨
    assigned tn = 1 ∧ doneBy om g assigned tasks tn 1 < min (doneBy om g assigned tasks tn 0) doubleMax

/-- In the order of the ranks the tasks can be dealt to the two processors so that each is
settled where it is. -/
def WaitFree (sort : (Nat → Nat → Bool) → List Nat → List Nat) (om : PerfModel) (g : TaskGraph) : Prop :=
  ∃ ranks, calculateUpwardRanks g (initialInfo om g) = some ranks ∧ ∃ assigned : Nat → Int,
    ∀ before tn after, sort (byRank ranks) (List.range g.numVertices) = before ++ tn::after →
      Settled om g assigned before tn

section Step
variable {om : PerfModel} {g : TaskGraph} {tn : Nat} {table : SchedulingInfo}

theorem scheduleTask_soonest (nextAvailable : Int → ℚ) :
    let processor := soonest om g tn table (processorsOf nextAvailable)
    let finish := min (finishTime om g tn table processor) doubleMax
    scheduleTask om g tn table (processorsOf nextAvailable) =
      (Function.update table tn (placedInfo (table tn) processor.id processor.nextAvailableTime finish),
        processorsOf (Function.update nextAvailable processor.id finish)) := by
  intro processor finish
  have best := bestProcessor_processorsOf om g tn table nextAvailable
  have found : processor = if finishTime om g tn table ⟨1,nextAvailable 1⟩ <
      min (finishTime om g tn table ⟨0,nextAvailable 0⟩) doubleMax then ⟨1,nextAvailable 1⟩
      else ⟨0,nextAvailable 0⟩ := rfl
  split at best
  next sooner =>
    have chosen : processor = ⟨1,nextAvailable 1⟩ := by rw [found,if_pos sooner]
    have ends : finish = finishTime om g tn table ⟨1,nextAvailable 1⟩ := by
      have below := sooner.trans_le (min_le_right _ _)
      simp only [finish,chosen,min_eq_left below.le]
    rw [chosen,ends]
    simp only [scheduleTaskIn,best]
    exact Prod.ext rfl (processorsOf_set_dpu nextAvailable _)
  next later =>
    have chosen : processor = ⟨0,nextAvailable 0⟩ := by rw [found,if_neg later]
    have ends : finish = min (finishTime om g tn table ⟨0,nextAvailable 0⟩) doubleMax := by
      simp only [finish,chosen]
    rw [chosen,ends]
    simp only [scheduleTaskIn,best]
    exact Prod.ext rfl (processorsOf_set_cpu nextAvailable _)

variable (om g tn table) in
theorem soonest_cases (nextAvailable : Int → ℚ) :
    (soonest om g tn table (processorsOf nextAvailable) = ⟨0,nextAvailable 0⟩ ∧
      min (finishTime om g tn table ⟨0,nextAvailable 0⟩) doubleMax ≤ finishTime om g tn table ⟨1,nextAvailable 1⟩) ∨
    (soonest om g tn table (processorsOf nextAvailable) = ⟨1,nextAvailable 1⟩ ∧
      finishTime om g tn table ⟨1,nextAvailable 1⟩ < min (finishTime om g tn table ⟨0,nextAvailable 0⟩) doubleMax) := by
  rcases lt_or_ge (finishTime om g tn table ⟨1,nextAvailable 1⟩)
      (min (finishTime om g tn table ⟨0,nextAvailable 0⟩) doubleMax) with sooner | later
  · exact Or.inr ⟨if_pos sooner,sooner⟩
  · exact Or.inl ⟨if_neg (not_lt.mpr later),later⟩

/-- Where nothing is waited for, a task starts when its processor gets free. -/
theorem earliestStartTime_of_arrived {processor : Processor}
    (arrived : ∀ arrival ∈ arrivals om g tn table processor.id, arrival ≤ processor.nextAvailableTime) :
    earliestStartTime om g tn table processor = processor.nextAvailableTime := by
  rw [earliestStartTime_eq]
  rcases Best.foldl_max_attained (arrivals om g tn table processor.id) processor.nextAvailableTime
    with same | attained
  · exact same
  · exact le_antisymm (arrived _ attained) (Best.foldl_le_max _ _).1

theorem arrivals_le_iff {processor : Int} {time : ℚ} :
    (∀ arrival ∈ arrivals om g tn table processor, arrival ≤ time) ↔
      ∀ edge ∈ g.inEdges tn, (table edge.source).assignedProcessor ≠ processor →
        (table edge.source).endTime + transferCost om g edge ≤ time := by
  simp only [arrivals,List.forall_mem_map,List.mem_filter,decide_eq_true_eq,and_imp]

/-- What one step records is consistent exactly when it finds the task ready. -/
theorem scheduleTask_timed_iff (nextAvailable : Int → ℚ)
    (other : ∀ edge ∈ g.inEdges tn, edge.source ≠ tn) :
    Timed om g (scheduleTask om g tn table (processorsOf nextAvailable)).1 tn ↔
      Ready om g tn table (processorsOf nextAvailable) := by
  simp only [scheduleTask_soonest,Ready]
  set processor := soonest om g tn table (processorsOf nextAvailable)
  set info := placedInfo (table tn) processor.id processor.nextAvailableTime
    (min (finishTime om g tn table processor) doubleMax) with stored
  have waits : (∀ edge ∈ g.inEdges tn,
      (Function.update table tn info edge.source).assignedProcessor ≠ processor.id →
        (Function.update table tn info edge.source).endTime + transferCost om g edge ≤
          processor.nextAvailableTime) ↔
      ∀ arrival ∈ arrivals om g tn table processor.id, arrival ≤ processor.nextAvailableTime := by
    rw [arrivals_le_iff]
    refine forall₂_congr fun edge member => ?_
    rw [Function.update_of_ne (other edge member)]
  have length (arrived : ∀ arrival ∈ arrivals om g tn table processor.id,
      arrival ≤ processor.nextAvailableTime) :
      info.endTime - info.startTime = computationCost info processor.id ↔
        processor.nextAvailableTime + computationCost (table tn) processor.id ≤ doubleMax := by
    have finish : info.endTime =
        min (processor.nextAvailableTime + computationCost (table tn) processor.id) doubleMax := by
      rw [stored,placedInfo,finishTime,earliestStartTime_of_arrived arrived]
    have start : info.startTime = processor.nextAvailableTime := rfl
    have cost : computationCost info processor.id = computationCost (table tn) processor.id := rfl
    rw [finish,start,cost,sub_eq_iff_eq_add',min_eq_left_iff]
  unfold Timed
  rw [Function.update_self]
  constructor
  · intro timed
    obtain ⟨whole,after⟩ := timed
    have arrived := waits.mp after
    exact ⟨arrived,(length arrived).mp whole⟩
  · intro ready
    obtain ⟨arrived,below⟩ := ready
    exact ⟨(length arrived).mpr below,waits.mpr arrived⟩

theorem Timed.congr {later : SchedulingInfo} (own : later tn = table tn)
    (sources : ∀ edge ∈ g.inEdges tn, later edge.source = table edge.source) :
    Timed om g later tn ↔ Timed om g table tn := by
  unfold Timed
  rw [own]
  refine and_congr_right fun _ => forall₂_congr fun edge member => ?_
  rw [sources edge member]

end Step

section Run
variable {om : PerfModel} {g : TaskGraph}

theorem foldl_placeTask_frame (tasks : List Nat) (state : PlacementLoop) {v : Nat} (fresh : v ∉ tasks) :
    (tasks.foldl (placeTask om g) state).2.1 v = state.2.1 v := by
  induction tasks generalizing state with
  | nil => rfl
  | cons tn rest ih =>
    obtain ⟨apart,later⟩ := List.ne_and_not_mem_of_not_mem_cons fresh
    rw [List.foldl_cons,ih _ later]
    exact Function.update_of_ne apart _ _

theorem placeTasks_split (before after : List Nat) (tn : Nat) (table : SchedulingInfo)
    (processors : List Processor) : placeTasks om g (before ++ tn::after) table processors =
      after.foldl (placeTask om g) (placeTask om g (placeTasks om g before table processors) tn) := by
  rw [placeTasks,placeTasksIn,List.foldl_append]
  rfl

variable (om g) in
theorem placeTasks_processors (tasks : List Nat) (table : SchedulingInfo) (nextAvailable : Int → ℚ) :
    ∃ ratios final available, placeTasks om g tasks table (processorsOf nextAvailable) =
      (ratios,final,processorsOf available) := by
  have always : ∃ ratios final available, placeTasks om g tasks table (processorsOf nextAvailable) =
      (ratios,final,processorsOf available) ∧ True :=
    placeTasks_invariant (fun _ _ _ _ => True) trivial fun _ _ _ _ _ _ _ _ _ _ _ => trivial
  obtain ⟨ratios,final,available,looped,-⟩ := always
  exact ⟨ratios,final,available,looped⟩

/-- The whole loop leaves a task's times consistent exactly when its own step does. -/
theorem placeTasks_timed_iff {before after : List Nat} {tn : Nat} (ranks : SchedulingInfo)
    (topological : g.Topological (before ++ tn::after)) (nodup : (before ++ tn::after).Nodup) :
    Timed om g (placeTasks om g (before ++ tn::after) ranks freshProcessors).2.1 tn ↔
      let (_,table,processors) := placeTasks om g before ranks freshProcessors
      Ready om g tn table processors := by
  obtain ⟨ratios,table,available,looped⟩ := placeTasks_processors om g before ranks fun _ => 0
  have reached : placeTasks om g before ranks freshProcessors = (ratios,table,processorsOf available) := looped
  rw [placeTasks_split,reached]
  have ahead := inEdges_placed topological nodup
  have apart := List.disjoint_of_nodup_append nodup
  have behind : tn ∉ after := (List.nodup_cons.mp nodup.of_append_right).1
  have step : Timed om g (scheduleTask om g tn table (processorsOf available)).1 tn ↔
      Ready om g tn table (processorsOf available) :=
    scheduleTask_timed_iff available fun edge member same => apart (ahead edge member) (by simp [same])
  refine Iff.trans (Timed.congr ?_ ?_) step
  · rw [foldl_placeTask_frame _ _ behind]
    rfl
  · intro edge member
    rw [foldl_placeTask_frame _ _ fun later => apart (ahead edge member) (by simp [later])]
    rfl

end Run

section Dealt
variable {om : PerfModel} {g : TaskGraph} {assigned : Nat → Int}

/-- The loop has dealt these tasks out as given, each processor working back to back. -/
structure Follows (om : PerfModel) (g : TaskGraph) (assigned : Nat → Int) (tasks : List Nat)
    (table : SchedulingInfo) (nextAvailable : Int → ℚ) : Prop where
  costs : SameCosts (initialInfo om g) table
  free : nextAvailable = load om g assigned tasks
  dealt : ∀ v ∈ tasks, (table v).assignedProcessor = assigned v
  ended : ∀ v ∈ tasks, (table v).endTime = load om g assigned (tasks.take (tasks.idxOf v + 1)) (assigned v)

theorem load_snoc (tasks : List Nat) (tn : Nat) : load om g assigned (tasks ++ [tn]) =
    Function.update (load om g assigned tasks) (assigned tn)
      (load om g assigned tasks (assigned tn) + computationCost (initialInfo om g tn) (assigned tn)) := by
  funext processor
  rcases eq_or_ne processor (assigned tn) with rfl | apart
  · rw [Function.update_self]
    simp [load]
  · rw [Function.update_of_ne apart]
    simp [load,apart.symm]

section Settling
variable {tasks : List Nat} {tn : Nat} {table : SchedulingInfo} {nextAvailable : Int → ℚ}
  (follows : Follows om g assigned tasks table nextAvailable)
  (ahead : ∀ edge ∈ g.inEdges tn, edge.source ∈ tasks)

include follows ahead

theorem Follows.arrivals (processor : Int) : arrivals om g tn table processor =
    ((g.inEdges tn).filter fun edge => assigned edge.source ≠ processor).map (delivery om g assigned tasks) := by
  have dealt (edge : Transfer) (member : edge ∈ g.inEdges tn) :
      decide ((table edge.source).assignedProcessor ≠ processor) = decide (assigned edge.source ≠ processor) := by
    rw [follows.dealt _ (ahead edge member)]
  rw [Scheduler.arrivals,List.filter_congr dealt]
  refine List.map_congr_left fun edge member => ?_
  rw [follows.ended _ (ahead edge (List.mem_of_mem_filter member))]
  rfl

theorem Follows.finishTime (processor : Int) :
    finishTime om g tn table ⟨processor,nextAvailable processor⟩ = doneBy om g assigned tasks tn processor := by
  rw [Scheduler.finishTime,earliestStartTime_eq,follows.arrivals ahead,follows.costs tn,follows.free]
  rfl

theorem Follows.onTime_iff (processor : Int) :
    (∀ arrival ∈ Scheduler.arrivals om g tn table processor, arrival ≤ nextAvailable processor) ↔
      ∀ edge ∈ g.inEdges tn, assigned edge.source ≠ processor →
        delivery om g assigned tasks edge ≤ load om g assigned tasks processor := by
  rw [follows.arrivals ahead,follows.free]
  simp only [List.forall_mem_map,List.mem_filter,decide_eq_true_eq,and_imp]

/-- A task is ready on the processor it is dealt to exactly when it is settled there. -/
theorem Follows.ready_iff :
    Ready om g tn table (processorsOf nextAvailable) ∧
        (soonest om g tn table (processorsOf nextAvailable)).id = assigned tn ↔
      Settled om g assigned tasks tn := by
  have cpu := follows.finishTime ahead 0
  have dpu := follows.finishTime ahead 1
  have chosen := soonest_cases om g tn table nextAvailable
  rw [cpu,dpu] at chosen
  have done (processor : Int) (arrived : ∀ arrival ∈ Scheduler.arrivals om g tn table processor,
      arrival ≤ nextAvailable processor) :
      doneBy om g assigned tasks tn processor =
        nextAvailable processor + computationCost (table tn) processor := by
    rw [← follows.finishTime ahead,Scheduler.finishTime,earliestStartTime_of_arrived arrived]
  constructor
  · intro both
    obtain ⟨⟨arrived,below⟩,same⟩ := both
    rcases chosen with ⟨side,later⟩ | ⟨side,sooner⟩
    · rw [side] at arrived below same
      refine ⟨same ▸ (follows.onTime_iff ahead 0).mp arrived,Or.inl ⟨same.symm,?_⟩⟩
      rw [← done 0 arrived] at below
      rw [min_eq_left below] at later
      exact le_min later below
    · rw [side] at arrived same
      exact ⟨same ▸ (follows.onTime_iff ahead 1).mp arrived,Or.inr ⟨same.symm,sooner⟩⟩
  · intro settled
    obtain ⟨onTime,first⟩ := settled
    have arrived := (follows.onTime_iff ahead (assigned tn)).mpr onTime
    have finish := done _ arrived
    rcases first with ⟨placed,least⟩ | ⟨placed,least⟩
    · rcases chosen with ⟨side,-⟩ | ⟨-,sooner⟩
      · rw [placed] at arrived finish
        rw [Ready,side,placed]
        exact ⟨⟨arrived,finish ▸ least.trans (min_le_right _ _)⟩,rfl⟩
      · exact absurd (sooner.trans_le (min_le_left _ _)) (least.trans (min_le_left _ _)).not_gt
    · rcases chosen with ⟨-,later⟩ | ⟨side,-⟩
      · exact absurd least later.not_gt
      · rw [placed] at arrived finish
        rw [Ready,side,placed]
        exact ⟨⟨arrived,finish ▸ (least.trans_le (min_le_right _ _)).le⟩,rfl⟩

omit ahead in
theorem Follows.next (fresh : tn ∉ tasks) (ready : Ready om g tn table (processorsOf nextAvailable))
    (same : (soonest om g tn table (processorsOf nextAvailable)).id = assigned tn) :
    ∃ later available, scheduleTask om g tn table (processorsOf nextAvailable) = (later,processorsOf available) ∧
      Follows om g assigned (tasks ++ [tn]) later available := by
  refine ⟨_,_,scheduleTask_soonest nextAvailable,?_⟩
  set processor := soonest om g tn table (processorsOf nextAvailable) with chosen
  have free : processor.nextAvailableTime = load om g assigned tasks (assigned tn) := by
    rw [← follows.free,← same,chosen]
    rcases soonest_cases om g tn table nextAvailable
      with ⟨side,-⟩ | ⟨side,-⟩ <;> rw [side]
  obtain ⟨arrived,below⟩ := ready
  have ends : min (Scheduler.finishTime om g tn table processor) doubleMax =
      load om g assigned tasks (assigned tn) + computationCost (initialInfo om g tn) (assigned tn) := by
    rw [Scheduler.finishTime,earliestStartTime_of_arrived arrived,min_eq_left below,free,same,follows.costs tn]
  have whole (v : Nat) (member : v ∈ tasks) :
      (tasks ++ [tn]).take ((tasks ++ [tn]).idxOf v + 1) = tasks.take (tasks.idxOf v + 1) := by
    rw [List.idxOf_append_of_mem member,List.take_append_of_le_length (List.idxOf_lt_length_of_mem member)]
  have own : (tasks ++ [tn]).take ((tasks ++ [tn]).idxOf tn + 1) = tasks ++ [tn] := by
    rw [List.idxOf_append_of_notMem fresh]
    simp
  rw [ends,free,same]
  refine ⟨follows.costs.update _ _ _ _,?_,?_,?_⟩
  · rw [load_snoc,follows.free]
  · intro v member
    rcases List.mem_append.mp member with before | last
    · have apart : v ≠ tn := fun equal => fresh (equal ▸ before)
      rw [Function.update_of_ne apart,follows.dealt v before]
    · rw [List.mem_singleton.mp last,Function.update_self]
      rfl
  · intro v member
    rcases List.mem_append.mp member with before | last
    · have apart : v ≠ tn := fun equal => fresh (equal ▸ before)
      rw [Function.update_of_ne apart,follows.ended v before,whole v before]
    · rw [List.mem_singleton.mp last,Function.update_self,own,load_snoc,Function.update_self]
      rfl

end Settling

/-- A loop whose every task is ready where it is dealt to follows the deal throughout. -/
theorem placeTasks_follows {ranks : SchedulingInfo} {order : List Nat} (costs : SameCosts (initialInfo om g) ranks)
    (nodup : order.Nodup)
    (ready : ∀ before tn after ratios table available, order = before ++ tn::after →
      placeTasks om g before ranks freshProcessors = (ratios,table,processorsOf available) →
      Follows om g assigned before table available →
      Ready om g tn table (processorsOf available) ∧
        (soonest om g tn table (processorsOf available)).id = assigned tn)
    (before after : List Nat) (split : order = before ++ after) : ∃ ratios table available,
      placeTasks om g before ranks freshProcessors = (ratios,table,processorsOf available) ∧
        Follows om g assigned before table available := by
  induction before using List.reverseRecOn generalizing after with
  | nil =>
    refine ⟨[],ranks,fun _ => 0,rfl,costs,?_,by simp,by simp⟩
    funext processor
    simp [load]
  | append_singleton before tn ih =>
    have longer : order = before ++ tn::after := by simp [split]
    obtain ⟨ratios,table,available,looped,follows⟩ := ih (tn::after) longer
    obtain ⟨prepared,same⟩ := ready before tn after ratios table available longer looped follows
    have fresh : tn ∉ before := fun member =>
      List.disjoint_of_nodup_append (longer ▸ nodup : (before ++ tn::after).Nodup) member (by simp)
    obtain ⟨later,freed,stepped,next⟩ := follows.next fresh prepared same
    refine ⟨ratios ++ [if (later tn).assignedProcessor = 1 then 1 else 0],later,freed,?_,next⟩
    simp only [placeTasks_snoc,looped,placeTaskIn,stepped]

/-- Every step finds its task ready exactly when the tasks can be dealt out so that all settle. -/
theorem settled_iff_ready {ranks : SchedulingInfo} {order : List Nat} (costs : SameCosts (initialInfo om g) ranks)
    (topological : g.Topological order) (nodup : order.Nodup) :
    (∃ assigned : Nat → Int, ∀ before tn after, order = before ++ tn::after →
      Settled om g assigned before tn) ↔
    ∀ before tn after, order = before ++ tn::after →
      let (_,table,processors) := placeTasks om g before ranks freshProcessors
      Ready om g tn table processors := by
  have placed (before after : List Nat) (tn : Nat) (split : order = before ++ tn::after) :=
    inEdges_placed (split ▸ topological) (split ▸ nodup)
  constructor
  · intro dealt before tn after split
    obtain ⟨assigned,settled⟩ := dealt
    obtain ⟨ratios,table,available,looped,follows⟩ := placeTasks_follows costs nodup
      (fun before tn after _ _ _ split _ follows =>
        (follows.ready_iff (placed before after tn split)).mpr (settled before tn after split))
      before (tn::after) split
    rw [looped]
    exact ((follows.ready_iff (placed before after tn split)).mpr (settled before tn after split)).1
  · intro ready
    set final := (placeTasks om g order ranks freshProcessors).2.1 with last
    have stays (before tn after) (ratios : List ℚ) (table : SchedulingInfo) (available : Int → ℚ)
        (split : order = before ++ tn::after)
        (looped : placeTasks om g before ranks freshProcessors = (ratios,table,processorsOf available)) :
        Ready om g tn table (processorsOf available) ∧
          (soonest om g tn table (processorsOf available)).id = (final tn).assignedProcessor := by
      have prepared := ready before tn after split
      rw [looped] at prepared
      refine ⟨prepared,?_⟩
      have behind : tn ∉ after := (List.nodup_cons.mp (split ▸ nodup).of_append_right).1
      rw [last,split,placeTasks_split,looped,foldl_placeTask_frame _ _ behind]
      simp only [placeTaskIn,scheduleTask_soonest,Function.update_self]
      rfl
    refine ⟨fun tn => (final tn).assignedProcessor,fun before tn after split => ?_⟩
    obtain ⟨ratios,table,available,looped,follows⟩ := placeTasks_follows costs nodup
      (fun before tn after ratios table available split looped _ =>
        stays before tn after ratios table available split looped) before (tn::after) split
    exact (follows.ready_iff (placed before after tn split)).mp
      (stays before tn after ratios table available split looped)

end Dealt

/-- With positive costs the recorded times of every task are consistent exactly when the
tasks can be dealt to the processors so that none waits for data and none would rather be on
the other one. -/
theorem recordedTimes_iff (sort : (Nat → Nat → Bool) → List Nat → List Nat) (om : PerfModel)
    (g : TaskGraph) (contract : StdSort sort) (acyclic : g.Acyclic)
    (positive : ∀ tn < g.numVertices, 0 < (initialInfo om g tn).computationCostCPU ∧
      0 < (initialInfo om g tn).computationCostDPU) :
    ∃ placement, scheduleOn sort om g freshProcessors = some placement ∧
      ((∀ tn < g.numVertices, Timed om g placement.table tn) ↔ WaitFree sort om g) := by
  obtain ⟨ranks,filled,ranked,all⟩ := exactRanks_spec
    (fun tn inside => (positive tn inside).imp le_of_lt le_of_lt) acyclic fun _ => rfl
  set order := sort (byRank ranks) (List.range g.numVertices) with sortedTasks
  have sorted := contract (byRank ranks) (List.range g.numVertices) (byRank_strictWeak ranks)
  have topological := ranked.topological acyclic all sorted positive
  have orders : g.Orders order := sorted.perm
  have called : scheduleOn sort om g freshProcessors =
      some (placementOf g order (placeTasks om g order ranks freshProcessors)) :=
    scheduleOnIn_placed filled sort freshProcessors
  have eachStep (before after : List Nat) (tn : Nat) (split : order = before ++ tn::after) :
      Timed om g (placementOf g order (placeTasks om g order ranks freshProcessors)).table tn ↔
        let (_,table,processors) := placeTasks om g before ranks freshProcessors
        Ready om g tn table processors := by
    rw [split] at orders ⊢
    exact placeTasks_timed_iff ranks (split ▸ topological) orders.nodup
  have dealt := settled_iff_ready ranked.sameCosts topological orders.nodup
  refine ⟨_,called,?_⟩
  constructor
  · intro timed
    refine ⟨ranks,filled,dealt.mpr fun before tn after split => ?_⟩
    have inside : tn < g.numVertices := (orders.mem_iff tn).mp (by simp [sortedTasks,split])
    exact (eachStep before after tn split).mp (timed tn inside)
  · intro free tn inside
    obtain ⟨table,found,settled⟩ := free
    obtain rfl : ranks = table := Option.some.inj (filled.symm.trans found)
    obtain ⟨before,after,split⟩ := List.append_of_mem ((orders.mem_iff tn).mpr inside)
    exact (eachStep before after tn split).mpr (dealt.mp settled before tn after split)

section Wait

/-- The CPU takes long for a filter and the DPU for a MAC, and a transfer takes 5. -/
def waitingPerf : PerfModel where
  deducePerfCPU opTag _ := {timeCostSecond := if opTag = .FILTER then 100 else if opTag = .MAP then 5 else 1}
  deducePerfDPU opTag _ := {timeCostSecond := if opTag = .FILTER then 1 else 10}

/-- A filter over the output of a MAC. -/
def macThenFilter : TaskGraph :=
  ⟨[⟨.MAC,.MemoryBound,1⟩,⟨.FILTER,.MemoryBound,1⟩],[⟨0,1,1⟩],by decide⟩

private theorem macThenFilter_acyclic : macThenFilter.Acyclic :=
  (by decide : macThenFilter.Topological [0,1]).acyclic

private theorem waitingPerf_positive (tn : Nat) (inside : tn < macThenFilter.numVertices) :
    0 < (initialInfo waitingPerf macThenFilter tn).computationCostCPU ∧
      0 < (initialInfo waitingPerf macThenFilter tn).computationCostDPU := by
  have both : ∀ tn < macThenFilter.numVertices,
      0 < (initialInfo waitingPerf macThenFilter tn).computationCostCPU ∧
        0 < (initialInfo waitingPerf macThenFilter tn).computationCostDPU := by decide +kernel
  exact both tn inside

theorem recordedTimes_iff_macThenFilter : ∃ placement,
    scheduleOn (favour 0) waitingPerf macThenFilter freshProcessors = some placement ∧
      ((∀ tn < 2, Timed waitingPerf macThenFilter placement.table tn) ↔
        WaitFree (favour 0) waitingPerf macThenFilter) :=
  recordedTimes_iff (favour 0) waitingPerf macThenFilter (favour_stdSort 0) macThenFilter_acyclic
    waitingPerf_positive

/-- The filter goes to the DPU, waits there for 6 and is recorded to take 7. -/
theorem recordedTimes_inconsistent : ¬ ∀ (sort : (Nat → Nat → Bool) → List Nat → List Nat) (om : PerfModel)
    (g : TaskGraph), StdSort sort → g.Acyclic →
      (∀ tn < g.numVertices, 0 < (initialInfo om g tn).computationCostCPU ∧
        0 < (initialInfo om g tn).computationCostDPU) →
      (∀ edge ∈ g.edges, 0 ≤ transferCost om g edge) →
      ∃ placement, scheduleOn sort om g freshProcessors = some placement ∧
        ∀ tn < g.numVertices, Timed om g placement.table tn := by
  intro always
  obtain ⟨placement,called,timed⟩ := always (favour 0) waitingPerf macThenFilter (favour_stdSort 0)
    macThenFilter_acyclic waitingPerf_positive (by decide +kernel)
  have same : scheduleOn (favour 0) waitingPerf macThenFilter freshProcessors =
      scheduleOn (fun _ input => input) waitingPerf macThenFilter freshProcessors := by
    have ahead : ∀ ranks, calculateUpwardRanks macThenFilter (initialInfo waitingPerf macThenFilter) =
        some ranks → byRank ranks 0 1 = true := by
      have all : (calculateUpwardRanks macThenFilter (initialInfo waitingPerf macThenFilter)).all
          (fun ranks => byRank ranks 0 1) = true := by decide +kernel
      intro ranks filled
      rwa [filled] at all
    apply Option.map_congr
    intro ranks filled
    have sorted := favour_stdSort 0 (byRank ranks) [0,1] (byRank_strictWeak ranks)
    have order : favour 0 (byRank ranks) [0,1] = [0,1] := sorted.pair (ahead ranks filled)
    exact congrArg (fun order => placementOf macThenFilter order
      (placeTasks waitingPerf macThenFilter order ranks freshProcessors)) order
  have recorded : (scheduleOn (fun _ input => input) waitingPerf macThenFilter freshProcessors).map
      (fun placement => ((placement.table 1).endTime - (placement.table 1).startTime,
        computationCost (placement.table 1) (placement.table 1).assignedProcessor)) = some (7,1) := by
    decide +kernel
  rw [← same,called] at recorded
  obtain ⟨took,cost⟩ := Prod.mk.inj (Option.some.inj recorded)
  have equal := (timed 1 (by decide)).1
  rw [took,cost] at equal
  norm_num at equal

end Wait
end MetaPB.Scheduler

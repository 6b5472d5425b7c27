import MetaPB.Executor.Safety
import MetaPB.Lib.Makespan

/-! Simulated time. The subtasks of a `MIMIC` run are jobs on two clocks, one for the
CPU worker and one shared by the DPU, MAP and REDUCE workers; every run replays them in
the order they execute. The order on the shared clock decides the time returned, which
lies between the longest dependency path and the total cost. -/
namespace MetaPB.Executor
open Lib Lib.Transition Lib.Sequence Operator Utils

inductive Device where
  | cpu | dpu
  deriving DecidableEq

def Worker.device : Worker → Device
  | .cpu => .cpu
  | .dpu | .map | .reduce => .dpu

def Closure.perf (om : PerfModel) : Closure → PerfStats
  | .mimic worker opTag pageBlkCnt => Executor.perf om worker opTag pageBlkCnt
  | _ => {}

section Jobs
variable (om : PerfModel) (heapBasePtr : Nat) (g : TaskGraph) (sched : Schedule)

def plannedSubtask (subtask : Subtask) : Task :=
  plannedTask heapBasePtr g sched .MIMIC (sched.order.idxOf subtask.2) subtask.1

def subtaskPerf (subtask : Subtask) : PerfStats :=
  (plannedSubtask heapBasePtr g sched subtask).execute.perf om

/-- Subtasks with their dependency checks and their costs in milliseconds. A logical
task's MAP and REDUCE closures do nothing, so they are silent. -/
def subtaskJobs : Makespan.Jobs Subtask Device ℚ where
  resource subtask := subtask.1.device
  waits subtask := (subtask.1.waitsFor g.predecessors subtask.2).map (subtask.1.awaits,·)
  cost subtask := (subtaskPerf om heapBasePtr g sched subtask).timeCostSecond * 1000
  silent subtask := (plannedSubtask heapBasePtr g sched subtask).execute = .nothing

theorem plannedSubtask_execute (subtask : Subtask) :
    (plannedSubtask heapBasePtr g sched subtask).execute = .nothing ∨
      ∃ opTag pageBlkCnt, (plannedSubtask heapBasePtr g sched subtask).execute =
        .mimic subtask.1 opTag pageBlkCnt := by
  obtain ⟨worker,id⟩ := subtask
  cases worker with
  | cpu => exact Or.inr ⟨_,_,rfl⟩
  | dpu => exact Or.inr ⟨_,_,rfl⟩
  | map =>
    simp only [plannedSubtask,plannedTask,genXferTask]
    split
    · exact Or.inl rfl
    · exact Or.inr ⟨_,_,rfl⟩
  | reduce =>
    simp only [plannedSubtask,plannedTask,genXferTask]
    split
    · exact Or.inl rfl
    · exact Or.inr ⟨_,_,rfl⟩

theorem perf_nonneg {om : PerfModel} (nonneg : om.Nonneg) (worker : Worker) (opTag : OperatorTag)
    (pageBlkCnt : Nat) : 0 ≤ (perf om worker opTag pageBlkCnt).timeCostSecond := by
  unfold perf
  split
  · exact le_rfl
  · cases worker with
    | dpu => exact nonneg.dpu opTag pageBlkCnt
    | _ => exact nonneg.cpu opTag pageBlkCnt

theorem cost_nonneg {om : PerfModel} (nonneg : om.Nonneg) (subtask : Subtask) :
    0 ≤ (subtaskJobs om heapBasePtr g sched).cost subtask := by
  apply mul_nonneg _ (by norm_num)
  rcases plannedSubtask_execute heapBasePtr g sched subtask with quiet | ⟨opTag,cnt,runs⟩
  · simp [subtaskPerf,quiet,Closure.perf]
  · simpa [subtaskPerf,runs,Closure.perf] using perf_nonneg nonneg subtask.1 opTag cnt

end Jobs

def executions (events : List Event) : List Subtask :=
  (events.filter (·.action = .execute)).map fun event => (event.worker,event.id)

theorem executions_snoc (events : List Event) (event : Event) :
    executions (events ++ [event]) = executions events ++
      if event.action = .execute then [(event.worker,event.id)] else [] := by
  simp only [executions,List.filter_append,List.map_append]
  congr 1
  split <;> simp [*]

theorem served_executions (worker : Worker) (events : List Event) :
    served worker (executions events) = performed .execute worker events := by
  simp only [served,executions,performed,List.filter_map,List.map_map,List.filter_filter]
  congr 1
  apply List.filter_congr
  intro event _
  simp [Bool.and_comm]

theorem mem_executions (events : List Event) (worker : Worker) (id : Nat) :
    (worker,id) ∈ executions events ↔ id ∈ performed .execute worker events := by
  rw [← served_executions,mem_served]

structure Pool.Shows (pool : Pool) (clocks : Makespan.Clocks Subtask Device ℚ) : Prop where
  clock : ∀ worker, pool.clock worker = clocks.clock worker.device
  finish : ∀ worker id, (pool.completed worker id).completeTimeMs = clocks.finish (worker,id)

section Replay
variable {om : PerfModel} {heapBasePtr : Nat} {g : TaskGraph} {sched : Schedule}

theorem Pool.Shows.criticalZone {pool : Pool} {clocks : Makespan.Clocks Subtask Device ℚ}
    (shows : pool.Shows clocks) {worker : Worker} {id : Nat} (jobs : Makespan.Jobs Subtask Device ℚ)
    (stats : PerfStats) (device : jobs.resource (worker,id) = worker.device)
    (cost : jobs.cost (worker,id) = stats.timeCostSecond * 1000)
    (loud : jobs.silent (worker,id) = false)
    (woken : pool.lastWakerTimeMs worker id = Makespan.wake clocks.finish (jobs.waits (worker,id))) :
    (pool.criticalZone worker id stats).Shows (jobs.step clocks (worker,id)) := by
  have now : max (pool.clock worker) (pool.lastWakerTimeMs worker id) + stats.timeCostSecond * 1000 =
      jobs.ending clocks (worker,id) := by
    rw [Makespan.Jobs.ending,device,cost,woken,shows.clock]
  constructor
  · intro other
    have before := shows.clock other
    simp only [Makespan.Jobs.step,loud,device,Bool.false_eq_true,if_false,← now]
    cases worker <;> cases other <;>
      simp_all [Pool.criticalZone,Pool.clock,Worker.device]
  · intro other task
    have before := shows.finish other task
    simp only [Makespan.Jobs.step,loud,Bool.false_eq_true,if_false,← now]
    rcases eq_or_ne (other,task) (worker,id) with same | apart
    · cases same
      simp [Pool.criticalZone,Pool.put_apply]
    · have distinct : ¬ (other = worker ∧ task = id) := fun both => apart (by rw [both.1,both.2])
      simpa [Pool.criticalZone,Pool.put_apply,distinct,apart] using before

/-- What a `MIMIC` run keeps between events, against the replay of its executions. -/
structure Timed (om : PerfModel) (heapBasePtr : Nat) (g : TaskGraph) (sched : Schedule)
    (done : List Subtask) (pool : Pool) : Prop where
  shows : pool.Shows ((subtaskJobs om heapBasePtr g sched).replay done)
  energy : pool.totalEnergyCostJoule =
    (done.map fun subtask =>
      (subtaskPerf om heapBasePtr g sched subtask).energyCostJoule).sum
  planned : ∀ worker task, (pool.phase worker).task = some task ∨ task ∈ pool.queue worker →
    task = plannedSubtask heapBasePtr g sched (worker,task.id)
  gathered : ∀ worker id, 0 ≤ pool.lastWakerTimeMs worker id ∧ pool.lastWakerTimeMs worker id ≤
    Makespan.wake ((subtaskJobs om heapBasePtr g sched).replay done).finish
      ((subtaskJobs om heapBasePtr g sched).waits (worker,id))
  woken : ∀ worker task, pool.phase worker = .ready task ∨ pool.phase worker = .executing task →
    pool.lastWakerTimeMs worker task.id =
      Makespan.wake ((subtaskJobs om heapBasePtr g sched).replay done).finish
        ((subtaskJobs om heapBasePtr g sched).waits (worker,task.id))
  executed : ∀ worker id, (pool.completed worker id).isCompleted = true ∨
    (∃ task, pool.phase worker = .executed task ∧ task.id = id) → (worker,id) ∈ done
  respects : Makespan.Respects (subtaskJobs om heapBasePtr g sched) done

section Step
variable {done : List Subtask} {pool next : Pool} {worker : Worker} {action : Action} {id : Nat}
  (timed : Timed om heapBasePtr g sched done pool)
  (dependencies : pool.dependencies = g.predecessors)

include dependencies in
private theorem waits_eq (worker : Worker) (id : Nat) :
    (subtaskJobs om heapBasePtr g sched).waits (worker,id) =
      (pool.waitList worker id).map (worker.awaits,·) := by
  rw [Pool.waitList_eq,dependencies]
  rfl

/-- A check raises a task's waker time to no more than its wake time, and a passed
check raises it exactly there, whatever earlier failed checks left behind. -/
private theorem Timed.check (worker : Worker) (id : Nat) {met : Bool} {latest : ℚ}
    (timed : Timed om heapBasePtr g sched done pool)
    (dependencies : pool.dependencies = g.predecessors)
    (checked : Pool.allDependenciesMet (pool.completed worker.awaits) (pool.waitList worker id)
      (pool.lastWakerTimeMs worker id) = (met,latest)) :
    (0 ≤ latest ∧ latest ≤
      Makespan.wake ((subtaskJobs om heapBasePtr g sched).replay done).finish
        ((subtaskJobs om heapBasePtr g sched).waits (worker,id))) ∧
    (met = true → latest =
      Makespan.wake ((subtaskJobs om heapBasePtr g sched).replay done).finish
        ((subtaskJobs om heapBasePtr g sched).waits (worker,id))) := by
  have waits : (subtaskJobs om heapBasePtr g sched).waits (worker,id) = _ :=
    waits_eq dependencies worker id
  obtain ⟨nonneg,below⟩ := timed.gathered worker id
  have value : latest = (Pool.allDependenciesMet (pool.completed worker.awaits)
      (pool.waitList worker id) (pool.lastWakerTimeMs worker id)).2 := by rw [checked]
  constructor
  · have each : ∀ dep ∈ pool.waitList worker id, (pool.completed worker.awaits dep).completeTimeMs ≤
        Makespan.wake ((subtaskJobs om heapBasePtr g sched).replay done).finish
          ((subtaskJobs om heapBasePtr g sched).waits (worker,id)) := by
      intro dep member
      rw [timed.shows.finish]
      apply Makespan.le_wake
      rw [waits]
      exact List.mem_map_of_mem member
    obtain ⟨grown,bounded⟩ := Pool.allDependenciesMet_snd_le below each
    rw [value]
    exact ⟨nonneg.trans grown,bounded⟩
  · rintro rfl
    rw [value,Pool.allDependenciesMet_snd_of_met (by rw [checked]),
      ← Makespan.fold_from_partial nonneg below,waits,List.foldl_map]
    simp only [timed.shows.finish]

private theorem quiet_frame (moves : Pool.Moves om pool worker id action next)
    (quiet : action ≠ .execute) :
    (∀ other, next.clock other = pool.clock other) ∧
    (∀ other task, (next.completed other task).completeTimeMs =
      (pool.completed other task).completeTimeMs) ∧
    next.totalEnergyCostJoule = pool.totalEnergyCostJoule := by
  cases moves with
  | execute => exact absurd rfl quiet
  | publish =>
    refine ⟨fun other => by cases other <;> rfl,fun other task => ?_,rfl⟩
    simp only [Pool.enter,Pool.put_apply]
    split
    next same => rw [same.1,same.2]
    next => rfl
  | _ => exact ⟨fun other => by cases other <;> rfl,fun _ _ => rfl,rfl⟩

private theorem Timed.gathered_quiet (timed : Timed om heapBasePtr g sched done pool)
    (dependencies : pool.dependencies = g.predecessors)
    (moves : Pool.Moves om pool worker id action next) (quiet : action ≠ .execute)
    (other : Worker) (task : Nat) :
    0 ≤ next.lastWakerTimeMs other task ∧ next.lastWakerTimeMs other task ≤
      Makespan.wake ((subtaskJobs om heapBasePtr g sched).replay done).finish
        ((subtaskJobs om heapBasePtr g sched).waits (other,task)) := by
  cases moves with
  | refused front latest phase named failed =>
    simp only [Pool.enter,Pool.put_apply]
    split
    next same =>
      obtain ⟨rfl,rfl⟩ := same
      exact (timed.check other task dependencies failed).1
    next => exact timed.gathered other task
  | cleared front latest phase named met =>
    simp only [Pool.enter,Pool.put_apply]
    split
    next same =>
      obtain ⟨rfl,rfl⟩ := same
      exact (timed.check other task dependencies met).1
    next => exact timed.gathered other task
  | execute => exact absurd rfl quiet
  | _ => exact timed.gathered other task

private theorem Timed.woken_quiet (timed : Timed om heapBasePtr g sched done pool)
    (dependencies : pool.dependencies = g.predecessors)
    (moves : Pool.Moves om pool worker id action next) (quiet : action ≠ .execute)
    (other : Worker) (task : Task)
    (held : next.phase other = .ready task ∨ next.phase other = .executing task) :
    next.lastWakerTimeMs other task.id =
      Makespan.wake ((subtaskJobs om heapBasePtr g sched).replay done).finish
        ((subtaskJobs om heapBasePtr g sched).waits (other,task.id)) := by
  rcases eq_or_ne other worker with rfl | apart
  · cases moves with
    | cleared front latest phase named met =>
      obtain rfl : front = task := by simpa using held
      subst named
      simpa [Pool.enter,Pool.put_apply] using (timed.check other front.id dependencies met).2 rfl
    | start front phase =>
      obtain rfl : front = task := by simpa using held
      exact timed.woken other front (Or.inl phase)
    | execute => exact absurd rfl quiet
    | _ => simp at held
  · rw [moves.phase_other apart] at held
    have before := timed.woken other task held
    cases moves with
    | refused => simpa [Pool.enter,Pool.put_apply,apart] using before
    | cleared => simpa [Pool.enter,Pool.put_apply,apart] using before
    | execute => exact absurd rfl quiet
    | _ => exact before

private theorem Timed.executed_quiet (timed : Timed om heapBasePtr g sched done pool)
    (moves : Pool.Moves om pool worker id action next) (quiet : action ≠ .execute)
    (other : Worker) (task : Nat)
    (seen : (next.completed other task).isCompleted = true ∨
      ∃ front, next.phase other = .executed front ∧ front.id = task) :
    (other,task) ∈ done := by
  rcases seen with bit | ⟨front,phase,rfl⟩
  · rw [moves.isCompleted] at bit
    split at bit
    next now =>
      obtain ⟨rfl,rfl,rfl⟩ := now
      cases moves with
      | publish front phase named => exact timed.executed other task (Or.inr ⟨front,phase,named⟩)
    next => exact timed.executed other task (Or.inl bit)
  · rcases eq_or_ne other worker with rfl | apart
    · cases moves with
      | execute => exact absurd rfl quiet
      | _ => simp at phase
    · rw [moves.phase_other apart] at phase
      exact timed.executed other front.id (Or.inr ⟨front,phase,rfl⟩)

private theorem Timed.next_quiet (timed : Timed om heapBasePtr g sched done pool)
    (dependencies : pool.dependencies = g.predecessors)
    (moves : Pool.Moves om pool worker id action next) (quiet : action ≠ .execute) :
    Timed om heapBasePtr g sched done next := by
  obtain ⟨clock,finish,energy⟩ := quiet_frame moves quiet
  constructor
  · constructor
    · intro other
      rw [clock,timed.shows.clock]
    · intro other task
      rw [finish,timed.shows.finish]
  · rw [energy,timed.energy]
  · exact fun other task held => timed.planned other task (moves.held_before held)
  · exact timed.gathered_quiet dependencies moves quiet
  · exact timed.woken_quiet dependencies moves quiet
  · exact timed.executed_quiet moves quiet
  · exact timed.respects

private theorem Timed.shows_execute {task : Task}
    (timed : Timed om heapBasePtr g sched done pool)
    (planned : task = plannedSubtask heapBasePtr g sched (worker,task.id))
    (phase : pool.phase worker = .executing task) :
    (pool.runClosure om task).Shows
        ((subtaskJobs om heapBasePtr g sched).replay (done ++ [(worker,task.id)])) ∧
      (pool.runClosure om task).totalEnergyCostJoule = pool.totalEnergyCostJoule +
        (subtaskPerf om heapBasePtr g sched (worker,task.id)).energyCostJoule := by
  have woken := timed.woken worker task (Or.inr phase)
  rw [Makespan.replay_snoc]
  rcases plannedSubtask_execute heapBasePtr g sched (worker,task.id) with quiet | ⟨opTag,cnt,runs⟩
  · have closure : task.execute = .nothing := by rw [planned,quiet]
    have silent : (subtaskJobs om heapBasePtr g sched).silent (worker,task.id) = true := by
      simp [subtaskJobs,quiet]
    simpa [Pool.runClosure,closure,Makespan.Jobs.step,silent,subtaskPerf,quiet,Closure.perf]
      using timed.shows
  · have closure : task.execute = .mimic worker opTag cnt := by rw [planned,runs]
    have loud : (subtaskJobs om heapBasePtr g sched).silent (worker,task.id) = false := by
      simp [subtaskJobs,runs]
    have stats : subtaskPerf om heapBasePtr g sched (worker,task.id) = perf om worker opTag cnt := by
      simp [subtaskPerf,runs,Closure.perf]
    have cost : (subtaskJobs om heapBasePtr g sched).cost (worker,task.id) =
        (perf om worker opTag cnt).timeCostSecond * 1000 := by simp [subtaskJobs,stats]
    simp only [Pool.runClosure,closure]
    exact ⟨timed.shows.criticalZone _ _ rfl cost loud woken,by rw [stats]; rfl⟩

/-- What a cleared task waits for has executed, so later executions leave its end alone. -/
private theorem Timed.waited (timed : Timed om heapBasePtr g sched done pool) (sound : pool.Sound)
    (dependencies : pool.dependencies = g.predecessors) (other : Worker) (held : Task)
    (clear : (pool.phase other).cleared = some held) :
    ∀ wait ∈ (subtaskJobs om heapBasePtr g sched).waits (other,held.id), wait ∈ done := by
  rw [waits_eq dependencies]
  intro wait member
  obtain ⟨dep,inside,rfl⟩ := List.mem_map.mp member
  exact timed.executed _ _ (Or.inl (sound.settled other held clear dep inside))

private theorem Timed.next_execute (nonneg : om.Nonneg)
    (timed : Timed om heapBasePtr g sched done pool) (sound : pool.Sound)
    (dependencies : pool.dependencies = g.predecessors) (fresh : (worker,id) ∉ done)
    (moves : Pool.Moves om pool worker id .execute next) :
    Timed om heapBasePtr g sched (done ++ [(worker,id)]) next := by
  have kept := moves
  cases moves with
  | execute task phase named =>
    subst named
    have planned := timed.planned worker task (Or.inl (by simp [phase,Phase.task]))
    obtain ⟨shows,energy⟩ := timed.shows_execute planned phase
    constructor
    · exact ⟨fun other => (by cases other <;> rfl : _ = _).trans (shows.clock other),shows.finish⟩
    · rw [List.map_append,List.sum_append,← timed.energy]
      simpa [Pool.enter] using energy
    · exact fun other held inside => timed.planned other held (kept.held_before inside)
    · intro other held
      obtain ⟨positive,below⟩ := timed.gathered other held
      simp only [Pool.enter,Pool.runClosure_lastWakerTimeMs]
      have grows := Makespan.finish_le_snoc (cost_nonneg heapBasePtr g sched nonneg) fresh
      exact ⟨positive,below.trans (Makespan.wake_mono fun wait _ => grows wait)⟩
    · intro other held inside
      rcases eq_or_ne other worker with rfl | apart
      · simp at inside
      · rw [kept.phase_other apart] at inside
        have clear : (pool.phase other).cleared = some held := by
          rcases inside with ready | running
          · simp [ready,Phase.cleared]
          · simp [running,Phase.cleared]
        simp only [Pool.enter,Pool.runClosure_lastWakerTimeMs]
        rw [timed.woken other held inside]
        apply Makespan.wake_congr
        intro wait member
        have before := timed.waited sound dependencies other held clear wait member
        have distinct : wait ≠ (worker,task.id) := fun same => fresh (same ▸ before)
        exact (Makespan.finish_snoc_of_ne distinct).symm
    · intro other held seen
      simp only [List.mem_append,List.mem_singleton,Prod.mk.injEq]
      rcases seen with bit | ⟨front,running,rfl⟩
      · rw [kept.isCompleted] at bit
        exact Or.inl (timed.executed other held (Or.inl (by simpa using bit)))
      · rcases eq_or_ne other worker with rfl | apart
        · right
          have same : task = front := by simpa using running
          exact ⟨rfl,by rw [same]⟩
        · rw [kept.phase_other apart] at running
          exact Or.inl (timed.executed other front.id (Or.inr ⟨front,running,rfl⟩))
    · exact timed.respects.snoc
        (timed.waited sound dependencies worker task (by simp [phase,Phase.cleared]))

end Step

theorem run_timed (nonneg : om.Nonneg) (orders : g.Orders sched.order) {events : List Event}
    {pool : Pool}
    (ran : run (Pool.step om) (parseGraph heapBasePtr g sched .MIMIC) events = some pool) :
    Timed om heapBasePtr g sched (executions events) pool := by
  apply run_history (fun events pool => Timed om heapBasePtr g sched (executions events) pool) _ _
    events pool ran
  · rw [parseGraph_eq]
    refine ⟨⟨?_,fun _ _ => rfl⟩,rfl,?_,?_,?_,?_,?_⟩
    · intro worker
      cases worker <;> rfl
    · intro worker task held
      obtain ⟨i,bound,rfl⟩ : ∃ i < sched.order.length,
          plannedTask heapBasePtr g sched .MIMIC i worker = task := by
        simpa [cleanStatus,Phase.task] using held
      have position : sched.order.idxOf (sched.taskAt i) = i := by
        simpa [Schedule.taskAt,bound] using orders.nodup.idxOf_getElem i bound
      simp [plannedSubtask,position]
    · intro worker id
      exact ⟨le_rfl,Makespan.wake_nonneg _ _⟩
    · intro worker task held
      simp [cleanStatus] at held
    · intro worker id seen
      simp [cleanStatus] at seen
    · intro before job after split
      simp [executions] at split
  · intro events pool event next ran timed stepped
    obtain ⟨worker,action,id⟩ := event
    obtain ⟨sound,dependencies⟩ := run_sound ran
    rw [parsed_dependencies heapBasePtr .MIMIC orders] at dependencies
    have moves := Pool.step_moves stepped
    rcases eq_or_ne action .execute with rfl | quiet
    · have fresh : (worker,id) ∉ executions events := by
        have split := run_performed (by decide : Action.execute ≠ .check) worker ran
        have nodup := orders.nodup
        rw [← split] at nodup
        rw [mem_executions]
        intro early
        cases moves with
        | execute task phase named =>
          exact (List.disjoint_of_nodup_append nodup) early (by simp [phase,Phase.before,named])
      simpa [executions_snoc] using timed.next_execute nonneg sound dependencies fresh moves
    · simpa [executions_snoc,quiet] using timed.next_quiet dependencies moves quiet

theorem joined_executions (orders : g.Orders sched.order) {events : List Event} {pool : Pool}
    (ran : run (Pool.step om) (parseGraph heapBasePtr g sched .MIMIC) events = some pool)
    (joined : pool.Joined) :
    (∀ worker, served worker (executions events) = sched.order) ∧
      (executions events).Perm (subtasks g.numVertices) := by
  have each (worker : Worker) : served worker (executions events) = sched.order := by
    have split := run_performed (by decide : Action.execute ≠ .check) worker ran
    obtain ⟨idle,drained⟩ := joined worker
    rw [served_executions]
    simpa [idle,drained,Phase.before] using split
  refine ⟨each,Queues.perm_subtasks fun worker => ?_⟩
  rw [each worker]
  exact orders

end Replay

theorem nodup_subtasks (n : Nat) : (subtasks n).Nodup := by
  apply List.nodup_iff_count_le_one.mpr
  intro subtask
  obtain ⟨worker,id⟩ := subtask
  rw [← count_served,served_subtasks]
  exact List.nodup_iff_count_le_one.mp List.nodup_range id

theorem mem_subtasks (n : Nat) (subtask : Subtask) : subtask ∈ subtasks n ↔ subtask.2 < n := by
  obtain ⟨worker,id⟩ := subtask
  rw [← mem_served,served_subtasks,List.mem_range]

/-- START tasks come first, END tasks last, and computing either takes no time. -/
structure LogicalEnds (om : PerfModel) (g : TaskGraph) : Prop where
  first : ∀ task, (g.properties task).op = .LOGIC_START → g.predecessors task = []
  last : ∀ task, (g.properties task).op = .LOGIC_END → g.successors task = []
  free : ∀ opTag pageBlkCnt, isLogic opTag = true →
    (om.deducePerfCPU opTag pageBlkCnt).timeCostSecond = 0 ∧
      (om.deducePerfDPU opTag pageBlkCnt).timeCostSecond = 0

section Logical
variable {om : PerfModel} {heapBasePtr : Nat} {g : TaskGraph} {sched : Schedule}

theorem taskAt_idxOf {task : Nat} (member : task ∈ sched.order) :
    sched.taskAt (sched.order.idxOf task) = task := by
  have bound := List.idxOf_lt_length_of_mem member
  simp [Schedule.taskAt,bound]

theorem silent_cost {subtask : Subtask}
    (quiet : (subtaskJobs om heapBasePtr g sched).silent subtask = true) :
    (subtaskJobs om heapBasePtr g sched).cost subtask = 0 := by
  have closure : (plannedSubtask heapBasePtr g sched subtask).execute = .nothing := by
    simpa [subtaskJobs] using quiet
  simp [subtaskJobs,subtaskPerf,closure,Closure.perf]

private theorem silent_logic {worker : Worker} {task : Nat} (member : task ∈ sched.order)
    (quiet : (subtaskJobs om heapBasePtr g sched).silent (worker,task) = true) :
    (worker = .map ∨ worker = .reduce) ∧ isLogic (g.properties task).op = true := by
  have closure : (plannedSubtask heapBasePtr g sched (worker,task)).execute = .nothing := by
    simpa [subtaskJobs] using quiet
  have named : (planTask g sched (sched.order.idxOf task)).taskId = task := taskAt_idxOf member
  simp only [plannedSubtask,plannedTask,named] at closure
  cases worker with
  | cpu => simp [genComputeTask] at closure
  | dpu => simp [genComputeTask] at closure
  | map =>
    refine ⟨Or.inl rfl,?_⟩
    by_contra computes
    simp [genXferTask,computes] at closure
  | reduce =>
    refine ⟨Or.inr rfl,?_⟩
    by_contra computes
    simp [genXferTask,computes] at closure

private theorem logic_compute_free (logical : LogicalEnds om g) {worker : Worker} {task : Nat}
    (compute : worker = .cpu ∨ worker = .dpu) (member : task ∈ sched.order)
    (logic : isLogic (g.properties task).op = true) :
    (subtaskJobs om heapBasePtr g sched).cost (worker,task) = 0 := by
  have named : (planTask g sched (sched.order.idxOf task)).taskId = task := taskAt_idxOf member
  have free (cnt : Nat) : (perf om worker (g.properties task).op cnt).timeCostSecond = 0 := by
    unfold perf
    split
    · rfl
    · rcases compute with rfl | rfl
      · exact (logical.free _ cnt logic).1
      · exact (logical.free _ cnt logic).2
  rcases compute with rfl | rfl
  · simp only [subtaskJobs,subtaskPerf,plannedSubtask,plannedTask,genComputeTask,Closure.perf,named,
      free,zero_mul]
  · simp only [subtaskJobs,subtaskPerf,plannedSubtask,plannedTask,genComputeTask,Closure.perf,named,
      free,zero_mul]

private theorem logic_source (logical : LogicalEnds om g) {u v : Nat} (edge : g.Linked u v)
    (logic : isLogic (g.properties u).op = true) : g.predecessors u = [] := by
  have kinds : (g.properties u).op = .LOGIC_END ∨ (g.properties u).op = .LOGIC_START := by
    simpa [isLogic] using logic
  rcases kinds with final | start
  · have successor := (g.mem_successors u v).mpr edge
    rw [logical.last u final] at successor
    simp at successor
  · exact logical.first u start

private theorem source_path_free (logical : LogicalEnds om g) {worker : Worker} {task : Nat}
    (compute : worker = .cpu ∨ worker = .dpu) (member : task ∈ sched.order)
    (logic : isLogic (g.properties task).op = true) (source : g.predecessors task = []) {c : ℚ}
    (path : Makespan.PathCost (subtaskJobs om heapBasePtr g sched) (worker,task) c) : c = 0 := by
  cases path with
  | single => exact logic_compute_free logical compute member logic
  | extend _ _ _ none _ =>
    exfalso
    rcases compute with rfl | rfl
    · simp [subtaskJobs,Worker.waitsFor,source] at none
    · simp [subtaskJobs,Worker.waitsFor,source] at none

/-- A silent transfer that something waits for belongs to a START task, and nothing on
the way to it takes time. -/
private theorem silent_source_free (logical : LogicalEnds om g) (orders : g.Orders sched.order)
    (job later : Subtask) (quiet : (subtaskJobs om heapBasePtr g sched).silent job = true)
    (linked : job ∈ (subtaskJobs om heapBasePtr g sched).waits later) (c : ℚ)
    (path : Makespan.PathCost (subtaskJobs om heapBasePtr g sched) job c) : c = 0 := by
  obtain ⟨worker,u⟩ := job
  obtain ⟨other,v⟩ := later
  obtain ⟨wait,member,same⟩ := List.mem_map.mp linked
  obtain ⟨rfl,rfl⟩ := Prod.mk.inj same
  -- a silent subtask is a transfer, and only compute tasks wait for transfers
  have edge : g.Linked wait v := by
    apply (g.mem_predecessors wait v).mp
    cases other with
    | cpu => exact member
    | dpu => exact member
    | map => simp [subtaskJobs,plannedSubtask,plannedTask,genComputeTask,Worker.awaits] at quiet
    | reduce => simp [subtaskJobs,plannedSubtask,plannedTask,genComputeTask,Worker.awaits] at quiet
  have inside : wait ∈ sched.order := (orders.mem_iff wait).mpr edge.bounds.1
  obtain ⟨transfer,logic⟩ := silent_logic inside quiet
  cases path with
  | single => exact silent_cost quiet
  | extend before _ d earlier path =>
    rw [silent_cost quiet,add_zero]
    obtain ⟨front,single,same⟩ := List.mem_map.mp earlier
    have compute : other.awaits.awaits = .cpu ∨ other.awaits.awaits = .dpu := by
      rcases transfer with isMap | isReduce
      · exact Or.inl (by rw [isMap]; rfl)
      · exact Or.inr (by rw [isReduce]; rfl)
    have own : front = wait := by
      rcases transfer with isMap | isReduce
      · simpa [isMap,Worker.waitsFor] using single
      · simpa [isReduce,Worker.waitsFor] using single
    subst own
    subst same
    exact source_path_free logical compute inside logic (logic_source logical edge logic) path

end Logical

def chain : TaskGraph where
  vertices := [{op := .LOGIC_START},{op := .MAC,inputSizeMiB := 20},{op := .LOGIC_END}]
  edges := [⟨0,1,1⟩,⟨1,2,1⟩]
  inside := by decide

def chainPerf : PerfModel where
  deducePerfCPU
    | .MAC,_ => {timeCostSecond := 10}
    | .REDUCE,_ => {timeCostSecond := 1}
    | _,_ => {}
  deducePerfDPU
    | .MAC,_ => {timeCostSecond := 5}
    | _,_ => {}

def chainSchedule : Schedule := ⟨true,[0,1,2],[1/2,1/2,1/2]⟩

def chainRun (inner : List Subtask) : List Event :=
  let opening : List Subtask := [(.cpu,0),(.dpu,0),(.map,0),(.reduce,0)]
  let closing : List Subtask := [(.cpu,2),(.dpu,2),(.map,2),(.reduce,2)]
  (opening ++ inner ++ closing).flatMap Pool.cycle

theorem chainPerf_nonneg : chainPerf.Nonneg :=
  ⟨fun opTag _ => by cases opTag <;> norm_num [chainPerf],
    fun opTag _ => by cases opTag <;> norm_num [chainPerf]⟩

private theorem chain_logical : LogicalEnds chainPerf chain where
  first task start := by
    rcases task with _ | _ | _ | task
    · rfl
    · cases start
    · cases start
    · cases start
  last task final := by
    rcases task with _ | _ | _ | task
    · cases final
    · cases final
    · rfl
    · cases final
  free opTag _ logic := by
    cases opTag <;> first | exact ⟨rfl,rfl⟩ | cases logic

section Results
variable (om : PerfModel) (heapBasePtr : Nat) (g : TaskGraph) (sched : Schedule)

/-- The time returned, in milliseconds, is at least the cost of every dependency path
and at most the cost of all subtasks; the energy is the sum over all subtasks. -/
theorem execWorkload_makespan_sound (nonneg : om.Nonneg) (orders : g.Orders sched.order)
    (logical : LogicalEnds om g) (events : List Event) (stats : PerfStats)
    (returned : execWorkload om heapBasePtr g sched events = some stats) :
    (∀ subtask c, subtask.2 < g.numVertices →
      Makespan.PathCost (subtaskJobs om heapBasePtr g sched) subtask c →
        c ≤ stats.timeCostSecond * 1000) ∧
    stats.timeCostSecond * 1000 ≤ ((subtasks g.numVertices).map fun subtask =>
      (subtaskPerf om heapBasePtr g sched subtask).timeCostSecond * 1000).sum ∧
    stats.energyCostJoule = ((subtasks g.numVertices).map fun subtask =>
      (subtaskPerf om heapBasePtr g sched subtask).energyCostJoule).sum := by
  obtain ⟨pool,ran,joined,rfl⟩ := (execWorkload_eq_some _ _ _ _ _ _).mp returned
  have timed := run_timed nonneg orders ran
  obtain ⟨-,perm⟩ := joined_executions orders ran joined
  have costs := cost_nonneg heapBasePtr g sched nonneg
  have time : pool.result.timeCostSecond * 1000 = max pool.cpuMIMICTimeMs pool.dpuMIMICTimeMs := by
    simp only [Pool.result]
    ring
  have cpuClock := timed.shows.clock .cpu
  have dpuClock := timed.shows.clock .dpu
  simp only [Pool.clock,Worker.device] at cpuClock dpuClock
  rw [time,cpuClock,dpuClock]
  refine ⟨?_,?_,?_⟩
  · intro subtask c bound path
    have member : subtask ∈ executions events := perm.mem_iff.mpr ((mem_subtasks _ _).mpr bound)
    obtain ⟨device,late⟩ := Makespan.path_le_clock costs (perm.nodup_iff.mpr (nodup_subtasks _))
      timed.respects (fun _ => silent_cost) (silent_source_free logical orders) member path
    cases device with
    | cpu => exact late.trans (le_max_left _ _)
    | dpu => exact late.trans (le_max_right _ _)
  · have total := (Makespan.clock_le_total costs (executions events)).1
    rw [← (perm.map _).sum_eq]
    exact max_le (total .cpu) (total .dpu)
  · rw [← (perm.map _).sum_eq]
    exact timed.energy

omit om heapBasePtr g sched in
theorem execWorkload_makespan_sound_chain :
    ∃ stats, execWorkload chainPerf 0 chain chainSchedule
        (chainRun [(.cpu,1),(.dpu,1),(.map,1),(.reduce,1)]) = some stats ∧
      (subtaskJobs chainPerf 0 chain chainSchedule).cost (.cpu,1) ≤ stats.timeCostSecond * 1000 := by
  obtain ⟨stats,returned⟩ := Option.isSome_iff_exists.mp (by decide +kernel :
    (execWorkload chainPerf 0 chain chainSchedule
      (chainRun [(.cpu,1),(.dpu,1),(.map,1),(.reduce,1)])).isSome = true)
  have sound := execWorkload_makespan_sound chainPerf 0 chain chainSchedule chainPerf_nonneg
    (by decide) chain_logical _ stats returned
  exact ⟨stats,returned,sound.1 (.cpu,1) _ (by decide) (.single _)⟩

/-- The subtasks that advance `dpuMIMICTime_ms`, in the order they do. -/
def sharedClockOrder (events : List Event) : List Subtask :=
  (executions events).filter fun subtask => subtask.1.device = .dpu ∧
    (subtaskJobs om heapBasePtr g sched).silent subtask = false

variable {om heapBasePtr g sched}

private theorem cpu_executions (orders : g.Orders sched.order) {events : List Event} {pool : Pool}
    (ran : run (Pool.step om) (parseGraph heapBasePtr g sched .MIMIC) events = some pool)
    (joined : pool.Joined) :
    (executions events).filter (fun subtask => subtask.1.device = .cpu ∧
      (subtaskJobs om heapBasePtr g sched).silent subtask = false) =
        sched.order.map (Worker.cpu,·) := by
  rw [← (joined_executions orders ran joined).1 .cpu,served,List.map_map]
  have only : (executions events).filter (fun subtask => subtask.1.device = .cpu ∧
      (subtaskJobs om heapBasePtr g sched).silent subtask = false) =
        (executions events).filter (·.1 = .cpu) := by
    apply List.filter_congr
    rintro ⟨worker,id⟩ -
    cases worker <;>
      simp [Worker.device,subtaskJobs,plannedSubtask,plannedTask,genComputeTask]
  rw [only]
  calc
    (executions events).filter (·.1 = .cpu) = ((executions events).filter (·.1 = .cpu)).map id :=
      (List.map_id _).symm
    _ = _ := by
      apply List.map_congr_left
      intro subtask member
      obtain ⟨worker,id⟩ := subtask
      have own : worker = .cpu := by simpa using (List.mem_filter.mp member).2
      rw [own]
      rfl

/-- Two complete runs that advance the shared clock in one order return the same record. -/
theorem execWorkload_eq_of_shared_order (nonneg : om.Nonneg) (orders : g.Orders sched.order)
    (first second : List Event) (a b : PerfStats)
    (one : execWorkload om heapBasePtr g sched first = some a)
    (two : execWorkload om heapBasePtr g sched second = some b)
    (same : sharedClockOrder om heapBasePtr g sched first =
      sharedClockOrder om heapBasePtr g sched second) : a = b := by
  obtain ⟨s,ran,joined,rfl⟩ := (execWorkload_eq_some _ _ _ _ _ _).mp one
  obtain ⟨t,ran',joined',rfl⟩ := (execWorkload_eq_some _ _ _ _ _ _).mp two
  have timed := run_timed nonneg orders ran
  have timed' := run_timed nonneg orders ran'
  have perm := (joined_executions orders ran joined).2
  have perm' := (joined_executions orders ran' joined').2
  have replays := Makespan.replay_eq_of_resource_order (perm.nodup_iff.mpr (nodup_subtasks _))
    (perm.trans perm'.symm) timed.respects timed'.respects (by
      intro device
      cases device with
      | cpu => exact (cpu_executions orders ran joined).trans (cpu_executions orders ran' joined').symm
      | dpu => exact same)
  have clocks (worker : Worker) : s.clock worker = t.clock worker := by
    rw [timed.shows.clock,timed'.shows.clock,replays]
  ext
  · change s.totalEnergyCostJoule = t.totalEnergyCostJoule
    rw [timed.energy,timed'.energy,((perm.trans perm'.symm).map _).sum_eq]
  · change max (s.clock .cpu) (s.clock .dpu) / 1000 = max (t.clock .cpu) (t.clock .dpu) / 1000
    rw [clocks,clocks]
  · exact (run_totalTransferMb ran).trans (run_totalTransferMb ran').symm

end Results

theorem execWorkload_eq_of_shared_order_chain :
    execWorkload chainPerf 0 chain chainSchedule
        (chainRun [(.cpu,1),(.dpu,1),(.map,1),(.reduce,1)]) =
      execWorkload chainPerf 0 chain chainSchedule
        (chainRun [(.dpu,1),(.cpu,1),(.map,1),(.reduce,1)]) := by
  obtain ⟨a,one⟩ := Option.isSome_iff_exists.mp (by decide +kernel :
    (execWorkload chainPerf 0 chain chainSchedule
      (chainRun [(.cpu,1),(.dpu,1),(.map,1),(.reduce,1)])).isSome = true)
  obtain ⟨b,two⟩ := Option.isSome_iff_exists.mp (by decide +kernel :
    (execWorkload chainPerf 0 chain chainSchedule
      (chainRun [(.dpu,1),(.cpu,1),(.map,1),(.reduce,1)])).isSome = true)
  rw [one,two,execWorkload_eq_of_shared_order chainPerf_nonneg (by decide) _ _ a b one two
    (by decide +kernel)]

/-- MAP before REDUCE takes 11 seconds here, REDUCE before MAP takes 10. -/
theorem execWorkload_time_depends_on_order : ¬ ∀ (om : PerfModel) (heapBasePtr : Nat)
    (g : TaskGraph) (sched : Schedule) (first second : List Event) (a b : PerfStats),
    om.Nonneg → g.Acyclic → g.Orders sched.order → g.Topological sched.order →
      execWorkload om heapBasePtr g sched first = some a →
      execWorkload om heapBasePtr g sched second = some b → a.timeCostSecond = b.timeCostSecond := by
  intro same
  have mapFirst : (execWorkload chainPerf 0 chain chainSchedule
      (chainRun [(.cpu,1),(.dpu,1),(.map,1),(.reduce,1)])).map (·.timeCostSecond) = some 11 := by
    decide +kernel
  have reduceFirst : (execWorkload chainPerf 0 chain chainSchedule
      (chainRun [(.cpu,1),(.dpu,1),(.reduce,1),(.map,1)])).map (·.timeCostSecond) = some 10 := by
    decide +kernel
  obtain ⟨a,one,late⟩ := Option.map_eq_some_iff.mp mapFirst
  obtain ⟨b,two,early⟩ := Option.map_eq_some_iff.mp reduceFirst
  have topological : chain.Topological chainSchedule.order := by decide
  have equal := same chainPerf 0 chain chainSchedule _ _ a b chainPerf_nonneg topological.acyclic
    (by decide) topological one two
  rw [late,early] at equal
  norm_num at equal

end MetaPB.Executor

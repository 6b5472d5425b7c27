import MetaPB.Executor.Timeline
import Mathlib.Algebra.BigOperators.Ring.List

/-! What the performance model and the interleaving can do to a simulated run. Which events are
possible does not depend on the model at all; on one run the time and the energy follow the model
within the factor the model moves by, and two runs of one schedule are within a factor of two. -/
namespace MetaPB.Executor
open Lib Lib.Transition Operator Utils

namespace Pool

/-- The pool as its threads see it, without times and energy. -/
def timeless (pool : Pool) : Pool :=
  { pool with
    completed := fun worker id => { isCompleted := (pool.completed worker id).isCompleted }
    lastWakerTimeMs := fun _ _ => 0
    cpuMIMICTimeMs := 0
    dpuMIMICTimeMs := 0
    totalEnergyCostJoule := 0 }

section Timeless
variable (om other : PerfModel) (pool : Pool)

theorem timeless_enter (worker : Worker) (phase : Phase) :
    (pool.enter worker phase).timeless = pool.timeless.enter worker phase := rfl

theorem timeless_runClosure (task : Task) : (pool.runClosure om task).timeless = pool.timeless := by
  unfold runClosure
  split
  next worker opTag pageBlkCnt =>
    simp only [timeless,criticalZone,put_apply]
    congr 1
    ext1 other
    ext1 id
    split
    next same => rw [same.1,same.2]
    next => rfl
  next => rfl

theorem timeless_check (worker : Worker) (id : Nat) :
    (allDependenciesMet (pool.timeless.completed worker.awaits) (pool.timeless.waitList worker id)
      (pool.timeless.lastWakerTimeMs worker id)).1 =
    (allDependenciesMet (pool.completed worker.awaits) (pool.waitList worker id)
      (pool.lastWakerTimeMs worker id)).1 := by
  rw [Bool.eq_iff_iff,allDependenciesMet_fst,allDependenciesMet_fst,waitList_eq,waitList_eq]
  rfl

theorem step_timeless (event : Event) :
    (pool.step om event).map timeless = (pool.timeless.step other event).map timeless := by
  obtain ⟨worker,action,id⟩ := event
  have same : pool.timeless.phase worker = pool.phase worker := rfl
  have queued : pool.timeless.queue worker = pool.queue worker := rfl
  have mutex : pool.timeless.dpuMutex = pool.dpuMutex := rfl
  cases action with
  | pop =>
    cases phase : pool.phase worker with
    | idle =>
      simp only [step,same,phase,queued]
      cases pool.queue worker with
      | nil => rfl
      | cons task rest =>
        dsimp only
        split <;> rfl
    | _ => simp only [step,same,phase]
  | check =>
    cases phase : pool.phase worker with
    | waiting task =>
      simp only [step,same,phase,timeless_check]
      split <;> rfl
    | _ => simp only [step,same,phase]
  | start =>
    cases phase : pool.phase worker with
    | ready task =>
      simp only [step,same,phase,mutex]
      split <;> rfl
    | _ => simp only [step,same,phase]
  | execute =>
    cases phase : pool.phase worker with
    | executing task =>
      simp only [step,same,phase,mutex]
      split
      next =>
        have closures :
            (pool.timeless.runClosure other task).timeless = (pool.runClosure om task).timeless := by
          rw [timeless_runClosure,timeless_runClosure]
          rfl
        have released (dpuMutex : Option Worker) :
            { pool.timeless.runClosure other task with dpuMutex := dpuMutex }.timeless =
              { pool.runClosure om task with dpuMutex := dpuMutex }.timeless :=
          congrArg (fun pool : Pool => { pool with dpuMutex := dpuMutex }) closures
        rw [Option.map_some,Option.map_some,timeless_enter,timeless_enter,released]
      next => rfl
    | _ => simp only [step,same,phase]
  | publish =>
    cases phase : pool.phase worker with
    | executed task =>
      simp only [step,same,phase]
      split
      next =>
        rw [Option.map_some,Option.map_some,timeless_enter,timeless_enter]
        congr 2
        simp only [timeless]
        congr 1
        ext1 other
        ext1 id
        simp only [put_apply]
        split <;> rfl
      next => rfl
    | _ => simp only [step,same,phase]

end Timeless
end Pool

/-- At most `k` times the time and the energy. -/
def AtMost (k : ℚ) (stats other : PerfStats) : Prop :=
  other.timeCostSecond ≤ k * stats.timeCostSecond ∧ other.energyCostJoule ≤ k * stats.energyCostJoule

/-- A model that answers at most `k` times what another does. -/
structure Within (k : ℚ) (om other : PerfModel) : Prop where
  cpu : ∀ opTag pageBlkCnt,
    AtMost k (om.deducePerfCPU opTag pageBlkCnt) (other.deducePerfCPU opTag pageBlkCnt)
  dpu : ∀ opTag pageBlkCnt,
    AtMost k (om.deducePerfDPU opTag pageBlkCnt) (other.deducePerfDPU opTag pageBlkCnt)

section Perturbed
variable {om other : PerfModel} {heapBasePtr : Nat} {g : TaskGraph} {sched : Schedule} {k : ℚ}

theorem run_timeless {start pool : Pool} {events : List Event}
    (ran : run (Pool.step om) start events = some pool) (other : PerfModel) :
    ∃ next, run (Pool.step other) start events = some next ∧ next.timeless = pool.timeless := by
  have agrees : (run (Pool.step om) start events).map Pool.timeless =
      (run (Pool.step other) start events).map Pool.timeless := by
    apply run_agrees _ events rfl
    intro s t event same
    rw [Pool.step_timeless om om,Pool.step_timeless other om,same]
  rw [ran,Option.map_some,eq_comm,Option.map_eq_some_iff] at agrees
  exact agrees

theorem Within.subtask (within : Within k om other) (subtask : Subtask) :
    AtMost k (subtaskPerf om heapBasePtr g sched subtask) (subtaskPerf other heapBasePtr g sched subtask) := by
  rcases plannedSubtask_execute heapBasePtr g sched subtask with quiet | ⟨opTag,cnt,runs⟩
  · simp [AtMost,subtaskPerf,quiet,Closure.perf]
  · simp only [subtaskPerf,runs,Closure.perf,perf]
    split
    · simp [AtMost]
    · split
      · exact within.dpu opTag cnt
      · exact within.cpu opTag cnt

theorem load_add (jobs : Makespan.Jobs Subtask Device ℚ) (order : List Subtask) :
    ((order.filter fun subtask => jobs.resource subtask = .cpu).map jobs.cost).sum +
      ((order.filter fun subtask => jobs.resource subtask = .dpu).map jobs.cost).sum =
        (order.map jobs.cost).sum := by
  induction order with
  | nil => simp
  | cons subtask rest ih =>
    rw [List.map_cons,List.sum_cons,← ih]
    cases device : jobs.resource subtask with
    | cpu =>
      simp only [device,List.filter_cons,decide_true,if_true,reduceCtorEq,decide_false,Bool.false_eq_true,
        if_false,List.map_cons,List.sum_cons]
      ring
    | dpu =>
      simp only [device,List.filter_cons,decide_true,if_true,reduceCtorEq,decide_false,Bool.false_eq_true,
        if_false,List.map_cons,List.sum_cons]
      ring

/-- Multiplication by a factor, on clocks. -/
def timesHom (scale : 0 ≤ k) : ℚ →+o ℚ where
  toFun time := k * time
  map_zero' := mul_zero k
  map_add' := mul_add k
  monotone' := fun _ _ below => mul_le_mul_of_nonneg_left below scale

theorem time_eq (pool : Pool) :
    pool.result.timeCostSecond = max (pool.clock .cpu) (pool.clock .dpu) / 1000 := rfl

/-- Run after run, a model that answers at most `k` times what another does gives at most `k` times
the time and the energy, and the same movement of data. -/
theorem execWorkload_within (within : Within k om other) (scale : 0 ≤ k) (nonneg : om.Nonneg)
    (otherNonneg : other.Nonneg) (orders : g.Orders sched.order) (events : List Event) (stats : PerfStats)
    (returned : execWorkload om heapBasePtr g sched events = some stats) :
    ∃ rated, execWorkload other heapBasePtr g sched events = some rated ∧
      AtMost k stats rated ∧ rated.dataMovementMiB = stats.dataMovementMiB := by
  obtain ⟨pool,ran,joined,rfl⟩ := (execWorkload_eq_some _ _ _ _ _ _).mp returned
  obtain ⟨next,reran,same⟩ := run_timeless ran other
  have phases : next.phase = pool.phase :=
    (congrArg Pool.phase same : next.timeless.phase = pool.timeless.phase)
  have queues : next.queue = pool.queue :=
    (congrArg Pool.queue same : next.timeless.queue = pool.timeless.queue)
  have rejoined : next.Joined := by
    intro worker
    rw [phases,queues]
    exact joined worker
  refine ⟨next.result,(execWorkload_eq_some _ _ _ _ _ _).mpr ⟨next,reran,rejoined,rfl⟩,⟨?_,?_⟩,?_⟩
  · have timed := run_timed nonneg orders ran
    have retimed := run_timed otherNonneg orders reran
    have costs (subtask : Subtask) : (subtaskJobs other heapBasePtr g sched).cost subtask ≤
        timesHom scale ((subtaskJobs om heapBasePtr g sched).cost subtask) := by
      have one : (subtaskPerf other heapBasePtr g sched subtask).timeCostSecond ≤ _ := (within.subtask subtask).1
      change _ * 1000 ≤ k * (_ * 1000)
      linarith
    have bounds := (Makespan.replay_le_of_hom (timesHom scale) (subtaskJobs om heapBasePtr g sched) costs
      (executions events)).1
    have clocks (worker : Worker) : next.clock worker ≤ k * pool.clock worker := by
      rw [timed.shows.clock,retimed.shows.clock]
      exact bounds worker.device
    rw [time_eq,time_eq,mul_div_assoc',mul_max_of_nonneg _ _ scale]
    exact div_le_div_of_nonneg_right (max_le_max (clocks .cpu) (clocks .dpu)) (by norm_num)
  · have timed := run_timed nonneg orders ran
    have retimed := run_timed otherNonneg orders reran
    change next.totalEnergyCostJoule ≤ k * pool.totalEnergyCostJoule
    rw [timed.energy,retimed.energy,← List.sum_map_mul_left]
    exact List.sum_le_sum fun subtask _ => (within.subtask subtask).2
  · exact (run_totalTransferMb reran).trans (run_totalTransferMb ran).symm

/-- The chain on a machine half as fast. -/
def slowChainPerf : PerfModel where
  deducePerfCPU
    | .MAC,_ => {timeCostSecond := 20}
    | .REDUCE,_ => {timeCostSecond := 2}
    | _,_ => {}
  deducePerfDPU
    | .MAC,_ => {timeCostSecond := 10}
    | _,_ => {}

theorem execWorkload_within_slow : ∃ stats rated,
    execWorkload chainPerf 0 chain chainSchedule
      (chainRun [(.cpu,1),(.dpu,1),(.map,1),(.reduce,1)]) = some stats ∧
    execWorkload slowChainPerf 0 chain chainSchedule
      (chainRun [(.cpu,1),(.dpu,1),(.map,1),(.reduce,1)]) = some rated ∧
      rated.timeCostSecond ≤ 2 * stats.timeCostSecond := by
  obtain ⟨stats,returned⟩ := Option.isSome_iff_exists.mp (by decide +kernel :
    (execWorkload chainPerf 0 chain chainSchedule
      (chainRun [(.cpu,1),(.dpu,1),(.map,1),(.reduce,1)])).isSome = true)
  have slow : slowChainPerf.Nonneg :=
    ⟨fun opTag _ => by cases opTag <;> norm_num [slowChainPerf],
      fun opTag _ => by cases opTag <;> norm_num [slowChainPerf]⟩
  have twice : Within 2 chainPerf slowChainPerf :=
    ⟨fun opTag _ => by cases opTag <;> norm_num [AtMost,chainPerf,slowChainPerf],
      fun opTag _ => by cases opTag <;> norm_num [AtMost,chainPerf,slowChainPerf]⟩
  obtain ⟨rated,rerun,⟨time,-⟩,-⟩ :=
    execWorkload_within twice (by norm_num) chainPerf_nonneg slow (by decide) _ stats returned
  exact ⟨stats,rated,returned,rerun,time⟩

/-- Two complete runs of one schedule take times within a factor of two of each other. -/
theorem execWorkload_within_twice (nonneg : om.Nonneg) (orders : g.Orders sched.order)
    (first second : List Event) (a b : PerfStats)
    (one : execWorkload om heapBasePtr g sched first = some a)
    (two : execWorkload om heapBasePtr g sched second = some b) :
    a.timeCostSecond ≤ 2 * b.timeCostSecond ∧ a.energyCostJoule = b.energyCostJoule ∧
      a.dataMovementMiB = b.dataMovementMiB := by
  obtain ⟨s,ran,joined,rfl⟩ := (execWorkload_eq_some _ _ _ _ _ _).mp one
  obtain ⟨t,ran',joined',rfl⟩ := (execWorkload_eq_some _ _ _ _ _ _).mp two
  have timed := run_timed nonneg orders ran
  have timed' := run_timed nonneg orders ran'
  have perm := (joined_executions orders ran joined).2.trans (joined_executions orders ran' joined').2.symm
  set jobs := subtaskJobs om heapBasePtr g sched
  have costs := cost_nonneg heapBasePtr g sched nonneg
  refine ⟨?_,?_,?_⟩
  · have above (worker : Worker) : s.clock worker ≤ ((executions second).map jobs.cost).sum := by
      rw [timed.shows.clock,← (perm.map _).sum_eq]
      exact (Makespan.clock_le_total costs (executions first)).1 worker.device
    have below := Makespan.load_le_clock costs (fun _ => silent_cost) (executions second)
    have split := load_add jobs (executions second)
    have cpu := below .cpu
    have dpu := below .dpu
    have cpuClock := timed'.shows.clock .cpu
    have dpuClock := timed'.shows.clock .dpu
    simp only [Worker.device] at cpuClock dpuClock
    rw [← cpuClock] at cpu
    rw [← dpuClock] at dpu
    rw [time_eq,time_eq]
    have left := le_max_left (t.clock .cpu) (t.clock .dpu)
    have right := le_max_right (t.clock .cpu) (t.clock .dpu)
    have bound : max (s.clock .cpu) (s.clock .dpu) ≤ 2 * max (t.clock .cpu) (t.clock .dpu) :=
      max_le ((above .cpu).trans (by linarith)) ((above .dpu).trans (by linarith))
    linarith
  · change s.totalEnergyCostJoule = t.totalEnergyCostJoule
    rw [timed.energy,timed'.energy,(perm.map _).sum_eq]
  · exact (run_totalTransferMb ran).trans (run_totalTransferMb ran').symm

theorem execWorkload_within_twice_chain : ∃ a b,
    execWorkload chainPerf 0 chain chainSchedule
      (chainRun [(.cpu,1),(.dpu,1),(.map,1),(.reduce,1)]) = some a ∧
    execWorkload chainPerf 0 chain chainSchedule
      (chainRun [(.cpu,1),(.dpu,1),(.reduce,1),(.map,1)]) = some b ∧
    a.timeCostSecond ≤ 2 * b.timeCostSecond := by
  obtain ⟨a,one⟩ := Option.isSome_iff_exists.mp (by decide +kernel :
    (execWorkload chainPerf 0 chain chainSchedule
      (chainRun [(.cpu,1),(.dpu,1),(.map,1),(.reduce,1)])).isSome = true)
  obtain ⟨b,two⟩ := Option.isSome_iff_exists.mp (by decide +kernel :
    (execWorkload chainPerf 0 chain chainSchedule
      (chainRun [(.cpu,1),(.dpu,1),(.reduce,1),(.map,1)])).isSome = true)
  exact ⟨a,b,one,two,(execWorkload_within_twice chainPerf_nonneg (by decide) _ _ a b one two).1⟩

theorem execWorkload_energy (nonneg : om.Nonneg) (orders : g.Orders sched.order) {events : List Event}
    {stats : PerfStats} (returned : execWorkload om heapBasePtr g sched events = some stats) :
    stats.energyCostJoule = ((subtasks g.numVertices).map fun subtask =>
      (subtaskPerf om heapBasePtr g sched subtask).energyCostJoule).sum := by
  obtain ⟨pool,ran,joined,rfl⟩ := (execWorkload_eq_some _ _ _ _ _ _).mp returned
  rw [← ((joined_executions orders ran joined).2.map _).sum_eq]
  exact (run_timed nonneg orders ran).energy

/-- A run whose costs all lie on one device takes their sum, however its workers interleave. -/
theorem execWorkload_alone (device : Device) (nonneg : om.Nonneg) (orders : g.Orders sched.order)
    {events : List Event} {stats : PerfStats}
    (returned : execWorkload om heapBasePtr g sched events = some stats)
    (alone : ∀ subtask : Subtask, subtask.2 < g.numVertices → subtask.1.device ≠ device →
      (subtaskPerf om heapBasePtr g sched subtask).timeCostSecond = 0) :
    stats.timeCostSecond = ((subtasks g.numVertices).map fun subtask =>
      (subtaskPerf om heapBasePtr g sched subtask).timeCostSecond).sum := by
  obtain ⟨pool,ran,joined,rfl⟩ := (execWorkload_eq_some _ _ _ _ _ _).mp returned
  have timed := run_timed nonneg orders ran
  have perm := (joined_executions orders ran joined).2
  have costs := cost_nonneg heapBasePtr g sched nonneg
  have own : ((subtaskJobs om heapBasePtr g sched).replay (executions events)).clock device =
      ((executions events).map (subtaskJobs om heapBasePtr g sched).cost).sum := by
    apply Makespan.clock_eq_total costs (fun _ => silent_cost)
    intro subtask member other
    have free := alone subtask ((mem_subtasks _ _).mp (perm.mem_iff.mp member)) other
    exact mul_eq_zero_of_left free 1000
  have below := (Makespan.clock_le_total costs (executions events)).1
  have latest : max (pool.clock .cpu) (pool.clock .dpu) =
      ((executions events).map (subtaskJobs om heapBasePtr g sched).cost).sum := by
    rw [timed.shows.clock,timed.shows.clock]
    cases device with
    | cpu => exact (max_eq_left ((below _).trans_eq own.symm)).trans own
    | dpu => exact (max_eq_right ((below _).trans_eq own.symm)).trans own
  have scaled : ((executions events).map (subtaskJobs om heapBasePtr g sched).cost).sum =
      ((executions events).map fun subtask =>
        (subtaskPerf om heapBasePtr g sched subtask).timeCostSecond).sum * 1000 :=
    List.sum_map_mul_right _ _ _
  rw [time_eq,latest,scaled,mul_div_assoc,div_self (by norm_num),mul_one,(perm.map _).sum_eq]

end Perturbed
end MetaPB.Executor

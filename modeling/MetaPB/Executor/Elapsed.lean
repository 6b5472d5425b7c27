import MetaPB.Executor.Sensitivity
import MetaPB.Executor.Timings
import MetaPB.Lib.Best
import MetaPB.Operator.Probe

/-! `execWorkload` in `DO` mode, against its simulation. The tasks run operators instead of adding
up times, but which events are possible does not depend on what a task does, so both modes go
through on the same interleavings. The result is read off the timings and the stopwatch, and the
simulated time is a lower bound of it as long as no task is faster than the model says. -/
namespace MetaPB.Executor
open Lib Lib.Transition Lib.Occupancy Operator Utils Utils.ChronoTrigger

/-- A task without what it does. -/
def Task.blind (task : Task) : Task := { task with execute := .nothing }

def Phase.blind : Phase → Phase
  | idle => idle
  | waiting task => waiting task.blind
  | ready task => ready task.blind
  | executing task => executing task.blind
  | executed task => executed task.blind

@[simp] theorem Task.blind_blind (task : Task) : task.blind.blind = task.blind := rfl

@[simp] theorem Phase.blind_blind (phase : Phase) : phase.blind.blind = phase.blind := by
  cases phase <;> rfl

namespace Pool

/-- The pool without times, energy and what its tasks do. -/
def blind (pool : Pool) : Pool :=
  { pool.timeless with
    queue := fun worker => (pool.queue worker).map Task.blind
    phase := fun worker => (pool.phase worker).blind }

section Blind
variable (om other : PerfModel) (pool : Pool)

theorem blind_of_timeless {pool after : Pool} (same : after.timeless = pool.timeless) :
    after.blind = pool.blind := by
  have queues : after.queue = pool.queue :=
    (congrArg Pool.queue same : after.timeless.queue = pool.timeless.queue)
  have phases : after.phase = pool.phase :=
    (congrArg Pool.phase same : after.timeless.phase = pool.timeless.phase)
  rw [blind,blind,same,queues,phases]

theorem blind_enter (worker : Worker) (phase : Phase) :
    (pool.enter worker phase).blind = pool.blind.enter worker phase.blind := by
  simp only [blind,timeless,enter]
  congr 1
  ext1 other
  rcases eq_or_ne other worker with rfl | apart
  · simp
  · simp [apart]

omit om other pool in
/-- What shows of a pool without them. -/
theorem blind_ext {a b : Pool} (dependencies : a.dependencies = b.dependencies)
    (bits : ∀ worker id, (a.completed worker id).isCompleted = (b.completed worker id).isCompleted)
    (queues : ∀ worker, (a.queue worker).map Task.blind = (b.queue worker).map Task.blind)
    (phases : ∀ worker, (a.phase worker).blind = (b.phase worker).blind)
    (transfer : a.totalTransferMb = b.totalTransferMb) (mutex : a.dpuMutex = b.dpuMutex) :
    a.blind = b.blind := by
  simp only [blind,timeless,dependencies,bits,queues,phases,transfer,mutex]

omit om other pool in
theorem enter_blind {a b : Pool} (same : a.blind = b.blind) (worker : Worker) {mine theirs : Phase}
    (phases : mine.blind = theirs.blind) :
    (some (a.enter worker mine)).map blind = (some (b.enter worker theirs)).map blind := by
  rw [Option.map_some,Option.map_some,blind_enter,blind_enter,same,phases]

theorem blind_check (worker : Worker) (id : Nat) :
    (allDependenciesMet (pool.blind.completed worker.awaits) (pool.blind.waitList worker id)
      (pool.blind.lastWakerTimeMs worker id)).1 =
    (allDependenciesMet (pool.completed worker.awaits) (pool.waitList worker id)
      (pool.lastWakerTimeMs worker id)).1 := by
  rw [← timeless_check pool,waitList_eq,waitList_eq]
  rfl

theorem runClosure_blind (task : Task) (dpuMutex : Option Worker) :
    { pool.runClosure om task with dpuMutex := dpuMutex }.blind = { pool with dpuMutex := dpuMutex }.blind := by
  apply blind_of_timeless
  exact congrArg (fun pool : Pool => { pool with dpuMutex := dpuMutex }) (timeless_runClosure om pool task)

/-- What is possible depends neither on times nor on what the tasks do. -/
theorem step_blind (event : Event) :
    (pool.step om event).map blind = (pool.blind.step other event).map blind := by
  obtain ⟨worker,action,id⟩ := event
  have seen : pool.blind.phase worker = (pool.phase worker).blind := rfl
  have queued : pool.blind.queue worker = (pool.queue worker).map Task.blind := rfl
  have mutex : pool.blind.dpuMutex = pool.dpuMutex := rfl
  cases action with
  | pop =>
    cases phase : pool.phase worker with
    | idle =>
      simp only [step,seen,phase,queued,Phase.blind]
      cases pool.queue worker with
      | nil => rfl
      | cons task rest =>
        simp only [List.map_cons,Task.blind]
        split
        next =>
          apply enter_blind
          · refine blind_ext rfl (fun _ _ => rfl) (fun other => ?_) (fun _ => by simp [blind]) rfl rfl
            rcases eq_or_ne other worker with rfl | apart
            · simp
            · simp [apart,blind]
          · rfl
        next => rfl
    | _ => simp only [step,seen,phase,Phase.blind]
  | check =>
    cases phase : pool.phase worker with
    | waiting task =>
      simp only [step,seen,phase,Phase.blind,Task.blind,blind_check]
      split
      next =>
        apply enter_blind
        · exact blind_ext rfl (fun _ _ => rfl) (fun _ => by simp [blind]) (fun _ => by simp [blind]) rfl rfl
        · split <;> rfl
      next => rfl
    | _ => simp only [step,seen,phase,Phase.blind]
  | start =>
    cases phase : pool.phase worker with
    | ready task =>
      simp only [step,seen,phase,Phase.blind,Task.blind,mutex]
      split
      next =>
        apply enter_blind
        · exact blind_ext rfl (fun _ _ => rfl) (fun _ => by simp [blind]) (fun _ => by simp [blind]) rfl rfl
        · rfl
      next => rfl
    | _ => simp only [step,seen,phase,Phase.blind]
  | execute =>
    cases phase : pool.phase worker with
    | executing task =>
      simp only [step,seen,phase,Phase.blind,Task.blind,mutex]
      split
      next =>
        apply enter_blind
        · rw [runClosure_blind,runClosure_blind]
          exact blind_ext rfl (fun _ _ => rfl) (fun _ => by simp [blind]) (fun _ => by simp [blind]) rfl rfl
        · rfl
      next => rfl
    | _ => simp only [step,seen,phase,Phase.blind]
  | publish =>
    cases phase : pool.phase worker with
    | executed task =>
      simp only [step,seen,phase,Phase.blind,Task.blind]
      split
      next =>
        apply enter_blind
        · refine blind_ext rfl (fun other id => ?_) (fun _ => by simp [blind]) (fun _ => by simp [blind])
            rfl rfl
          simp only [put_apply]
          split <;> rfl
        · rfl
      next => rfl
    | _ => simp only [step,seen,phase,Phase.blind]

omit pool in
theorem run_blind (events : List Event) {a b : Pool} (same : a.blind = b.blind) :
    (run (Pool.step om) a events).map blind = (run (Pool.step other) b events).map blind := by
  apply run_agrees _ events same
  intro s t event equal
  rw [step_blind om om s event,equal,← step_blind other om t event]

omit om other in
theorem joined_blind : pool.blind.Joined ↔ pool.Joined := by
  have phases (phase : Phase) : phase.blind = .idle ↔ phase = .idle := by cases phase <;> simp [Phase.blind]
  simp only [Joined,blind,phases,List.map_eq_nil_iff]

end Blind
end Pool

section Modes
variable (heapBasePtr : Nat) (g : TaskGraph) (sched : Schedule) (eT : ExecType)

theorem parsed_blind :
    (parseGraph heapBasePtr g sched .DO).blind = (parseGraph heapBasePtr g sched .MIMIC).blind := by
  have blind (i : Nat) (worker : Worker) : (plannedTask heapBasePtr g sched .DO i worker).blind =
      (plannedTask heapBasePtr g sched .MIMIC i worker).blind := by
    simp [Task.blind,plannedTask_isDPURelated]
  rw [parseGraph_eq,parseGraph_eq]
  apply Pool.blind_ext
  · rfl
  · exact fun _ _ => rfl
  · intro worker
    simp only [List.map_map]
    exact List.map_congr_left fun i _ => blind i worker
  · exact fun _ => rfl
  · rfl
  · rfl

variable {heapBasePtr g sched}

theorem modes_agree (om other : PerfModel) (events : List Event) :
    (∃ pool, run (Pool.step om) (parseGraph heapBasePtr g sched .DO) events = some pool ∧ pool.Joined) ↔
      ∃ stats, execWorkload other heapBasePtr g sched events = some stats := by
  have same := Pool.run_blind om other events (parsed_blind heapBasePtr g sched)
  constructor
  · intro found
    obtain ⟨pool,ran,joined⟩ := found
    rw [ran,Option.map_some,eq_comm,Option.map_eq_some_iff] at same
    obtain ⟨after,reran,seen⟩ := same
    refine ⟨after.result,(execWorkload_eq_some _ _ _ _ _ _).mpr ⟨after,reran,?_,rfl⟩⟩
    rwa [← Pool.joined_blind,seen,Pool.joined_blind]
  · intro found
    obtain ⟨stats,returned⟩ := found
    obtain ⟨pool,ran,joined,-⟩ := (execWorkload_eq_some _ _ _ _ _ _).mp returned
    rw [ran,Option.map_some,Option.map_eq_some_iff] at same
    obtain ⟨after,reran,seen⟩ := same
    refine ⟨after,reran,?_⟩
    rwa [← Pool.joined_blind,seen,Pool.joined_blind]

end Modes

/-- The name under which a workload is measured. -/
def workloadTask : String := "HCP"

/-- `duration_cast` to milliseconds, towards zero. -/
def toMilliseconds (ns : ℤ) : ℤ := ns.tdiv (10^6)

def allTimings (timings : Worker → List (Nat × TaskTiming)) : List TaskTiming :=
  [Worker.cpu,.dpu,.map,.reduce].flatMap fun worker => (timings worker).map (·.2)

def minStart (now : ℤ) (all : List TaskTiming) : ℤ :=
  all.foldl (fun least timing => if timing.start < least then timing.start else least) now

/-- The latest end, from the earliest point in time there is. -/
def maxEnd (all : List TaskTiming) : ℤ :=
  all.foldl (fun greatest timing => if greatest < timing.stop then timing.stop else greatest) (-(2^63))

def TaskTiming.duration (timing : TaskTiming) : ℚ := (timing.stop - timing.start : ℤ) / nsPerSecond

/-- How long a worker executed, in seconds. -/
def busySecond (timings : Worker → List (Nat × TaskTiming)) (worker : Worker) : ℚ :=
  ((timings worker).map (·.2.duration)).sum

/-- Only what the DPU worker ran counts, not the transfers. -/
def totalDPUTimeSecond (timings : Worker → List (Nat × TaskTiming)) : ℚ := busySecond timings .dpu

section Gathering
variable {Sock Sys : Type} [Inhabited Sock] [Inhabited Sys] (root : Root) (pcm : Pcm Sock Sys)

def gatherResult (watched : Watched) (report : Report) (now : ℤ) : Option PerfStats := do
  let all := allTimings watched.timings
  let differenceInMilliseconds := toMilliseconds (maxEnd all) - toMilliseconds (minStart now all)
  let energyMeans ← (Probed.reportItem report .CPUPowerConsumptionJoule).bind (·.data.getVector)
  let first ← energyMeans[0]?
  let second ← energyMeans[1]?
  return {
    energyCostJoule := first.mean + second.mean + totalDPUTimeSecond watched.timings * 280
    timeCostSecond := differenceInMilliseconds / 1000
    dataMovementMiB := watched.pool.totalTransferMb }

/-- `execWorkload` in `DO` mode, with what the stopwatch samples around the threads, the readings of
the clock, and the one the result is gathered at. -/
def execWorkloadDO (om : PerfModel) (heapBasePtr : Nat) (g : TaskGraph) (sched : Schedule)
    (taken : Interval Sock Sys) (moments : List Moment) (now : ℤ) : Option PerfStats := do
  -- `cleanStatus` clears the stopwatch
  let ct ← ChronoTrigger.tick pcm {} workloadTask taken.1
  let watched ← run (Watched.step om) { pool := parseGraph heapBasePtr g sched .DO } moments
  if watched.pool.Joined then
    let ct ← ct.tock root pcm workloadTask taken.2
    let (report,_) ← ct.getReport workloadTask
    gatherResult watched report now
  else none

end Gathering

section Returning
variable {Sock Sys : Type} (pcm : Pcm Sock Sys) (taken : Interval Sock Sys)

/-- What a socket consumed between the two samples. -/
def socketJoules (socket : Nat) : ℚ :=
  (pcm.getConsumedJoules (taken.1.socketState socket) (taken.2.socketState socket)).val

def elapsedStats (watched : Watched) (now : ℤ) : PerfStats where
  energyCostJoule := socketJoules pcm taken 0 + socketJoules pcm taken 1 +
    totalDPUTimeSecond watched.timings * 280
  timeCostSecond := (toMilliseconds (maxEnd (allTimings watched.timings)) -
    toMilliseconds (minStart now (allTimings watched.timings)) : ℤ) / 1000
  dataMovementMiB := watched.pool.totalTransferMb

theorem meanJoules_singleton (socket : Nat) :
    Probed.meanJoules pcm socket [taken] = socketJoules pcm taken socket := by
  simp [Probed.meanJoules,Lib.Moments.mean,socketJoules]

variable [Inhabited Sock] [Inhabited Sys] {root : Root} {pcm taken} {om : PerfModel} {heapBasePtr : Nat}
  {g : TaskGraph} {sched : Schedule} {moments : List Moment} {now : ℤ} {watched : Watched}

omit [Inhabited Sock] [Inhabited Sys] in
theorem gatherResult_measured (watched : Watched) (now : ℤ) :
    gatherResult watched (measured root pcm [taken]) now =
      if 2 ≤ pcm.numSockets then some (elapsedStats pcm taken watched now) else none := by
  simp only [gatherResult,Probed.reportItem_measured,Option.bind_eq_bind,Option.bind_some,metricData,
    Pcm.gathered,ReportData.getVector,List.getElem?_map]
  split
  next wide =>
    rw [List.getElem?_range (by omega),List.getElem?_range (by omega)]
    simp only [Option.map_some,Option.bind_some,Probed.mean_addAll (List.cons_ne_nil _ _)]
    rw [elapsedStats,← meanJoules_singleton,← meanJoules_singleton]
    rfl
  next narrow =>
    have second : (List.range pcm.numSockets)[1]? = none := List.getElem?_eq_none (by simp; omega)
    rw [second]
    cases (List.range pcm.numSockets)[0]? <;> rfl

theorem execWorkloadDO_eq_some {stats : PerfStats} :
    execWorkloadDO root pcm om heapBasePtr g sched taken moments now = some stats ↔
      2 ≤ pcm.numSockets ∧ ∃ watched,
        run (Watched.step om) { pool := parseGraph heapBasePtr g sched .DO } moments = some watched ∧
          watched.pool.Joined ∧ elapsedStats pcm taken watched now = stats := by
  have blank : run (ChronoTrigger.step root pcm) {} [] = some {} := rfl
  have apart : workloadTask ≠ biasTask := by decide
  obtain ⟨spent,after,measuring,read,-⟩ :=
    Probed.probeCalls_report blank ⟨rfl,fun _ _ => rfl⟩ apart fun _ => taken
  obtain ⟨ticked,ticking,rest⟩ := (run_cons _ _ _ _ _).mp measuring
  obtain ⟨tocked,tocking,same⟩ := (run_cons _ _ _ _ _).mp rest
  cases Option.some.inj same
  have own : (track [] workloadTask).intervals ++ Probed.measuredReps (fun _ => taken) = [taken] := rfl
  rw [own] at read
  have started : ChronoTrigger.tick pcm {} workloadTask taken.1 = some ticked := ticking
  have ended : ChronoTrigger.tock root pcm ticked workloadTask taken.2 = some spent := tocking
  simp only [execWorkloadDO,started,Option.bind_eq_bind,Option.bind_some]
  rw [Option.bind_eq_some_iff]
  constructor
  · intro found
    obtain ⟨watched,ran,gathered⟩ := found
    split at gathered
    next joined =>
      rw [ended,Option.bind_some,read,Option.bind_some,gatherResult_measured] at gathered
      split at gathered
      next wide => exact ⟨wide,watched,ran,joined,Option.some.inj gathered⟩
      next => contradiction
    next => contradiction
  · intro found
    obtain ⟨wide,watched,ran,joined,rfl⟩ := found
    refine ⟨watched,ran,?_⟩
    rw [if_pos joined,ended,Option.bind_some,read,Option.bind_some,gatherResult_measured,if_pos wide]

end Returning

section Extremes
variable {now : ℤ} {all : List TaskTiming}

theorem minStart_eq : minStart now all = (all.map (·.start)).foldl min now := by
  rw [minStart,List.foldl_map]
  congr 1
  ext1 least
  ext1 timing
  rw [min_comm,min_def_lt]

theorem maxEnd_eq : maxEnd all = (all.map (·.stop)).foldl max (-(2^63)) := by
  rw [maxEnd,List.foldl_map]
  congr 1
  ext1 greatest
  ext1 timing
  rw [max_def_lt]

theorem minStart_isLeast (filled : all ≠ []) (late : ∀ timing ∈ all, timing.start ≤ now) :
    (∃ timing ∈ all, timing.start = minStart now all) ∧
      ∀ timing ∈ all, minStart now all ≤ timing.start := by
  rw [minStart_eq]
  obtain ⟨attained,below⟩ := Lib.Best.foldl_min_isLeast (by simpa using filled : all.map (·.start) ≠ [])
    (by simpa using late)
  exact ⟨List.mem_map.mp attained,fun timing member => below (List.mem_map_of_mem member)⟩

theorem maxEnd_isGreatest (filled : all ≠ []) (early : ∀ timing ∈ all, 0 ≤ timing.stop) :
    (∃ timing ∈ all, timing.stop = maxEnd all) ∧
      ∀ timing ∈ all, timing.stop ≤ maxEnd all := by
  rw [maxEnd_eq]
  have low : ∀ value ∈ all.map (·.stop), -(2^63) ≤ value := by
    intro value member
    obtain ⟨timing,inside,rfl⟩ := List.mem_map.mp member
    have counted := early timing inside
    omega
  obtain ⟨attained,above⟩ :=
    Lib.Best.foldl_max_isGreatest (by simpa using filled : all.map (·.stop) ≠ []) low
  exact ⟨List.mem_map.mp attained,fun timing member => above (List.mem_map_of_mem member)⟩

/-- Cutting off both ends at milliseconds moves the time between them by less than one. -/
theorem toMilliseconds_near {first last : ℤ} (nonneg : 0 ≤ first) (ordered : first ≤ last) :
    |((toMilliseconds last - toMilliseconds first : ℤ) : ℚ) / 1000 - (last - first : ℤ) / nsPerSecond| <
      1 / 1000 := by
  have cut {ns : ℤ} (counted : 0 ≤ ns) : (toMilliseconds ns : ℚ) * 10^6 ≤ ns ∧
      (ns : ℚ) < (toMilliseconds ns + 1) * 10^6 := by
    have whole : toMilliseconds ns * 10^6 ≤ ns ∧ ns < (toMilliseconds ns + 1) * 10^6 := by
      rw [toMilliseconds,Int.tdiv_eq_ediv_of_nonneg counted]
      omega
    exact ⟨by exact_mod_cast whole.1,by exact_mod_cast whole.2⟩
  obtain ⟨low,high⟩ := cut nonneg
  obtain ⟨low',high'⟩ := cut (nonneg.trans ordered)
  rw [nsPerSecond,abs_lt]
  push_cast
  constructor <;> linarith

end Extremes

/-- Readings of a clock that counts up from its epoch and is never set back, up to the one the
result is gathered at. -/
structure Readings (moments : List Moment) (now : ℤ) : Prop where
  forward : Forward moments
  early : ∀ moment ∈ moments, 0 ≤ moment.now
  late : ∀ moment ∈ moments, moment.now ≤ now

/-- The first start and the last end of some timings. -/
structure Extent (all : List TaskTiming) (first last : ℤ) : Prop where
  begins : ∃ timing ∈ all, timing.start = first
  ends : ∃ timing ∈ all, timing.stop = last
  inside : ∀ timing ∈ all, first ≤ timing.start ∧ timing.start ≤ timing.stop ∧ timing.stop ≤ last
  counted : 0 ≤ first

theorem Extent.ordered {all : List TaskTiming} {first last : ℤ} (extent : Extent all first last) :
    first ≤ last := by
  obtain ⟨timing,member,rfl⟩ := extent.begins
  obtain ⟨-,forward,late⟩ := extent.inside timing member
  exact forward.trans late

section Busy
variable {all : List (Span Subtask ℤ)}

theorem mem_allTimings {timings : Worker → List (Nat × TaskTiming)} {timing : TaskTiming} :
    timing ∈ allTimings timings ↔ ∃ worker id, (id,timing) ∈ timings worker := by
  constructor
  · intro member
    obtain ⟨worker,-,inside⟩ := List.mem_flatMap.mp member
    obtain ⟨⟨id,_⟩,found,rfl⟩ := List.mem_map.mp inside
    exact ⟨worker,id,found⟩
  · intro found
    obtain ⟨worker,id,inside⟩ := found
    exact List.mem_flatMap.mpr ⟨worker,by cases worker <;> simp,List.mem_map_of_mem inside⟩

theorem busySecond_cons (span : Span Subtask ℤ) (rest : List (Span Subtask ℤ)) (worker : Worker) :
    busySecond (recorded · (span::rest)) worker =
      (if span.job.1 = worker then (⟨span.start,span.stop⟩ : TaskTiming).duration else 0) +
        busySecond (recorded · rest) worker := by
  simp only [busySecond,recorded,List.filter_cons,decide_eq_true_eq]
  split <;> simp

/-- The work on what `dpuMutex_` guards is that of its three workers. -/
theorem busy_shared (all : List (Span Subtask ℤ)) :
    (((all.filter (·.job.1.device = .dpu)).map fun span => span.stop - span.start).sum : ℤ) / nsPerSecond =
      busySecond (recorded · all) .dpu + busySecond (recorded · all) .map +
        busySecond (recorded · all) .reduce := by
  induction all with
  | nil => simp [busySecond,recorded]
  | cons span rest ih =>
    obtain ⟨⟨worker,id⟩,start,stop⟩ := span
    rw [busySecond_cons,busySecond_cons,busySecond_cons,List.filter_cons]
    cases worker with
    | cpu => simpa [Worker.device] using ih
    | _ =>
      rw [if_pos (by rfl)]
      simp only [if_true,reduceCtorEq,if_false,List.map_cons,List.sum_cons,Int.cast_add,add_div,ih,
        TaskTiming.duration]
      ring

end Busy

section Measuring
variable {om : PerfModel} {heapBasePtr : Nat} {g : TaskGraph} {sched : Schedule} {moments : List Moment}
  {now : ℤ} {watched : Watched}
  (orders : g.Orders sched.order) (readings : Readings moments now)
  (ran : run (Watched.step om) { pool := parseGraph heapBasePtr g sched .DO } moments = some watched)
  (joined : watched.pool.Joined)
include orders readings ran joined

theorem extent_of_joined (tasks : sched.order ≠ []) : Extent (allTimings watched.timings)
    (minStart now (allTimings watched.timings)) (maxEnd (allTimings watched.timings)) := by
  have account := execWorkload_timings orders readings.forward ran joined
  have clocked := run_clocked orders readings.forward ran
  have timings := joined_timings orders readings.forward ran joined
  have forward : ∀ timing ∈ allTimings watched.timings, timing.start ≤ timing.stop := by
    intro timing member
    obtain ⟨worker,id,inside⟩ := mem_allTimings.mp member
    exact account.forward worker (id,timing) inside
  have read : ∀ timing ∈ allTimings watched.timings,
      ReadIn moments timing.start ∧ ReadIn moments timing.stop := by
    intro timing member
    obtain ⟨worker,id,inside⟩ := mem_allTimings.mp member
    rw [timings] at inside
    obtain ⟨span,listed,-,rfl⟩ := mem_recorded.mp inside
    exact clocked.past span listed
  have early {reading : ℤ} (known : ReadIn moments reading) : 0 ≤ reading := by
    obtain ⟨moment,member,rfl⟩ := known
    exact readings.early moment member
  have filled : allTimings watched.timings ≠ [] := by
    intro untimed
    apply tasks
    rw [← account.once .cpu,List.map_eq_nil_iff,List.eq_nil_iff_forall_not_mem]
    intro timing member
    have listed := mem_allTimings.mpr ⟨.cpu,timing.1,member⟩
    rw [untimed] at listed
    exact List.not_mem_nil listed
  obtain ⟨begins,least⟩ :=
    minStart_isLeast filled fun timing member => (read timing member).1.le readings.late
  obtain ⟨ends,greatest⟩ := maxEnd_isGreatest filled fun timing member => early (read timing member).2
  refine ⟨begins,ends,?_,?_⟩
  · exact fun timing member => ⟨least timing member,forward timing member,greatest timing member⟩
  · obtain ⟨timing,member,first⟩ := begins
    exact first ▸ early (read timing member).1

theorem busy_le_extent {first last : ℤ} (extent : Extent (allTimings watched.timings) first last) :
    busySecond watched.timings .dpu + busySecond watched.timings .map + busySecond watched.timings .reduce ≤
      (last - first : ℤ) / nsPerSecond := by
  have clocked := run_clocked orders readings.forward ran
  have timings := joined_timings orders readings.forward ran joined
  have fits : (((spans moments).filter (·.job.1.device = .dpu)).map fun span => span.stop - span.start).sum ≤
      last - first := by
    apply busy_le _ _ extent.ordered
    · intro span member
      have listed := (List.mem_filter.mp member).1
      have inside := extent.inside ⟨span.start,span.stop⟩ (mem_allTimings.mpr ⟨span.job.1,span.job.2,by
        rw [timings]
        exact mem_recorded.mpr ⟨span,listed,rfl,rfl⟩⟩)
      exact ⟨inside.1,inside.2.2⟩
    · exact fun span member => clocked.realizes.forward span (List.mem_filter.mp member).1
    · apply (clocked.realizes.exclusive.filter _).imp_of_mem
      intro a b first second apart
      have one : a.job.1.device = .dpu := by simpa using (List.mem_filter.mp first).2
      have two : b.job.1.device = .dpu := by simpa using (List.mem_filter.mp second).2
      exact apart (one.trans two.symm)
  rw [timings,← busy_shared]
  exact div_le_div_of_nonneg_right (by exact_mod_cast fits) (by norm_num [nsPerSecond])

omit readings joined in
theorem predicted_le (nonneg : om.Nonneg) (forward : Forward moments)
    (slow : ∀ span ∈ spans moments, (subtaskPerf om heapBasePtr g sched span.job).timeCostSecond ≤
      (⟨span.start,span.stop⟩ : TaskTiming).duration) {first last : ℤ} (ordered : first ≤ last)
    (inside : ∀ span ∈ spans moments, first ≤ span.start ∧ span.stop ≤ last) {predicted : PerfStats}
    (returned : execWorkload om heapBasePtr g sched (moments.map (·.event)) = some predicted) :
    predicted.timeCostSecond ≤ (last - first : ℤ) / nsPerSecond := by
  obtain ⟨pool,reran,finished,rfl⟩ := (execWorkload_eq_some _ _ _ _ _ _).mp returned
  have clocked := run_clocked orders forward ran
  have shows := (run_timed nonneg orders reran).shows
  have perm := (joined_executions orders reran finished).2
  let milli : ℤ → ℚ := fun ns => ns / 10^6
  have jobs : ((spans moments).map (Span.map milli)).map (·.job) = executions (moments.map (·.event)) := by
    rw [← spans_job,List.map_map]
    rfl
  have realizes : Realizes (subtaskJobs om heapBasePtr g sched).resource
      (subtaskJobs om heapBasePtr g sched).waits ((spans moments).map (Span.map milli)) := by
    apply clocked.realizes.map
    exact fun a b before => div_le_div_of_nonneg_right (by exact_mod_cast before) (by norm_num)
  have lasting : ∀ span ∈ (spans moments).map (Span.map milli),
      (subtaskJobs om heapBasePtr g sched).silent span.job = false →
        (subtaskJobs om heapBasePtr g sched).cost span.job ≤ span.stop - span.start := by
    intro span member _
    obtain ⟨origin,listed,rfl⟩ := List.mem_map.mp member
    have long := slow origin listed
    simp only [TaskTiming.duration,nsPerSecond] at long
    push_cast at long
    change (subtaskPerf om heapBasePtr g sched origin.job).timeCostSecond * 1000 ≤
      (origin.stop : ℚ) / 10^6 - (origin.start : ℚ) / 10^6
    linarith
  have begun : ∀ span ∈ (spans moments).map (Span.map milli), milli first ≤ span.start := by
    intro span member
    obtain ⟨origin,listed,rfl⟩ := List.mem_map.mp member
    exact div_le_div_of_nonneg_right (by exact_mod_cast (inside origin listed).1) (by norm_num)
  obtain ⟨-,clock⟩ := realizes.replay_le (jobs ▸ perm.nodup_iff.mpr (nodup_subtasks _)) lasting begun
  have bounded (worker : Worker) : pool.clock worker ≤ milli last - milli first := by
    rw [shows.clock,← jobs]
    apply clock
    · exact sub_nonneg.mpr (div_le_div_of_nonneg_right (by exact_mod_cast ordered) (by norm_num))
    · intro span member _
      obtain ⟨origin,listed,rfl⟩ := List.mem_map.mp member
      exact sub_le_sub_right
        (div_le_div_of_nonneg_right (by exact_mod_cast (inside origin listed).2) (by norm_num)) _
  have latest := max_le (bounded .cpu) (bounded .dpu)
  rw [time_eq,nsPerSecond]
  simp only [milli] at latest
  push_cast
  linarith

end Measuring

section Results
variable {Sock Sys : Type} [Inhabited Sock] [Inhabited Sys] {root : Root} {pcm : Pcm Sock Sys}
  {taken : Interval Sock Sys} {om : PerfModel} {heapBasePtr : Nat} {g : TaskGraph} {sched : Schedule}
  {moments : List Moment} {now : ℤ} {stats : PerfStats}

theorem movement_agrees {pool mimic : Pool} {events : List Event}
    (ran : run (Pool.step om) (parseGraph heapBasePtr g sched .DO) events = some pool)
    (other : PerfModel)
    (simulated : run (Pool.step other) (parseGraph heapBasePtr g sched .MIMIC) events = some mimic) :
    mimic.totalTransferMb = pool.totalTransferMb := by
  rw [run_totalTransferMb ran,run_totalTransferMb simulated,parseGraph_eq,parseGraph_eq]

/-- Running the tasks goes through on exactly the interleavings that simulating them does, given the
energy of two sockets, and returns the same movement: whatever the model, the tasks, the clock and
the counters say. -/
theorem execWorkloadDO_returns_iff (root : Root) (pcm : Pcm Sock Sys) (om other : PerfModel)
    (heapBasePtr : Nat) (g : TaskGraph) (sched : Schedule) (taken : Interval Sock Sys)
    (moments : List Moment) (now : ℤ) :
    ((∃ stats, execWorkloadDO root pcm om heapBasePtr g sched taken moments now = some stats) ↔
      2 ≤ pcm.numSockets ∧
        ∃ predicted, execWorkload other heapBasePtr g sched (moments.map (·.event)) = some predicted) ∧
    ∀ stats predicted, execWorkloadDO root pcm om heapBasePtr g sched taken moments now = some stats →
      execWorkload other heapBasePtr g sched (moments.map (·.event)) = some predicted →
        predicted.dataMovementMiB = stats.dataMovementMiB := by
  have traced := run_watched om moments { pool := parseGraph heapBasePtr g sched .DO }
  refine ⟨⟨?_,?_⟩,?_⟩
  · intro found
    obtain ⟨stats,returned⟩ := found
    obtain ⟨wide,watched,ran,joined,-⟩ := execWorkloadDO_eq_some.mp returned
    rw [ran,Option.map_some] at traced
    exact ⟨wide,(modes_agree om other _).mp ⟨_,traced.symm,joined⟩⟩
  · intro found
    obtain ⟨wide,simulated⟩ := found
    obtain ⟨pool,ran,joined⟩ := (modes_agree om other _).mpr simulated
    rw [ran,Option.map_eq_some_iff] at traced
    obtain ⟨watched,reran,rfl⟩ := traced
    exact ⟨_,execWorkloadDO_eq_some.mpr ⟨wide,watched,reran,joined,rfl⟩⟩
  · intro stats predicted returned simulated
    obtain ⟨-,watched,ran,-,rfl⟩ := execWorkloadDO_eq_some.mp returned
    obtain ⟨mimic,mimicRan,-,rfl⟩ := (execWorkload_eq_some _ _ _ _ _ _).mp simulated
    rw [ran,Option.map_some] at traced
    exact movement_agrees traced.symm other mimicRan

/-- A run in `DO` mode returns, to the millisecond, the time from its first start to its last end,
in which the mutex had room for all of the DPU, MAP and REDUCE work, and the energy of both sockets
with a constant power for the DPU work. -/
theorem execWorkloadDO_measures (orders : g.Orders sched.order) (filled : sched.order ≠ [])
    (readings : Readings moments now)
    (returned : execWorkloadDO root pcm om heapBasePtr g sched taken moments now = some stats) :
    ∃ watched first last,
      run (Watched.step om) { pool := parseGraph heapBasePtr g sched .DO } moments = some watched ∧
      Extent (allTimings watched.timings) first last ∧
      |stats.timeCostSecond - (last - first : ℤ) / nsPerSecond| < 1 / 1000 ∧
      busySecond watched.timings .dpu + busySecond watched.timings .map +
        busySecond watched.timings .reduce ≤ (last - first : ℤ) / nsPerSecond ∧
      stats.energyCostJoule = socketJoules pcm taken 0 + socketJoules pcm taken 1 +
        busySecond watched.timings .dpu * 280 := by
  obtain ⟨-,watched,ran,joined,rfl⟩ := execWorkloadDO_eq_some.mp returned
  have extent := extent_of_joined orders readings ran joined filled
  exact ⟨watched,_,_,ran,extent,toMilliseconds_near extent.counted extent.ordered,
    busy_le_extent orders readings ran joined extent,rfl⟩

theorem ticking_readings (events : List Event) : Readings (ticking events) events.length := by
  have inside {moment : Moment} (member : moment ∈ ticking events) :
      ∃ tick < events.length, moment.now = tick := by
    obtain ⟨⟨event,tick⟩,listed,rfl⟩ := List.mem_map.mp member
    have bound := (List.mem_zipIdx listed).2.1
    exact ⟨tick,by simpa using bound,rfl⟩
  refine ⟨ticking_forward events,?_,?_⟩
  · intro moment member
    obtain ⟨tick,-,same⟩ := inside member
    omega
  · intro moment member
    obtain ⟨tick,bound,same⟩ := inside member
    omega

/-- Everything takes a nanosecond. -/
def tickPerf : PerfModel where
  deducePerfCPU _ _ := { timeCostSecond := 1 / 10^9 }
  deducePerfDPU _ _ := { timeCostSecond := 1 / 10^9 }

def chainMoments : List Moment := ticking (chainRun [(.cpu,1),(.dpu,1),(.map,1),(.reduce,1)])

theorem chain_watched : ∃ watched,
    run (Watched.step tickPerf) { pool := parseGraph 0 chain chainSchedule .DO } chainMoments =
      some watched ∧ watched.pool.Joined ∧
    ∀ worker, ∀ timing ∈ watched.timings worker,
      (subtaskPerf tickPerf 0 chain chainSchedule (worker,timing.1)).timeCostSecond ≤ timing.2.duration := by
  have whole : ((run (Watched.step tickPerf) { pool := parseGraph 0 chain chainSchedule .DO }
      chainMoments).map fun watched => decide (watched.pool.Joined ∧
        ∀ worker, ∀ timing ∈ watched.timings worker,
          (subtaskPerf tickPerf 0 chain chainSchedule (worker,timing.1)).timeCostSecond ≤
            timing.2.duration)) = some true := by decide +kernel
  obtain ⟨watched,ran,holds⟩ := Option.map_eq_some_iff.mp whole
  exact ⟨watched,ran,of_decide_eq_true holds⟩

theorem execWorkloadDO_measures_chain : ∃ watched stats,
    execWorkloadDO .exact quietPcm tickPerf 0 chain chainSchedule (sampleAt 3,sampleAt 8) chainMoments 60 =
      some stats ∧
    run (Watched.step tickPerf) { pool := parseGraph 0 chain chainSchedule .DO } chainMoments =
      some watched ∧ stats.energyCostJoule = busySecond watched.timings .dpu * 280 := by
  obtain ⟨watched,ran,joined,-⟩ := chain_watched
  have returned : execWorkloadDO .exact quietPcm tickPerf 0 chain chainSchedule (sampleAt 3,sampleAt 8)
      chainMoments 60 = some (elapsedStats quietPcm (sampleAt 3,sampleAt 8) watched 60) :=
    execWorkloadDO_eq_some.mpr ⟨by decide,watched,ran,joined,rfl⟩
  obtain ⟨other,_,_,reran,-,-,-,energy⟩ := execWorkloadDO_measures (by decide) (by decide)
    (ticking_readings _) returned
  cases Option.some.inj (ran.symm.trans reran)
  have quiet (socket : Nat) : socketJoules quietPcm (sampleAt 3,sampleAt 8) socket = 0 := by
    simp [socketJoules,quietPcm,Double.zero,Double.ofWord]
  refine ⟨watched,_,returned,ran,?_⟩
  rw [energy,quiet,quiet]
  ring

/-- Running the tasks and simulating them go through on the same interleavings, and where no task is
faster than the model says, the simulated time is no more than the measured one, to the millisecond. -/
theorem execWorkload_le_elapsed (nonneg : om.Nonneg) (orders : g.Orders sched.order)
    (filled : sched.order ≠ []) (readings : Readings moments now) {watched : Watched}
    (ran : run (Watched.step om) { pool := parseGraph heapBasePtr g sched .DO } moments = some watched)
    (slow : ∀ worker, ∀ timing ∈ watched.timings worker,
      (subtaskPerf om heapBasePtr g sched (worker,timing.1)).timeCostSecond ≤ timing.2.duration)
    (returned : execWorkloadDO root pcm om heapBasePtr g sched taken moments now = some stats) :
    ∃ predicted, execWorkload om heapBasePtr g sched (moments.map (·.event)) = some predicted ∧
      predicted.timeCostSecond < stats.timeCostSecond + 1 / 1000 ∧
      predicted.dataMovementMiB = stats.dataMovementMiB := by
  obtain ⟨-,other,reran,joined,rfl⟩ := execWorkloadDO_eq_some.mp returned
  cases Option.some.inj (ran.symm.trans reran)
  have traced := run_watched om moments { pool := parseGraph heapBasePtr g sched .DO }
  rw [ran,Option.map_some] at traced
  obtain ⟨predicted,simulated⟩ := (modes_agree om om _).mp ⟨_,traced.symm,joined⟩
  have extent := extent_of_joined orders readings ran joined filled
  have timings := joined_timings orders readings.forward ran joined
  have listed : ∀ span ∈ spans moments,
      (span.job.2,(⟨span.start,span.stop⟩ : TaskTiming)) ∈ watched.timings span.job.1 := by
    intro span member
    rw [timings]
    exact mem_recorded.mpr ⟨span,member,rfl,rfl⟩
  have inside : ∀ span ∈ spans moments, minStart now (allTimings watched.timings) ≤ span.start ∧
      span.stop ≤ maxEnd (allTimings watched.timings) := by
    intro span member
    have within := extent.inside ⟨span.start,span.stop⟩
      (mem_allTimings.mpr ⟨span.job.1,span.job.2,listed span member⟩)
    exact ⟨within.1,within.2.2⟩
  have lasting : ∀ span ∈ spans moments, (subtaskPerf om heapBasePtr g sched span.job).timeCostSecond ≤
      (⟨span.start,span.stop⟩ : TaskTiming).duration :=
    fun span member => slow span.job.1 (span.job.2,⟨span.start,span.stop⟩) (listed span member)
  have below := predicted_le orders ran nonneg readings.forward lasting extent.ordered inside simulated
  have near := abs_lt.mp (toMilliseconds_near extent.counted extent.ordered)
  have measured : (elapsedStats pcm taken watched now).timeCostSecond =
      (toMilliseconds (maxEnd (allTimings watched.timings)) -
        toMilliseconds (minStart now (allTimings watched.timings)) : ℤ) / 1000 := rfl
  have moved : predicted.dataMovementMiB = (elapsedStats pcm taken watched now).dataMovementMiB := by
    obtain ⟨pool,mimic,-,rfl⟩ := (execWorkload_eq_some _ _ _ _ _ _).mp simulated
    exact movement_agrees traced.symm om mimic
  refine ⟨predicted,simulated,?_,moved⟩
  rw [measured]
  linarith [near.1]

theorem execWorkload_le_elapsed_chain : ∃ predicted stats,
    execWorkload tickPerf 0 chain chainSchedule (chainMoments.map (·.event)) = some predicted ∧
    execWorkloadDO .exact quietPcm tickPerf 0 chain chainSchedule (sampleAt 3,sampleAt 8) chainMoments 60 =
      some stats ∧ predicted.timeCostSecond < stats.timeCostSecond + 1 / 1000 := by
  obtain ⟨watched,ran,joined,slow⟩ := chain_watched
  have nonneg : tickPerf.Nonneg := ⟨fun _ _ => by norm_num [tickPerf],fun _ _ => by norm_num [tickPerf]⟩
  have returned : execWorkloadDO .exact quietPcm tickPerf 0 chain chainSchedule (sampleAt 3,sampleAt 8)
      chainMoments 60 = some (elapsedStats quietPcm (sampleAt 3,sampleAt 8) watched 60) :=
    execWorkloadDO_eq_some.mpr ⟨by decide,watched,ran,joined,rfl⟩
  obtain ⟨predicted,simulated,below,-⟩ := execWorkload_le_elapsed nonneg (by decide) (by decide)
    (ticking_readings _) ran slow returned
  exact ⟨predicted,_,simulated,returned,below⟩

end Results
end MetaPB.Executor

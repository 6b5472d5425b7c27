import MetaPB.Operator.OperatorBase
import MetaPB.Utils.ChronoReports

/-! Probing an operator with its stopwatch. A probe on the CPU clears the stopwatch when it has
read its report; a probe on the DPUs does not, so it reads the mean over every probe of its
workload since the last one on the CPU. Training probes the CPU first at every point, and its
samples are those of one probe each. -/
namespace MetaPB.Operator
open Utils Utils.ChronoTrigger Lib.Loop Lib.Transition Lib.Moments

def preprobeWarmupRep : Nat := 0
def probeRep : Nat := 1
def dpuEnergyConstantPerSec : ℚ := 280

def nsPerSecond : ℚ := 10^9

section Probes
variable {Sock Sys : Type}

/-- The calls around the repetitions of a probe; warm-up runs are not measured. -/
def probeCalls (taskName : String) (taken : Nat → Interval Sock Sys) : List (Call Sock Sys) :=
  (List.range (preprobeWarmupRep + probeRep)).flatMap fun rep =>
    if preprobeWarmupRep ≤ rep then [.tick taskName (taken rep).1,.tock taskName (taken rep).2] else []

/-- An operator as far as its probes are concerned: its name, and the text of a workload's size. -/
structure Probed where
  getName : String
  sizeText : Nat → String

namespace Probed
variable (op : Probed)

def cpuTask (pageBlkCnt : Nat) : String := "CPU_" ++ op.getName ++ op.sizeText pageBlkCnt ++ "MiB"

def dpuTask (pageCnt : Nat) : String := "DPU_" ++ op.getName ++ op.sizeText pageCnt ++ "MiB"

/-- The item of a metric in a report. -/
def reportItem (report : Report) (tag : MetricTag) : Option ReportItem :=
  report.reportItems[MetricTag.all.idxOf tag]?

section Executing
variable [Inhabited Sock] [Inhabited Sys] (root : Root) (pcm : Pcm Sock Sys)

def execCPUwithProbe (ct : ChronoTrigger Sock Sys) (pageBlkCnt : Nat) (taken : Nat → Interval Sock Sys) :
    Option (PerfStats × ChronoTrigger Sock Sys) := do
  let taskName := op.cpuTask pageBlkCnt
  let ct ← run (step root pcm) ct (probeCalls taskName taken)
  let (report,_) ← ct.getReport taskName
  let time ← (reportItem report .TimeConsumeNs).bind (·.data.getStats)
  let timeMean := time.mean / nsPerSecond
  let energyMeans ← (reportItem report .CPUPowerConsumptionJoule).bind (·.data.getVector)
  let first ← energyMeans[0]?
  let second ← energyMeans[1]?
  -- the stopwatch is cleared
  return ({ energyCostJoule := first.mean + second.mean, timeCostSecond := timeMean },{})

def execDPUwithProbe (ct : ChronoTrigger Sock Sys) (pageCnt : Nat) (taken : Nat → Interval Sock Sys) :
    Option (PerfStats × ChronoTrigger Sock Sys) := do
  let taskName := op.dpuTask pageCnt
  let ct ← run (step root pcm) ct (probeCalls taskName taken)
  let (report,ct) ← ct.getReport taskName
  let time ← (reportItem report .TimeConsumeNs).bind (·.data.getStats)
  let timeMean := time.mean / nsPerSecond
  let energyMean := timeMean * dpuEnergyConstantPerSec
  return ({ energyCostJoule := energyMean, timeCostSecond := timeMean },ct)

/-- A probe, with what the stopwatch samples around its repetitions. -/
inductive Probing (Sock Sys : Type)
  | cpu (pageBlkCnt : Nat) (taken : Nat → Interval Sock Sys)
  | dpu (pageCnt : Nat) (taken : Nat → Interval Sock Sys)

def execProbe (ct : ChronoTrigger Sock Sys) : Probing Sock Sys → Option (PerfStats × ChronoTrigger Sock Sys)
  | .cpu pageBlkCnt taken => op.execCPUwithProbe root pcm ct pageBlkCnt taken
  | .dpu pageCnt taken => op.execDPUwithProbe root pcm ct pageCnt taken

/-- A series of probes on a fresh operator. -/
def execProbes (probings : List (Probing Sock Sys)) : Option (List PerfStats × ChronoTrigger Sock Sys) :=
  probings.foldlM (fun reached probing => do
    let (stats,ct) ← op.execProbe root pcm reached.2 probing
    return (reached.1 ++ [stats],ct)) ([],{})

end Executing

/-- The repetitions of a probe that are measured. -/
def measuredReps (taken : Nat → Interval Sock Sys) : List (Interval Sock Sys) :=
  (List.range probeRep).map fun rep => taken (preprobeWarmupRep + rep)

/-- The mean of what the stopwatch counts over some intervals, in seconds. -/
def meanSeconds (intervals : List (Interval Sock Sys)) : ℚ :=
  mean (intervals.map fun taken => (durationNs taken.1.time taken.2.time).val) / nsPerSecond

def meanJoules (pcm : Pcm Sock Sys) (socket : Nat) (intervals : List (Interval Sock Sys)) : ℚ :=
  mean (intervals.map fun taken =>
    (pcm.getConsumedJoules (taken.1.socketState socket) (taken.2.socketState socket)).val)

def cpuStats (pcm : Pcm Sock Sys) (intervals : List (Interval Sock Sys)) : PerfStats where
  energyCostJoule := meanJoules pcm 0 intervals + meanJoules pcm 1 intervals
  timeCostSecond := meanSeconds intervals

def dpuStats (intervals : List (Interval Sock Sys)) : PerfStats where
  energyCostJoule := meanSeconds intervals * dpuEnergyConstantPerSec
  timeCostSecond := meanSeconds intervals

/-- What one probe adds to the intervals of a task on the DPUs. -/
def gathers (taskName : String) (intervals : List (Interval Sock Sys)) :
    Probing Sock Sys → List (Interval Sock Sys)
  | .cpu _ _ => []
  | .dpu pageCnt taken => if op.dpuTask pageCnt = taskName then intervals ++ measuredReps taken else intervals

def gathered (probings : List (Probing Sock Sys)) (taskName : String) :
    List (Interval Sock Sys) :=
  probings.foldl (op.gathers taskName) []

/-- What a probe returns after these probes. -/
def probed (pcm : Pcm Sock Sys) (before : List (Probing Sock Sys)) :
    Probing Sock Sys → PerfStats
  | .cpu _ taken => cpuStats pcm (measuredReps taken)
  | .dpu pageCnt taken => dpuStats (op.gathered before (op.dpuTask pageCnt) ++ measuredReps taken)

/-- A stopwatch on which nothing idle was measured and no report was asked for too early. -/
structure Tidy (history : List (Call Sock Sys)) : Prop where
  idle : (track history biasTask).intervals = []
  whole : ∀ name, name ≠ biasTask → (track history name).blank = false

section Names

theorem cpuTask_ne_biasTask (pageBlkCnt : Nat) : op.cpuTask pageBlkCnt ≠ biasTask := by
  intro same
  have letters := congrArg String.toList same
  simp [cpuTask,biasTask] at letters

theorem dpuTask_ne_biasTask (pageCnt : Nat) : op.dpuTask pageCnt ≠ biasTask := by
  intro same
  have letters := congrArg String.toList same
  simp [dpuTask,biasTask] at letters

theorem cpuTask_ne_dpuTask (pageBlkCnt pageCnt : Nat) : op.cpuTask pageBlkCnt ≠ op.dpuTask pageCnt := by
  intro same
  have letters := congrArg String.toList same
  simp [cpuTask,dpuTask] at letters

end Names

variable {op} {root : Root} {pcm : Pcm Sock Sys} {history : List (Call Sock Sys)}
  {ct : ChronoTrigger Sock Sys} {name : String} {probings : List (Probing Sock Sys)}

section Measuring

theorem probeCalls_eq (taskName : String) (taken : Nat → Interval Sock Sys) :
    probeCalls taskName taken = intervalCalls taskName (measuredReps taken) := by
  have warm : (List.range preprobeWarmupRep).flatMap (fun rep =>
      if preprobeWarmupRep ≤ rep then
        [Call.tick taskName (taken rep).1,Call.tock taskName (taken rep).2] else []) = [] := by
    rw [List.flatMap_eq_nil_iff]
    intro rep early
    exact if_neg (Nat.not_le.mpr (List.mem_range.mp early))
  rw [probeCalls,List.range_add,List.flatMap_append,warm,List.nil_append,List.flatMap_map,intervalCalls,
    measuredReps,List.flatMap_map]
  simp

theorem measuredReps_ne_nil (taken : Nat → Interval Sock Sys) : measuredReps taken ≠ [] := by
  simp [measuredReps,probeRep]

theorem Tidy.getReport (tidy : Tidy history) (filled : (track history name).intervals ≠ []) :
    Tidy (history ++ [.getReport name]) ∧
      ∀ other, (track (history ++ [.getReport name]) other).intervals = (track history other).intervals := by
  have same (other : String) : (track (history ++ [.getReport name]) other).intervals =
      (track history other).intervals := by
    rw [track_snoc,follow]
    split <;> rfl
  refine ⟨⟨(same biasTask).trans tidy.idle,?_⟩,same⟩
  intro other apart
  rw [track_snoc,follow]
  split
  next asked =>
    rcases asked.1 with rfl | idle
    · exact absurd (List.isEmpty_iff.mp asked.2) filled
    · exact absurd idle apart
  next => exact tidy.whole other apart

theorem Tidy.intervalCalls (tidy : Tidy history) (apart : name ≠ biasTask)
    (reps : List (Interval Sock Sys)) : Tidy (history ++ intervalCalls name reps) := by
  constructor
  · rw [(track_intervalCalls history name biasTask reps).2,tidy.idle,if_neg apart]
    rfl
  · intro other otherApart
    rw [(track_intervalCalls history name other reps).1]
    exact tidy.whole other otherApart

theorem mean_addAll {intervals : List (Interval Sock Sys)} (nonempty : intervals ≠ [])
    (value : Interval Sock Sys → Double) :
    (Stats.addAll root {} (intervals.map value)).mean = mean (intervals.map fun taken => (value taken).val) := by
  have filled : intervals.map value ≠ [] := by simpa using nonempty
  rw [(Stats.addAll_summary root filled).mean,List.map_map]
  rfl

theorem reportItem_measured (intervals : List (Interval Sock Sys)) (tag : MetricTag) :
    reportItem (measured root pcm intervals) tag = some { data := metricData root pcm tag intervals } := by
  cases tag <;> rfl

end Measuring
section Reading
variable [Inhabited Sock] [Inhabited Sys]

theorem probeCalls_report (ran : run (step root pcm) {} history = some ct) (tidy : Tidy history)
    (apart : name ≠ biasTask) (taken : Nat → Interval Sock Sys) :
    ∃ spent after, run (step root pcm) ct (probeCalls name taken) = some spent ∧
      spent.getReport name =
        some (measured root pcm ((track history name).intervals ++ measuredReps taken),after) ∧
      run (step root pcm) {} (history ++ intervalCalls name (measuredReps taken) ++ [.getReport name]) =
        some after := by
  have clean := tidy.whole name apart
  have later := (track_intervalCalls history name name (measuredReps taken)).2
  rw [if_pos rfl] at later
  have filled : (track (history ++ intervalCalls name (measuredReps taken)) name).intervals ≠ [] := by
    simp [later,measuredReps_ne_nil]
  have idle := (tidy.intervalCalls apart (measuredReps taken)).idle
  obtain ⟨spent,measuring⟩ : ∃ spent, run (step root pcm) {}
      (history ++ intervalCalls name (measuredReps taken)) = some spent :=
    (exists_run_iff _).mpr ((disciplined_intervalCalls history name (measuredReps taken)).mpr
      ⟨(run_shows ran).1,fun _ => clean⟩)
  have read := (run_shows measuring).2.getReport_eq name
  rw [asked,if_neg filled,asked,if_pos idle,Report.subtract_empty,Option.map_some,later] at read
  obtain ⟨_,before,rest⟩ := (run_append _ _ _ _ _).mp measuring
  cases Option.some.inj (ran.symm.trans before)
  refine ⟨spent,_,by rw [probeCalls_eq]; exact rest,read,(run_snoc _ _ _ _ _).mpr ⟨spent,measuring,?_⟩⟩
  rw [step,read,Option.map_some]

theorem execCPUwithProbe_eq (op : Probed) (ran : run (step root pcm) {} history = some ct) (tidy : Tidy history)
    (pageBlkCnt : Nat) (taken : Nat → Interval Sock Sys) :
    op.execCPUwithProbe root pcm ct pageBlkCnt taken =
      if 2 ≤ pcm.numSockets then
        some (cpuStats pcm ((track history (op.cpuTask pageBlkCnt)).intervals ++ measuredReps taken),{})
      else none := by
  obtain ⟨spent,after,measuring,read,-⟩ :=
    probeCalls_report ran tidy (op.cpuTask_ne_biasTask pageBlkCnt) taken
  set intervals := (track history (op.cpuTask pageBlkCnt)).intervals ++ measuredReps taken with all
  have filled : intervals ≠ [] := by simp [all,measuredReps_ne_nil]
  simp only [execCPUwithProbe,measuring,read,reportItem_measured,Option.bind_eq_bind,Option.bind_some,
    metricData,Pcm.gathered,ReportData.getStats,ReportData.getVector,List.getElem?_map]
  split
  next wide =>
    rw [List.getElem?_range (by omega),List.getElem?_range (by omega)]
    simp only [Option.map_some,Option.bind_some,mean_addAll filled]
    rfl
  next narrow =>
    have second : (List.range pcm.numSockets)[1]? = none := List.getElem?_eq_none (by simp; omega)
    rw [second]
    cases (List.range pcm.numSockets)[0]? <;> rfl

theorem execDPUwithProbe_eq (op : Probed) (ran : run (step root pcm) {} history = some ct) (tidy : Tidy history)
    (pageCnt : Nat) (taken : Nat → Interval Sock Sys) :
    ∃ after, op.execDPUwithProbe root pcm ct pageCnt taken =
        some (dpuStats ((track history (op.dpuTask pageCnt)).intervals ++ measuredReps taken),after) ∧
      run (step root pcm) {} (history ++ intervalCalls (op.dpuTask pageCnt) (measuredReps taken) ++
        [.getReport (op.dpuTask pageCnt)]) = some after := by
  obtain ⟨spent,after,measuring,read,reached⟩ :=
    probeCalls_report ran tidy (op.dpuTask_ne_biasTask pageCnt) taken
  set intervals := (track history (op.dpuTask pageCnt)).intervals ++ measuredReps taken with all
  have filled : intervals ≠ [] := by simp [all,measuredReps_ne_nil]
  refine ⟨after,?_,reached⟩
  simp only [execDPUwithProbe,measuring,read,reportItem_measured,Option.bind_eq_bind,Option.bind_some,
    metricData,Pcm.gathered,ReportData.getStats,mean_addAll filled]
  rfl

end Reading

section Series

/-- A history that left the stopwatch as these probes do. -/
structure Follows (op : Probed) (probings : List (Probing Sock Sys)) (history : List (Call Sock Sys)) : Prop
    extends Tidy history where
  cpu : ∀ pageBlkCnt, (track history (op.cpuTask pageBlkCnt)).intervals = []
  dpu : ∀ pageCnt, (track history (op.dpuTask pageCnt)).intervals =
    op.gathered probings (op.dpuTask pageCnt)

theorem gathered_snoc (probings : List (Probing Sock Sys)) (probing : Probing Sock Sys) (taskName : String) :
    op.gathered (probings ++ [probing]) taskName =
      op.gathers taskName (op.gathered probings taskName) probing := by
  rw [gathered,List.foldl_append]
  rfl

theorem follows_nil (cleared : ∀ taskName, op.gathered probings taskName = []) :
    op.Follows probings [] where
  idle := rfl
  whole _ _ := rfl
  cpu _ := rfl
  dpu _ := (cleared _).symm

theorem Follows.dpuProbe {history : List (Call Sock Sys)} (follows : op.Follows probings history)
    (pageCnt : Nat) (taken : Nat → Interval Sock Sys) :
    op.Follows (probings ++ [.dpu pageCnt taken])
      (history ++ intervalCalls (op.dpuTask pageCnt) (measuredReps taken) ++
        [.getReport (op.dpuTask pageCnt)]) := by
  have later := fun name => (track_intervalCalls history (op.dpuTask pageCnt) name (measuredReps taken)).2
  have filled : (track (history ++ intervalCalls (op.dpuTask pageCnt) (measuredReps taken))
      (op.dpuTask pageCnt)).intervals ≠ [] := by
    simp [later,measuredReps_ne_nil]
  obtain ⟨tidy,same⟩ :=
    (follows.toTidy.intervalCalls (op.dpuTask_ne_biasTask pageCnt) (measuredReps taken)).getReport filled
  refine ⟨tidy,?_,?_⟩
  · intro pageBlkCnt
    rw [same,later,follows.cpu,if_neg (op.cpuTask_ne_dpuTask pageBlkCnt pageCnt).symm]
    rfl
  · intro other
    rw [same,later,follows.dpu,gathered_snoc,gathers]
    split <;> simp

end Series
section Probing
variable [Inhabited Sock] [Inhabited Sys]

/-- The stopwatch after these probes. -/
def After (op : Probed) (root : Root) (pcm : Pcm Sock Sys) (probings : List (Probing Sock Sys))
    (ct : ChronoTrigger Sock Sys) : Prop :=
  ∃ history, run (step root pcm) {} history = some ct ∧ op.Follows probings history

/-- One more probe: on the CPU it needs the energy of two sockets. -/
theorem After.probe (after : op.After root pcm probings ct) (probing : Probing Sock Sys)
    (possible : ∀ pageBlkCnt taken, probing = .cpu pageBlkCnt taken → 2 ≤ pcm.numSockets) :
    ∃ next, op.execProbe root pcm ct probing = some (op.probed pcm probings probing,next) ∧
      op.After root pcm (probings ++ [probing]) next := by
  obtain ⟨history,ran,follows⟩ := after
  cases probing with
  | cpu pageBlkCnt taken =>
    refine ⟨{},?_,[],rfl,follows_nil fun taskName => by rw [gathered_snoc,gathers]⟩
    rw [execProbe,op.execCPUwithProbe_eq ran follows.toTidy,if_pos (possible _ _ rfl),follows.cpu]
    rfl
  | dpu pageCnt taken =>
    obtain ⟨next,probes,reached⟩ := op.execDPUwithProbe_eq ran follows.toTidy pageCnt taken
    refine ⟨next,?_,_,reached,follows.dpuProbe pageCnt taken⟩
    rw [execProbe,probes,follows.dpu]
    rfl

theorem After.probe_none (after : op.After root pcm probings ct) (single : ¬ 2 ≤ pcm.numSockets)
    (pageBlkCnt : Nat) (taken : Nat → Interval Sock Sys) :
    op.execProbe root pcm ct (.cpu pageBlkCnt taken) = none := by
  obtain ⟨history,ran,follows⟩ := after
  rw [execProbe,op.execCPUwithProbe_eq ran follows.toTidy,if_neg single]

theorem after_nil : op.After root pcm [] {} := ⟨[],rfl,follows_nil fun _ => rfl⟩

theorem execProbes_snoc (probings : List (Probing Sock Sys)) (probing : Probing Sock Sys) :
    op.execProbes root pcm (probings ++ [probing]) =
      (op.execProbes root pcm probings).bind fun reached =>
        (op.execProbe root pcm reached.2 probing).map fun probed => (reached.1 ++ [probed.1],probed.2) := by
  rw [execProbes,List.foldlM_append]
  simp only [List.foldlM_cons,List.foldlM_nil,execProbes]
  simp only [Option.bind_eq_bind,Option.pure_def,Option.bind_fun_some,Option.map_eq_bind,Function.comp_def]

/-- What a series returned, and the stopwatch it left. -/
structure Returned (op : Probed) (root : Root) (pcm : Pcm Sock Sys) (probings : List (Probing Sock Sys))
    (results : List PerfStats) (ct : ChronoTrigger Sock Sys) : Prop where
  sockets : ∀ pageBlkCnt taken, .cpu pageBlkCnt taken ∈ probings → 2 ≤ pcm.numSockets
  size : results.length = probings.length
  each : ∀ before probing rest, probings = before ++ probing::rest →
    results[before.length]? = some (op.probed pcm before probing)
  after : op.After root pcm probings ct

theorem Returned.probe {results : List PerfStats} (returned : Returned op root pcm probings results ct)
    (probing : Probing Sock Sys)
    (possible : ∀ pageBlkCnt taken, probing = .cpu pageBlkCnt taken → 2 ≤ pcm.numSockets) :
    ∃ next, op.execProbe root pcm ct probing = some (op.probed pcm probings probing,next) ∧
      Returned op root pcm (probings ++ [probing]) (results ++ [op.probed pcm probings probing]) next := by
  obtain ⟨next,ran,after⟩ := returned.after.probe probing possible
  refine ⟨next,ran,?_,by simp [returned.size],?_,after⟩
  · intro pageBlkCnt taken listed
    rcases List.mem_append.mp listed with earlier | last
    · exact returned.sockets pageBlkCnt taken earlier
    · exact possible pageBlkCnt taken (List.mem_singleton.mp last).symm
  · refine (Lib.Sequence.forall_split_snoc fun before earlier =>
      (results ++ [op.probed pcm probings probing])[before.length]? = some (op.probed pcm before earlier)).mpr
        ⟨?_,?_⟩
    · intro before earlier rest split
      have inside : before.length < results.length := by simp [returned.size,split]
      rw [List.getElem?_append_left inside]
      exact returned.each before earlier rest split
    · rw [← returned.size,List.getElem?_concat_length]

theorem execProbes_returned {results : List PerfStats}
    (ran : op.execProbes root pcm probings = some (results,ct)) :
    Returned op root pcm probings results ct := by
  induction probings using List.reverseRecOn generalizing results ct with
  | nil =>
    cases Option.some.inj ran
    exact ⟨by simp,rfl,by simp,after_nil⟩
  | append_singleton probings probing ih =>
    rw [execProbes_snoc] at ran
    obtain ⟨reached,before,last⟩ := Option.bind_eq_some_iff.mp ran
    obtain ⟨stats,probes,same⟩ := Option.map_eq_some_iff.mp last
    have returned := ih before
    have possible (pageBlkCnt : Nat) (taken : Nat → Interval Sock Sys)
        (cpu : probing = .cpu pageBlkCnt taken) : 2 ≤ pcm.numSockets := by
      by_contra single
      rw [cpu,returned.after.probe_none single] at probes
      contradiction
    obtain ⟨next,again,whole⟩ := returned.probe probing possible
    cases Option.some.inj (probes.symm.trans again)
    obtain ⟨rfl,rfl⟩ := Prod.mk.inj same
    exact whole

/-- A series of probes in any order goes through exactly with two sockets or without the CPU. On
the CPU every probe returns its own measurements. On the DPUs it returns the means over all probes
of its workload since the last one on the CPU. -/
theorem execProbes_statistics (op : Probed) (root : Root) (pcm : Pcm Sock Sys)
    (probings : List (Probing Sock Sys)) :
    ((∃ results ct, op.execProbes root pcm probings = some (results,ct)) ↔
      ∀ pageBlkCnt taken, .cpu pageBlkCnt taken ∈ probings → 2 ≤ pcm.numSockets) ∧
    ∀ results ct, op.execProbes root pcm probings = some (results,ct) →
      results.length = probings.length ∧ ∀ before probing rest, probings = before ++ probing::rest →
        results[before.length]? = some (op.probed pcm before probing) := by
  refine ⟨⟨?_,?_⟩,fun results ct ran => ⟨(execProbes_returned ran).size,(execProbes_returned ran).each⟩⟩
  · intro found
    obtain ⟨results,ct,ran⟩ := found
    exact (execProbes_returned ran).sockets
  · intro possible
    induction probings using List.reverseRecOn with
    | nil => exact ⟨[],{},rfl⟩
    | append_singleton probings probing ih =>
      obtain ⟨results,ct,ran⟩ := ih fun pageBlkCnt taken listed =>
        possible pageBlkCnt taken (List.mem_append_left _ listed)
      obtain ⟨next,probes,-⟩ := (execProbes_returned ran).probe probing fun pageBlkCnt taken cpu =>
        possible pageBlkCnt taken (by simp [cpu])
      refine ⟨results ++ [op.probed pcm probings probing],next,?_⟩
      rw [execProbes_snoc,ran,Option.bind_some,probes]
      rfl

end Probing
section Training
variable [Inhabited Sock] [Inhabited Sys] (op root pcm) (kind : OperatorKind)

/-- One training of an operator: the cache it finds, and what the stopwatch samples around the
probes of each workload. -/
structure Session (Sock Sys : Type) where
  cache : ModelCache
  pageBlkUpperBound : Nat
  cpuTaken : Nat → Nat → Interval Sock Sys
  dpuTaken : Nat → Nat → Interval Sock Sys

/-- One turn of the training loop, on the operator and its stopwatch. -/
def trainProbing (session : Session Sock Sys) (reached : OperatorBase × ChronoTrigger Sock Sys)
    (point : Nat × Nat) : Option (OperatorBase × ChronoTrigger Sock Sys) := do
  let (cpuStats,ct) ← op.execCPUwithProbe root pcm reached.2 point.1 (session.cpuTaken point.1)
  let cpu ← reached.1.cpuPerfSamples.write point.2 cpuStats
  if kind.isCPUOnly then return ({ reached.1 with cpuPerfSamples := cpu },ct)
  else
    let (dpuStats,ct) ← op.execDPUwithProbe root pcm ct point.1 (session.dpuTaken point.1)
    let dpu ← reached.1.dpuPerfSamples.write point.2 dpuStats
    return ({ reached.1 with cpuPerfSamples := cpu, dpuPerfSamples := dpu },ct)

/-- `trainModel` with its probes. -/
def trainModelProbing (reached : OperatorBase × ChronoTrigger Sock Sys) (session : Session Sock Sys) :
    Option (OperatorBase × ChronoTrigger Sock Sys) := do
  let (loaded,trained) ←
    OperatorBase.loadModelCacheIfExist kind session.cache session.pageBlkUpperBound reached.1
  if loaded = false ∧ kind.isTrainable then
    let points ← OperatorBase.trainingPoints session.pageBlkUpperBound
    let (trained,ct) ←
      points.zipIdx.foldlM (op.trainProbing root pcm kind session) (trained,reached.2)
    return ({ trained with deducePageBlkUpperBound := session.pageBlkUpperBound },ct)
  else return (trained,reached.2)

/-- Training from samples that are each the measurements of one probe. -/
def Session.trainModel (kind : OperatorKind) (pcm : Pcm Sock Sys) (trained : OperatorBase)
    (session : Session Sock Sys) : Option OperatorBase :=
  OperatorBase.trainModel kind session.cache
    (fun pageBlkCnt => cpuStats pcm (measuredReps (session.cpuTaken pageBlkCnt)))
    (fun pageBlkCnt => dpuStats (measuredReps (session.dpuTaken pageBlkCnt)))
    session.pageBlkUpperBound trained

variable {op root pcm kind} {session : Session Sock Sys}

/-- An operator whose stopwatch some probes have used. -/
def Used (op : Probed) (root : Root) (pcm : Pcm Sock Sys) (reached : OperatorBase × ChronoTrigger Sock Sys) :
    Prop :=
  ∃ probings, op.After root pcm probings reached.2

/-- A point probes the CPU first, so the probe of the DPUs has the stopwatch to itself. -/
theorem trainProbing_eq (wide : 2 ≤ pcm.numSockets) (kind : OperatorKind) (session : Session Sock Sys)
    {reached : OperatorBase × ChronoTrigger Sock Sys} (used : op.Used root pcm reached) (point : Nat × Nat) :
    ((op.trainProbing root pcm kind session reached point).map (·.1) = OperatorBase.train kind
        (fun pageBlkCnt => cpuStats pcm (measuredReps (session.cpuTaken pageBlkCnt)))
        (fun pageBlkCnt => dpuStats (measuredReps (session.dpuTaken pageBlkCnt))) reached.1 point) ∧
      ∀ next, op.trainProbing root pcm kind session reached point = some next →
        op.Used root pcm next := by
  obtain ⟨probings,after⟩ := used
  obtain ⟨ct,cpuRan,cpuAfter⟩ :=
    after.probe (.cpu point.1 (session.cpuTaken point.1)) fun _ _ _ => wide
  obtain ⟨last,dpuRan,dpuAfter⟩ := cpuAfter.probe (.dpu point.1 (session.dpuTaken point.1)) (by simp)
  simp only [execProbe] at cpuRan dpuRan
  have fresh : op.probed pcm (probings ++ [.cpu point.1 (session.cpuTaken point.1)])
      (.dpu point.1 (session.dpuTaken point.1)) =
        (dpuStats (measuredReps (session.dpuTaken point.1)) : PerfStats) := by
    rw [probed,gathered_snoc]
    rfl
  rw [fresh] at dpuRan
  have cpuProbed : op.probed pcm probings (.cpu point.1 (session.cpuTaken point.1)) =
      cpuStats pcm (measuredReps (session.cpuTaken point.1)) := rfl
  rw [cpuProbed] at cpuRan
  simp only [trainProbing,OperatorBase.train,cpuRan,dpuRan,Option.bind_eq_bind,Option.bind_some,
    Option.pure_def]
  cases reached.1.cpuPerfSamples.write point.2 (cpuStats pcm (measuredReps (session.cpuTaken point.1))) with
  | none => exact ⟨rfl,by simp⟩
  | some cpu =>
    cases kind.isCPUOnly with
    | true =>
      refine ⟨rfl,fun next same => ?_⟩
      cases Option.some.inj same
      exact ⟨_,cpuAfter⟩
    | false =>
      cases reached.1.dpuPerfSamples.write point.2 (dpuStats (measuredReps (session.dpuTaken point.1))) with
      | none => exact ⟨rfl,by simp⟩
      | some dpu =>
        refine ⟨rfl,fun next same => ?_⟩
        cases Option.some.inj same
        exact ⟨_,dpuAfter⟩

theorem trainModelProbing_eq (wide : 2 ≤ pcm.numSockets) (session : Session Sock Sys)
    {reached : OperatorBase × ChronoTrigger Sock Sys} (used : op.Used root pcm reached) :
    ((op.trainModelProbing root pcm kind reached session).map (·.1) =
      session.trainModel kind pcm reached.1) ∧
      ∀ next, op.trainModelProbing root pcm kind reached session = some next →
        op.Used root pcm next := by
  unfold trainModelProbing Session.trainModel OperatorBase.trainModel
  cases OperatorBase.loadModelCacheIfExist kind session.cache session.pageBlkUpperBound reached.1 with
  | none => exact ⟨rfl,by simp⟩
  | some result =>
    obtain ⟨loaded,trained⟩ := result
    simp only [Option.bind_eq_bind,Option.bind_some]
    by_cases training : loaded = false ∧ kind.isTrainable
    · rw [if_pos training,if_pos training]
      cases OperatorBase.trainingPoints session.pageBlkUpperBound with
      | none => exact ⟨rfl,by simp⟩
      | some points =>
        have looped := foldlM_agrees (fun reached point used => (trainProbing_eq wide kind session used point).1)
          (fun reached point next used ran => (trainProbing_eq wide kind session used point).2 next ran)
          points.zipIdx (s := (trained,reached.2)) used
        simp only [Option.bind_some,← looped]
        cases ran : points.zipIdx.foldlM (op.trainProbing root pcm kind session) (trained,reached.2) with
        | none => exact ⟨rfl,by simp⟩
        | some final =>
          refine ⟨rfl,fun next same => ?_⟩
          cases Option.some.inj same
          have kept : op.Used root pcm final := foldlM_invariant (s := (trained,reached.2)) used
            (fun point _ reached next used turned =>
              (trainProbing_eq wide kind session used point).2 next turned) ran
          exact kept
    · rw [if_neg training,if_neg training]
      refine ⟨rfl,fun next same => ?_⟩
      cases Option.some.inj same
      exact used

/-- Trained any number of times, from whatever caches it finds, an operator holds the samples of
the probes it made itself, each from its own measurements alone. -/
theorem trainModelProbing_sessions (wide : 2 ≤ pcm.numSockets) (trained : OperatorBase)
    (sessions : List (Session Sock Sys)) :
    (sessions.foldlM (op.trainModelProbing root pcm kind) (trained,{})).map (·.1) =
      sessions.foldlM (Session.trainModel kind pcm) trained :=
  foldlM_agrees (fun _ session used => (trainModelProbing_eq wide session used).1)
    (fun _ session next used ran => (trainModelProbing_eq wide session used).2 next ran) sessions
    (⟨[],after_nil⟩ : op.Used root pcm (trained,{}))

/-- Probes of five nanoseconds each. -/
def quietSession : Session Unit Unit where
  cache := {}
  pageBlkUpperBound := 16
  cpuTaken _ _ := (sampleAt 3,sampleAt 8)
  dpuTaken _ _ := (sampleAt 3,sampleAt 8)

theorem trainModelProbing_sessions_twice : ∃ trained,
    ([quietSession,quietSession].foldlM (trainModelProbing ⟨"MAC",toString⟩ .exact quietPcm ⟨true,false⟩)
      ({},{})).map (·.1) = some trained ∧ (trained.dpuPerfSamples 3).timeCostSecond = 5 / 10^9 := by
  rw [trainModelProbing_sessions (by decide) {} [quietSession,quietSession]]
  have measured : ([quietSession,quietSession].foldlM (Session.trainModel ⟨true,false⟩ quietPcm) {}).map
      (fun trained => (trained.dpuPerfSamples 3).timeCostSecond) = some (5 / 10^9) := by decide +kernel
  exact Option.map_eq_some_iff.mp measured

end Training

end Probed
end Probes
end MetaPB.Operator

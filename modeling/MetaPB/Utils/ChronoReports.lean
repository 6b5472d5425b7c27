import MetaPB.Utils.ChronoHistory

/-! The reports of a stopwatch in use. A task's report depends on the calls under its own name
alone and holds the statistics of its own intervals less the mean of the idle ones; a dump works
as long as no report was asked for before there was one. -/
namespace MetaPB.Utils
open Lib.Loop Lib.Transition Lib.Moments

namespace ReportData

def records : ReportData → List Stats
  | .stats data => [data]
  | .vector data => data

/-- `std::get` of the record. -/
def getStats : ReportData → Option Stats
  | .stats data => some data
  | .vector _ => none

/-- `std::get` of the vector. -/
def getVector : ReportData → Option (List Stats)
  | .stats _ => none
  | .vector data => some data

end ReportData

namespace ChronoTrigger
variable {Sock Sys : Type}

/-- The calls that can change what is known of a task. -/
def concerns (taskName : String) : Call Sock Sys → Bool
  | .tick name _ | .tock name _ => name = taskName
  | .getReport name => name = taskName ∨ taskName = biasTask
  | .clear => true

section Own
variable {history : List (Call Sock Sys)} {call : Call Sock Sys} {name : String}

theorem follow_of_not_concerns (track : Track Sock Sys) (elsewhere : concerns name call = false) :
    follow name track call = track := by
  cases call <;> simp_all [concerns,follow]

theorem track_filter (history : List (Call Sock Sys)) (name : String) :
    track (history.filter (concerns name)) name = track history name := by
  induction history using List.reverseRecOn with
  | nil => rfl
  | append_singleton history call ih =>
    rw [List.filter_append,track_snoc]
    cases own : concerns name call with
    | true => simp [own,track_snoc,ih]
    | false => simp [own,ih,follow_of_not_concerns]

theorem intervals_biasTask_filter (apart : name ≠ biasTask) :
    (track (history.filter (concerns name)) biasTask).intervals = [] := by
  induction history using List.reverseRecOn with
  | nil => rfl
  | append_singleton history call ih =>
    rw [List.filter_append]
    cases own : concerns name call with
    | false => simpa [own] using ih
    | true =>
      simp only [own,List.filter_cons_of_pos,List.filter_nil,track_snoc]
      cases call with
      | tick other now => simp_all [follow,concerns]
      | tock other now => simp_all [follow,concerns]
      | getReport other =>
        rw [follow]
        split <;> exact ih
      | clear => rfl

theorem disciplined_filter (disciplined : Disciplined history) (apart : name ≠ biasTask) :
    Disciplined (history.filter (concerns name)) := by
  induction history using List.reverseRecOn with
  | nil => exact disciplined
  | append_singleton history call ih =>
    obtain ⟨before,allowed⟩ := disciplined_snoc.mp disciplined
    rw [List.filter_append]
    cases own : concerns name call with
    | false => simpa [own] using ih before
    | true =>
      simp only [own,List.filter_cons_of_pos,List.filter_nil]
      refine disciplined_snoc.mpr ⟨ih before,?_⟩
      cases call with
      | tick other now => trivial
      | tock other now =>
        obtain rfl : other = name := by simpa [concerns] using own
        rw [Allowed,track_filter]
        exact allowed
      | getReport other =>
        intro idle
        exact absurd (intervals_biasTask_filter apart) idle
      | clear => trivial

theorem blank_biasTask (disciplined : Disciplined history) (blank : (track history name).blank = true) :
    (track history biasTask).blank = true := by
  induction history using List.reverseRecOn with
  | nil => simp [track] at blank
  | append_singleton history call ih =>
    obtain ⟨before,allowed⟩ := disciplined_snoc.mp disciplined
    rw [track_snoc] at blank ⊢
    cases call with
    | tick other now =>
      rw [follow] at blank ⊢
      split at blank <;> split <;> exact ih before blank
    | tock other now =>
      rw [follow] at blank ⊢
      split at blank <;> split <;> exact ih before blank
    | getReport other =>
      rw [follow] at blank ⊢
      split at blank
      next asked =>
        split
        · rfl
        next kept =>
          have idle : (track history biasTask).intervals ≠ [] := by simpa using kept
          rcases asked.1 with rfl | rfl
          · exact absurd (List.isEmpty_iff.mp asked.2) (allowed idle)
          · exact absurd (List.isEmpty_iff.mp asked.2) idle
      next kept =>
        split
        · rfl
        · exact ih before blank
    | clear => simp [follow] at blank

end Own
section Naive

/-- Two sockets on which nothing happens. -/
def quietPcm : Pcm Unit Unit where
  numSockets := 2
  someSocket := by decide
  getFrontendBound _ _ := Double.zero
  getBackendBound _ _ := Double.zero
  getCoreBound _ _ := Double.zero
  getMemoryBound _ _ := Double.zero
  getBadSpeculation _ _ := Double.zero
  getL3CacheHitRatio _ _ := Double.zero
  getL3CacheOccupancy _ := 0
  getBytesReadFromMC _ _ := 0
  getBytesWrittenToMC _ _ := 0
  getConsumedJoules _ _ := Double.zero
  getDRAMConsumedJoules _ _ := Double.zero
  getQPItoMCTrafficRatio _ _ := Double.zero

def sampleAt (time : Nat) : Sample Unit Unit :=
  ⟨⟨time % 2^63,Nat.mod_lt time (by decide)⟩,(),fun _ => ()⟩

def naiveCalls : List (Call Unit Unit) :=
  [.tick "naive" (sampleAt 3),.tick "other" (sampleAt 4),.tock "naive" (sampleAt 8)]

theorem naiveCalls_disciplined : Disciplined naiveCalls := by
  have split : naiveCalls = (([] ++ [.tick "naive" (sampleAt 3)]) ++ [.tick "other" (sampleAt 4)]) ++
      [.tock "naive" (sampleAt 8)] := rfl
  rw [split,disciplined_snoc,disciplined_snoc,disciplined_snoc]
  exact ⟨⟨⟨disciplined_nil,trivial⟩,trivial⟩,by decide⟩

end Naive
section Statistics
variable {root : Root} {pcm : Pcm Sock Sys}

/-- The values a metric takes over an interval: one, or one a socket. -/
def series (pcm : Pcm Sock Sys) (tag : MetricTag) : List (Interval Sock Sys → Double) :=
  match pcm.gathered tag with
  | .outside => [fun taken => durationNs taken.1.time taken.2.time]
  | .system get => [fun taken => get taken.1.systemState taken.2.systemState]
  | .sockets get =>
    (List.range pcm.numSockets).map fun i taken => get (taken.1.socketState i) (taken.2.socketState i)

/-- The record of a task's values less the mean of the idle ones; a mean below it is noise. -/
def Corrects (root : Root) (own idle : List ℚ) (stats : Stats) : Prop :=
  if idle = [] then Stats.Summary root own stats
  else if mean own < mean idle then stats = {}
  else Stats.Summary root (own.map fun x => x - mean idle) stats

theorem metricData_records (tag : MetricTag) (intervals : List (Interval Sock Sys)) :
    (metricData root pcm tag intervals).records =
      (series pcm tag).map fun value => Stats.addAll root {} (intervals.map value) := by
  unfold metricData series
  cases pcm.gathered tag <;> simp [ReportData.records]

theorem correctData_records (tag : MetricTag) (intervals idle : List (Interval Sock Sys)) :
    (correctData (metricData root pcm tag intervals) (metricData root pcm tag idle)).records =
      (series pcm tag).map fun value => (Stats.addAll root {} (intervals.map value)).correct
        (Stats.addAll root {} (idle.map value)) := by
  unfold metricData series
  cases pcm.gathered tag with
  | outside => rfl
  | system get => rfl
  | sockets get => simp [ReportData.records,correctData,List.zipWith_map,List.zipWith_self]

theorem corrects_measured {own : List Double} (filled : own ≠ []) :
    Corrects root (own.map (·.val)) [] (Stats.addAll root {} own) := by
  rw [Corrects,if_pos rfl]
  exact Stats.addAll_summary root filled

theorem corrects_correct {own idle : List Double} (filled : own ≠ []) (spent : idle ≠ []) :
    Corrects root (own.map (·.val)) (idle.map (·.val))
      ((Stats.addAll root {} own).correct (Stats.addAll root {} idle)) := by
  have mine := Stats.addAll_summary root filled
  have theirs := Stats.addAll_summary root spent
  rw [Corrects,if_neg (by simpa using spent)]
  split
  next noise => rw [Stats.correct,theirs.mean,mine.mean,if_pos noise]
  next above =>
    have below : (Stats.addAll root {} idle).mean ≤ (Stats.addAll root {} own).mean := by
      rw [theirs.mean,mine.mean]
      exact not_lt.mp above
    rw [← theirs.mean]
    exact mine.correct (by simpa using filled) below

variable [Inhabited Sock] [Inhabited Sys] {history : List (Call Sock Sys)}
  {ct : ChronoTrigger Sock Sys} {name : String}

/-- After any run, the report of a task that closed an interval holds for every metric, and for
every socket where sockets are read, the statistics of the task's own intervals since everything
was cleared, corrected by the idle ones. -/
theorem getReport_statistics (ran : run (step root pcm) {} history = some ct)
    (closed : (track history name).intervals ≠ []) :
    ∃ report after, ct.getReport name = some (report,after) ∧
      List.Forall₂ (fun tag item => List.Forall₂ (fun value stats => Corrects root
          ((track history name).intervals.map fun taken => (value taken).val)
          ((track history biasTask).intervals.map fun taken => (value taken).val) stats)
        (series pcm tag) (ReportItem.data item).records) MetricTag.all report.reportItems := by
  have shows := (run_shows ran).2
  have read := shows.getReport_eq name
  have mine : asked root pcm (track history name) = measured root pcm (track history name).intervals :=
    if_neg closed
  rcases eq_or_ne (track history biasTask).intervals [] with empty | idled
  · have idle : asked root pcm (track history biasTask) = {} := if_pos empty
    rw [mine,idle,Report.subtract_empty,Option.map_some] at read
    refine ⟨_,_,read,?_⟩
    rw [measured,List.forall₂_map_right_iff,List.forall₂_same]
    intro tag _
    rw [metricData_records,List.forall₂_map_right_iff,List.forall₂_same]
    intro value _
    have held : Corrects root (((track history name).intervals.map value).map (·.val)) []
        (Stats.addAll root {} ((track history name).intervals.map value)) :=
      corrects_measured (by simpa using closed)
    simpa [empty,Function.comp_def] using held
  · have idle : asked root pcm (track history biasTask) =
        measured root pcm (track history biasTask).intervals := if_neg idled
    rw [mine,idle,measured_subtract,Option.map_some] at read
    refine ⟨_,_,read,?_⟩
    rw [corrected,List.forall₂_map_right_iff,List.forall₂_same]
    intro tag _
    rw [correctData_records,List.forall₂_map_right_iff,List.forall₂_same]
    intro value _
    have held : Corrects root (((track history name).intervals.map value).map (·.val))
        (((track history biasTask).intervals.map value).map (·.val)) _ :=
      corrects_correct (by simpa using closed) (by simpa using idled)
    simpa [Function.comp_def] using held

/-- Five nanoseconds under one name, with another name ticked in between. -/
theorem getReport_statistics_naive : ∃ ct report after,
    run (step .exact quietPcm) {} naiveCalls = some ct ∧ ct.getReport "naive" = some (report,after) ∧
      ∃ item ∈ report.reportItems, ∃ stats ∈ item.data.records, Stats.Summary .exact [5] stats := by
  obtain ⟨ct,ran⟩ := (exists_run_iff _).mpr naiveCalls_disciplined
  have closed : (track naiveCalls "naive").intervals ≠ [] := by decide
  obtain ⟨report,after,read,items⟩ := getReport_statistics ran closed
  refine ⟨ct,report,after,ran,read,?_⟩
  obtain ⟨item,_,time,-,same⟩ := List.forall₂_cons_left_iff.mp items
  obtain ⟨stats,_,summary,-,records⟩ := List.forall₂_cons_left_iff.mp time
  refine ⟨item,by simp [same],stats,by simp [records],?_⟩
  have five : ((track naiveCalls "naive").intervals.map fun taken =>
      (durationNs taken.1.time taken.2.time).val) = [5] := by decide +kernel
  rw [← five]
  exact summary

/-- The other tasks could as well not have been measured. -/
theorem report_of_own_calls (ran : run (step root pcm) {} history = some ct) (apart : name ≠ biasTask) :
    ∃ alone, run (step root pcm) {} (history.filter (concerns name)) = some alone ∧
      alone.task2Report[name]? = ct.task2Report[name]? ∧
      alone.task2LastProbe[name]? = ct.task2LastProbe[name]? := by
  obtain ⟨disciplined,shows⟩ := run_shows ran
  obtain ⟨alone,own⟩ := (exists_run_iff _).mpr (disciplined_filter disciplined apart)
  have shown := (run_shows own).2
  refine ⟨alone,own,?_,?_⟩
  · rw [shown.reports,shows.reports,track_filter]
  · rw [shown.probes,shows.probes,track_filter]

theorem report_of_own_calls_naive : ∃ ct alone, run (step .exact quietPcm) {} naiveCalls = some ct ∧
    run (step .exact quietPcm) {} (naiveCalls.filter (concerns "naive")) = some alone ∧
      alone.task2Report["naive"]? = ct.task2Report["naive"]? := by
  obtain ⟨ct,ran⟩ := (exists_run_iff _).mpr naiveCalls_disciplined
  obtain ⟨alone,own,same,-⟩ := report_of_own_calls ran (by decide : "naive" ≠ biasTask)
  exact ⟨ct,alone,ran,own,same⟩

end Statistics
section Dump
variable {root : Root} {pcm : Pcm Sock Sys} [Inhabited Sock] [Inhabited Sys]
  {history : List (Call Sock Sys)} {ct : ChronoTrigger Sock Sys}

def intervalCalls (name : String) (taken : List (Interval Sock Sys)) : List (Call Sock Sys) :=
  taken.flatMap fun interval => [.tick name interval.1,.tock name interval.2]

omit [Inhabited Sock] [Inhabited Sys] in
theorem track_intervalCalls (history : List (Call Sock Sys)) (name other : String)
    (taken : List (Interval Sock Sys)) :
    (track (history ++ intervalCalls name taken) other).blank = (track history other).blank ∧
      (track (history ++ intervalCalls name taken) other).intervals =
        (track history other).intervals ++ if name = other then taken else [] := by
  induction taken generalizing history with
  | nil => simp [intervalCalls]
  | cons interval rest ih =>
    have split : history ++ intervalCalls name (interval::rest) =
        ((history ++ [.tick name interval.1]) ++ [.tock name interval.2]) ++ intervalCalls name rest := by
      simp [intervalCalls]
    obtain ⟨blank,intervals⟩ := ih ((history ++ [.tick name interval.1]) ++ [.tock name interval.2])
    rw [split,blank,intervals,track_snoc,track_snoc]
    by_cases same : name = other <;> simp [follow,same]

omit [Inhabited Sock] [Inhabited Sys] in
theorem disciplined_intervalCalls (history : List (Call Sock Sys)) (name : String)
    (taken : List (Interval Sock Sys)) :
    Disciplined (history ++ intervalCalls name taken) ↔
      Disciplined history ∧ (taken ≠ [] → (track history name).blank = false) := by
  induction taken generalizing history with
  | nil => simp [intervalCalls]
  | cons interval rest ih =>
    have split : history ++ intervalCalls name (interval::rest) =
        ((history ++ [.tick name interval.1]) ++ [.tock name interval.2]) ++ intervalCalls name rest := by
      simp [intervalCalls]
    have ticked : Allowed (history ++ [.tick name interval.1]) (.tock name interval.2) ↔
        (track history name).blank = false := by
      simp [Allowed,track_snoc,follow]
    have blank : (track ((history ++ [.tick name interval.1]) ++ [.tock name interval.2]) name).blank =
        (track history name).blank := by
      rw [track_snoc,track_snoc]
      simp [follow]
    rw [split,ih,disciplined_snoc,disciplined_snoc,ticked,blank]
    simp only [Allowed,and_true,ne_eq,reduceCtorEq,not_false_eq_true,true_implies]
    tauto

/-- The idle intervals of a dump. -/
def idleIntervals (idle : Nat → Interval Sock Sys) : List (Interval Sock Sys) :=
  (List.range biasCorrectionRepeat).map idle

omit [Inhabited Sock] [Inhabited Sys] in
theorem biasCalls_eq (idle : Nat → Interval Sock Sys) :
    biasCalls idle = intervalCalls biasTask (idleIntervals idle) := by
  rw [biasCalls,intervalCalls,idleIntervals,List.flatMap_map]

omit [Inhabited Sock] [Inhabited Sys] in
theorem idleIntervals_ne_nil (idle : Nat → Interval Sock Sys) : idleIntervals idle ≠ [] := by
  simp [idleIntervals,biasCorrectionRepeat]

theorem run_biasCalls_iff (ran : run (step root pcm) {} history = some ct)
    (idle : Nat → Interval Sock Sys) :
    (∃ after, run (step root pcm) ct (biasCalls idle) = some after) ↔
      (track history biasTask).blank = false := by
  have whole : (∃ after, run (step root pcm) {} (history ++ biasCalls idle) = some after) ↔
      ∃ after, run (step root pcm) ct (biasCalls idle) = some after := by
    simp [run_append,ran]
  rw [← whole,exists_run_iff,biasCalls_eq,disciplined_intervalCalls]
  simp [(run_shows ran).1,idleIntervals_ne_nil]

/-- The report a dump writes for a task measured in these intervals. -/
def dumped (root : Root) (pcm : Pcm Sock Sys) (name : String) (intervals idle : List (Interval Sock Sys)) :
    Report :=
  if name = biasTask then measured root pcm intervals else corrected root pcm intervals idle

omit [Inhabited Sock] [Inhabited Sys] in
theorem correctedReport_eq (shows : Shows root pcm history ct)
    (filled : (track history biasTask).intervals ≠ []) (whole : ∀ name, (track history name).blank = false)
    {name : String} {report : Report} (stored : ct.task2Report[name]? = some report) :
    (track history name).intervals ≠ [] ∧ correctedReport ct.task2Report (name,report) =
      some (dumped root pcm name (track history name).intervals (track history biasTask).intervals) := by
  rw [shows.reports,reportOf,whole] at stored
  split at stored
  next own =>
    cases Option.some.inj stored
    refine ⟨own,?_⟩
    unfold correctedReport dumped
    split
    · rfl
    · rw [shows.reports,reportOf,if_pos filled,Option.bind_some,measured_subtract]
  next => simp at stored

omit [Inhabited Sock] [Inhabited Sys] in
theorem mapM_correctedReport (shows : Shows root pcm history ct)
    (filled : (track history biasTask).intervals ≠ []) (whole : ∀ name, (track history name).blank = false) :
    ∃ reports, (ct.task2Report.toList.mapM fun entry =>
        (correctedReport ct.task2Report entry).map (entry.1,·)) = some reports ∧
      ∀ name report, (name,report) ∈ reports ↔ (track history name).intervals ≠ [] ∧
        report = dumped root pcm name (track history name).intervals (track history biasTask).intervals := by
  set written : String × Report → String × Report := fun entry => (entry.1,dumped root pcm entry.1
    (track history entry.1).intervals (track history biasTask).intervals)
  refine ⟨ct.task2Report.toList.map written,?_,?_⟩
  · apply mapM_of_forall
    intro entry member
    obtain ⟨name,report⟩ := entry
    have stored := Std.TreeMap.mem_toList_iff_getElem?_eq_some.mp member
    rw [(correctedReport_eq shows filled whole stored).2]
    rfl
  · intro name report
    rw [List.mem_map]
    constructor
    · intro found
      obtain ⟨entry,member,same⟩ := found
      obtain ⟨rfl,rfl⟩ := Prod.mk.inj same
      have stored := Std.TreeMap.mem_toList_iff_getElem?_eq_some.mp member
      exact ⟨(correctedReport_eq shows filled whole stored).1,rfl⟩
    · intro both
      obtain ⟨own,rfl⟩ := both
      refine ⟨(name,measured root pcm (track history name).intervals),?_,rfl⟩
      apply Std.TreeMap.mem_toList_iff_getElem?_eq_some.mpr
      rw [shows.reports,reportOf,if_pos own]

/-- A dump works exactly where no report was asked for before there was one, since everything was
cleared. It writes every measured task less the idle mean and the idle task itself, and it adds
its own idle intervals to that task alone. -/
theorem dumpAllReport_iff (ran : run (step root pcm) {} history = some ct)
    (idle : Nat → Interval Sock Sys) :
    let own := fun name => (track history name).intervals ++
      if biasTask = name then idleIntervals idle else []
    ((∃ reports after, ct.dumpAllReport root pcm idle = some (reports,after)) ↔
      ∀ name, (track history name).blank = false) ∧
    ∀ reports after, ct.dumpAllReport root pcm idle = some (reports,after) →
      (∀ name report, (name,report) ∈ reports ↔
        own name ≠ [] ∧ report = dumped root pcm name (own name) (own biasTask)) ∧
      ∀ name, name ≠ biasTask → after.task2Report[name]? = ct.task2Report[name]? := by
  intro own
  obtain ⟨disciplined,shows⟩ := run_shows ran
  have clean : (∀ name, (track history name).blank = false) ↔ (track history biasTask).blank = false := by
    refine ⟨fun all => all biasTask,fun idleClean name => ?_⟩
    by_contra blank
    rw [blank_biasTask disciplined (by simpa using blank)] at idleClean
    contradiction
  have later (name : String) : (track (history ++ biasCalls idle) name).blank = (track history name).blank ∧
      (track (history ++ biasCalls idle) name).intervals = own name := by
    rw [biasCalls_eq]
    exact track_intervalCalls history biasTask name (idleIntervals idle)
  have dumps (after : ChronoTrigger Sock Sys)
      (spent : run (step root pcm) ct (biasCalls idle) = some after) :
      Shows root pcm (history ++ biasCalls idle) after ∧
      ∃ reports, ct.dumpAllReport root pcm idle = some (reports,after) ∧
        ∀ name report, (name,report) ∈ reports ↔
          own name ≠ [] ∧ report = dumped root pcm name (own name) (own biasTask) := by
    have whole := (run_biasCalls_iff ran idle).mp ⟨after,spent⟩
    have shown := (run_shows ((run_append _ _ _ _ _).mpr ⟨ct,ran,spent⟩)).2
    obtain ⟨reports,written,entries⟩ := mapM_correctedReport shown
      (by rw [(later biasTask).2]; simp [own,idleIntervals_ne_nil])
      fun name => (later name).1.trans (clean.mpr whole name)
    simp only [(later _).2] at entries
    refine ⟨shown,reports,?_,entries⟩
    simp only [dumpAllReport,spent,Option.bind_eq_bind,Option.bind_some,written]
    rfl
  constructor
  · rw [clean,← run_biasCalls_iff ran idle]
    constructor
    · intro found
      obtain ⟨reports,after,dumped⟩ := found
      obtain ⟨middle,spent,-⟩ := Option.bind_eq_some_iff.mp dumped
      exact ⟨middle,spent⟩
    · intro found
      obtain ⟨after,spent⟩ := found
      obtain ⟨-,reports,done,-⟩ := dumps after spent
      exact ⟨reports,after,done⟩
  · intro reports after dumped
    obtain ⟨middle,spent,-⟩ := Option.bind_eq_some_iff.mp dumped
    obtain ⟨shown,_,done,entries⟩ := dumps middle spent
    obtain ⟨rfl,rfl⟩ := Prod.mk.inj (Option.some.inj (dumped.symm.trans done))
    refine ⟨entries,?_⟩
    intro name apart
    rw [shown.reports,shows.reports,reportOf,reportOf,(later name).1,(later name).2]
    simp [own,apart.symm]

/-- The intervals are dumped, but a report asked for before the first dump leaves none possible. -/
theorem dumpAllReport_iff_naive : ∃ ct asked,
    run (step .exact quietPcm) {} naiveCalls = some ct ∧
      run (step .exact quietPcm) {} (naiveCalls ++ [.getReport "naive"]) = some asked ∧
      ∀ idle, (∃ reports after, ct.dumpAllReport .exact quietPcm idle = some (reports,after) ∧
          ∃ report, ("naive",report) ∈ reports) ∧
        ¬ ∃ reports after, asked.dumpAllReport .exact quietPcm idle = some (reports,after) := by
  have allowed : Disciplined (naiveCalls ++ [.getReport "naive"]) :=
    disciplined_snoc.mpr ⟨naiveCalls_disciplined,by decide⟩
  obtain ⟨ct,ran⟩ := (exists_run_iff _).mpr naiveCalls_disciplined
  obtain ⟨asked,reran⟩ := (exists_run_iff _).mpr allowed
  refine ⟨ct,asked,ran,reran,fun idle => ⟨?_,fun dumps => ?_⟩⟩
  · have whole : ∀ name, (track naiveCalls name).blank = false := by
      intro name
      by_contra blank
      have clean := blank_biasTask naiveCalls_disciplined (by simpa using blank)
      exact absurd clean (by decide)
    obtain ⟨reports,after,dumps⟩ := (dumpAllReport_iff ran idle).1.mpr whole
    have closed : (track naiveCalls "naive").intervals ≠ [] := by decide
    exact ⟨reports,after,dumps,_,(((dumpAllReport_iff ran idle).2 reports after dumps).1 "naive" _).mpr
      ⟨fun empty => closed (List.append_eq_nil_iff.mp empty).1,rfl⟩⟩
  · have clean := (dumpAllReport_iff reran idle).1.mp dumps biasTask
    exact absurd clean (by decide)

end Dump

end ChronoTrigger
end MetaPB.Utils

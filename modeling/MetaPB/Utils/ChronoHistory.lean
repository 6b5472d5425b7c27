import MetaPB.Lib.Sequence
import MetaPB.Utils.ChronoTrigger

/-! What the stopwatch knows, from the calls made so far. Of one task it keeps the last tick, the
intervals closed since everything was cleared, and whether its report was asked for before there
was one. The reports are those of the intervals, and a run goes on exactly as long as every tock
has a tick and no report that was asked for too early is used. -/
namespace MetaPB.Utils
open Lib.Loop Lib.Transition

/-- Two samplings of the counters, at a tick and at a tock. -/
abbrev Interval (Sock Sys : Type) := Sample Sock Sys × Sample Sock Sys

structure Track (Sock Sys : Type) where
  last : Option (Sample Sock Sys) := none
  intervals : List (Interval Sock Sys) := []
  blank : Bool := false

namespace ChronoTrigger
variable {Sock Sys : Type} (root : Root) (pcm : Pcm Sock Sys)

/-- What one call adds to what is known of a task. -/
def follow (taskName : String) (track : Track Sock Sys) : Call Sock Sys → Track Sock Sys
  | .tick name now => if name = taskName then { track with last := some now } else track
  | .tock name now =>
    if name = taskName then
      { track with intervals := track.intervals ++ track.last.toList.map (·,now) }
    else track
  | .getReport name =>
    if (name = taskName ∨ taskName = biasTask) ∧ track.intervals.isEmpty then { track with blank := true }
    else track
  | .clear => {}

def track (history : List (Call Sock Sys)) (taskName : String) : Track Sock Sys :=
  history.foldl (follow taskName) {}

/-- A call that the calls before it allow. -/
def Allowed (history : List (Call Sock Sys)) : Call Sock Sys → Prop
  | .tick _ _ => True
  | .tock name _ => (track history name).last.isSome ∧ (track history name).blank = false
  | .getReport name => (track history biasTask).intervals ≠ [] → (track history name).intervals ≠ []
  | .clear => True

instance (history : List (Call Sock Sys)) : (call : Call Sock Sys) → Decidable (Allowed history call)
  | .tick _ _ => isTrue trivial
  | .tock _ _ => inferInstanceAs (Decidable (_ ∧ _))
  | .getReport _ => inferInstanceAs (Decidable (_ → _))
  | .clear => isTrue trivial

def Disciplined (history : List (Call Sock Sys)) : Prop :=
  ∀ before call after, history = before ++ call::after → Allowed before call

/-- What a metric's item holds after these intervals: the statistics of one value an interval,
for every socket of its own where the sockets are read. -/
def metricData (tag : MetricTag) (intervals : List (Interval Sock Sys)) : ReportData :=
  match pcm.gathered tag with
  | .outside =>
    .stats (Stats.addAll root {} (intervals.map fun taken => durationNs taken.1.time taken.2.time))
  | .system get =>
    .stats (Stats.addAll root {} (intervals.map fun taken => get taken.1.systemState taken.2.systemState))
  | .sockets get =>
    .vector ((List.range pcm.numSockets).map fun i =>
      Stats.addAll root {} (intervals.map fun taken => get (taken.1.socketState i) (taken.2.socketState i)))

def measured (intervals : List (Interval Sock Sys)) : Report :=
  ⟨MetricTag.size,MetricTag.all.map fun tag => { data := metricData root pcm tag intervals }⟩

def reportOf (track : Track Sock Sys) : Option Report :=
  if track.intervals ≠ [] then some (measured root pcm track.intervals)
  else if track.blank then some {}
  else none

def probeOf (sample : Sample Sock Sys) : Probe Sock Sys :=
  ⟨sample.time,sample.systemState,(List.range pcm.numSockets).map sample.socketState⟩

/-- The stopwatch holds what the history says. -/
structure Shows (history : List (Call Sock Sys)) (ct : ChronoTrigger Sock Sys) : Prop where
  reports : ∀ name, ct.task2Report[name]? = reportOf root pcm (track history name)
  probes : ∀ name, ct.task2LastProbe[name]? = (track history name).last.map (probeOf pcm)
  early : ∀ name, (track history name).blank = true → (track history name).intervals = []

section History
variable {history : List (Call Sock Sys)} {call : Call Sock Sys} {name taskName : String}

theorem track_snoc (history : List (Call Sock Sys)) (call : Call Sock Sys) (name : String) :
    track (history ++ [call]) name = follow name (track history name) call := by
  rw [track,List.foldl_append]
  rfl

theorem disciplined_nil : Disciplined ([] : List (Call Sock Sys)) := by
  intro before call after split
  simp at split

theorem disciplined_snoc :
    Disciplined (history ++ [call]) ↔ Disciplined history ∧ Allowed history call :=
  Lib.Sequence.forall_split_snoc Allowed

end History
section Gathering
variable {root pcm} {get : Sock → Sock → Double} {before now : Sample Sock Sys}
  {intervals : List (Interval Sock Sys)}

theorem addVector_range (root : Root) (values : Nat → Stats) (added : Nat → Double) (count : Nat) :
    ReportItem.addVector root { data := .vector ((List.range count).map values) }
        ((List.range count).map added) =
      some { data := .vector ((List.range count).map fun i => (values i).add root (added i)) } := by
  have wide : ((List.range count).map values).length ≤ ((List.range count).map added).length := by simp
  simp only [ReportItem.addVector,combine_eq (Stats.add root) wide,List.zipWith_map,List.zipWith_self]
  rfl

/-- The item of a metric over the sockets after one more interval. Before the first interval it
holds a single record, which the first vector replaces. -/
theorem gatherSockets_next (data : ReportData)
    (known : data = .stats {} ∧ intervals = [] ∨ data = .vector ((List.range pcm.numSockets).map fun i =>
      Stats.addAll root {} (intervals.map fun taken => get (taken.1.socketState i) (taken.2.socketState i)))) :
    gatherSockets root get { data := data } (probeOf pcm before).socketStates
        ((List.range pcm.numSockets).map now.socketState) =
      some { data := .vector ((List.range pcm.numSockets).map fun i => Stats.addAll root {}
        ((intervals ++ [(before,now)]).map fun taken => get (taken.1.socketState i) (taken.2.socketState i))) } := by
  have read : socketData get (probeOf pcm before).socketStates
      ((List.range pcm.numSockets).map now.socketState) = some ((List.range pcm.numSockets).map
        fun i => get (before.socketState i) (now.socketState i)) := by
    rw [socketData_eq (by simp [probeOf]),probeOf,List.zipWith_map,List.zipWith_self]
  rw [gatherSockets,read,Option.bind_some]
  rcases known with ⟨rfl,rfl⟩ | rfl
  · have blank := addVector_range root (fun _ => {})
      (fun i => get (before.socketState i) (now.socketState i)) pcm.numSockets
    rw [List.map_const',List.length_range] at blank
    rw [ReportItem.addVector_first,List.length_map,List.length_range,blank]
    rfl
  · rw [addVector_range]
    simp only [List.map_append,List.map_singleton,Stats.addAll_snoc]

/-- The item of a metric before a task's next interval. -/
def stageItem (root : Root) (pcm : Pcm Sock Sys) (intervals : List (Interval Sock Sys)) (tag : MetricTag) :
    ReportItem :=
  if intervals = [] then {} else { data := metricData root pcm tag intervals }

theorem metric2Func_next {tag : MetricTag} (counted : tag ≠ .TimeConsumeNs) :
    metric2Func root pcm tag (stageItem root pcm intervals tag) (probeOf pcm before).socketStates
        ((List.range pcm.numSockets).map now.socketState) before.systemState now.systemState =
      some { data := metricData root pcm tag (intervals ++ [(before,now)]) } := by
  rw [pcm.metric2Func_eq,stageItem,metricData,metricData]
  cases way : pcm.gathered tag with
  | outside =>
    exfalso
    cases tag <;> simp [Pcm.gathered] at way counted
  | sockets get =>
    dsimp only
    split
    next empty => exact gatherSockets_next _ (Or.inl ⟨rfl,empty⟩)
    next => exact gatherSockets_next _ (Or.inr rfl)
  | system get =>
    dsimp only
    rw [List.map_append,List.map_singleton,Stats.addAll_snoc]
    split
    next empty =>
      subst empty
      rfl
    next => rfl

theorem gather_next [Inhabited Sock] [Inhabited Sys] :
    gather root pcm (probeOf pcm before) now (MetricTag.all.map (stageItem root pcm intervals)) =
      some (measured root pcm (intervals ++ [(before,now)])).reportItems := by
  have timed : (stageItem root pcm intervals .TimeConsumeNs).addData root
      (durationNs (probeOf pcm before).time now.time) =
        some { data := metricData root pcm .TimeConsumeNs (intervals ++ [(before,now)]) } := by
    rw [stageItem,metricData,metricData]
    dsimp only [Pcm.gathered,probeOf]
    rw [List.map_append,List.map_singleton,Stats.addAll_snoc]
    split
    next empty =>
      subst empty
      rfl
    next => rfl
  set items := MetricTag.all.map (stageItem root pcm intervals) with stored
  set timeItem : ReportItem := { data := metricData root pcm .TimeConsumeNs (intervals ++ [(before,now)]) }
  have size : (items.set 0 timeItem).length = MetricTag.size := by simp [stored,MetricTag.size]
  have rest : loop MetricTag.size (fun i items => do
      let item ← items[i]?
      let gathered ← MetricTag.all[i]?.bind fun metricIdx => metric2Func root pcm metricIdx item
        (probeOf pcm before).socketStates ((List.range pcm.numSockets).map now.socketState)
        before.systemState now.systemState
      write items i gathered) (items.set 0 timeItem) =
        some (measured root pcm (intervals ++ [(before,now)])).reportItems := by
    rw [← size]
    apply loop_each
    · rw [size,measured,List.length_map,MetricTag.size]
    · intro i item next found expected
      rw [measured,List.getElem?_map] at expected
      obtain ⟨tag,listed,rfl⟩ := Option.map_eq_some_iff.mp expected
      rw [listed,Option.bind_some]
      rcases Nat.eq_zero_or_pos i with rfl | later
      · obtain rfl : MetricTag.TimeConsumeNs = tag := Option.some.inj listed
        rw [List.getElem?_set_self (by simp [stored,MetricTag.all])] at found
        exact congrArg some (Option.some.inj found).symm
      · rw [List.getElem?_set_ne later.ne,stored,List.getElem?_map,listed] at found
        cases Option.some.inj found
        apply metric2Func_next
        intro timeless
        obtain ⟨j,rfl⟩ := Nat.exists_eq_succ_of_ne_zero later.ne'
        exact absurd (timeless ▸ List.mem_of_getElem? listed : MetricTag.TimeConsumeNs ∈ MetricTag.all.tail)
          (by decide)
  have first : items[0]? = some (stageItem root pcm intervals .TimeConsumeNs) := rfl
  have room : 0 < items.length := by simp [stored,MetricTag.all]
  simp only [gather,first,Option.bind_eq_bind,Option.bind_some,timed,write_of_lt room]
  exact rest

end Gathering
section Steps
variable [Inhabited Sock] [Inhabited Sys] {root : Root} {pcm : Pcm Sock Sys}
  {history : List (Call Sock Sys)} {ct next : ChronoTrigger Sock Sys} {name : String}
  {now : Sample Sock Sys}

theorem getElem?_insert_eq {β : Type} {entries : Std.TreeMap String β compare} {value : β}
    {known : String → Option β} {called : String → Option β} {name : String}
    (before : ∀ other, entries[other]? = known other) (own : called name = some value)
    (others : ∀ other, name ≠ other → called other = known other) (other : String) :
    (entries.insert name value)[other]? = called other := by
  rw [Std.TreeMap.getElem?_insert]
  rcases eq_or_ne name other with rfl | apart
  · simp [own]
  · simp [Std.LawfulEqCmp.compare_eq_iff_eq,apart,before,others other apart]

theorem Shows.tick (shows : Shows root pcm history ct) (name : String) (now : Sample Sock Sys) :
    ∃ next, ct.tick pcm name now = some next ∧ Shows root pcm (history ++ [.tick name now]) next := by
  set registered := (ct.task2LastProbe[name]?.getD
    { systemState := default, socketStates := List.replicate pcm.numSockets default }).socketStates with old
  have size : registered.length = pcm.numSockets := by
    rw [old,shows.probes]
    cases (track history name).last <;> simp [probeOf]
  have sampled := loop_fill now.socketState registered
  rw [size] at sampled
  refine ⟨{ ct with task2LastProbe := ct.task2LastProbe.insert name (probeOf pcm now) },?_,?_,?_,?_⟩
  · simp only [ChronoTrigger.tick,← old,sampled]
    rfl
  · intro other
    rw [shows.reports,track_snoc,follow]
    split <;> rfl
  · apply getElem?_insert_eq shows.probes
    · simp [track_snoc,follow]
    · intro other apart
      simp [track_snoc,follow,apart]
  · intro other blank
    rw [track_snoc,follow] at blank ⊢
    split at blank <;> simp_all [shows.early]

omit [Inhabited Sock] [Inhabited Sys] in
theorem Shows.stored (shows : Shows root pcm history ct) (asked : (track history name).blank = false) :
    (ct.task2Report[name]?.getD (Report.sized MetricTag.size)).reportItems =
        MetricTag.all.map (stageItem root pcm (track history name).intervals) ∧
      (ct.task2Report[name]?.getD (Report.sized MetricTag.size)).itemNum = MetricTag.size := by
  rw [shows.reports,reportOf,asked]
  rcases eq_or_ne (track history name).intervals [] with empty | filled
  · rw [empty]
    exact ⟨rfl,rfl⟩
  · rw [if_pos filled]
    simp [measured,stageItem,filled]

theorem Shows.tock (shows : Shows root pcm history ct) (allowed : Allowed history (.tock name now)) :
    ∃ next, ct.tock root pcm name now = some next ∧ Shows root pcm (history ++ [.tock name now]) next := by
  obtain ⟨ticked,asked⟩ := allowed
  obtain ⟨before,last⟩ := Option.isSome_iff_exists.mp ticked
  have probe : ct.task2LastProbe[name]?.getD { systemState := default } = probeOf pcm before := by
    rw [shows.probes,last]
    rfl
  obtain ⟨items,itemNum⟩ := shows.stored asked
  have closed : track (history ++ [.tock name now]) name =
      { track history name with intervals := (track history name).intervals ++ [(before,now)] } := by
    simp [track_snoc,follow,last]
  have elsewhere (other : String) (apart : name ≠ other) :
      track (history ++ [.tock name now]) other = track history other := by
    simp [track_snoc,follow,apart]
  refine ⟨⟨ct.task2Report.insert name (measured root pcm ((track history name).intervals ++ [(before,now)])),
    ct.task2LastProbe.insert name (probeOf pcm before)⟩,?_,?_,?_,?_⟩
  · simp only [ChronoTrigger.tock,probe,items,gather_next,itemNum]
    rfl
  · apply getElem?_insert_eq shows.reports
    · simp [closed,reportOf]
    · intro other apart
      rw [elsewhere other apart]
  · apply getElem?_insert_eq shows.probes
    · rw [closed,last]
      rfl
    · intro other apart
      rw [elsewhere other apart]
  · intro other blank
    rcases eq_or_ne name other with rfl | apart
    · rw [closed] at blank
      exact absurd blank (by simp [asked])
    · rw [elsewhere other apart] at blank ⊢
      exact shows.early other blank

omit [Inhabited Sock] in
/-- A tock without a tick reads the states of sockets that were never sampled, and a tock under a
name whose report was asked for too early adds to items that are not there. -/
theorem Shows.tock_allowed (shows : Shows root pcm history ct)
    (ran : ct.tock root pcm name now = some next) : Allowed history (.tock name now) := by
  simp only [ChronoTrigger.tock,Option.bind_eq_bind,Option.bind_eq_some_iff] at ran
  obtain ⟨items,gathered,-⟩ := ran
  simp only [gather,Option.bind_eq_bind,Option.bind_eq_some_iff] at gathered
  obtain ⟨timeItem,first,timed,-,stored,-,looped⟩ := gathered
  constructor
  · by_contra missing
    have last : (track history name).last = none := by simpa using missing
    rw [shows.probes,last] at looped
    obtain ⟨before,after,turned⟩ := loop_turn looped (by decide : 1 < MetricTag.size)
    obtain ⟨item,-,read⟩ := Option.bind_eq_some_iff.mp turned
    obtain ⟨_,missed,-⟩ := Option.bind_eq_some_iff.mp read
    have sockets : (List.range pcm.numSockets).map now.socketState ≠ [] := by
      simpa using pcm.someSocket.ne'
    have refused : fbGet root pcm item [] ((List.range pcm.numSockets).map now.socketState) = none := by
      rw [fbGet,gatherSockets,socketData_missing sockets rfl]
      rfl
    exact Option.some_ne_none _ (missed.symm.trans refused)
  · by_contra asked
    have blank : (track history name).blank = true := by simpa using asked
    rw [shows.reports,reportOf,shows.early name blank,blank] at first
    simp at first

omit [Inhabited Sock] [Inhabited Sys] in
theorem touch_eq (task2Report : Std.TreeMap String Report compare) (name other : String) :
    (touch task2Report name)[other]? =
      if name = other then some (task2Report[name]?.getD {}) else task2Report[other]? := by
  rw [touch,Std.TreeMap.getElem?_insert]
  simp [Std.LawfulEqCmp.compare_eq_iff_eq]

/-- The report a look-up finds or puts in. -/
def asked (root : Root) (pcm : Pcm Sock Sys) (track : Track Sock Sys) : Report :=
  if track.intervals = [] then {} else measured root pcm track.intervals

omit [Inhabited Sock] [Inhabited Sys] in
theorem getD_reportOf (track : Track Sock Sys) :
    (reportOf root pcm track).getD {} = asked root pcm track := by
  unfold reportOf asked
  rcases eq_or_ne track.intervals [] with empty | filled
  · cases track.blank <;> simp [empty]
  · simp [filled]

/-- One item less another of its kind. -/
def correctData : ReportData → ReportData → ReportData
  | .stats mine,.stats idle => .stats (mine.correct idle)
  | .vector mine,.vector idle => .vector (List.zipWith Stats.correct mine idle)
  | data,_ => data

def corrected (root : Root) (pcm : Pcm Sock Sys) (intervals idle : List (Interval Sock Sys)) : Report :=
  ⟨MetricTag.size,MetricTag.all.map fun tag =>
    { data := correctData (metricData root pcm tag intervals) (metricData root pcm tag idle) }⟩

omit [Inhabited Sock] [Inhabited Sys] in
theorem measured_subtract (intervals idle : List (Interval Sock Sys)) :
    (measured root pcm intervals).subtract (measured root pcm idle) =
      some (corrected root pcm intervals idle) := by
  have looped : loop MetricTag.size (fun i items => do
      let mine ← items[i]?
      let item ← (measured root pcm idle).reportItems[i]?.bind mine.subtract
      write items i item) (measured root pcm intervals).reportItems =
        some (corrected root pcm intervals idle).reportItems := by
    apply loop_each
    · rfl
    · intro i mine item found expected
      simp only [measured,corrected,List.getElem?_map,Option.map_eq_some_iff] at found expected
      obtain ⟨tag,listed,rfl⟩ := found
      obtain ⟨_,again,rfl⟩ := expected
      cases Option.some.inj (listed.symm.trans again)
      simp only [measured,List.getElem?_map,listed,Option.map_some,Option.bind_some]
      unfold metricData
      cases pcm.gathered tag with
      | outside => rfl
      | system get => rfl
      | sockets get =>
        simp [ReportItem.subtract,combine_eq,correctData]
  exact congrArg (Option.map _) looped

omit [Inhabited Sock] [Inhabited Sys] in
theorem touch_touch (task2Report : Std.TreeMap String Report compare) (first second other : String) :
    (touch (touch task2Report first) second)[other]? =
      if first = other ∨ second = other then some (task2Report[other]?.getD {}) else task2Report[other]? := by
  rw [touch_eq,touch_eq,touch_eq]
  by_cases one : first = other <;> by_cases two : second = other <;> simp_all

omit [Inhabited Sock] [Inhabited Sys] in
/-- Looking a report up corrects what was measured by what was measured of the idle task. -/
theorem Shows.getReport_eq (shows : Shows root pcm history ct) (name : String) :
    ct.getReport name = ((asked root pcm (track history name)).subtract
      (asked root pcm (track history biasTask))).map fun report =>
        (report,{ ct with task2Report := touch (touch ct.task2Report name) biasTask }) := by
  have mine : (touch (touch ct.task2Report name) biasTask)[name]? =
      some (asked root pcm (track history name)) := by
    rw [touch_touch,if_pos (Or.inl rfl),shows.reports,getD_reportOf]
  have idle : (touch (touch ct.task2Report name) biasTask)[biasTask]? =
      some (asked root pcm (track history biasTask)) := by
    rw [touch_touch,if_pos (Or.inr rfl),shows.reports,getD_reportOf]
  simp only [ChronoTrigger.getReport,mine,idle,Option.bind_some]
  cases (asked root pcm (track history name)).subtract (asked root pcm (track history biasTask)) <;> rfl

omit [Inhabited Sock] [Inhabited Sys] in
theorem Shows.touched (shows : Shows root pcm history ct) (name : String) :
    Shows root pcm (history ++ [.getReport name])
      { ct with task2Report := touch (touch ct.task2Report name) biasTask } := by
  refine ⟨?_,?_,?_⟩
  · intro other
    rw [touch_touch,shows.reports,track_snoc,follow]
    by_cases touched : name = other ∨ biasTask = other
    · have same : name = other ∨ other = biasTask := touched.imp_right Eq.symm
      rw [if_pos touched,getD_reportOf]
      unfold asked reportOf
      rcases eq_or_ne (track history other).intervals [] with empty | filled
      · simp [empty,same]
      · simp [filled]
    · have apart : ¬ (name = other ∨ other = biasTask) := fun both => touched (both.imp_right Eq.symm)
      rw [if_neg touched,if_neg fun both => apart both.1]
  · intro other
    rw [shows.probes,track_snoc,follow]
    split <;> rfl
  · intro other blank
    rw [track_snoc,follow] at blank ⊢
    split at blank
    next called =>
      rw [if_pos called]
      exact List.isEmpty_iff.mp called.2
    next elsewhere =>
      rw [if_neg elsewhere]
      exact shows.early other blank

omit [Inhabited Sock] [Inhabited Sys] in
theorem subtract_asked_iff (mine idle : Track Sock Sys) :
    (∃ report, (asked root pcm mine).subtract (asked root pcm idle) = some report) ↔
      (idle.intervals ≠ [] → mine.intervals ≠ []) := by
  unfold asked
  rcases eq_or_ne idle.intervals [] with unidled | idled
  · simp [unidled]
  · rw [if_neg idled]
    rcases eq_or_ne mine.intervals [] with empty | filled
    · have refused : Report.subtract {} (measured root pcm idle.intervals) = none :=
        Report.empty_subtract (by decide : 0 < MetricTag.size)
      rw [if_pos empty,refused]
      simp [idled,empty]
    · rw [if_neg filled,measured_subtract]
      simp [filled]

/-- One call goes through exactly when it is allowed, and the stopwatch keeps up with the history. -/
theorem Shows.call (shows : Shows root pcm history ct) (call : Call Sock Sys) :
    (Allowed history call → ∃ next, step root pcm ct call = some next ∧
      Shows root pcm (history ++ [call]) next) ∧
    ∀ next, step root pcm ct call = some next → Allowed history call := by
  cases call with
  | tick name now => exact ⟨fun _ => shows.tick name now,fun _ _ => trivial⟩
  | tock name now => exact ⟨fun allowed => shows.tock allowed,fun _ ran => shows.tock_allowed ran⟩
  | getReport name =>
    have read := shows.getReport_eq name
    have possible : (∃ report, (asked root pcm (track history name)).subtract
        (asked root pcm (track history biasTask)) = some report) ↔ _ := subtract_asked_iff _ _
    constructor
    · intro allowed
      obtain ⟨report,corrects⟩ := possible.mpr allowed
      refine ⟨_,?_,shows.touched name⟩
      rw [step,read,corrects]
      rfl
    · intro next ran
      rw [step,read,Option.map_map,Option.map_eq_some_iff] at ran
      obtain ⟨report,corrects,-⟩ := ran
      exact possible.mp ⟨report,corrects⟩
  | clear =>
    refine ⟨fun _ => ⟨{},rfl,?_,?_,?_⟩,fun _ _ => trivial⟩
    · intro name
      rw [track_snoc]
      simp [follow,reportOf]
    · intro name
      rw [track_snoc]
      simp [follow]
    · intro name _
      rw [track_snoc]
      rfl

omit [Inhabited Sock] [Inhabited Sys] in
theorem shows_nil : Shows root pcm [] ({} : ChronoTrigger Sock Sys) :=
  ⟨fun _ => by simp [track,reportOf],fun _ => by simp [track],fun _ _ => rfl⟩

theorem run_shows (ran : run (step root pcm) {} history = some ct) :
    Disciplined history ∧ Shows root pcm history ct := by
  apply run_history (fun history ct => Disciplined history ∧ Shows root pcm history ct) _ _ history ct ran
  · exact ⟨disciplined_nil,shows_nil⟩
  · intro history ct call next _ before stepped
    obtain ⟨disciplined,shows⟩ := before
    have allowed := (shows.call call).2 next stepped
    obtain ⟨_,same,shown⟩ := (shows.call call).1 allowed
    cases Option.some.inj (stepped.symm.trans same)
    exact ⟨disciplined_snoc.mpr ⟨disciplined,allowed⟩,shown⟩

theorem exists_run_iff (history : List (Call Sock Sys)) :
    (∃ ct, run (step root pcm) {} history = some ct) ↔ Disciplined history := by
  constructor
  · intro found
    obtain ⟨ct,ran⟩ := found
    exact (run_shows ran).1
  · intro disciplined
    induction history using List.reverseRecOn with
    | nil => exact ⟨{},rfl⟩
    | append_singleton history call ih =>
      obtain ⟨before,allowed⟩ := disciplined_snoc.mp disciplined
      obtain ⟨ct,ran⟩ := ih before
      obtain ⟨next,stepped,-⟩ := ((run_shows ran).2.call call).1 allowed
      exact ⟨next,(run_snoc _ _ _ _ _).mpr ⟨ct,ran,stepped⟩⟩

/-- A run goes on exactly as long as the calls allow each other, and then the stopwatch holds of
every task what the calls so far say of it. -/
theorem run_refines_history (root : Root) (pcm : Pcm Sock Sys) (history : List (Call Sock Sys)) :
    ((∃ ct, run (step root pcm) {} history = some ct) ↔ Disciplined history) ∧
      ∀ ct, run (step root pcm) {} history = some ct → Shows root pcm history ct :=
  ⟨exists_run_iff history,fun _ ran => (run_shows ran).2⟩

end Steps
end ChronoTrigger
end MetaPB.Utils

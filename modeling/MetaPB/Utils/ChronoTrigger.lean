import MetaPB.Lib.Transition
import MetaPB.Utils.MetricsGather
import Mathlib.Order.Std
import Mathlib.Tactic.Linarith
import Std.Data.TreeMap.Lemmas

/-! The stopwatch: `tick` samples the clock and the counters under a task's name, `tock` samples
them again and adds every metric of the interval to the report of that name. Reports are read
corrected by the report of the idle task. An access outside a vector is no result. -/
namespace MetaPB.Utils
open Lib.Loop

/-- What the clock and the counter library return at a call. -/
structure Sample (Sock Sys : Type) where
  time : Fin (2^63)
  systemState : Sys
  socketState : Nat → Sock

structure Probe (Sock Sys : Type) where
  time : Fin (2^63) := 0
  systemState : Sys
  socketStates : List Sock := []

structure Report where
  itemNum : Nat := 0
  reportItems : List ReportItem := []
  deriving DecidableEq

namespace Report

/-- The constructor with a number of items. -/
def sized (itemNum : Nat) : Report := ⟨itemNum,List.replicate itemNum {}⟩

/-- `operator-=`, item by item up to the size of the right report. -/
def subtract (report rhs : Report) : Option Report :=
  (loop rhs.itemNum (fun i items => do
    let mine ← items[i]?
    let item ← rhs.reportItems[i]?.bind mine.subtract
    write items i item) report.reportItems).map fun items => { report with reportItems := items }

@[simp] theorem subtract_empty (report : Report) : report.subtract {} = some report := rfl

theorem empty_subtract {rhs : Report} (filled : 0 < rhs.itemNum) : subtract {} rhs = none := by
  apply Option.eq_none_iff_forall_ne_some.mpr
  intro out ran
  obtain ⟨items,looped,-⟩ := Option.map_eq_some_iff.mp ran
  obtain ⟨next,first⟩ := loop_first looped filled
  simp at first

end Report

/-- The task whose intervals are empty. -/
def biasTask : String := "__BIAS__"

structure ChronoTrigger (Sock Sys : Type) where
  task2Report : Std.TreeMap String Report compare := ∅
  task2LastProbe : Std.TreeMap String (Probe Sock Sys) compare := ∅

/-- Nanoseconds from one instant to another. -/
def durationNs (before after : Fin (2^63)) : Double where
  val := after.val - before.val
  lower := by
    have low : (0 : ℚ) ≤ after.val := Nat.cast_nonneg _
    have high : (before.val : ℚ) ≤ 2^63 := by exact_mod_cast before.isLt.le
    have room : (2^63 : ℚ) ≤ dblMax := by decide +kernel
    linarith
  upper := by
    have low : (0 : ℚ) ≤ before.val := Nat.cast_nonneg _
    have high : (after.val : ℚ) ≤ 2^63 := by exact_mod_cast after.isLt.le
    have room : (2^63 : ℚ) ≤ dblMax := by decide +kernel
    linarith

namespace ChronoTrigger
variable {Sock Sys : Type} [Inhabited Sock] [Inhabited Sys] (root : Root) (pcm : Pcm Sock Sys)

def tick (ct : ChronoTrigger Sock Sys) (taskName : String) (now : Sample Sock Sys) :
    Option (ChronoTrigger Sock Sys) := do
  let registered := ct.task2LastProbe[taskName]?.getD
    { systemState := default, socketStates := List.replicate pcm.numSockets default }
  let socketStates ← loop pcm.numSockets (fun i states => write states i (now.socketState i))
    registered.socketStates
  let thisProbe : Probe Sock Sys := ⟨now.time,now.systemState,socketStates⟩
  return { ct with task2LastProbe := ct.task2LastProbe.insert taskName thisProbe }

/-- The time of an interval, then every other metric. -/
def gather (taskLastProbe : Probe Sock Sys) (now : Sample Sock Sys) (items : List ReportItem) :
    Option (List ReportItem) := do
  let currSocketState := (List.range pcm.numSockets).map now.socketState
  let timeItem ← items[0]?
  let timed ← timeItem.addData root (durationNs taskLastProbe.time now.time)
  let items ← write items 0 timed
  loop MetricTag.size (fun i items => do
    let item ← items[i]?
    let gathered ← MetricTag.all[i]?.bind fun metricIdx => metric2Func root pcm metricIdx item
      taskLastProbe.socketStates currSocketState taskLastProbe.systemState now.systemState
    write items i gathered) items

def tock (ct : ChronoTrigger Sock Sys) (taskName : String) (now : Sample Sock Sys) :
    Option (ChronoTrigger Sock Sys) := do
  -- `operator[]` puts an empty probe where there is none
  let taskLastProbe := ct.task2LastProbe[taskName]?.getD { systemState := default }
  let report := ct.task2Report[taskName]?.getD (Report.sized MetricTag.size)
  let items ← gather root pcm taskLastProbe now report.reportItems
  return { task2Report := ct.task2Report.insert taskName { report with reportItems := items }
           task2LastProbe := ct.task2LastProbe.insert taskName taskLastProbe }

/-- `operator[]` on the reports puts an empty report where there is none. -/
def touch (task2Report : Std.TreeMap String Report compare) (taskName : String) :
    Std.TreeMap String Report compare :=
  task2Report.insert taskName (task2Report[taskName]?.getD {})

/-- The corrected report, and the reports after both look-ups. -/
def getReport (ct : ChronoTrigger Sock Sys) (taskName : String) :
    Option (Report × ChronoTrigger Sock Sys) := do
  let task2Report := touch (touch ct.task2Report taskName) biasTask
  let report ← task2Report[taskName]?.bind fun mine => task2Report[biasTask]?.bind mine.subtract
  return (report,{ ct with task2Report := task2Report })

/-- The report a dump writes for a task. -/
def correctedReport (task2Report : Std.TreeMap String Report compare) (entry : String × Report) :
    Option Report :=
  if entry.1 = biasTask then some entry.2 else task2Report[biasTask]?.bind entry.2.subtract

inductive Call (Sock Sys : Type)
  | tick (taskName : String) (now : Sample Sock Sys)
  | tock (taskName : String) (now : Sample Sock Sys)
  | getReport (taskName : String)
  | clear

def step (ct : ChronoTrigger Sock Sys) : Call Sock Sys → Option (ChronoTrigger Sock Sys)
  | .tick taskName now => ct.tick pcm taskName now
  | .tock taskName now => ct.tock root pcm taskName now
  | .getReport taskName => (ct.getReport taskName).map (·.2)
  | .clear => some {}

def biasCorrectionRepeat : Nat := 100

/-- What a dump does before it writes: intervals without work under the name of the idle task. -/
def biasCalls (idle : Nat → Sample Sock Sys × Sample Sock Sys) : List (Call Sock Sys) :=
  (List.range biasCorrectionRepeat).flatMap fun corr =>
    [.tick biasTask (idle corr).1,.tock biasTask (idle corr).2]

/-- The reports a dump writes, task by task, and the stopwatch after it. Every metric has a file
of its own with the numbers of its item as text. -/
def dumpAllReport (ct : ChronoTrigger Sock Sys) (idle : Nat → Sample Sock Sys × Sample Sock Sys) :
    Option (List (String × Report) × ChronoTrigger Sock Sys) := do
  let ct ← Lib.Transition.run (step root pcm) ct (biasCalls idle)
  let reports ← ct.task2Report.toList.mapM fun entry =>
    (correctedReport ct.task2Report entry).map (entry.1,·)
  return (reports,ct)

end ChronoTrigger
end MetaPB.Utils

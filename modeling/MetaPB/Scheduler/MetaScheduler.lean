import MetaPB.Optimizer.Launch
import MetaPB.Scheduler.HEFTScheduler

/-! The metaheuristic scheduler: three searches over the offload ratios of all tasks, points
valued by `MIMIC` runs, and the best point of the three as the schedule. The choice between them
starts from a fixed value and an index that is none. -/
namespace MetaPB.Scheduler
open Executor Operator Utils Optimizer Lib.Loop Lib.Best

/-- `float` where costs are compared, read as an exact rational with the limits of the type. -/
def Single : Type := ℚ

namespace Single

def ofRat (x : ℚ) : Single := x

instance : LinearOrder Single := inferInstanceAs (LinearOrder ℚ)
instance : Zero Single := ⟨ofRat 0⟩

def fltMax : Single := ofRat ((2^24 - 1) * 2^104)
def fltMin : Single := ofRat (1 / 2^126)

theorem ofRat_lt {x y : ℚ} : ofRat x < ofRat y ↔ x < y := Iff.rfl

theorem ofRat_le {x y : ℚ} : ofRat x ≤ ofRat y ↔ x ≤ y := Iff.rfl

instance : NumericLimits Single := ⟨fltMax,fltMin,ofRat_lt.mpr (by norm_num)⟩

end Single

structure MetaScheduler where
  argAlpha : ℚ
  argBeta : ℚ
  optIterMax : Nat
  tg : TaskGraph
  heftOrder : List Nat
  tasks : 0 < tg.numVertices

/-- What one optimiser meets: the draws of its two generators, and what the pools return for the
schedules of a call. A `MIMIC` time depends on how the workers of the pool interleave, so every
pool of every call has its own. -/
structure Trial where
  firstDraws : Draws ℚ
  draws : Draws ℚ
  execWorkload : List Schedule → Nat → PerfStats

structure Trials where
  pso : Trial
  aoa : Trial
  rsa : Trial
  quotient : Quotient

structure OptimizerInfos where
  optimizerName : String := ""
  totalPtFrm : List (List ℚ)
  convergePtFrm : List (List ℚ)
  totalValHist : List (List Single)
  convergeValFrm : List Single

namespace MetaScheduler

-- HEFT writes the last of its ratios, and there is none for an empty graph
def construct (sort : (Nat → Nat → Bool) → List Nat → List Nat) (om : PerfModel) (alpha beta : ℚ)
    (optIterMax : Nat) (tg : TaskGraph) : Option MetaScheduler :=
  if tasks : 0 < tg.numVertices then
    (Scheduler.schedule sort om tg).map fun heSchedule =>
      ⟨alpha,beta,optIterMax,tg,heSchedule.order,tasks⟩
  else none

def proposedSchedule (m : MetaScheduler) (size : Nat) (ratioVec : List ℚ) : Schedule where
  isAlwaysWrittingBack := false
  order := m.heftOrder
  offloadRatio := ((List.range size).map fun j => (ratioVec[j]?).elim 0 (· / 200 + 1/2)).set
    (ratioVec.length - 1) 0

def evalSchedules (m : MetaScheduler) (execWorkload : List Schedule → Nat → PerfStats)
    (ratioVecs : List (List ℚ)) : List Single :=
  let proposed := ratioVecs.map (m.proposedSchedule (ratioVecs.headD []).length)
  (List.range ratioVecs.length).map fun i =>
    let stats := execWorkload proposed i
    Single.ofRat (m.argAlpha * 200 * stats.timeCostSecond + m.argBeta * stats.energyCostJoule)

def settings (m : MetaScheduler) (trial : Trial) : Settings ℚ Single where
  lowerLimits := List.replicate m.tg.numVertices (-100)
  upperLimits := List.replicate m.tg.numVertices 100
  dimNum := m.tg.numVertices
  pointNum := 32
  iterNum := m.optIterMax
  evaluateFunc := m.evalSchedules trial.execWorkload

def psoArgs (m : MetaScheduler) (q : Quotient) : PSOArgs where
  vMax := 2 * q.div 200 (m.optIterMax * (7/100))
  omega := 4/5
  dt := 7/100
  ego := 3/5

/-- An optimiser constructed and run, when its members are. -/
def search {σ : Type} (m : MetaScheduler) (trial : Trial) (d : Derived ℚ Single σ) (members : Option σ) :
    Option (Search ℚ Single) := do
  let start ← Optimizer.construct (m.settings trial) trial.firstDraws
  let members ← members
  let (s,_) ← exec (m.settings trial) d (start,members)
  return s

def searches (m : MetaScheduler) (t : Trials) : Option (List (Search ℚ Single)) := do
  let pso ← m.search t.pso (PSO.derived (m.settings t.pso) (m.psoArgs t.quotient) t.pso.draws t.quotient)
    (PSO.construct (m.settings t.pso) (m.psoArgs t.quotient) t.pso.draws)
  let aoa ← m.search t.aoa (AOA.derived (m.settings t.aoa) t.aoa.draws t.quotient) (some AOA.construct)
  let rsa ← m.search t.rsa (RSA.derived (m.settings t.rsa) t.rsa.draws t.quotient) (some {})
  return [pso,aoa,rsa]

/-- The `float` nearest to 666666666.6. -/
def initialBestVal : Single := Single.ofRat 666666688

def bestOptimizer (oVec : List (Search ℚ Single)) : ℤ × Single :=
  oVec.zipIdx.foldl (fun best candidate =>
    if candidate.1.gBestVal < best.2 then ((candidate.2 : ℤ),candidate.1.gBestVal) else best)
    (-1,initialBestVal)

/-- `oVec[bestOptimizerIdx]`; the index may be the illegal one. -/
def optimizerAt (oVec : List (Search ℚ Single)) (bestOptimizerIdx : ℤ) : Option (Search ℚ Single) :=
  if bestOptimizerIdx < 0 then none else oVec[bestOptimizerIdx.toNat]?

@[simp] theorem optimizerAt_natCast (oVec : List (Search ℚ Single)) (index : Nat) :
    optimizerAt oVec index = oVec[index]? := by
  simp only [optimizerAt,if_neg (not_lt.mpr (Int.natCast_nonneg index)),Int.toNat_natCast]

@[simp] theorem optimizerAt_illegal (oVec : List (Search ℚ Single)) : optimizerAt oVec (-1) = none := rfl

def optimizerName (bestOptimizerIdx : ℤ) : String :=
  if bestOptimizerIdx = 0 then "PSO"
  else if bestOptimizerIdx = 1 then "AOA"
  else if bestOptimizerIdx = 2 then "RSA"
  else ""

def optimizerInfos (bestOptimizerIdx : ℤ) (best : Search ℚ Single) : OptimizerInfos where
  optimizerName := optimizerName bestOptimizerIdx
  totalPtFrm := best.getCumulatePointsHistory
  convergePtFrm := best.gBestPtHist
  totalValHist := best.valHistory
  convergeValFrm := best.gBestValHist

/-- A ratio in whole percents. -/
def percent (ratio : ℚ) : ℚ := lround ((ratio / 200 + 1/2) / (1/100)) * (1/100)

def actualRatio (m : MetaScheduler) (ratio : List ℚ) : Option (List ℚ) :=
  loop m.tg.numVertices (fun i actual => do
    let r ← ratio[i]?
    write actual i (if i = m.tg.numVertices - 1 then 0 else percent r))
    (List.replicate m.tg.numVertices 0)

def schedule (m : MetaScheduler) (t : Trials) : Option (Schedule × OptimizerInfos) := do
  let oVec ← m.searches t
  let bestOptimizerIdx := (bestOptimizer oVec).1
  let best ← optimizerAt oVec bestOptimizerIdx
  let actual ← m.actualRatio best.gBestPt
  return (⟨false,m.heftOrder,actual⟩,optimizerInfos bestOptimizerIdx best)

end MetaScheduler
end MetaPB.Scheduler

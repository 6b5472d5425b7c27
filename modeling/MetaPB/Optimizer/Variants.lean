import MetaPB.Optimizer.OptimizerBase

/-! Particle swarm, arithmetic and reptile search as derived optimisers: what each extracts
from a logged frame and how it proposes each coordinate of the next one. A proposal is
adapted to the argument type and clamped to the limits in all three. -/
namespace MetaPB.Optimizer
open Lib.Loop Coordinate

def clamp {α : Type} [LinearOrder α] (lower upper x : α) : α :=
  let x := if x > upper then upper else x
  if x < lower then lower else x

section Variants
variable {aType vType σ : Type} [LinearOrder aType] [Zero aType] [Add aType] [Coordinate aType]
  [LinearOrder vType] [Zero vType]

def settle (c : Settings aType vType) (move : Nat → List aType → σ → Option (aType × σ))
    (dimIdx : Nat) (current : List aType × σ) : Option (List aType × σ) := do
  let upperBound ← c.upperLimits[dimIdx]?
  let lowerBound ← c.lowerLimits[dimIdx]?
  let (moved,members) ← move dimIdx current.1 current.2
  let newPt ← write current.1 dimIdx (clamp lowerBound upperBound moved)
  return (newPt,members)

/-- The loops all explorations share: a point starts at its origin and gets one coordinate
after the other. -/
def exploreFrame (c : Settings aType vType) (origin : Nat → Option (List aType))
    (move : Nat → Nat → List aType → σ → Option (aType × σ)) (members : σ) :
    Option (List (List aType) × σ) :=
  loop c.pointNum (fun ptIdx (newFrm,members) => do
    let newPt ← origin ptIdx
    let (newPt,members) ← loop c.dimNum (settle c (move ptIdx)) (newPt,members)
    return (newFrm ++ [newPt],members)) ([],members)

/-- The references an exploration takes to a point and its value; the new point is zero. -/
def blankOrigin (c : Settings aType vType) (s : Search aType vType) (ptIdx : Nat) :
    Option (List aType) := do
  let frame ← s.ptHistory.getLast?
  let _ ← frame[ptIdx]?
  let values ← s.valHistory.getLast?
  let _ ← values[ptIdx]?
  return List.replicate c.dimNum 0

structure PSOArgs where
  vMax : ℚ
  omega : ℚ
  dt : ℚ
  ego : ℚ

structure PSO (aType vType : Type) where
  pBestPts : List (List aType)
  pBestVals : List vType
  velocities : List (List ℚ)
  rng : Nat := 0

namespace PSO

def setVelocity (c : Settings aType vType) (args : PSOArgs) (draws : Draws aType) (ptIdx dimIdx : Nat)
    (current : List (List ℚ) × Nat) : Option (List (List ℚ) × Nat) := do
  let upper ← c.upperLimits[dimIdx]?
  let lower ← c.lowerLimits[dimIdx]?
  let velocity ← current.1[ptIdx]?
  let velocity ← write velocity dimIdx
    (draws.distV current.2 args.vMax * (toDouble upper - toDouble lower))
  let velocities ← write current.1 ptIdx velocity
  return (velocities,current.2 + 1)

def construct [NumericLimits vType] (c : Settings aType vType) (args : PSOArgs) (draws : Draws aType) :
    Option (PSO aType vType) := do
  let (velocities,rng) ← loop c.pointNum (fun ptIdx => loop c.dimNum (setVelocity c args draws ptIdx))
    (List.replicate c.pointNum (List.replicate c.dimNum 0),0)
  return {
    pBestPts := List.replicate c.pointNum []
    pBestVals := List.replicate c.pointNum NumericLimits.max
    velocities := velocities
    rng := rng }

def remember (lastValFrm : List vType) (lastPtFrm : List (List aType)) (ptIdx : Nat)
    (m : PSO aType vType) : Option (PSO aType vType) := do
  let val ← lastValFrm[ptIdx]?
  let best ← m.pBestVals[ptIdx]?
  if val < best then
    let pBestVals ← write m.pBestVals ptIdx val
    let pt ← lastPtFrm[ptIdx]?
    let pBestPts ← write m.pBestPts ptIdx pt
    return { m with pBestVals := pBestVals, pBestPts := pBestPts }
  else return m

def extraction (s : Search aType vType) (m : PSO aType vType) : Option (PSO aType vType) := do
  let lastValFrm ← s.valHistory.getLast?
  let lastPtFrm ← s.ptHistory.getLast?
  loop lastPtFrm.length (remember lastValFrm lastPtFrm) m

def accelerate (args : PSOArgs) (q : Quotient) (r1 r2 v pBest gBest my : ℚ) : ℚ :=
  args.omega * v + r1 * args.ego * (pBest - my) + q.div r2 args.ego * (gBest - my)

def move (c : Settings aType vType) (args : PSOArgs) (draws : Draws aType) (q : Quotient)
    (s : Search aType vType) (ptIdx dimIdx : Nat) (newPt : List aType) (m : PSO aType vType) :
    Option (aType × PSO aType vType) := do
  let lastFrm ← s.ptHistory.getLast?
  let myPt ← lastFrm[ptIdx]?
  let myVelocity ← m.velocities[ptIdx]?
  let upperBound ← c.upperLimits[dimIdx]?
  let lowerBound ← c.lowerLimits[dimIdx]?
  let vUpper := args.vMax * (toDouble upperBound - toDouble lowerBound)
  let v ← myVelocity[dimIdx]?
  let pBestPt ← m.pBestPts[ptIdx]?
  let pBest ← pBestPt[dimIdx]?
  let my ← myPt[dimIdx]?
  let gBest ← s.gBestPt[dimIdx]?
  let v := clamp (-vUpper) vUpper (accelerate args q (draws.dist01 m.rng) (draws.dist01 (m.rng + 1)) v
    (toDouble pBest) (toDouble gBest) (toDouble my))
  let myVelocity ← write myVelocity dimIdx v
  let velocities ← write m.velocities ptIdx myVelocity
  let coordinate ← newPt[dimIdx]?
  return (coordinate + adapt (v * args.dt),{ m with velocities := velocities, rng := m.rng + 2 })

def exploration (c : Settings aType vType) (args : PSOArgs) (draws : Draws aType) (q : Quotient)
    (s : Search aType vType) : PSO aType vType → Option (List (List aType) × PSO aType vType) :=
  exploreFrame c (fun ptIdx => s.ptHistory.getLast?.bind fun frame => frame[ptIdx]?)
    (move c args draws q s)

def derived (c : Settings aType vType) (args : PSOArgs) (draws : Draws aType) (q : Quotient) :
    Derived aType vType (PSO aType vType) :=
  ⟨extraction,exploration c args draws q⟩

end PSO

structure AOA (aType vType : Type) where
  currIterIdx : Nat := 0
  gWorstVal : vType
  gWorstPt : List aType := []
  argMOP : ℚ := 0
  rng : Nat := 0

namespace AOA

def argMu : ℚ := 1/2

def construct [NumericLimits vType] : AOA aType vType := { gWorstVal := NumericLimits.min }

def remember (lastValFrm : List vType) (lastPtFrm : List (List aType)) (ptIdx : Nat)
    (m : AOA aType vType) : Option (AOA aType vType) := do
  let val ← lastValFrm[ptIdx]?
  if val > m.gWorstVal then
    let pt ← lastPtFrm[ptIdx]?
    return { m with gWorstVal := val, gWorstPt := pt }
  else return m

-- both powers have the exponent 1 / arg_ALPHA = 2
def extraction (c : Settings aType vType) (s : Search aType vType) (m : AOA aType vType) :
    Option (AOA aType vType) := do
  let currIterIdx := m.currIterIdx + 1
  let argMOP := 1 - (currIterIdx : ℚ)^2 / (c.iterNum : ℚ)^2
  let lastValFrm ← s.valHistory.getLast?
  let lastPtFrm ← s.ptHistory.getLast?
  loop lastPtFrm.length (remember lastValFrm lastPtFrm)
    { m with currIterIdx := currIterIdx, argMOP := argMOP }

def propose (q : Quotient) (moa argMOP r1 r2 r3 gBest lower upper : ℚ) : ℚ :=
  let space := (upper - lower) * argMu + lower
  if r1 < moa then
    if r2 > 1/2 then q.div gBest (argMOP + dblMin) * space else gBest * argMOP * space
  else
    if r3 > 1/2 then gBest - argMOP * space else gBest + argMOP * space

def move (c : Settings aType vType) (draws : Draws aType) (q : Quotient) (s : Search aType vType)
    (_ptIdx dimIdx : Nat) (_newPt : List aType) (m : AOA aType vType) :
    Option (aType × AOA aType vType) := do
  let moa : ℚ := 1/5 + m.currIterIdx * (4/5 / c.iterNum)
  let upperBound ← c.upperLimits[dimIdx]?
  let lowerBound ← c.lowerLimits[dimIdx]?
  let gBest ← s.gBestPt[dimIdx]?
  return (adapt (propose q moa m.argMOP (draws.dist01 m.rng) (draws.dist01 (m.rng + 1))
    (draws.dist01 (m.rng + 2)) (toDouble gBest) (toDouble lowerBound) (toDouble upperBound)),
    { m with rng := m.rng + 3 })

def exploration (c : Settings aType vType) (draws : Draws aType) (q : Quotient)
    (s : Search aType vType) : AOA aType vType → Option (List (List aType) × AOA aType vType) :=
  exploreFrame c (blankOrigin c s) (move c draws q s)

def derived (c : Settings aType vType) (draws : Draws aType) (q : Quotient) :
    Derived aType vType (AOA aType vType) :=
  ⟨extraction c,exploration c draws q⟩

end AOA

structure RSA where
  currIterIdx : Nat := 0
  evoSense : ℚ := 0
  rng : Nat := 0

namespace RSA

def argALPHA : ℚ := 1/10
def argBETA : ℚ := 1/200

def extraction (c : Settings aType vType) (draws : Draws aType) (_s : Search aType vType) (m : RSA) :
    Option RSA :=
  let currIterIdx := m.currIterIdx + 1
  some {
    currIterIdx := currIterIdx
    evoSense := draws.evoScaleDist m.rng * (1 - (currIterIdx : ℚ) / c.iterNum)
    rng := m.rng + 1 }

def R (q : Quotient) (gBest other : ℚ) : ℚ := gBest - q.div other (gBest + dblMin)

def P (q : Quotient) (gBest this mean dimRange : ℚ) : ℚ :=
  argALPHA + q.div (this - mean) (gBest * dimRange + dblMin)

/-- The four stages of the run, each with one draw. -/
def propose (iterNum currIterIdx : Nat) (evoSense gBest other rValue pValue r : ℚ) : ℚ :=
  let eta := gBest * pValue
  if currIterIdx ≤ iterNum / 4 then gBest - eta * argBETA - rValue * r
  else if currIterIdx ≤ iterNum / 2 ∧ currIterIdx > iterNum / 4 then gBest * other * evoSense * r
  else if currIterIdx ≤ 3 * iterNum / 4 ∧ currIterIdx > iterNum / 2 then gBest * pValue * r
  else gBest - eta * dblMin - rValue * r

def move (c : Settings aType vType) (draws : Draws aType) (q : Quotient) (s : Search aType vType)
    (ptIdx dimIdx : Nat) (_newPt : List aType) (m : RSA) : Option (aType × RSA) := do
  let thisFrm ← s.ptHistory.getLast?
  let thisPt ← thisFrm[ptIdx]?
  let upperBound ← c.upperLimits[dimIdx]?
  let lowerBound ← c.lowerLimits[dimIdx]?
  let thisChoice := draws.choice m.rng c.pointNum
  let thisMean := toDouble thisPt.sum / c.dimNum
  let dimRange := toDouble upperBound - toDouble lowerBound
  let gBest ← s.gBestPt[dimIdx]?
  let otherPt ← thisFrm[thisChoice]?
  let other ← otherPt[dimIdx]?
  let this ← thisPt[dimIdx]?
  let rValue := R q (toDouble gBest) (toDouble other)
  let pValue := P q (toDouble gBest) (toDouble this) thisMean dimRange
  return (adapt (propose c.iterNum m.currIterIdx m.evoSense (toDouble gBest) (toDouble other) rValue
    pValue (draws.dist01 (m.rng + 1))),{ m with rng := m.rng + 2 })

def exploration (c : Settings aType vType) (draws : Draws aType) (q : Quotient)
    (s : Search aType vType) : RSA → Option (List (List aType) × RSA) :=
  exploreFrame c (blankOrigin c s) (move c draws q s)

def derived (c : Settings aType vType) (draws : Draws aType) (q : Quotient) :
    Derived aType vType RSA :=
  ⟨extraction c draws,exploration c draws q⟩

end RSA
end Variants
end MetaPB.Optimizer

import MetaPB.Lib.Loop
import MetaPB.Optimizer.Coordinate
import Mathlib.Data.List.Lex
import Mathlib.Order.Std
import Std.Data.TreeMap.Lemmas

/-! The optimiser base class: the first frame, evaluation through the cache of earlier
points, convergence logging and the main loop. A derived optimiser is what it keeps of
its own and its two virtual functions; an access outside a vector is no result. Coordinates
and values are of linear orders here, as floating ones are while they are numbers. -/
namespace MetaPB.Optimizer
open Lib.Loop

structure Settings (aType vType : Type) where
  lowerLimits : List aType
  upperLimits : List aType
  dimNum : Nat
  pointNum : Nat
  iterNum : Nat
  evaluateFunc : List (List aType) → List vType

structure Search (aType vType : Type) [LinearOrder aType] where
  pt2Val : Std.TreeMap (List aType) vType compare := ∅
  gBestPt : List aType := []
  gBestVal : vType
  ptHistory : List (List (List aType))
  valHistory : List (List vType) := []
  gBestPtHist : List (List aType) := []
  gBestValHist : List vType := []
  -- what `evaluateFunc` was called with, for reasoning only
  evaluateCalls : List (List (List aType)) := []

/-- The values of a frame found in the cache, and the points not found with their places. -/
structure Partition (aType vType : Type) where
  result : List vType
  newPoints : List (List aType) := []
  newPtIdx : List Nat := []

section Base
variable {aType vType : Type} [LinearOrder aType] [Zero aType] [LinearOrder vType] [Zero vType]

namespace Search

def find (pt2Val : Std.TreeMap (List aType) vType compare) (frame : List (List aType)) (ptIdx : Nat)
    (found : Partition aType vType) : Option (Partition aType vType) := do
  let pt ← frame[ptIdx]?
  match pt2Val[pt]? with
  | some val =>
    let result ← write found.result ptIdx val
    return { found with result := result }
  | none =>
    return { found with newPoints := found.newPoints ++ [pt], newPtIdx := found.newPtIdx ++ [ptIdx] }

def scatter (found : Partition aType vType) (newResults : List vType) (newIdx : Nat)
    (stored : List vType × Std.TreeMap (List aType) vType compare) :
    Option (List vType × Std.TreeMap (List aType) vType compare) := do
  let val ← newResults[newIdx]?
  let ptIdx ← found.newPtIdx[newIdx]?
  let result ← write stored.1 ptIdx val
  let pt ← found.newPoints[newIdx]?
  return (result,stored.2.insert pt val)

def exploitation (c : Settings aType vType) (s : Search aType vType) :
    Option (Search aType vType) := do
  let frame ← s.ptHistory.getLast?
  let found ← loop c.pointNum (find s.pt2Val frame) { result := List.replicate c.pointNum 0 }
  let newResults := c.evaluateFunc found.newPoints
  let (result,pt2Val) ← loop newResults.length (scatter found newResults) (found.result,s.pt2Val)
  return { s with
    pt2Val := pt2Val
    valHistory := s.valHistory ++ [result]
    evaluateCalls := s.evaluateCalls ++ [found.newPoints] }

def better (lastFrmVal : List vType) (valIdx fBestIdx : Nat) : Option Nat := do
  let val ← lastFrmVal[valIdx]?
  let best ← lastFrmVal[fBestIdx]?
  return if val < best then valIdx else fBestIdx

def improve (s : Search aType vType) (fBestIdx : Nat) (fBestVal : vType) :
    Option (vType × List aType) :=
  if fBestVal < s.gBestVal then do
    let frame ← s.ptHistory.getLast?
    let pt ← frame[fBestIdx]?
    return (fBestVal,pt)
  else some (s.gBestVal,s.gBestPt)

def convergeLogging (s : Search aType vType) : Option (Search aType vType) := do
  let lastFrmVal ← s.valHistory.getLast?
  let fBestIdx ← loop lastFrmVal.length (better lastFrmVal) 0
  let fBestVal ← lastFrmVal[fBestIdx]?
  let (gBestVal,gBestPt) ← improve s fBestIdx fBestVal
  return { s with
    gBestVal := gBestVal
    gBestPt := gBestPt
    gBestPtHist := s.gBestPtHist ++ [gBestPt]
    gBestValHist := s.gBestValHist ++ [gBestVal] }

def getCumulatePointsHistory (s : Search aType vType) : List (List aType) := s.pt2Val.keys

end Search

/-- What a derived optimiser overrides, over its own members. -/
structure Derived (aType vType σ : Type) [LinearOrder aType] where
  extraction : Search aType vType → σ → Option σ
  exploration : Search aType vType → σ → Option (List (List aType) × σ)

section Exec
variable {σ : Type}

def turn (c : Settings aType vType) (d : Derived aType vType σ) (frmIdx : Nat)
    (current : Search aType vType × σ) : Option (Search aType vType × σ) := do
  let s ← current.1.exploitation c
  let s ← s.convergeLogging
  let members ← d.extraction s current.2
  if frmIdx ≠ c.iterNum - 1 then
    let (newFrm,members) ← d.exploration s members
    return ({ s with ptHistory := s.ptHistory ++ [newFrm] },members)
  else return (s,members)

/-- The first `count` turns of the main loop. -/
def turns (c : Settings aType vType) (d : Derived aType vType σ) (count : Nat) :
    Search aType vType × σ → Option (Search aType vType × σ) :=
  loop count (turn c d)

def exec (c : Settings aType vType) (d : Derived aType vType σ) :
    Search aType vType × σ → Option (Search aType vType × σ) :=
  turns c d c.iterNum

end Exec

section Construct
variable [Add aType] [Coordinate aType] [NumericLimits vType]
open Coordinate

def randomPoint (c : Settings aType vType) (draws : Draws aType) (rng : Nat) :
    Option (List aType × Nat) :=
  loop c.dimNum (fun dimIdx (point,rng) => do
    let low ← c.lowerLimits[dimIdx]?
    let high ← c.upperLimits[dimIdx]?
    let point ← write point dimIdx (draws.uniform rng low high)
    return (point,rng + 1)) (List.replicate c.dimNum 0,rng)

def gridPoint (c : Settings aType vType) (agtIdx : Nat) : Option (List aType) :=
  loop c.dimNum (fun dimIdx point => do
    let low ← c.lowerLimits[dimIdx]?
    let high ← c.upperLimits[dimIdx]?
    write point dimIdx (convert (toDouble low + (toDouble high - toDouble low) * agtIdx / 10)))
    (List.replicate c.dimNum 0)

def firstFrame (c : Settings aType vType) (draws : Draws aType) : Option (List (List aType)) := do
  let (firstFrm,_) ← loop c.pointNum (fun _ (firstFrm,rng) => do
    let (point,rng) ← randomPoint c draws rng
    return (firstFrm ++ [point],rng)) ([],0)
  loop 10 (fun agtIdx firstFrm => do
    let point ← gridPoint c agtIdx
    write firstFrm agtIdx point) firstFrm

/-- The object a constructed optimiser starts `exec` from. -/
def Search.start (firstFrm : List (List aType)) : Search aType vType :=
  { gBestVal := NumericLimits.max, ptHistory := [firstFrm] }

def construct (c : Settings aType vType) (draws : Draws aType) : Option (Search aType vType) :=
  (firstFrame c draws).map Search.start

end Construct
end Base
end MetaPB.Optimizer

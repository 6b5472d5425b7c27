import MetaPB.Utils.ReportUtils

/-! The metrics a report holds and the functions that gather them. All but two of them read
every socket before and after and add one value a socket; what the counter library makes of
two readings is a parameter. Its byte counts and occupancies are 64-bit words. -/
namespace MetaPB.Utils
open Lib.Loop

inductive MetricTag
  | TimeConsumeNs | FrontendBoundRatio | BackendBoundRatio | CoreBoundRatio | MemoryBoundRatio
  | SpeculationBoundRatio | LLCHitRate | LLCOccupancyTrail | TotalDRAMCTRLReadBytes
  | TotalDRAMCTRLWriteBytes | CPUPowerConsumptionJoule | DRAMPowerConsumptionJoule | QPITrafficRatio
  deriving DecidableEq

namespace MetricTag

def all : List MetricTag :=
  [TimeConsumeNs,FrontendBoundRatio,BackendBoundRatio,CoreBoundRatio,MemoryBoundRatio,
    SpeculationBoundRatio,LLCHitRate,LLCOccupancyTrail,TotalDRAMCTRLReadBytes,TotalDRAMCTRLWriteBytes,
    CPUPowerConsumptionJoule,DRAMPowerConsumptionJoule,QPITrafficRatio]

def size : Nat := all.length

end MetricTag

namespace Double

def ofWord (word : BitVec 64) : Double where
  val := word.toNat
  lower := by
    have positive : (0 : ℚ) ≤ word.toNat := Nat.cast_nonneg _
    exact (by norm_num [dblMax] : -dblMax ≤ 0).trans positive
  upper := by
    have small : (word.toNat : ℚ) ≤ 2^64 := by exact_mod_cast word.isLt.le
    exact small.trans (by decide +kernel)

def zero : Double := ofWord 0

end Double

/-- The counter library: its sockets, and what it makes of two states of a socket or of the
system. -/
structure Pcm (Sock Sys : Type) where
  numSockets : Nat
  someSocket : 0 < numSockets
  getFrontendBound : Sock → Sock → Double
  getBackendBound : Sock → Sock → Double
  getCoreBound : Sock → Sock → Double
  getMemoryBound : Sock → Sock → Double
  getBadSpeculation : Sock → Sock → Double
  getL3CacheHitRatio : Sock → Sock → Double
  getL3CacheOccupancy : Sock → BitVec 64
  getBytesReadFromMC : Sock → Sock → BitVec 64
  getBytesWrittenToMC : Sock → Sock → BitVec 64
  getConsumedJoules : Sock → Sock → Double
  getDRAMConsumedJoules : Sock → Sock → Double
  getQPItoMCTrafficRatio : Sys → Sys → Double

section Gather
variable {Sock Sys : Type} (root : Root) (pcm : Pcm Sock Sys)

/-- One value a socket; reading a state that was not taken is no result. -/
def socketData (get : Sock → Sock → Double) (soBF soAFT : List Sock) : Option (List Double) :=
  let dataVec := List.replicate soAFT.length Double.zero
  loop dataVec.length (fun i dataVec => do
    let _ ← dataVec[i]?
    let value ← soBF[i]?.bind fun before => soAFT[i]?.map (get before)
    write dataVec i value) dataVec

def gatherSockets (get : Sock → Sock → Double) (item : ReportItem) (soBF soAFT : List Sock) :
    Option ReportItem :=
  (socketData get soBF soAFT).bind (item.addVector root)

-- the time is taken by the caller, next to the clock
def tGet (item : ReportItem) : Option ReportItem := some item

def fbGet := gatherSockets root pcm.getFrontendBound

def bbGet := gatherSockets root pcm.getBackendBound

def cbGet := gatherSockets root pcm.getCoreBound

def mbGet := gatherSockets root pcm.getMemoryBound

def sbGet := gatherSockets root pcm.getBadSpeculation

def lhGet := gatherSockets root pcm.getL3CacheHitRatio

/-- The change of the occupancy, as a difference of unsigned words. -/
def occupancyTrail (before after : Sock) : Double :=
  Double.ofWord (pcm.getL3CacheOccupancy after - pcm.getL3CacheOccupancy before)

def loGet := gatherSockets root (occupancyTrail pcm)

def drGet := gatherSockets root fun before after => Double.ofWord (pcm.getBytesReadFromMC before after)

def dwGet := gatherSockets root fun before after => Double.ofWord (pcm.getBytesWrittenToMC before after)

def cpGet := gatherSockets root pcm.getConsumedJoules

def dpGet := gatherSockets root pcm.getDRAMConsumedJoules

def qtGet (item : ReportItem) (sysBF sysAFT : Sys) : Option ReportItem :=
  item.addData root (pcm.getQPItoMCTrafficRatio sysBF sysAFT)

def metric2Func (tag : MetricTag) (item : ReportItem) (soBF soAFT : List Sock) (sysBF sysAFT : Sys) :
    Option ReportItem :=
  match tag with
  | .TimeConsumeNs => tGet item
  | .FrontendBoundRatio => fbGet root pcm item soBF soAFT
  | .BackendBoundRatio => bbGet root pcm item soBF soAFT
  | .CoreBoundRatio => cbGet root pcm item soBF soAFT
  | .MemoryBoundRatio => mbGet root pcm item soBF soAFT
  | .SpeculationBoundRatio => sbGet root pcm item soBF soAFT
  | .LLCHitRate => lhGet root pcm item soBF soAFT
  | .LLCOccupancyTrail => loGet root pcm item soBF soAFT
  | .TotalDRAMCTRLReadBytes => drGet root pcm item soBF soAFT
  | .TotalDRAMCTRLWriteBytes => dwGet root pcm item soBF soAFT
  | .CPUPowerConsumptionJoule => cpGet root pcm item soBF soAFT
  | .DRAMPowerConsumptionJoule => dpGet root pcm item soBF soAFT
  | .QPITrafficRatio => qtGet root pcm item sysBF sysAFT

end Gather

/-- How a metric is gathered: by the caller, one value a socket, or one value of the system. -/
inductive Gathered (Sock Sys : Type)
  | outside
  | sockets (get : Sock → Sock → Double)
  | system (get : Sys → Sys → Double)

namespace Pcm
variable {Sock Sys : Type} (pcm : Pcm Sock Sys)

def gathered : MetricTag → Gathered Sock Sys
  | .TimeConsumeNs => .outside
  | .FrontendBoundRatio => .sockets pcm.getFrontendBound
  | .BackendBoundRatio => .sockets pcm.getBackendBound
  | .CoreBoundRatio => .sockets pcm.getCoreBound
  | .MemoryBoundRatio => .sockets pcm.getMemoryBound
  | .SpeculationBoundRatio => .sockets pcm.getBadSpeculation
  | .LLCHitRate => .sockets pcm.getL3CacheHitRatio
  | .LLCOccupancyTrail => .sockets (occupancyTrail pcm)
  | .TotalDRAMCTRLReadBytes => .sockets fun before after => Double.ofWord (pcm.getBytesReadFromMC before after)
  | .TotalDRAMCTRLWriteBytes =>
    .sockets fun before after => Double.ofWord (pcm.getBytesWrittenToMC before after)
  | .CPUPowerConsumptionJoule => .sockets pcm.getConsumedJoules
  | .DRAMPowerConsumptionJoule => .sockets pcm.getDRAMConsumedJoules
  | .QPITrafficRatio => .system pcm.getQPItoMCTrafficRatio

theorem metric2Func_eq (root : Root) (tag : MetricTag) (item : ReportItem) (soBF soAFT : List Sock)
    (sysBF sysAFT : Sys) :
    metric2Func root pcm tag item soBF soAFT sysBF sysAFT =
      match pcm.gathered tag with
      | .outside => some item
      | .sockets get => gatherSockets root get item soBF soAFT
      | .system get => item.addData root (get sysBF sysAFT) := by
  cases tag <;> rfl

end Pcm

section Sockets
variable {Sock : Type} {get : Sock → Sock → Double} {soBF soAFT : List Sock}

theorem socketData_eq (same : soBF.length = soAFT.length) :
    socketData get soBF soAFT = some (List.zipWith get soBF soAFT) := by
  apply loop_each
  · simp [same]
  · intro i _ y _ listed
    rw [List.getElem?_zipWith] at listed
    cases before : soBF[i]? <;> cases after : soAFT[i]? <;> simp_all

theorem socketData_missing (later : soAFT ≠ []) (earlier : soBF = []) :
    socketData get soBF soAFT = Option.none := by
  subst earlier
  apply Option.eq_none_iff_forall_ne_some.mpr
  intro out ran
  obtain ⟨next,first⟩ := loop_first ran (by simpa [List.length_pos_iff] using later)
  simp at first

end Sockets
end MetaPB.Utils

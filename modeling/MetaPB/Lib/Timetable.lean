import Mathlib.Data.List.Basic
import Mathlib.Order.CompletePartialOrder
import Mathlib.Order.Interval.Set.Disjoint

/-! Timetables of jobs placed one after another on machines. Each job starts after the jobs
placed before it on its machine, and after those it waits for; so no two jobs on one machine
overlap. A job that is not placed may have any slot. -/
namespace MetaPB.Lib.Timetable

variable {J M K : Type*} [LinearOrder K]

structure Slot (M K : Type*) where
  machine : M
  start : K
  finish : K

/-- Jobs on one machine take turns in the order they were placed. -/
def InTurn (slots : J → Slot M K) (placed : List J) : Prop :=
  placed.Pairwise fun u v => (slots u).machine = (slots v).machine → (slots u).finish ≤ (slots v).start

/-- No placed job on the machine finishes later. -/
def FreeFrom (slots : J → Slot M K) (placed : List J) (machine : M) (time : K) : Prop :=
  ∀ u ∈ placed, (slots u).machine = machine → (slots u).finish ≤ time

variable {slots next : J → Slot M K} {placed : List J} {job : J}

theorem InTurn.congr (turns : InTurn slots placed) (same : ∀ u ∈ placed, next u = slots u) :
    InTurn next placed := by
  refine turns.imp_of_mem ?_
  intro u v uPlaced vPlaced after
  rw [same u uPlaced,same v vPlaced]
  exact after

theorem FreeFrom.congr {machine : M} {time : K} (free : FreeFrom slots placed machine time)
    (same : ∀ u ∈ placed, next u = slots u) : FreeFrom next placed machine time := by
  intro u member
  rw [same u member]
  exact free u member

theorem InTurn.snoc (turns : InTurn slots placed)
    (free : FreeFrom slots placed (slots job).machine (slots job).start) :
    InTurn slots (placed ++ [job]) := by
  refine List.pairwise_append.mpr ⟨turns,List.pairwise_singleton _ _,?_⟩
  intro u member v last
  rw [List.mem_singleton] at last
  subst last
  exact free u member

theorem FreeFrom.snoc {machine : M} {time : K} (free : FreeFrom slots placed machine time)
    (own : (slots job).machine = machine → (slots job).finish ≤ time) :
    FreeFrom slots (placed ++ [job]) machine time := by
  intro u member
  rcases List.mem_append.mp member with before | last
  · exact free u before
  · rw [List.mem_singleton.mp last]
    exact own

theorem FreeFrom.mono {machine : M} {time later : K} (free : FreeFrom slots placed machine time)
    (le : time ≤ later) : FreeFrom slots placed machine later :=
  fun u member same => (free u member same).trans le

theorem InTurn.finish_le [DecidableEq J] (turns : InTurn slots placed) {u v : J}
    (uPlaced : u ∈ placed) (vPlaced : v ∈ placed) (before : placed.idxOf u < placed.idxOf v)
    (same : (slots u).machine = (slots v).machine) : (slots u).finish ≤ (slots v).start := by
  have uBound := List.idxOf_lt_length_of_mem uPlaced
  have vBound := List.idxOf_lt_length_of_mem vPlaced
  have after := List.pairwise_iff_getElem.mp turns _ _ uBound vBound before
  rw [List.getElem_idxOf,List.getElem_idxOf] at after
  exact after same

theorem InTurn.disjoint [DecidableEq J] (turns : InTurn slots placed) {u v : J}
    (uPlaced : u ∈ placed) (vPlaced : v ∈ placed) (distinct : u ≠ v)
    (same : (slots u).machine = (slots v).machine) :
    Disjoint (Set.Ioo (slots u).start (slots u).finish) (Set.Ioo (slots v).start (slots v).finish) := by
  have apart : placed.idxOf u ≠ placed.idxOf v := fun equal =>
    distinct ((List.idxOf_inj uPlaced).mp equal)
  apply Set.disjoint_left.mpr
  intro time inFirst inSecond
  rcases Nat.lt_or_gt_of_ne apart with before | after
  · have ends := turns.finish_le uPlaced vPlaced before same
    exact absurd (inFirst.2.trans_le ends) inSecond.1.not_gt
  · have ends := turns.finish_le vPlaced uPlaced after same.symm
    exact absurd (inSecond.2.trans_le ends) inFirst.1.not_gt

end MetaPB.Lib.Timetable

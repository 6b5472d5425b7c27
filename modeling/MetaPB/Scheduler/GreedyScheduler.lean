import MetaPB.Executor.ParseGraph

/-! The greedy scheduler: a topological order, and one ratio for each vertex by its type.
The ratios are laid out by vertex id while the pool reads them by position, so a task is
placed by the type of the vertex whose id is the task's position. -/
namespace MetaPB.Scheduler
open Executor Operator Lib.Word

namespace GreedyScheduler

-- `order` is what `topoSort` returns
def schedule (order : List Nat) (g : TaskGraph) : Schedule where
  isAlwaysWrittingBack := true
  order := order
  offloadRatio := ((List.range order.length).map fun i =>
    if (g.properties i).opType ≠ .ComputeBound then 1 else 0).set (order.length - 1) 0

end GreedyScheduler

section Placement
variable {g : TaskGraph} {order : List Nat} {i : Nat}

/-- The task at a position runs on the CPU alone if it is compute bound, and on the DPU
alone otherwise, LOGIC_END excepted. -/
def PlacedByType (g : TaskGraph) (sched : Schedule) (i : Nat) : Prop :=
  let tp := g.properties (sched.taskAt i)
  let plan := planTask g sched i
  (tp.opType = .ComputeBound → plan.cpuPageBlkCnt = plan.totalPageBlkCnt ∧ plan.dpuPageBlkCnt = 0) ∧
    (tp.opType ≠ .ComputeBound → tp.op ≠ .LOGIC_END →
      plan.cpuPageBlkCnt = 0 ∧ plan.dpuPageBlkCnt = plan.totalPageBlkCnt)

/-- The positions that are given ratio 0. -/
def CPUSlot (g : TaskGraph) (order : List Nat) (i : Nat) : Prop :=
  i + 1 = order.length ∨ (g.properties i).opType = .ComputeBound

/-- The task at a position, if it has blocks, is of the position's kind. -/
def SlotMatches (g : TaskGraph) (order : List Nat) (i : Nat) : Prop :=
  let tp := g.properties (order.getD i 0)
  totalPageBlkCnt tp ≠ 0 → tp.opType = .ComputeBound ∨ tp.op ≠ .LOGIC_END →
    (CPUSlot g order i ↔ tp.opType = .ComputeBound)

theorem GreedyScheduler.ratioAt_eq (inside : i < order.length) :
    (GreedyScheduler.schedule order g).ratioAt i =
      if i + 1 = order.length ∨ (g.properties i).opType = .ComputeBound then 0 else 1 := by
  have last : order.length - 1 = i ↔ i + 1 = order.length := by omega
  simp only [GreedyScheduler.schedule,Schedule.ratioAt,List.getD_eq_getElem?_getD,List.getElem?_set,
    last,List.length_map,List.length_range]
  split
  next same =>
    rw [if_pos (by omega),if_pos (Or.inl same)]
    rfl
  next earlier =>
    simp [inside,earlier]

theorem greedy_placed_at_iff (inside : i < order.length) :
    PlacedByType g (GreedyScheduler.schedule order g) i ↔ SlotMatches g order i := by
  let tp := g.properties (order.getD i 0)
  have total : (planTask g (GreedyScheduler.schedule order g) i).totalPageBlkCnt =
      totalPageBlkCnt tp := rfl
  have read : g.properties ((GreedyScheduler.schedule order g).taskAt i) = tp := rfl
  unfold PlacedByType SlotMatches
  rw [read]
  rcases Classical.em (CPUSlot g order i) with slot | other
  · obtain ⟨cpu,dpu⟩ := planTask_onCPU (g := g) ((GreedyScheduler.ratioAt_eq inside).trans (if_pos slot))
    simp only [cpu,dpu,total,slot,true_iff,and_self,implies_true,true_and]
    constructor
    · intro placed blocks counted
      by_contra notCompute
      exact blocks (placed notCompute (counted.resolve_left notCompute)).1
    · intro matched notCompute notEnd
      have empty : totalPageBlkCnt tp = 0 := by
        by_contra blocks
        exact notCompute (matched blocks (Or.inr notEnd))
      exact ⟨empty,empty.symm⟩
  · obtain ⟨cpu,dpu⟩ := planTask_onDPU (g := g) ((GreedyScheduler.ratioAt_eq inside).trans (if_neg other))
    simp only [cpu,dpu,total,other,false_iff,and_self,implies_true,and_true]
    constructor
    · intro placed blocks _ compute
      exact blocks (placed compute).2
    · intro matched compute
      have empty : totalPageBlkCnt tp = 0 := by
        by_contra blocks
        exact matched blocks (Or.inl compute) compute
      exact ⟨empty.symm,empty⟩

/-- The pool places every task by its type exactly when each task with blocks stands at a
position whose own vertex is of the task's kind, the last position counting as compute bound. -/
theorem greedy_placed_iff (g : TaskGraph) (order : List Nat) :
    (∀ i < order.length, PlacedByType g (GreedyScheduler.schedule order g) i) ↔
      ∀ i < order.length, SlotMatches g order i := by
  constructor
  · intro placed i inside
    exact (greedy_placed_at_iff inside).mp (placed i inside)
  · intro matched i inside
    exact (greedy_placed_at_iff inside).mpr (matched i inside)

end Placement

/-- A diamond with one branch on each side, in the order a depth-first sort gives it. -/
theorem greedy_not_placed : ¬ ∀ (g : TaskGraph) (order : List Nat), g.Orders order →
    g.Topological order → g.numVertices ≠ 0 →
      (g.properties (g.numVertices - 1)).op = .LOGIC_END →
      ∀ i < order.length, PlacedByType g (GreedyScheduler.schedule order g) i := by
  intro always
  let diamond : TaskGraph :=
    { vertices := [⟨.LOGIC_START,.Logical,0⟩,⟨.FILTER,.ComputeBound,100⟩,⟨.MAC,.MemoryBound,100⟩,
        ⟨.LOGIC_END,.Logical,0⟩]
      edges := [⟨0,1,1⟩,⟨0,2,1⟩,⟨1,3,1⟩,⟨2,3,1⟩]
      inside := by decide }
  have placed := always diamond [0,2,1,3] (by decide) (by decide) (by decide) (by decide)
  have matched := (greedy_placed_at_iff (by decide)).mp (placed 1 (by decide))
  have blocks : totalPageBlkCnt ⟨.MAC,.MemoryBound,100⟩ ≠ 0 := by decide +kernel
  have compute : OperatorType.MemoryBound = .ComputeBound :=
    (matched blocks (Or.inr (by decide))).mp (Or.inr rfl)
  contradiction

end MetaPB.Scheduler

import MetaPB.Executor.Safety
import MetaPB.Executor.MemoryPlan
import MetaPB.Executor.TrainedRange
import MetaPB.Operator.Footprint

/-! The pool in `DO` mode, with the memory its closures work on. An operator on the CPU runs
beside the DPU's; what is shown here holds however their writes are mixed, since each stays
in the regions that `memPlan` gave it. -/
namespace MetaPB.Executor
open Operator Lib.Word Lib.BlockMemory Lib.Transition

def Closure.call : Closure → Option Call
  | .execCPU opTag cpuTCB => some (.execCPU opTag cpuTCB)
  | .execDPU opTag dpuTCB => some (.execDPU opTag dpuTCB)
  | _ => none

namespace Pool

/-- The operator that an event runs. -/
def called (pool : Pool) (event : Event) : Option Call :=
  match event.action,pool.phase event.worker with
  | .execute,.executing task => if task.id = event.id then task.execute.call else none
  | _,_ => none

def Acts (pool : Pool) (event : Event) (before after : Platform) : Prop :=
  match pool.called event with
  | some call => call.Does before after
  | none => after = before

end Pool

/-- What the pool does with its threads and with memory. -/
abbrev Offloads (om : PerfModel) : Pool × Platform → Event → Pool × Platform → Prop :=
  Carried (Pool.step om) Pool.Acts

section Planned
variable {om : PerfModel} {heapBasePtr : Nat} {g : TaskGraph} {sched : Schedule} {eT : ExecType}

/-- No worker holds a task that `parseGraph` did not plan for it. -/
theorem reachable_planned {pool : Pool}
    (reached : Reachable (Pool.step om) (parseGraph heapBasePtr g sched eT) pool) :
    ∀ worker task, (pool.phase worker).task = some task ∨ task ∈ pool.queue worker →
      ∃ i < sched.order.length, plannedTask heapBasePtr g sched eT i worker = task := by
  refine reached.invariant (fun pool => ∀ worker task, (pool.phase worker).task = some task ∨
    task ∈ pool.queue worker → ∃ i < sched.order.length, plannedTask heapBasePtr g sched eT i worker = task) ?_ ?_
  · intro worker task held
    rw [parseGraph_eq] at held
    simpa [cleanStatus,Phase.task] using held
  · intro pool event next planned stepped worker task held
    exact planned worker task ((Pool.step_moves stepped).held_before held)

theorem called_planned {pool : Pool}
    (reached : Reachable (Pool.step om) (parseGraph heapBasePtr g sched eT) pool) {event : Event} {call : Call}
    (called : pool.called event = some call) :
    ∃ i < sched.order.length, event = ⟨event.worker,.execute,sched.taskAt i⟩ ∧
      (plannedTask heapBasePtr g sched eT i event.worker).execute.call = some call := by
  obtain ⟨worker,action,id⟩ := event
  unfold Pool.called at called
  split at called
  next task act phase =>
    obtain rfl : action = .execute := act
    obtain ⟨i,inside,rfl⟩ := reachable_planned reached worker task (by simp [phase,Phase.task])
    split at called
    next same =>
      rw [plannedTask_id] at same
      exact ⟨i,inside,by rw [same],called⟩
    next => contradiction
  next => contradiction

/-- What no planned call changes no run changes. -/
theorem run_keeps {α : Type*} (view : Platform → α)
    (keeps : ∀ i < sched.order.length, ∀ worker call,
      (plannedTask heapBasePtr g sched eT i worker).execute.call = some call →
        ∀ before after, call.Does before after → view after = view before)
    {before : Platform} {events : List Event} {after : Pool × Platform}
    (ran : Runs (Offloads om) (parseGraph heapBasePtr g sched eT,before) events after) :
    view after.2 = view before := by
  refine (ran.history (fun _ state => Reachable (Pool.step om) (parseGraph heapBasePtr g sched eT) state.1 ∧
    view state.2 = view before) ⟨.refl _ _,rfl⟩ ?_).2
  intro _ event state next holds stepped
  obtain ⟨reached,same⟩ := holds
  obtain ⟨moved,acted⟩ := stepped
  refine ⟨reached.next moved,?_⟩
  rw [← same]
  unfold Pool.Acts at acted
  split at acted
  next call called =>
    obtain ⟨i,inside,-,planned⟩ := called_planned reached called
    exact keeps i inside event.worker call planned state.2 next.2 acted
  next => rw [acted]

theorem planned_call {i : Nat} {worker : Worker} {call : Call}
    (planned : (plannedTask heapBasePtr g sched .DO i worker).execute.call = some call) :
    match worker with
    | .cpu => call = .execCPU (g.properties (sched.taskAt i)).op (memPlan heapBasePtr (planTask g sched i)).cpuTCB
    | .dpu => (planTask g sched i).dpuPageBlkCnt ≠ 0 ∧
      call = .execDPU (g.properties (sched.taskAt i)).op (memPlan heapBasePtr (planTask g sched i)).dpuTCB
    | .map => isLogic (g.properties (sched.taskAt i)).op = false ∧
      call = .execCPU .MAP (memPlan heapBasePtr (planTask g sched i)).mapTCB
    | .reduce => isLogic (g.properties (sched.taskAt i)).op = false ∧
      call = .execCPU .REDUCE (memPlan heapBasePtr (planTask g sched i)).reduceTCB := by
  cases worker with
  | cpu =>
    simp only [plannedTask,genComputeTask] at planned
    split at planned
    · exact (Option.some.inj planned).symm
    · cases planned
  | dpu =>
    simp only [plannedTask,genComputeTask] at planned
    split at planned
    next counted => exact ⟨counted,(Option.some.inj planned).symm⟩
    next => cases planned
  | map =>
    simp only [plannedTask,genXferTask] at planned
    split at planned
    · cases planned
    next moves => exact ⟨Bool.eq_false_iff.mpr moves,(Option.some.inj planned).symm⟩
  | reduce =>
    simp only [plannedTask,genXferTask] at planned
    split at planned
    · cases planned
    next moves => exact ⟨Bool.eq_false_iff.mpr moves,(Option.some.inj planned).symm⟩

end Planned

/-- Workloads of less than 208 page blocks, for which no offset of `memPlan` wraps. -/
def TaskGraph.Small (g : TaskGraph) : Prop := ∀ tp ∈ g.vertices, tp.inputSizeMiB ≤ 2045

instance (g : TaskGraph) : Decidable g.Small :=
  inferInstanceAs (Decidable (∀ tp ∈ g.vertices, tp.inputSizeMiB ≤ 2045))

theorem blocks_mono {workMiB inputSizeMiB : Nat} (part : workMiB ≤ inputSizeMiB) (small : inputSizeMiB ≤ 2045) :
    getNearestPageBlkCnt workMiB ≤ getNearestPageBlkCnt inputSizeMiB ∧
      getNearestPageBlkCnt inputSizeMiB < 208 := by
  have word (count : Nat) (bound : count ≤ 2045) : count * 2^20 ≤ (2^32 - 1) * pageBlkSize := by
    simp only [pageBlkSize,dpuNum,pageSizeByte]
    omega
  rw [getNearestPageBlkCnt_eq (word _ small),getNearestPageBlkCnt_eq (word _ (part.trans small))]
  simp only [pageBlkSize,dpuNum,pageSizeByte]
  omega

theorem memPlan_cpuTCB (base : Nat) {plan : TaskPlan} (few : plan.cpuPageBlkCnt < 208) :
    (memPlan (4 * base) plan).cpuTCB = ⟨4 * base,4 * (base + bufferInts plan.cpuPageBlkCnt),
      4 * (base + 2 * bufferInts plan.cpuPageBlkCnt),plan.cpuPageBlkCnt,{}⟩ := by
  have second : wrap32 (plan.cpuPageBlkCnt * pageBlkSize) = 4 * bufferInts plan.cpuPageBlkCnt := by
    simp only [wrap32,pageBlkSize,bufferInts,dpuNum,pageSizeByte]
    omega
  have third : wrap32 (wrap32 (2 * plan.cpuPageBlkCnt) * pageBlkSize) =
      4 * (2 * bufferInts plan.cpuPageBlkCnt) := by
    simp only [wrap32,pageBlkSize,bufferInts,dpuNum,pageSizeByte]
    omega
  rw [memPlan,second,third,Nat.mul_add,Nat.mul_add]

section Regions
variable {om : PerfModel} {heapBasePtr size : Nat} {g : TaskGraph} {sched : Schedule}

/-- No count planned for a task exceeds its page blocks. -/
structure Counted (g : TaskGraph) (sched : Schedule) (i blocks : Nat) : Prop where
  few : blocks < 208
  cpu : (planTask g sched i).cpuPageBlkCnt ≤ blocks
  dpu : (planTask g sched i).dpuPageBlkCnt ≤ blocks
  map : (planTask g sched i).mapPageBlkCnt ≤ blocks
  reduce : (planTask g sched i).reducePageBlkCnt ≤ blocks

theorem planned_counts (small : g.Small) (orders : g.Orders sched.order)
    (within : ∀ ratio ∈ sched.offloadRatio, 0 ≤ ratio ∧ ratio ≤ 1) {i : Nat} (inside : i < sched.order.length) :
    ∃ tp ∈ g.vertices, g.properties (sched.taskAt i) = tp ∧
      Counted g sched i (getNearestPageBlkCnt tp.inputSizeMiB) := by
  have task : sched.taskAt i < g.numVertices := by
    apply (orders.mem_iff _).mp
    simp [Schedule.taskAt,inside]
  have listed := properties_mem task
  obtain ⟨cpu,dpu,⟨reduceMiB,reduceFits,reduce⟩,mapMiB,mapFits,map⟩ := planTask_counts (g := g) within i
  refine ⟨_,listed,rfl,(blocks_mono le_rfl (small _ listed)).2,cpu,dpu,?_,?_⟩
  · exact map.trans_le (blocks_mono mapFits (small _ listed)).1
  · exact reduce.trans_le (blocks_mono reduceFits (small _ listed)).1

theorem planned_low (aligned : 4 ∣ heapBasePtr) (small : g.Small) (orders : g.Orders sched.order)
    (within : ∀ ratio ∈ sched.offloadRatio, 0 ≤ ratio ∧ ratio ≤ 1) {i : Nat} (inside : i < sched.order.length)
    {worker : Worker} {call : Call}
    (planned : (plannedTask heapBasePtr g sched .DO i worker).execute.call = some call) : call.Low := by
  obtain ⟨tp,listed,-,few,-,dpu,map,reduce⟩ := planned_counts small orders within inside
  have called := planned_call planned
  cases worker with
  | cpu =>
    obtain rfl : call = _ := called
    exact fun _ => ⟨Nat.dvd_zero 4,Nat.zero_le 414⟩
  | dpu =>
    obtain ⟨-,rfl⟩ := called
    have pages : (planTask g sched i).dpuPageBlkCnt ≤ nrSingleDpuPage := by
      simp only [nrSingleDpuPage]
      omega
    exact pages
  | map =>
    obtain ⟨-,rfl⟩ := called
    exact fun _ => ⟨aligned,by simp only [memPlan]; omega⟩
  | reduce =>
    obtain ⟨-,rfl⟩ := called
    exact fun _ => ⟨aligned,by simp only [memPlan]; omega⟩

/-- The regions of a computing task lie in a heap of three times its page blocks. -/
theorem planned_writes {base : Nat} (small : g.Small) (orders : g.Orders sched.order)
    (within : ∀ ratio ∈ sched.offloadRatio, 0 ≤ ratio ∧ ratio ≤ 1)
    (fits : ∀ tp ∈ g.vertices, isLogic tp.op = false →
      3 * getNearestPageBlkCnt tp.inputSizeMiB * pageBlkSize ≤ size) {i : Nat}
    (inside : i < sched.order.length) {worker : Worker} {call : Call}
    (planned : (plannedTask (4 * base) g sched .DO i worker).execute.call = some call) {address : Nat}
    (writes : call.Writes address) : Inside base (size / 4) address := by
  obtain ⟨tp,listed,named,few,cpu,-,-,reduce⟩ := planned_counts small orders within inside
  have called := planned_call planned
  cases worker with
  | cpu =>
    obtain rfl : call = _ := called
    obtain ⟨computes,above,below⟩ := Call.writes_computing rfl writes
    have moves : isLogic tp.op = false := by
      rw [named] at computes
      cases op : tp.op <;> rw [op] at computes <;> first | rfl | cases computes
    have room := fits tp listed moves
    have items : itemNum (planTask g sched i).cpuPageBlkCnt = bufferInts (planTask g sched i).cpuPageBlkCnt :=
      (itemNum_eq_iff _).mpr (by omega)
    rw [memPlan_cpuTCB base (cpu.trans_lt few)] at above below
    simp only [items,bufferInts] at above below
    simp only [pageBlkSize,dpuNum,pageSizeByte] at room above below
    exact ⟨by omega,by omega⟩
  | dpu =>
    obtain ⟨-,rfl⟩ := called
    exact writes.elim
  | map =>
    obtain ⟨-,rfl⟩ := called
    exact writes.elim
  | reduce =>
    obtain ⟨moves,rfl⟩ := called
    have room := fits tp listed (named ▸ moves)
    obtain ⟨above,below⟩ := writes
    simp only [memPlan,bufferInts] at above below
    simp only [pageBlkSize,dpuNum,pageSizeByte] at room below
    exact ⟨by omega,by omega⟩

theorem planned_fills {pages : Nat} (small : g.Small) (orders : g.Orders sched.order)
    (within : ∀ ratio ∈ sched.offloadRatio, 0 ≤ ratio ∧ ratio ≤ 1)
    (fits : ∀ tp ∈ g.vertices, isLogic tp.op = false → 3 * getNearestPageBlkCnt tp.inputSizeMiB ≤ pages)
    {i : Nat} (inside : i < sched.order.length) {worker : Worker} {call : Call}
    (planned : (plannedTask heapBasePtr g sched .DO i worker).execute.call = some call) {address : Nat}
    (fills : call.Fills address) : address < 1024 * pages := by
  obtain ⟨tp,listed,named,few,-,dpu,map,-⟩ := planned_counts small orders within inside
  have called := planned_call planned
  cases worker with
  | cpu =>
    obtain rfl : call = _ := called
    exact absurd fills (Call.not_fills_computing rfl address)
  | dpu =>
    obtain ⟨counted,rfl⟩ := called
    obtain ⟨computes,region⟩ := fills
    have moves : isLogic tp.op = false := by
      rw [named] at computes
      cases op : tp.op <;> rw [op] at computes <;> first | rfl | cases computes
    have room := fits tp listed moves
    obtain ⟨-,below⟩ := region.resolve_left counted
    simp only [memPlan,wrap32] at below
    omega
  | map =>
    obtain ⟨moves,rfl⟩ := called
    have room := fits tp listed (named ▸ moves)
    obtain ⟨-,below⟩ := fills
    simp only [memPlan] at below
    omega
  | reduce =>
    obtain ⟨-,rfl⟩ := called
    exact fills.elim

/-- No event fails for what memory holds. -/
theorem exists_acts (aligned : 4 ∣ heapBasePtr) (small : g.Small) (orders : g.Orders sched.order)
    (within : ∀ ratio ∈ sched.offloadRatio, 0 ≤ ratio ∧ ratio ≤ 1) {pool : Pool}
    (reached : Reachable (Pool.step om) (parseGraph heapBasePtr g sched .DO) pool) (event : Event)
    (before : Platform) : ∃ after, pool.Acts event before after := by
  unfold Pool.Acts
  split
  next call called =>
    obtain ⟨i,inside,-,planned⟩ := called_planned reached called
    exact Call.exists_does (planned_low aligned small orders within inside planned) before
  next => exact ⟨before,rfl⟩

/-- However the threads and the tasklets interleave, and whatever memory holds, no run writes outside
a heap of that size on the host. -/
def KeepsHeap (om : PerfModel) (heapBasePtr size : Nat) (g : TaskGraph) (sched : Schedule) : Prop :=
  ∀ before events after, Runs (Offloads om) (parseGraph heapBasePtr g sched .DO,before) events after →
    ∀ address, ¬ Inside (heapBasePtr / 4) (size / 4) address → after.2.host address = before.host address

/-- The same of the first pages of every DPU. -/
def KeepsPages (om : PerfModel) (heapBasePtr pages : Nat) (g : TaskGraph) (sched : Schedule) : Prop :=
  ∀ before events after, Runs (Offloads om) (parseGraph heapBasePtr g sched .DO,before) events after →
    ∀ d < dpuNum, ∀ address, 1024 * pages ≤ address → after.2.mram d address = before.mram d address

theorem keepsHeap_of_fits (om : PerfModel) (aligned : 4 ∣ heapBasePtr) (small : g.Small)
    (orders : g.Orders sched.order) (within : ∀ ratio ∈ sched.offloadRatio, 0 ≤ ratio ∧ ratio ≤ 1)
    (fits : ∀ tp ∈ g.vertices, isLogic tp.op = false →
      3 * getNearestPageBlkCnt tp.inputSizeMiB * pageBlkSize ≤ size) :
    KeepsHeap om heapBasePtr size g sched := by
  obtain ⟨base,rfl⟩ := aligned
  intro before events after ran address outside
  rw [Nat.mul_div_cancel_left _ (by decide : 0 < 4)] at outside
  refine run_keeps (·.host address) ?_ ran
  intro i inside worker call planned _ _ does
  apply Call.host_kept (planned_low (Nat.dvd_mul_right 4 base) small orders within inside planned) does
  exact fun writes => outside (planned_writes small orders within fits inside planned writes)

theorem keepsPages_of_fits (om : PerfModel) {pages : Nat} (aligned : 4 ∣ heapBasePtr) (small : g.Small)
    (orders : g.Orders sched.order) (within : ∀ ratio ∈ sched.offloadRatio, 0 ≤ ratio ∧ ratio ≤ 1)
    (fits : ∀ tp ∈ g.vertices, isLogic tp.op = false → 3 * getNearestPageBlkCnt tp.inputSizeMiB ≤ pages) :
    KeepsPages om heapBasePtr pages g sched := by
  intro before events after ran d dpu address far
  refine run_keeps (·.mram d address) ?_ ran
  intro i inside worker call planned _ _ does
  apply Call.mram_kept (planned_low aligned small orders within inside planned) does dpu
  exact fun fills => absurd (planned_fills small orders within fits inside planned fills) far.not_gt

end Regions
end MetaPB.Executor

import MetaPB.Executor.QueueModel

/-! The queues `parseGraph` fills, and what becomes of them: every maximal run of a
topological order executes all subtasks, and an edge against the order blocks its
target's CPU and DPU subtasks in every run. -/
namespace MetaPB.Executor
open Lib.Transition Lib.Sequence Operator

section Parsed
variable (heapBasePtr : Nat) (g : TaskGraph) (sched : Schedule) (eT : ExecType)

def plannedMovement (i : Nat) : ℚ :=
  let plan := planTask g sched i
  let mem := memPlan heapBasePtr plan
  xferMovement (g.properties plan.taskId).op mem.mapTCB mem.reduceTCB

omit heapBasePtr g sched in
private theorem genXferTask_fields (taskId : Nat) (opTag : OperatorTag) (mapTCB reduceTCB : CpuTcb) :
    ((genXferTask taskId opTag mapTCB reduceTCB eT).1.id = taskId ∧
      (genXferTask taskId opTag mapTCB reduceTCB eT).2.id = taskId) ∧
    (genXferTask taskId opTag mapTCB reduceTCB eT).1.isDPURelated = true ∧
      (genXferTask taskId opTag mapTCB reduceTCB eT).2.isDPURelated = true := by
  unfold genXferTask
  cases isLogic opTag <;> cases eT <;> simp

@[simp] theorem plannedTask_id (i : Nat) (worker : Worker) :
    (plannedTask heapBasePtr g sched eT i worker).id = sched.taskAt i := by
  cases worker with
  | cpu => cases eT <;> rfl
  | dpu => cases eT <;> rfl
  | map => exact (genXferTask_fields eT _ _ _ _).1.1
  | reduce => exact (genXferTask_fields eT _ _ _ _).1.2

theorem plannedTask_isDPURelated (i : Nat) (worker : Worker) :
    (plannedTask heapBasePtr g sched eT i worker).isDPURelated = decide (worker ≠ .cpu) := by
  cases worker with
  | cpu => cases eT <;> rfl
  | dpu => cases eT <;> rfl
  | map => exact (genXferTask_fields eT _ _ _ _).2.1
  | reduce => exact (genXferTask_fields eT _ _ _ _).2.2

theorem parseGraph_eq : parseGraph heapBasePtr g sched eT =
    { cleanStatus with
      dependencies := fun id => (List.range sched.order.length).flatMap fun i =>
        if sched.taskAt i = id then g.predecessors id else []
      queue := fun worker =>
        (List.range sched.order.length).map (plannedTask heapBasePtr g sched eT · worker)
      totalTransferMb :=
        ((List.range sched.order.length).map (plannedMovement heapBasePtr g sched)).sum } := by
  unfold parseGraph
  induction sched.order.length with
  | zero => rfl
  | succ n ih =>
    rw [List.range_succ,List.foldl_append,ih]
    simp only [List.foldl_cons,List.foldl_nil,parseStep,List.map_append,List.flatMap_append,
      List.sum_append,List.map_cons,List.map_nil,List.flatMap_cons,List.flatMap_nil,
      List.append_nil,List.sum_cons,List.sum_nil,add_zero]
    congr 1
    ext1 id
    by_cases same : sched.taskAt n = id
    · subst same
      simp [planTask]
    · simp [planTask,same,Ne.symm same]

theorem order_eq_taskAt : (List.range sched.order.length).map sched.taskAt = sched.order := by
  apply List.ext_getElem
  · simp
  · intro i left right
    simp [Schedule.taskAt,right]

variable {g sched}

theorem parsed_dependencies (orders : g.Orders sched.order) :
    (parseGraph heapBasePtr g sched eT).dependencies = g.predecessors := by
  ext1 id
  have reshape : (parseGraph heapBasePtr g sched eT).dependencies id =
      sched.order.flatMap fun task => if task = id then g.predecessors id else [] := by
    rw [parseGraph_eq]
    conv_rhs => rw [← order_eq_taskAt sched]
    rw [List.flatMap_map]
  rw [reshape]
  have others (tasks : List Nat) (absent : id ∉ tasks) :
      (tasks.flatMap fun task => if task = id then g.predecessors id else []) = [] := by
    apply List.flatMap_eq_nil_iff.mpr
    intro task member
    have other : task ≠ id := fun same => absent (same ▸ member)
    simp [other]
  by_cases member : id ∈ sched.order
  · obtain ⟨before,after,split⟩ := List.append_of_mem member
    have nodup := orders.nodup
    rw [split] at nodup
    obtain ⟨-,tail,apart⟩ := List.nodup_append.mp nodup
    have notBefore : id ∉ before := fun inside => apart id inside id (by simp) rfl
    rw [split,List.flatMap_append,List.flatMap_cons,others before notBefore,
      others after (List.nodup_cons.mp tail).1]
    simp
  · rw [others _ member]
    symm
    apply List.eq_nil_iff_forall_not_mem.mpr
    intro u linked
    apply member
    exact (orders.mem_iff id).mpr ((g.mem_predecessors u id).mp linked).bounds.2

variable (g sched)

theorem parsed_queues :
    (parseGraph heapBasePtr g sched eT).queues = Queues.initial sched.order := by
  rw [parseGraph_eq]
  simp only [Pool.queues,Queues.initial,cleanStatus,List.map_map]
  congr 1
  ext1 worker
  conv_rhs => rw [← order_eq_taskAt sched]
  apply List.map_congr_left
  exact fun i _ => plannedTask_id heapBasePtr g sched eT i worker

end Parsed

section Progress
variable {g : TaskGraph} {order : List Nat}

private theorem predecessors_sorted (topological : g.Topological order) (id : Nat) :
    ∀ wait ∈ g.predecessors id, order.idxOf wait < order.idxOf id := by
  intro wait member
  exact topological.linked ((g.mem_predecessors wait id).mp member)

private theorem blocked_waits {u v : Nat} (orders : g.Orders order) (linked : g.Linked u v)
    (backward : order.idxOf v ≤ order.idxOf u) {labels : List Subtask} {s : Queues}
    (ran : run (Queues.step g.predecessors) (Queues.initial order) labels = some s) :
    ((Worker.cpu,v) ∉ labels ∧ (Worker.dpu,v) ∉ labels) ∧
      v ∈ s.queue .cpu ∧ v ∈ s.queue .dpu := by
  have blocked := Queues.target_never_served ((g.mem_predecessors u v).mpr linked) backward ran
  have holds := Queues.run_served ran
  have member : v ∈ order := (orders.mem_iff v).mpr linked.bounds.2
  refine ⟨blocked,?_,?_⟩
  · apply (mem_waiting_iff orders.nodup (holds.fifo .cpu) member).mpr
    rw [mem_served]
    exact blocked.1
  · apply (mem_waiting_iff orders.nodup (holds.fifo .dpu) member).mpr
    rw [mem_served]
    exact blocked.2

/-- A topological order never gets stuck before its queues are empty, so its maximal
runs execute each subtask once. With an edge `u → v` whose target stands at or before
its source, no run executes `CPU(v)` or `DPU(v)`, and both stay queued. -/
theorem execWorkload_progress (heapBasePtr : Nat) (g : TaskGraph) (sched : Schedule)
    (eT : ExecType) (orders : g.Orders sched.order) :
    let pool := parseGraph heapBasePtr g sched eT
    let move := Queues.step pool.dependencies
    (g.Topological sched.order →
      (∀ s, Reachable move pool.queues s → (∃ worker, s.queue worker ≠ []) → ¬ Stuck move s) ∧
      ∀ labels s, run move pool.queues labels = some s → Stuck move s →
        labels.Perm (subtasks g.numVertices) ∧ labels.length = 4 * g.numVertices) ∧
    ∀ u v, g.Linked u v → sched.order.idxOf v ≤ sched.order.idxOf u →
      ∀ labels s, run move pool.queues labels = some s →
        ((Worker.cpu,v) ∉ labels ∧ (Worker.dpu,v) ∉ labels) ∧
          v ∈ s.queue .cpu ∧ v ∈ s.queue .dpu := by
  intro pool move
  have moves : move = Queues.step g.predecessors := by
    rw [← parsed_dependencies heapBasePtr eT orders]
  have start : pool.queues = Queues.initial sched.order := parsed_queues heapBasePtr g sched eT
  rw [moves,start]
  refine ⟨?_,?_⟩
  · intro topological
    have sorted := predecessors_sorted topological
    refine ⟨?_,?_⟩
    · intro s found busy stuck
      obtain ⟨labels,ran⟩ := found
      obtain ⟨subtask,next,stepped⟩ :=
        Queues.not_stuck orders.nodup sorted (Queues.run_served ran) busy
      rw [stuck subtask] at stepped
      contradiction
    · intro labels s ran stuck
      have all := Queues.maximal_serves_all orders.nodup sorted (Queues.run_served ran) stuck
      have perm : labels.Perm (subtasks g.numVertices) := by
        apply Queues.perm_subtasks
        intro worker
        rw [all worker]
        exact orders
      exact ⟨perm,by rw [perm.length_eq,length_subtasks]⟩
  · intro u v linked backward labels s ran
    exact blocked_waits orders linked backward ran

theorem execWorkload_progress_pair :
    let g : TaskGraph := ⟨[{},{}],[⟨0,1,1⟩],by decide⟩
    let forward := parseGraph 0 g ⟨true,[0,1],[0,0]⟩ .MIMIC
    let backward := parseGraph 0 g ⟨true,[1,0],[0,0]⟩ .MIMIC
    (∀ labels s, run (Queues.step forward.dependencies) forward.queues labels = some s →
      Stuck (Queues.step forward.dependencies) s → labels.length = 8) ∧
    ∀ labels s, run (Queues.step backward.dependencies) backward.queues labels = some s →
      (Worker.cpu,1) ∉ labels := by
  intro g forward backward
  have runs := execWorkload_progress 0 g ⟨true,[0,1],[0,0]⟩ .MIMIC (by decide)
  have hangs := execWorkload_progress 0 g ⟨true,[1,0],[0,0]⟩ .MIMIC (by decide)
  refine ⟨fun labels s ran stuck => ?_,fun labels s ran => ?_⟩
  · exact ((runs.1 (by decide)).2 labels s ran stuck).2
  · exact (hangs.2 0 1 (by decide) (by decide) labels s ran).1.1

end Progress
end MetaPB.Executor

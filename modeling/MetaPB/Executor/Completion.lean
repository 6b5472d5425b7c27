import MetaPB.Executor.Timeline
import Mathlib.Algebra.BigOperators.Group.Finset.Basic
import Mathlib.Algebra.Order.BigOperators.Group.Finset

/-! The threads of the pool never block each other for good: however far they came on a
topological order, they can go on until every thread has left `processTasks`. On any
other order no run ends. -/
namespace MetaPB.Executor
open Lib.Transition Operator

/-- Statements that a worker has left in its turn of the loop. -/
def Phase.left : Phase → Nat
  | idle => 0
  | waiting _ => 4
  | ready _ => 3
  | executing _ => 2
  | executed _ => 1

namespace Pool

def own (pool : Pool) (worker : Worker) : Nat := 5 * (pool.queue worker).length + (pool.phase worker).left

def work (pool : Pool) : Nat := ∑ worker, pool.own worker

/-- Whoever holds `dpuMutex_` is about to execute, and so to release it. -/
def Locked (pool : Pool) : Prop :=
  ∀ worker, pool.dpuMutex = some worker → ∃ task, pool.phase worker = .executing task ∧ task.isDPURelated = true

section Moves
variable {om : PerfModel} {pool next : Pool} {worker : Worker} {id : Nat} {action : Action}
  (moves : Moves om pool worker id action next)
include moves

/-- Every event but a refused check takes one statement off the work. -/
theorem Moves.own_step : next.own worker + 1 = pool.own worker ∨
    next.own worker = pool.own worker ∧ next.phase worker = pool.phase worker := by
  cases moves with
  | pop task rest phase queued =>
    left
    simp [own,enter,phase,queued,Phase.left]
    omega
  | refused task latest phase =>
    right
    simp [own,enter,phase]
  | cleared task latest phase => exact Or.inl (by simp [own,enter,phase,Phase.left])
  | start task phase => exact Or.inl (by simp [own,enter,phase,Phase.left])
  | execute task phase => exact Or.inl (by simp [own,enter,phase,Phase.left])
  | publish task phase => exact Or.inl (by simp [own,enter,phase,Phase.left])

theorem Moves.own_other {other : Worker} (apart : other ≠ worker) : next.own other = pool.own other := by
  rw [own,own,moves.phase_other apart,moves.queue_other apart]

theorem Moves.work_le : next.work ≤ pool.work := by
  apply Finset.sum_le_sum
  intro other _
  rcases eq_or_ne other worker with rfl | apart
  · rcases moves.own_step with less | same
    · omega
    · exact same.1.le
  · exact (moves.own_other apart).le

theorem Moves.work_lt (moved : next.phase worker ≠ pool.phase worker) : next.work < pool.work := by
  have less : next.own worker < pool.own worker := by
    rcases moves.own_step with less | same
    · omega
    · exact absurd same.2 moved
  apply Finset.sum_lt_sum _ ⟨worker,Finset.mem_univ worker,less⟩
  intro other _
  rcases eq_or_ne other worker with rfl | apart
  · exact less.le
  · exact (moves.own_other apart).le

theorem Moves.keeps_locked (locked : Locked pool) : Locked next := by
  intro holder held
  -- a worker that is not about to execute does not hold the mutex
  have apart (quiet : ∀ task, pool.phase worker = .executing task → task.isDPURelated = false)
      (held : pool.dpuMutex = some holder) : holder ≠ worker ∧
        ∃ task, pool.phase holder = .executing task ∧ task.isDPURelated = true := by
    obtain ⟨task,executing,related⟩ := locked holder held
    refine ⟨?_,task,executing,related⟩
    rintro rfl
    rw [quiet task executing] at related
    cases related
  have same (other : holder ≠ worker) : next.phase holder = pool.phase holder := moves.phase_other other
  cases moves with
  | pop task rest phase =>
    obtain ⟨other,found⟩ := apart (by simp [phase]) held
    rwa [same other]
  | refused task latest phase =>
    obtain ⟨other,found⟩ := apart (by simp [phase]) held
    rwa [same other]
  | cleared task latest phase =>
    obtain ⟨other,found⟩ := apart (by simp [phase]) held
    rwa [same other]
  | start task phase =>
    rcases Bool.eq_false_or_eq_true task.isDPURelated with related | alone
    · simp only [enter,related,if_true,Option.some.injEq] at held
      subst held
      exact ⟨task,by simp [enter],related⟩
    · simp only [enter,alone,Bool.false_eq_true,if_false] at held
      obtain ⟨other,found⟩ := apart (by simp [phase]) held
      rwa [same other]
  | execute task phase =>
    rcases Bool.eq_false_or_eq_true task.isDPURelated with related | alone
    · simp [enter,related] at held
    · simp only [enter,alone,Bool.false_eq_true,if_false] at held
      obtain ⟨other,found⟩ := apart (by
        intro running executing
        obtain rfl := Phase.executing.inj (phase.symm.trans executing)
        exact alone) held
      rwa [same other]
  | publish task phase =>
    obtain ⟨other,found⟩ := apart (by simp [phase]) held
    rwa [same other]

end Moves

/-- Some worker can take a statement unless all have left, or wait for tasks that no one is to serve. -/
theorem exists_progress (om : PerfModel) {pool : Pool} (locked : Locked pool) (busy : ¬ pool.Joined)
    (alive : (∃ worker, pool.queues.queue worker ≠ []) →
      ∃ subtask next, Queues.step pool.dependencies pool.queues subtask = some next) :
    ∃ event next, pool.step om event = some next ∧ next.work < pool.work := by
  have goes (worker : Worker) (action : Action) (id : Nat) {next : Pool}
      (stepped : pool.step om ⟨worker,action,id⟩ = some next) (moved : next.phase worker ≠ pool.phase worker) :
      ∃ event next, pool.step om event = some next ∧ next.work < pool.work :=
    ⟨_,next,stepped,(step_moves stepped).work_lt moved⟩
  rcases em (∃ worker task, pool.phase worker = .executed task) with found | published
  · obtain ⟨worker,task,phase⟩ := found
    exact goes worker .publish task.id (by simp [step,phase]; rfl) (by simp [enter,phase])
  rcases em (∃ worker task, pool.phase worker = .executing task) with found | executing
  · obtain ⟨worker,task,phase⟩ := found
    exact goes worker .execute task.id (by simp [step,phase]; rfl) (by simp [enter,phase])
  rcases em (∃ worker task, pool.phase worker = .ready task) with found | started
  · obtain ⟨worker,task,phase⟩ := found
    -- nobody executes, so nobody holds the mutex
    have free : pool.dpuMutex = none := by
      apply Option.eq_none_iff_forall_ne_some.mpr
      intro holder held
      obtain ⟨other,running,-⟩ := locked holder held
      exact executing ⟨holder,other,running⟩
    exact goes worker .start task.id (by simp [step,phase,free]; rfl) (by simp [enter,phase])
  rcases em (∃ worker, pool.phase worker = .idle ∧ pool.queue worker ≠ []) with found | popped
  · obtain ⟨worker,phase,filled⟩ := found
    obtain ⟨task,rest,queued⟩ := List.exists_cons_of_ne_nil filled
    exact goes worker .pop task.id (by simp [step,phase,queued]; rfl) (by simp [enter,phase])
  have waits (worker : Worker) : pool.phase worker = .idle ∧ pool.queue worker = [] ∨
      ∃ task, pool.phase worker = .waiting task := by
    cases phase : pool.phase worker with
    | idle => exact Or.inl ⟨rfl,not_not.mp fun filled => popped ⟨worker,phase,filled⟩⟩
    | waiting task => exact Or.inr ⟨task,rfl⟩
    | ready task => exact absurd ⟨worker,task,phase⟩ started
    | executing task => exact absurd ⟨worker,task,phase⟩ executing
    | executed task => exact absurd ⟨worker,task,phase⟩ published
  -- the front the queue model would serve next is waiting, and its check is met
  obtain ⟨subtask,served,stepped⟩ := alive (by
    by_contra drained
    push Not at drained
    apply busy
    intro worker
    rcases waits worker with done | ⟨task,phase⟩
    · exact done
    · have empty := drained worker
      simp [queues,phase] at empty)
  obtain ⟨worker,id⟩ := subtask
  obtain ⟨rest,front,met,-⟩ := Queues.step_cases stepped
  rcases waits worker with ⟨idle,drained⟩ | ⟨task,phase⟩
  · simp [queues,idle,drained] at front
  · simp only [queues,phase,List.cons.injEq] at front
    obtain ⟨rfl,-⟩ := front
    have passes : (allDependenciesMet (pool.completed worker.awaits) (pool.waitList worker task.id)
        (pool.lastWakerTimeMs worker task.id)).1 = true := by
      rw [allDependenciesMet_fst,waitList_eq]
      exact met
    exact goes worker .check task.id (by simp [step,phase,passes]; rfl) (by simp [enter,phase])

end Pool

section Runs
variable {om : PerfModel} {heapBasePtr : Nat} {g : TaskGraph} {sched : Schedule} {eT : ExecType}
  {events : List Event} {pool : Pool}

theorem run_locked (ran : run (Pool.step om) (parseGraph heapBasePtr g sched eT) events = some pool) :
    pool.Locked := by
  apply run_history (fun _ pool => pool.Locked) _ _ events pool ran
  · intro worker held
    simp [parseGraph_eq,cleanStatus] at held
  · intro events pool event next _ locked stepped
    exact (Pool.step_moves stepped).keeps_locked locked

theorem parsed_work (orders : g.Orders sched.order) :
    (parseGraph heapBasePtr g sched eT).work = 20 * g.numVertices := by
  have all : sched.order.length = g.numVertices := by simpa using orders.length_eq
  have own (worker : Worker) : (parseGraph heapBasePtr g sched eT).own worker = 5 * g.numVertices := by
    simp [Pool.own,parseGraph_eq,cleanStatus,Phase.left,all]
  have workers : Fintype.card Worker = 4 := rfl
  rw [Pool.work,Finset.sum_const_nat fun worker _ => own worker,Finset.card_univ,workers]
  omega

theorem run_work (orders : g.Orders sched.order)
    (ran : run (Pool.step om) (parseGraph heapBasePtr g sched eT) events = some pool) :
    pool.work ≤ 20 * g.numVertices := by
  apply run_history (fun _ pool => pool.work ≤ 20 * g.numVertices) (parsed_work orders).le _ events pool ran
  intro events pool event next _ before stepped
  exact (Pool.step_moves stepped).work_le.trans before

/-- Threads that came any distance can all leave within twenty statements for each task. -/
def ThreadsFinish (om : PerfModel) (heapBasePtr : Nat) (g : TaskGraph) (sched : Schedule) (eT : ExecType) : Prop :=
  ∀ events pool, run (Pool.step om) (parseGraph heapBasePtr g sched eT) events = some pool →
    ∃ more final, more.length ≤ 20 * g.numVertices ∧
      run (Pool.step om) (parseGraph heapBasePtr g sched eT) (events ++ more) = some final ∧ final.Joined

theorem finishes_of_topological (om : PerfModel) (heapBasePtr : Nat) (eT : ExecType)
    (orders : g.Orders sched.order) (topological : g.Topological sched.order) :
    ThreadsFinish om heapBasePtr g sched eT := by
  intro events pool ran
  have sorted (id : Nat) : ∀ wait ∈ g.predecessors id, sched.order.idxOf wait < sched.order.idxOf id :=
    fun wait member => topological.linked ((g.mem_predecessors wait id).mp member)
  have alive (pool : Pool) (reached : Reachable (Pool.step om) (parseGraph heapBasePtr g sched eT) pool)
      (busy : ¬ pool.Joined) : ∃ event next, pool.step om event = some next ∧ next.work < pool.work := by
    obtain ⟨events,ran⟩ := reached
    refine Pool.exists_progress om (run_locked ran) busy ?_
    rw [(run_sound ran).2,parsed_dependencies heapBasePtr eT orders]
    exact Queues.not_stuck orders.nodup sorted (Queues.run_served (run_refines orders ran))
  obtain ⟨more,final,short,rest,joined⟩ := exists_completion Pool.Joined Pool.work alive ⟨events,ran⟩
  exact ⟨more,final,short.trans (run_work orders ran),(run_append _ _ _ _ _).mpr ⟨pool,ran,rest⟩,joined⟩

theorem topological_of_joined (orders : g.Orders sched.order)
    (ran : run (Pool.step om) (parseGraph heapBasePtr g sched eT) events = some pool) (joined : pool.Joined) :
    g.Topological sched.order := by
  intro edge listed
  by_contra backward
  have linked : g.Linked edge.source edge.target := ⟨edge,listed,rfl,rfl⟩
  have refined := run_refines orders ran
  have blocked := Queues.target_never_served ((g.mem_predecessors _ _).mpr linked) (not_lt.mp backward) refined
  have fifo := (Queues.run_served refined).fifo .cpu
  obtain ⟨idle,drained⟩ := joined .cpu
  have empty : pool.queues.queue .cpu = [] := by simp [Pool.queues,idle,drained]
  rw [empty,List.append_nil] at fifo
  apply blocked.1
  rw [← mem_served,fifo]
  exact (orders.mem_iff _).mpr linked.bounds.2

/-- The threads finish from wherever they are on a topological order, and on no other do they
finish in any run. -/
theorem threads_finish_iff (om : PerfModel) (heapBasePtr : Nat) (eT : ExecType) (orders : g.Orders sched.order) :
    (ThreadsFinish om heapBasePtr g sched eT ↔ g.Topological sched.order) ∧
      ((∃ events pool, run (Pool.step om) (parseGraph heapBasePtr g sched eT) events = some pool ∧
        pool.Joined) ↔ g.Topological sched.order) := by
  have finishes := finishes_of_topological om heapBasePtr eT orders
  have once (ends : ThreadsFinish om heapBasePtr g sched eT) : ∃ events pool,
      run (Pool.step om) (parseGraph heapBasePtr g sched eT) events = some pool ∧ pool.Joined := by
    obtain ⟨more,final,-,ran,joined⟩ := ends [] _ rfl
    exact ⟨more,final,ran,joined⟩
  have sorted (found : ∃ events pool, run (Pool.step om) (parseGraph heapBasePtr g sched eT) events =
      some pool ∧ pool.Joined) : g.Topological sched.order := by
    obtain ⟨events,pool,ran,joined⟩ := found
    exact topological_of_joined orders ran joined
  exact ⟨⟨fun ends => sorted (once ends),finishes⟩,⟨sorted,fun topological => once (finishes topological)⟩⟩

theorem threads_finish_iff_chain : ThreadsFinish chainPerf 0 chain chainSchedule .DO :=
  (threads_finish_iff chainPerf 0 .DO (by decide)).1.mpr (by decide)

end Runs
end MetaPB.Executor

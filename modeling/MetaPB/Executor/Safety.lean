import MetaPB.Executor.Progress

/-! What one event of a worker changes, stated once; the pool of threads then refines
the queue model, keeps each queue's order at every point of `processTasks`, and never
has two holders of `dpuMutex_` executing. -/
namespace MetaPB.Executor
open Lib.Transition Lib.Sequence Operator

namespace Phase

def task : Phase → Option Task
  | idle => none
  | waiting task | ready task | executing task | executed task => some task

def cleared : Phase → Option Task
  | idle | waiting _ => none
  | ready task | executing task | executed task => some task

/-- The task a worker holds that is still to reach an action. -/
def before : Action → Phase → List Task
  | .start,waiting task | .start,ready task => [task]
  | .execute,waiting task | .execute,ready task | .execute,executing task => [task]
  | .publish,waiting task | .publish,ready task | .publish,executing task
  | .publish,executed task => [task]
  | _,_ => []

end Phase

def performed (action : Action) (worker : Worker) (events : List Event) : List Nat :=
  (events.filter fun event => event.worker = worker ∧ event.action = action).map (·.id)

def Event.published (event : Event) : Option Subtask :=
  if event.action = .publish then some (event.worker,event.id) else none

namespace Pool

inductive Moves (om : PerfModel) (pool : Pool) (worker : Worker) (id : Nat) : Action → Pool → Prop
  | pop (task rest) (phase : pool.phase worker = .idle) (queued : pool.queue worker = task::rest)
      (named : task.id = id) : Moves om pool worker id .pop
        ({ pool with queue := Function.update pool.queue worker rest }.enter worker (.waiting task))
  | refused (task latest) (phase : pool.phase worker = .waiting task) (named : task.id = id)
      (failed : allDependenciesMet (pool.completed worker.awaits) (pool.waitList worker id)
        (pool.lastWakerTimeMs worker id) = (false,latest)) : Moves om pool worker id .check
        ({ pool with lastWakerTimeMs := put pool.lastWakerTimeMs worker id latest }.enter worker
          (.waiting task))
  | cleared (task latest) (phase : pool.phase worker = .waiting task) (named : task.id = id)
      (met : allDependenciesMet (pool.completed worker.awaits) (pool.waitList worker id)
        (pool.lastWakerTimeMs worker id) = (true,latest)) : Moves om pool worker id .check
        ({ pool with lastWakerTimeMs := put pool.lastWakerTimeMs worker id latest }.enter worker
          (.ready task))
  | start (task) (phase : pool.phase worker = .ready task) (named : task.id = id)
      (free : task.isDPURelated = true → pool.dpuMutex = none) : Moves om pool worker id .start
        ({ pool with dpuMutex := if task.isDPURelated then some worker else pool.dpuMutex }.enter
          worker (.executing task))
  | execute (task) (phase : pool.phase worker = .executing task) (named : task.id = id) :
      Moves om pool worker id .execute
        ({ pool.runClosure om task with
          dpuMutex := if task.isDPURelated then none else pool.dpuMutex }.enter worker (.executed task))
  | publish (task) (phase : pool.phase worker = .executed task) (named : task.id = id) :
      Moves om pool worker id .publish
        ({ pool with
          completed := put pool.completed worker id
            { pool.completed worker id with isCompleted := true } }.enter worker .idle)

theorem step_moves {om : PerfModel} {pool next : Pool} {worker : Worker} {action : Action} {id : Nat}
    (stepped : pool.step om ⟨worker,action,id⟩ = some next) :
    Moves om pool worker id action next := by
  simp only [step] at stepped
  split at stepped
  next phase =>
    split at stepped
    next task rest queued =>
      split at stepped
      next named =>
        cases stepped
        exact .pop task rest phase queued named
      next => contradiction
    next => contradiction
  next task phase =>
    split at stepped
    next named =>
      cases stepped
      subst named
      rcases checked : allDependenciesMet (pool.completed worker.awaits)
        (pool.waitList worker task.id) (pool.lastWakerTimeMs worker task.id) with ⟨met,latest⟩
      cases met with
      | false => exact .refused task latest phase rfl checked
      | true => exact .cleared task latest phase rfl checked
    next => contradiction
  next task phase =>
    split at stepped
    next allowed =>
      cases stepped
      exact .start task phase allowed.1 allowed.2
    next => contradiction
  next task phase =>
    split at stepped
    next named =>
      cases stepped
      exact .execute task phase named
    next => contradiction
  next task phase =>
    split at stepped
    next named =>
      cases stepped
      subst named
      exact .publish task phase rfl
    next => contradiction
  next => contradiction

section Frame
variable (om : PerfModel) (pool : Pool) (task : Task) (worker : Worker) (phase : Phase) (id : Nat)

@[simp] theorem runClosure_queue : (pool.runClosure om task).queue = pool.queue := by
  unfold runClosure
  split <;> rfl

@[simp] theorem runClosure_phase : (pool.runClosure om task).phase = pool.phase := by
  unfold runClosure
  split <;> rfl

@[simp] theorem runClosure_dependencies :
    (pool.runClosure om task).dependencies = pool.dependencies := by
  unfold runClosure
  split <;> rfl

@[simp] theorem runClosure_lastWakerTimeMs :
    (pool.runClosure om task).lastWakerTimeMs = pool.lastWakerTimeMs := by
  unfold runClosure
  split <;> rfl

@[simp] theorem runClosure_totalTransferMb :
    (pool.runClosure om task).totalTransferMb = pool.totalTransferMb := by
  unfold runClosure
  split <;> rfl

theorem put_apply {β : Type} (table : Worker → Nat → β) (other : Worker) (other_id : Nat) (value : β) :
    put table worker id value other other_id =
      if other = worker ∧ other_id = id then value else table other other_id := by
  unfold put
  by_cases same : other = worker
  · subst same
    by_cases now : other_id = id <;> simp [now]
  · simp [same]

@[simp] theorem runClosure_isCompleted :
    ((pool.runClosure om task).completed worker id).isCompleted =
      (pool.completed worker id).isCompleted := by
  unfold runClosure
  split
  next active opTag cnt _ =>
    simp only [criticalZone,put_apply]
    split
    next same => rw [same.1,same.2]
    next => rfl
  next => rfl

@[simp] theorem enter_phase_self : (pool.enter worker phase).phase worker = phase := by
  simp [enter]

end Frame

theorem allDependenciesMet_fst (completed : Nat → CompleteSgn) (deps : List Nat) (latest : ℚ) :
    (allDependenciesMet completed deps latest).1 = true ↔
      ∀ dep ∈ deps, (completed dep).isCompleted = true := by
  induction deps generalizing latest with
  | nil => simp [allDependenciesMet]
  | cons dep deps ih =>
    cases done : (completed dep).isCompleted with
    | false => simp [allDependenciesMet,done]
    | true => simp [allDependenciesMet,done,ih]

theorem allDependenciesMet_snd_le {completed : Nat → CompleteSgn} {deps : List Nat} {latest bound : ℚ}
    (below : latest ≤ bound) (each : ∀ dep ∈ deps, (completed dep).completeTimeMs ≤ bound) :
    latest ≤ (allDependenciesMet completed deps latest).2 ∧
      (allDependenciesMet completed deps latest).2 ≤ bound := by
  induction deps generalizing latest with
  | nil => exact ⟨le_rfl,below⟩
  | cons dep deps ih =>
    rw [allDependenciesMet]
    split
    · exact ⟨le_rfl,below⟩
    · obtain ⟨grown,bounded⟩ := ih (max_le below (each dep (by simp)))
        (fun other member => each other (by simp [member]))
      exact ⟨(le_max_left _ _).trans grown,bounded⟩

theorem allDependenciesMet_snd_of_met {completed : Nat → CompleteSgn} {deps : List Nat} {latest : ℚ}
    (met : (allDependenciesMet completed deps latest).1 = true) :
    (allDependenciesMet completed deps latest).2 =
      deps.foldl (fun latest dep => max latest (completed dep).completeTimeMs) latest := by
  induction deps generalizing latest with
  | nil => rfl
  | cons dep deps ih =>
    rw [allDependenciesMet] at met ⊢
    split
    next unfinished => simp [unfinished] at met
    next done =>
      rw [if_neg done] at met
      exact ih met

theorem waitList_eq (pool : Pool) (worker : Worker) (id : Nat) :
    pool.waitList worker id = worker.waitsFor pool.dependencies id := by
  cases worker <;> rfl

structure Sound (pool : Pool) : Prop where
  settled : ∀ worker task, (pool.phase worker).cleared = some task →
    ∀ wait ∈ pool.waitList worker task.id, (pool.completed worker.awaits wait).isCompleted = true
  related : ∀ worker task, (pool.phase worker).task = some task ∨ task ∈ pool.queue worker →
    task.isDPURelated = decide (worker ≠ .cpu)
  locked : ∀ worker task, pool.phase worker = .executing task → worker ≠ .cpu →
    pool.dpuMutex = some worker

section Moves
variable {om : PerfModel} {pool next : Pool} {worker : Worker} {id : Nat} {action : Action}
  (moves : Moves om pool worker id action next)
include moves

theorem Moves.dependencies : next.dependencies = pool.dependencies := by
  cases moves <;> simp [enter]

theorem Moves.totalTransferMb : next.totalTransferMb = pool.totalTransferMb := by
  cases moves <;> simp [enter]

theorem Moves.phase_other {other : Worker} (apart : other ≠ worker) :
    next.phase other = pool.phase other := by
  cases moves <;> simp [enter,apart]

theorem Moves.queue_other {other : Worker} (apart : other ≠ worker) :
    next.queue other = pool.queue other := by
  cases moves <;> simp [enter,apart]

theorem Moves.isCompleted (other : Worker) (task : Nat) :
    (next.completed other task).isCompleted =
      if action = .publish ∧ other = worker ∧ task = id then true
      else (pool.completed other task).isCompleted := by
  cases moves with
  | publish =>
    simp only [enter,put_apply]
    split <;> simp_all
  | _ => simp [enter]

theorem Moves.isCompleted_mono {other : Worker} {task : Nat}
    (done : (pool.completed other task).isCompleted = true) :
    (next.completed other task).isCompleted = true := by
  rw [moves.isCompleted]
  split
  · rfl
  · exact done

/-- The dependencies of a cleared task stay completed, since nothing undoes completion. -/
private theorem Moves.settled (sound : Sound pool) (other : Worker) (task : Task)
    (held : (next.phase other).cleared = some task) :
    ∀ wait ∈ next.waitList other task.id, (next.completed other.awaits wait).isCompleted = true := by
  intro wait linked
  apply moves.isCompleted_mono
  rw [waitList_eq,moves.dependencies,← waitList_eq] at linked
  rcases eq_or_ne other worker with rfl | apart
  · cases moves with
    | pop => simp [Phase.cleared] at held
    | refused => simp [Phase.cleared] at held
    | cleared front latest phase named met =>
      cases named
      obtain rfl : front = task := by simpa [Phase.cleared] using held
      have passed := congrArg Prod.fst met
      exact (allDependenciesMet_fst _ _ _).mp passed wait linked
    | start front phase =>
      obtain rfl : front = task := by simpa [Phase.cleared] using held
      exact sound.settled other front (by simp [phase,Phase.cleared]) wait linked
    | execute front phase =>
      obtain rfl : front = task := by simpa [Phase.cleared] using held
      exact sound.settled other front (by simp [phase,Phase.cleared]) wait linked
    | publish => simp [Phase.cleared] at held
  · rw [moves.phase_other apart] at held
    exact sound.settled other task held wait linked

theorem Moves.held_before {other : Worker} {task : Task}
    (held : (next.phase other).task = some task ∨ task ∈ next.queue other) :
    (pool.phase other).task = some task ∨ task ∈ pool.queue other := by
  rcases eq_or_ne other worker with rfl | apart
  · cases moves with
    | pop front rest phase queued =>
      right
      rcases held with same | queuedStill
      · obtain rfl : front = task := by simpa [Phase.task] using same
        simp [queued]
      · have later : task ∈ rest := by simpa [enter] using queuedStill
        simp [queued,later]
    | publish front phase => simpa [Phase.task,enter] using Or.imp_left (by simp [Phase.task]) held
    | refused front latest phase => simpa [phase,Phase.task,enter] using held
    | cleared front latest phase => simpa [phase,Phase.task,enter] using held
    | start front phase => simpa [phase,Phase.task,enter] using held
    | execute front phase => simpa [phase,Phase.task,enter] using held
  · rwa [moves.phase_other apart,moves.queue_other apart] at held

private theorem Moves.locked (sound : Sound pool) (other : Worker) (task : Task)
    (running : next.phase other = .executing task) (shared : other ≠ .cpu) :
    next.dpuMutex = some other := by
  rcases eq_or_ne other worker with rfl | apart
  · cases moves with
    | start front phase =>
      have tagged := sound.related other front (by simp [phase,Phase.task])
      simp [enter,tagged,shared]
    | _ => simp at running
  · have kept := moves.phase_other apart
    rw [running] at kept
    have held := sound.locked other task kept.symm shared
    cases moves with
    | start front phase named free =>
      have unlocked : front.isDPURelated = false := by
        rcases related : front.isDPURelated with _ | _
        · rfl
        · rw [free related] at held
          contradiction
      simpa [enter,unlocked] using held
    | execute front phase =>
      -- the mutex has one holder, so a worker that releases it is not another one
      have unlocked : front.isDPURelated = false := by
        rcases related : front.isDPURelated with _ | _
        · rfl
        · have tagged := sound.related worker front (by simp [phase,Phase.task])
          have mine := sound.locked worker front phase (by simpa [related] using tagged)
          rw [held] at mine
          exact absurd (Option.some.inj mine) apart
      simpa [enter,unlocked] using held
    | _ => simpa [enter] using held

theorem Moves.sound (sound : Sound pool) : Sound next :=
  ⟨moves.settled sound,fun other task held => sound.related other task (moves.held_before held),
    moves.locked sound⟩

private theorem Moves.queues_completed :
    next.queues.completed = if action = .publish then put pool.queues.completed worker id true
      else pool.queues.completed := by
  ext1 other
  ext1 task
  have bits := moves.isCompleted other task
  split
  next published => simpa [queues,put_apply,published] using bits
  next quiet => simpa [queues,quiet] using bits

/-- Publishing is the one step of the queue model; any other event changes nothing there. -/
theorem Moves.refines (sound : Sound pool) :
    if action = .publish then
      Queues.step pool.dependencies pool.queues (worker,id) = some next.queues
    else next.queues = pool.queues := by
  have table := moves.queues_completed
  split
  next published =>
    cases moves with
    | publish task phase named =>
      subst named
      have queued : pool.queues.queue worker = task.id::(pool.queue worker).map (·.id) := by
        simp [queues,phase]
      have met := sound.settled worker task (by simp [phase,Phase.cleared])
      rw [waitList_eq] at met
      rw [Queues.step_of_ready queued met]
      congr 1
      simp only [if_true] at table
      ext1
      · ext1 other
        rcases eq_or_ne other worker with rfl | apart
        · simp [queues,enter]
        · simp [queues,enter,apart]
      · exact table.symm
    | _ => contradiction
  next quiet =>
    rw [if_neg quiet] at table
    ext1
    · ext1 other
      rcases eq_or_ne other worker with rfl | apart
      · cases moves with
        | pop task rest phase queued => simp [queues,enter,phase,queued]
        | publish => contradiction
        | refused task latest phase => simp [queues,enter,phase]
        | cleared task latest phase => simp [queues,enter,phase]
        | start task phase => simp [queues,enter,phase]
        | execute task phase => simp [queues,enter,phase]
      · simp only [queues,moves.phase_other apart,moves.queue_other apart]
    · exact table

end Moves

end Pool

theorem performed_snoc (action : Action) (worker : Worker) (events : List Event) (event : Event) :
    performed action worker (events ++ [event]) = performed action worker events ++
      if event.worker = worker ∧ event.action = action then [event.id] else [] := by
  simp only [performed,List.filter_append,List.map_append]
  congr 1
  by_cases same : event.worker = worker ∧ event.action = action <;> simp [same]

theorem mem_performed (action : Action) (worker : Worker) (events : List Event) (id : Nat) :
    id ∈ performed action worker events ↔ ⟨worker,action,id⟩ ∈ events := by
  simp only [performed,List.mem_map,List.mem_filter,decide_eq_true_eq]
  constructor
  · intro found
    obtain ⟨⟨_,_,_⟩,⟨member,rfl,rfl⟩,rfl⟩ := found
    exact member
  · exact fun member => ⟨_,⟨member,rfl,rfl⟩,rfl⟩

theorem count_performed (action : Action) (worker : Worker) (events : List Event) (id : Nat) :
    (performed action worker events).count id = events.count ⟨worker,action,id⟩ := by
  induction events with
  | nil => rfl
  | cons event rest ih =>
    obtain ⟨other,step,task⟩ := event
    rw [List.count_cons,← ih]
    by_cases same : other = worker ∧ step = action
    · simp [performed,same,List.count_cons]
    · have different : (⟨other,step,task⟩ : Event) ≠ ⟨worker,action,id⟩ := by
        intro equal
        cases equal
        exact same ⟨rfl,rfl⟩
      simp [performed,same,different]

section Run
variable {om : PerfModel} {heapBasePtr : Nat} {g : TaskGraph} {sched : Schedule} {eT : ExecType}

theorem run_sound {events : List Event} {pool : Pool}
    (ran : run (Pool.step om) (parseGraph heapBasePtr g sched eT) events = some pool) :
    pool.Sound ∧ pool.dependencies = (parseGraph heapBasePtr g sched eT).dependencies := by
  apply run_history (fun _ pool => pool.Sound ∧
    pool.dependencies = (parseGraph heapBasePtr g sched eT).dependencies) _ _ events pool ran
  · refine ⟨⟨?_,?_,?_⟩,rfl⟩
    · intro worker task held
      simp [parseGraph_eq,cleanStatus,Phase.cleared] at held
    · intro worker task held
      rw [parseGraph_eq] at held
      obtain ⟨i,-,rfl⟩ : ∃ i < sched.order.length, plannedTask heapBasePtr g sched eT i worker = task := by
        simpa [cleanStatus,Phase.task] using held
      exact plannedTask_isDPURelated heapBasePtr g sched eT i worker
    · intro worker task running
      simp [parseGraph_eq,cleanStatus] at running
  · rintro events pool ⟨worker,action,id⟩ next - ⟨sound,dependencies⟩ stepped
    have moves := Pool.step_moves stepped
    exact ⟨moves.sound sound,moves.dependencies.trans dependencies⟩

theorem run_totalTransferMb {events : List Event} {pool : Pool}
    (ran : run (Pool.step om) (parseGraph heapBasePtr g sched eT) events = some pool) :
    pool.totalTransferMb = (parseGraph heapBasePtr g sched eT).totalTransferMb := by
  apply run_history (fun _ pool => pool.totalTransferMb =
    (parseGraph heapBasePtr g sched eT).totalTransferMb) rfl _ events pool ran
  rintro events pool ⟨worker,action,id⟩ next - kept stepped
  exact (Pool.step_moves stepped).totalTransferMb.trans kept

/-- The threads refine the queue model: a run publishes what the queue model serves. -/
theorem run_refines (orders : g.Orders sched.order) {events : List Event} {pool : Pool}
    (ran : run (Pool.step om) (parseGraph heapBasePtr g sched eT) events = some pool) :
    run (Queues.step g.predecessors) (Queues.initial sched.order)
      (events.filterMap Event.published) = some pool.queues := by
  rw [← parsed_queues heapBasePtr g sched eT]
  apply run_simulates Pool.queues Event.published _ events pool ran
  intro events pool event next ran stepped
  obtain ⟨worker,action,id⟩ := event
  obtain ⟨sound,dependencies⟩ := run_sound ran
  have refined := (Pool.step_moves stepped).refines sound
  rw [dependencies,parsed_dependencies heapBasePtr eT orders] at refined
  cases action with
  | publish => exact refined
  | _ => exact refined

/-- At each point of the worker's loop the tasks past it and those still to come make
up the order. -/
theorem run_performed {events : List Event} {pool : Pool} {action : Action} (once : action ≠ .check)
    (worker : Worker)
    (ran : run (Pool.step om) (parseGraph heapBasePtr g sched eT) events = some pool) :
    performed action worker events ++
      ((pool.phase worker).before action ++ pool.queue worker).map (·.id) = sched.order := by
  apply run_history (fun events pool => performed action worker events ++
    ((pool.phase worker).before action ++ pool.queue worker).map (·.id) = sched.order) _ _
    events pool ran
  · have start := congrArg (fun s => s.queue worker) (parsed_queues heapBasePtr g sched eT)
    have idle : (parseGraph heapBasePtr g sched eT).phase worker = .idle := by
      rw [parseGraph_eq]
      rfl
    cases action <;> simpa [performed,idle,Phase.before,Pool.queues,Queues.initial] using start
  · rintro events pool ⟨other,step,id⟩ next - holds stepped
    have moves := Pool.step_moves stepped
    rw [performed_snoc,← holds,List.append_assoc]
    congr 1
    rcases eq_or_ne other worker with rfl | apart
    · cases moves <;> cases action <;> simp_all [Pool.enter,Phase.before]
    · simp [moves.phase_other apart.symm,moves.queue_other apart.symm,apart]

end Run

section Safety
variable {g : TaskGraph} {order : List Nat} {labels : List Subtask} {s : Queues}
  (orders : g.Orders order) (topological : g.Topological order)
  (holds : Queues.Served g.predecessors order labels s)
include orders topological holds

/-- A compute task past its check has every ancestor behind it: the checked transfers
cover all earlier transfers by queue order, each of those waited for the other compute
worker, and the worker's own queue is in order. -/
theorem ancestors_completed {worker transfer other : Worker} (checks : worker.awaits = transfer)
    (through : transfer.awaits = other)
    (compute : ∀ id, worker.waitsFor g.predecessors id = g.predecessors id)
    (single : ∀ id, transfer.waitsFor g.predecessors id = [id]) {v : Nat} {rest : List Nat}
    (queued : s.queue worker = v::rest)
    (met : ∀ wait ∈ worker.waitsFor g.predecessors v, s.completed worker.awaits wait = true)
    {u : Nat} (above : g.Ancestor u v) :
    s.completed worker u = true ∧ s.completed other u = true ∧ s.completed transfer u = true := by
  obtain ⟨p,toParent,linked⟩ := Relation.TransGen.tail'_iff.mp above
  have near : order.idxOf u ≤ order.idxOf p := by
    rcases Relation.reflTransGen_iff_eq_or_transGen.mp toParent with rfl | strict
    · exact le_rfl
    · exact (topological.ancestor strict).le
  have parent : p ∈ worker.waitsFor g.predecessors v := by
    rw [compute]
    exact (g.mem_predecessors p v).mpr linked
  have transferred : u ∈ served transfer labels := by
    have parentDone := met p parent
    rw [checks,holds.completed] at parentDone
    exact holds.mem_of_earlier near parentDone
  have computed := holds.waited transfer u transferred u (by simp [single])
  have split := holds.fifo worker
  rw [queued] at split
  rw [through] at computed
  simp only [holds.completed]
  refine ⟨?_,computed,transferred⟩
  apply (mem_served_head orders.nodup split u).mpr
  exact topological.ancestor above

end Safety

private theorem start_ready {om : PerfModel} {heapBasePtr : Nat} {g : TaskGraph} {sched : Schedule}
    {eT : ExecType} (orders : g.Orders sched.order) {events : List Event} {pool next : Pool}
    {worker : Worker} {id : Nat}
    (ran : run (Pool.step om) (parseGraph heapBasePtr g sched eT) events = some pool)
    (started : pool.step om ⟨worker,.start,id⟩ = some next) :
    (∃ rest, pool.queues.queue worker = id::rest) ∧
      ∀ wait ∈ worker.waitsFor g.predecessors id, pool.queues.completed worker.awaits wait = true := by
  obtain ⟨sound,dependencies⟩ := run_sound ran
  cases Pool.step_moves started with
  | start task phase named =>
    subst named
    refine ⟨⟨(pool.queue worker).map (·.id),by simp [Pool.queues,phase]⟩,?_⟩
    have met := sound.settled worker task (by simp [phase,Phase.cleared])
    rw [Pool.waitList_eq,dependencies,parsed_dependencies heapBasePtr eT orders] at met
    exact met

theorem performed_nodup (orders : g.Orders sched.order) {events : List Event} {pool : Pool}
    {action : Action} (once : action ≠ .check) (worker : Worker)
    (ran : run (Pool.step om) (parseGraph heapBasePtr g sched eT) events = some pool) :
    (performed action worker events).Nodup := by
  have split := run_performed once worker ran
  exact (split ▸ orders.nodup).of_append_left

/-- Any run of a topological order, at any point: subtasks execute at most once, compute
tasks start after all their ancestors, transfers after their own compute task, and the
DPU, MAP and REDUCE workers execute one at a time. -/
theorem execWorkload_dependency_safety (om : PerfModel) (heapBasePtr : Nat) (g : TaskGraph)
    (sched : Schedule) (eT : ExecType) (orders : g.Orders sched.order)
    (topological : g.Topological sched.order) (events : List Event) (pool : Pool)
    (ran : run (Pool.step om) (parseGraph heapBasePtr g sched eT) events = some pool) :
    (∀ worker id, events.count ⟨worker,.start,id⟩ ≤ 1 ∧ events.count ⟨worker,.execute,id⟩ ≤ 1 ∧
      (⟨worker,.start,id⟩ ∈ events → id < g.numVertices)) ∧
    (∀ v next, pool.step om ⟨.cpu,.start,v⟩ = some next → ∀ u, g.Ancestor u v →
      (pool.completed .cpu u).isCompleted = true ∧ (pool.completed .dpu u).isCompleted = true ∧
        (pool.completed .reduce u).isCompleted = true) ∧
    (∀ v next, pool.step om ⟨.dpu,.start,v⟩ = some next → ∀ u, g.Ancestor u v →
      (pool.completed .cpu u).isCompleted = true ∧ (pool.completed .dpu u).isCompleted = true ∧
        (pool.completed .map u).isCompleted = true) ∧
    (∀ v next, pool.step om ⟨.map,.start,v⟩ = some next → (pool.completed .cpu v).isCompleted = true) ∧
    (∀ v next, pool.step om ⟨.reduce,.start,v⟩ = some next →
      (pool.completed .dpu v).isCompleted = true) ∧
    ∀ first second a b, first ≠ .cpu → second ≠ .cpu → pool.phase first = .executing a →
      pool.phase second = .executing b → first = second := by
  have holds := Queues.run_served (run_refines orders ran)
  refine ⟨?_,?_,?_,?_,?_,?_⟩
  · intro worker id
    refine ⟨?_,?_,?_⟩
    · rw [← count_performed]
      exact List.nodup_iff_count_le_one.mp (performed_nodup orders (by decide) worker ran) id
    · rw [← count_performed]
      exact List.nodup_iff_count_le_one.mp (performed_nodup orders (by decide) worker ran) id
    · intro started
      apply (orders.mem_iff id).mp
      rw [← run_performed (by decide : Action.start ≠ .check) worker ran]
      exact List.mem_append_left _ ((mem_performed _ _ _ _).mpr started)
  · intro v next started u above
    obtain ⟨⟨rest,queued⟩,met⟩ := start_ready orders ran started
    exact ancestors_completed orders topological holds rfl rfl (fun _ => rfl) (fun _ => rfl)
      queued met above
  · intro v next started u above
    obtain ⟨⟨rest,queued⟩,met⟩ := start_ready orders ran started
    obtain ⟨own,other,transfer⟩ := ancestors_completed orders topological holds rfl rfl
      (fun _ => rfl) (fun _ => rfl) queued met above
    exact ⟨other,own,transfer⟩
  · intro v next started
    exact (start_ready orders ran started).2 v (by simp [Worker.waitsFor])
  · intro v next started
    exact (start_ready orders ran started).2 v (by simp [Worker.waitsFor])
  · intro first second a b firstShared secondShared firstRuns secondRuns
    obtain ⟨sound,-⟩ := run_sound ran
    have one := sound.locked first a firstRuns firstShared
    have two := sound.locked second b secondRuns secondShared
    rw [one] at two
    exact Option.some.inj two

theorem execWorkload_dependency_safety_pair :
    let g : TaskGraph := ⟨[{},{}],[⟨0,1,1⟩],by decide⟩
    let om : PerfModel := ⟨fun _ _ => {},fun _ _ => {}⟩
    let events := [(.dpu,0),(.reduce,0),(.cpu,0)].flatMap Pool.cycle ++ [⟨.cpu,.pop,1⟩,⟨.cpu,.check,1⟩]
    ∃ pool next, run (Pool.step om) (parseGraph 0 g ⟨true,[0,1],[0,0]⟩ .MIMIC) events = some pool ∧
      pool.step om ⟨.cpu,.start,1⟩ = some next ∧ (pool.completed .reduce 0).isCompleted = true := by
  intro g om events
  obtain ⟨next,whole⟩ := Option.isSome_iff_exists.mp (by decide +kernel :
    (run (Pool.step om) (parseGraph 0 g ⟨true,[0,1],[0,0]⟩ .MIMIC)
      (events ++ [⟨.cpu,.start,1⟩])).isSome = true)
  obtain ⟨pool,ran,started⟩ := (run_snoc _ _ _ _ _).mp whole
  have safe := execWorkload_dependency_safety om 0 g ⟨true,[0,1],[0,0]⟩ .MIMIC (by decide) (by decide)
    events pool ran
  exact ⟨pool,next,ran,started,(safe.2.1 1 next started 0 (.single (by decide))).2.2⟩

end MetaPB.Executor

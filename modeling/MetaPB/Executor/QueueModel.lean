import MetaPB.Executor.HeteroComputePool
import MetaPB.Lib.Sequence
import Mathlib.Data.Fintype.Lattice
import Mathlib.Data.List.Count

/-! The abstract pool: four FIFO queues of ids and four completion tables. A front
may run when its dependency check holds, and running it is one step, so a run is
the list of subtasks in the order they complete. A topological order cannot get
stuck; an edge against the order blocks its target for ever. -/
namespace MetaPB.Executor
open Lib.Transition Lib.Sequence

abbrev Subtask := Worker × Nat

@[ext] structure Queues where
  queue : Worker → List Nat
  completed : Worker → Nat → Bool

def Worker.waitsFor (dependencies : Nat → List Nat) : Worker → Nat → List Nat
  | .cpu, id => dependencies id
  | .dpu, id => dependencies id
  | .map, id => [id]
  | .reduce, id => [id]

def Pool.queues (pool : Pool) : Queues where
  queue worker :=
    match pool.phase worker with
    | .idle => (pool.queue worker).map (·.id)
    | .waiting task | .ready task | .executing task | .executed task =>
      task.id::(pool.queue worker).map (·.id)
  completed worker id := (pool.completed worker id).isCompleted

def subtasks (n : Nat) : List Subtask :=
  [Worker.cpu,.dpu,.map,.reduce].flatMap fun worker => (List.range n).map (worker,·)

def served (worker : Worker) (labels : List Subtask) : List Nat :=
  (labels.filter (·.1 = worker)).map (·.2)

namespace Queues

def initial (order : List Nat) : Queues := ⟨fun _ => order,fun _ _ => false⟩

def dependencyCheck (dependencies : Nat → List Nat) (s : Queues) (worker : Worker) (id : Nat) : Bool :=
  (worker.waitsFor dependencies id).all (s.completed worker.awaits)

def step (dependencies : Nat → List Nat) (s : Queues) (subtask : Subtask) : Option Queues :=
  match s.queue subtask.1 with
  | [] => none
  | id::rest =>
    if id = subtask.2 ∧ s.dependencyCheck dependencies subtask.1 id then
      some ⟨Function.update s.queue subtask.1 rest,Pool.put s.completed subtask.1 id true⟩
    else none

theorem step_cases {dependencies : Nat → List Nat} {s t : Queues} {worker : Worker} {id : Nat}
    (stepped : step dependencies s (worker,id) = some t) :
    ∃ rest, s.queue worker = id::rest ∧
      (∀ wait ∈ worker.waitsFor dependencies id, s.completed worker.awaits wait = true) ∧
      t = ⟨Function.update s.queue worker rest,Pool.put s.completed worker id true⟩ := by
  simp only [step] at stepped
  split at stepped
  next => contradiction
  next front rest queued =>
    split at stepped
    next runs =>
      obtain ⟨rfl,checked⟩ := runs
      exact ⟨rest,queued,by simpa [dependencyCheck] using checked,(Option.some.inj stepped).symm⟩
    next => contradiction

theorem step_of_ready {dependencies : Nat → List Nat} {s : Queues} {worker : Worker} {id : Nat}
    {rest : List Nat} (queued : s.queue worker = id::rest)
    (met : ∀ wait ∈ worker.waitsFor dependencies id, s.completed worker.awaits wait = true) :
    step dependencies s (worker,id) =
      some ⟨Function.update s.queue worker rest,Pool.put s.completed worker id true⟩ := by
  have checked : s.dependencyCheck dependencies worker id = true := by
    simpa [dependencyCheck] using met
  simp [step,queued,checked]

end Queues

theorem served_snoc (worker : Worker) (labels : List Subtask) (label : Subtask) :
    served worker (labels ++ [label]) =
      if label.1 = worker then served worker labels ++ [label.2] else served worker labels := by
  unfold served
  split <;> simp [*]

theorem mem_served (worker : Worker) (labels : List Subtask) (id : Nat) :
    id ∈ served worker labels ↔ (worker,id) ∈ labels := by
  simp [served]

theorem count_served (worker : Worker) (labels : List Subtask) (id : Nat) :
    (served worker labels).count id = labels.count (worker,id) := by
  induction labels with
  | nil => rfl
  | cons label rest ih =>
    obtain ⟨other,task⟩ := label
    rw [List.count_cons,← ih]
    by_cases same : other = worker
    · simp [served,same,List.count_cons]
    · simp [served,same]

theorem served_subtasks (worker : Worker) (n : Nat) : served worker (subtasks n) = List.range n := by
  cases worker <;> simp [served,subtasks,List.filter_map,Function.comp_def]

theorem length_subtasks (n : Nat) : (subtasks n).length = 4 * n := by
  simp [subtasks]
  omega

namespace Queues
variable {dependencies : Nat → List Nat} {order : List Nat}

/-- What holds after every run: the queues are served front to back, completion is
being served, and nothing is served before what it waits for. -/
structure Served (dependencies : Nat → List Nat) (order : List Nat) (labels : List Subtask)
    (s : Queues) : Prop where
  fifo : ∀ worker, served worker labels ++ s.queue worker = order
  completed : ∀ worker id, s.completed worker id = true ↔ id ∈ served worker labels
  waited : ∀ worker id, id ∈ served worker labels →
    ∀ wait ∈ worker.waitsFor dependencies id, wait ∈ served worker.awaits labels

theorem Served.next {labels : List Subtask} {s t : Queues} {label : Subtask}
    (holds : Served dependencies order labels s) (stepped : step dependencies s label = some t) :
    Served dependencies order (labels ++ [label]) t := by
  obtain ⟨worker,id⟩ := label
  obtain ⟨rest,queued,met,rfl⟩ := step_cases stepped
  refine ⟨?_,?_,?_⟩
  · intro other
    have before := holds.fifo other
    by_cases same : worker = other
    · subst same
      rw [queued] at before
      simpa [served_snoc] using before
    · simpa [served_snoc,same,Ne.symm same] using before
  · intro other task
    by_cases same : worker = other
    · subst same
      by_cases now : task = id
      · simp [Pool.put,served_snoc,now]
      · simpa [Pool.put,served_snoc,now] using holds.completed worker task
    · simpa [Pool.put,served_snoc,same,Ne.symm same] using holds.completed other task
  · intro other task inside wait linked
    have kept : ∀ w x, x ∈ served w labels → x ∈ served w (labels ++ [(worker,id)]) := by
      intro w x member
      rw [mem_served] at member ⊢
      exact List.mem_append_left _ member
    rw [mem_served,List.mem_append,← mem_served] at inside
    rcases inside with earlier | now
    · exact kept _ _ (holds.waited other task earlier wait linked)
    · obtain ⟨rfl,rfl⟩ : other = worker ∧ task = id := by simpa using now
      exact kept _ _ ((holds.completed _ _).mp (met wait linked))

theorem run_served {labels : List Subtask} {s : Queues}
    (ran : run (step dependencies) (initial order) labels = some s) :
    Served dependencies order labels s := by
  apply run_history (Served dependencies order) _ _ labels s ran
  · exact ⟨by simp [served,initial],by simp [served,initial],by simp [served]⟩
  · exact fun _ _ _ _ _ holds stepped => holds.next stepped

theorem Served.mem_of_earlier {labels : List Subtask} {s : Queues}
    (holds : Served dependencies order labels s) {worker : Worker} {earlier later : Nat}
    (before : order.idxOf earlier ≤ order.idxOf later) (inside : later ∈ served worker labels) :
    earlier ∈ served worker labels := by
  have split := holds.fifo worker
  rw [mem_served_iff split] at inside ⊢
  omega

theorem served_length_lt {labels : List Subtask} {s : Queues}
    (holds : Served dependencies order labels s) {worker : Worker} (busy : s.queue worker ≠ []) :
    (served worker labels).length < order.length := by
  have split := congrArg List.length (holds.fifo worker)
  rw [List.length_append] at split
  have positive := List.length_pos_of_ne_nil busy
  omega

theorem exists_front {labels : List Subtask} {s : Queues}
    (holds : Served dependencies order labels s) {worker : Worker}
    (short : (served worker labels).length < order.length) :
    ∃ id rest, s.queue worker = id::rest := by
  have split := congrArg List.length (holds.fifo worker)
  cases queued : s.queue worker with
  | nil =>
    rw [List.length_append,queued,List.length_nil] at split
    omega
  | cons id rest => exact ⟨id,rest,rfl⟩

section Progress
variable {labels : List Subtask} {s : Queues} (nodup : order.Nodup)
  (sorted : ∀ id, ∀ wait ∈ dependencies id, order.idxOf wait < order.idxOf id)
  (holds : Served dependencies order labels s)
include nodup holds

private theorem mem_of_ahead {worker other : Worker} {id wait : Nat} {rest : List Nat}
    (queued : s.queue worker = id::rest) (before : order.idxOf wait < order.idxOf id)
    (ahead : (served worker labels).length ≤ (served other labels).length) :
    s.completed other wait = true := by
  have split := holds.fifo worker
  rw [queued] at split
  have position := idxOf_split nodup split
  rw [holds.completed,mem_served_iff (holds.fifo other)]
  omega

include sorted

private theorem compute_front_ready {worker : Worker} (compute : worker = .cpu ∨ worker = .dpu)
    (short : (served worker labels).length < order.length)
    (ahead : (served worker labels).length ≤ (served worker.awaits labels).length) :
    ∃ subtask next, step dependencies s subtask = some next := by
  obtain ⟨id,rest,queued⟩ := exists_front holds short
  refine ⟨(worker,id),_,step_of_ready queued ?_⟩
  intro wait linked
  have before : order.idxOf wait < order.idxOf id := by
    apply sorted
    rcases compute with rfl | rfl <;> exact linked
  exact mem_of_ahead nodup holds queued before ahead

private theorem transfer_front_ready {worker : Worker} (transfer : worker = .map ∨ worker = .reduce)
    (short : (served worker labels).length < order.length)
    (least : ∀ other, (served worker labels).length ≤ (served other labels).length) :
    ∃ subtask next, step dependencies s subtask = some next := by
  obtain ⟨id,rest,queued⟩ := exists_front holds short
  by_cases level : (served worker labels).length = (served worker.awaits labels).length
  · -- the compute worker it waits for is as far behind and can move itself
    have compute : worker.awaits = .cpu ∨ worker.awaits = .dpu := by
      rcases transfer with rfl | rfl
      · exact Or.inl rfl
      · exact Or.inr rfl
    exact compute_front_ready nodup sorted holds compute (level ▸ short) (level ▸ least _)
  · refine ⟨(worker,id),_,step_of_ready queued ?_⟩
    intro wait linked
    have same : wait = id := by
      rcases transfer with rfl | rfl <;> simpa [Worker.waitsFor] using linked
    subst same
    have split := holds.fifo worker
    rw [queued] at split
    have position := idxOf_split nodup split
    have behind := least worker.awaits
    rw [holds.completed,mem_served_iff (holds.fifo _)]
    omega

theorem not_stuck (busy : ∃ worker, s.queue worker ≠ []) :
    ∃ subtask next, step dependencies s subtask = some next := by
  obtain ⟨worker,waiting⟩ := busy
  have short := served_length_lt holds waiting
  -- serve the worker that is furthest behind
  have inhabited : Nonempty Worker := ⟨.cpu⟩
  obtain ⟨least,minimal⟩ := Finite.exists_min fun w => (served w labels).length
  have leastShort := lt_of_le_of_lt (minimal worker) short
  cases least with
  | cpu => exact compute_front_ready nodup sorted holds (Or.inl rfl) leastShort (minimal _)
  | dpu => exact compute_front_ready nodup sorted holds (Or.inr rfl) leastShort (minimal _)
  | map => exact transfer_front_ready nodup sorted holds (Or.inl rfl) leastShort minimal
  | reduce => exact transfer_front_ready nodup sorted holds (Or.inr rfl) leastShort minimal

theorem maximal_serves_all (stuck : Stuck (step dependencies) s) (worker : Worker) :
    served worker labels = order := by
  have drained : s.queue worker = [] := by
    by_contra busy
    obtain ⟨subtask,next,stepped⟩ := not_stuck nodup sorted holds ⟨worker,busy⟩
    rw [stuck subtask] at stepped
    contradiction
  simpa [drained] using holds.fifo worker

end Progress

theorem perm_subtasks {labels : List Subtask} {n : Nat}
    (all : ∀ worker, (served worker labels).Perm (List.range n)) : labels.Perm (subtasks n) := by
  apply List.perm_iff_count.mpr
  intro subtask
  obtain ⟨worker,id⟩ := subtask
  rw [← count_served,← count_served,served_subtasks]
  exact (all worker).count_eq id

/-- An edge whose target stands at or before its source in the order: the target's
CPU and DPU subtasks wait for each other through all four queues. -/
theorem target_never_served {u v : Nat} (linked : u ∈ dependencies v)
    (backward : order.idxOf v ≤ order.idxOf u) {labels : List Subtask} {s : Queues}
    (ran : run (step dependencies) (initial order) labels = some s) :
    (Worker.cpu,v) ∉ labels ∧ (Worker.dpu,v) ∉ labels := by
  apply run_history (fun labels _ => (Worker.cpu,v) ∉ labels ∧ (Worker.dpu,v) ∉ labels) (by simp) _
    labels s ran
  intro labels s label t ran blocked stepped
  have holds := run_served ran
  obtain ⟨worker,id⟩ := label
  obtain ⟨rest,queued,met,-⟩ := step_cases stepped
  -- whoever serves `v` has seen `u` pass the other compute worker, and so `v` too
  have passes (compute transfer : Worker) (through : transfer.waitsFor dependencies u = [u])
      (via : transfer.awaits = compute) (done : s.completed transfer u = true) :
      (compute,v) ∈ labels := by
    have transferred := (holds.completed transfer u).mp done
    have computed := holds.waited transfer u transferred u (by simp [through])
    rw [via] at computed
    exact (mem_served _ _ _).mp (holds.mem_of_earlier backward computed)
  have atCpu : (worker,id) ≠ (Worker.cpu,v) := by
    intro same
    obtain ⟨rfl,rfl⟩ := Prod.mk.inj same
    exact blocked.2 (passes .dpu .reduce rfl rfl (met u linked))
  have atDpu : (worker,id) ≠ (Worker.dpu,v) := by
    intro same
    obtain ⟨rfl,rfl⟩ := Prod.mk.inj same
    exact blocked.1 (passes .cpu .map rfl rfl (met u linked))
  simp only [List.mem_append,List.mem_singleton,not_or]
  exact ⟨⟨blocked.1,atCpu.symm⟩,blocked.2,atDpu.symm⟩

end Queues
end MetaPB.Executor

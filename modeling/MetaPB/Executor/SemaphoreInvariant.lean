import MetaPB.Executor.SemaphoreExecutor

/-! Permits and clocks of the semaphore executor. A task's permits are those it still needs
less the edges nobody released yet, its wake time is the latest end among the predecessors
that updated it, and no step breaks either, whichever task takes it. -/
namespace MetaPB.Executor.Sema
open Lib.Best

namespace Graph

def predecessors (g : Graph) (node : Nat) : List Nat := (g.edges.filter (·.2 = node)).map (·.1)

theorem mem_successors {g : Graph} {u v : Nat} : v ∈ g.successors u ↔ g.Linked u v := by
  simp [successors,Linked]

theorem mem_predecessors {g : Graph} {u v : Nat} : u ∈ g.predecessors v ↔ g.Linked u v := by
  simp [predecessors,Linked]

/-- The end of a task when all its predecessors end as early as they can. -/
def critical (g : Graph) (node : Nat) : Nat :=
  g.duration node + ((g.predecessors node).map fun pred =>
    if pred < node then critical g pred else 0).foldl max 0
termination_by node

def base (g : Graph) (node : Nat) : Nat := ((g.predecessors node).map g.critical).foldl max 0

theorem critical_eq {g : Graph} (forward : g.Forward) (node : Nat) :
    g.critical node = g.duration node + g.base node := by
  rw [critical,base]
  congr 2
  apply List.map_congr_left
  intro pred member
  rw [if_pos (forward _ (mem_predecessors.mp member))]

theorem critical_le_base {g : Graph} {u v : Nat} (linked : g.Linked u v) : g.critical u ≤ g.base v :=
  (foldl_le_max _ 0).2 _ (List.mem_map_of_mem (mem_predecessors.mpr linked))

theorem base_le {g : Graph} {v bound : Nat} (above : ∀ u, g.Linked u v → g.critical u ≤ bound) :
    g.base v ≤ bound := by
  rcases foldl_max_attained ((g.predecessors v).map g.critical) 0 with start | attained
  · rw [base,start]
    exact Nat.zero_le _
  · obtain ⟨u,member,same⟩ := List.mem_map.mp attained
    rw [base,← same]
    exact above u (mem_predecessors.mp member)

end Graph

inductive Status
  | unfetched
  | active (phase : Phase)
  | completed

section Views
variable (g : Graph)

/-- The targets a task has not released yet. -/
def remaining (u : Nat) : Status → List Nat
  | .active (.updating _ rest) => rest
  | .active (.releasing _ target rest) => target::rest
  | .completed => []
  | _ => g.successors u

/-- The targets whose wake time it has not updated yet. -/
def toUpdate (u : Nat) : Status → List Nat
  | .active (.updating _ rest) => rest
  | .active (.releasing _ _ rest) => rest
  | .completed => []
  | _ => g.successors u

/-- The permits a task has yet to acquire. -/
def needed (v : Nat) : Status → Nat
  | .unfetched => g.inDegree v
  | .active (.acquiring left) => left
  | _ => 0

def HasStarted : Status → Prop
  | .unfetched => False
  | .active (.acquiring _) => False
  | _ => True

/-- What a task knows of its own end and of the global timer. -/
def Timed (end_ timer : Nat) : Status → Prop
  | .active (.loading finish) => finish = end_
  | .active (.timing finish current) => finish = end_ ∧ current ≤ timer
  | .active (.updating finish _) => finish = end_ ∧ end_ ≤ timer
  | .active (.releasing finish _ _) => finish = end_ ∧ end_ ≤ timer
  | .completed => end_ ≤ timer
  | _ => True

/-- The edges into a vertex that nobody has released yet. -/
def pending (status : Nat → Status) (v : Nat) : Nat :=
  ∑ u ∈ Finset.range g.numVertices, (remaining g u (status u)).count v

/-- What holds of one task, whatever the others do. -/
structure Held (shared : Shared) (u : Nat) (status : Status) : Prop where
  part : remaining g u status ⊆ g.successors u
  timed : Timed (g.critical u) shared.globalTimer status
  woken : ∀ v ∈ g.successors u, v ∉ toUpdate g u status → g.critical u ≤ shared.lastWakerTime v

structure Consistent (status : Nat → Status) (shared : Shared) (started : List Nat) : Prop where
  permits : ∀ v < g.numVertices, shared.semaphores v + pending g status v = needed g v (status v)
  few : ∀ v, needed g v (status v) ≤ g.inDegree v
  held : ∀ u, Held g shared u (status u)
  waker : ∀ v, shared.lastWakerTime v ≤ g.base v
  timer : shared.globalTimer = 0 ∨ ∃ u < g.numVertices, shared.globalTimer = g.critical u
  nodup : started.Nodup
  log : ∀ v < g.numVertices, v ∈ started ↔ HasStarted (status v)
  logged : ∀ v ∈ started, v < g.numVertices

end Views

section Steps
variable {g : Graph} {status : Nat → Status} {shared : Shared} {started : List Nat} {node : Nat}

/-- Clocks only go forward, and what a task knows stays true. -/
theorem Held.mono {later : Shared} {u : Nat} {own : Status} (held : Held g shared u own)
    (timer : shared.globalTimer ≤ later.globalTimer)
    (waker : ∀ v, shared.lastWakerTime v ≤ later.lastWakerTime v) : Held g later u own := by
  refine ⟨held.part,?_,fun v linked done => (held.woken v linked done).trans (waker v)⟩
  have timed := held.timed
  match own with
  | .unfetched => trivial
  | .active (.acquiring _) => trivial
  | .active (.loading _) => exact timed
  | .active (.timing _ _) => exact ⟨timed.1,timed.2.trans timer⟩
  | .active (.updating _ _) => exact ⟨timed.1,timed.2.trans timer⟩
  | .active (.releasing _ _ _) => exact ⟨timed.1,timed.2.trans timer⟩
  | .completed => exact Nat.le_trans timed timer

theorem held_update {next : Status} {later : Shared} (own : Held g later node next)
    (others : ∀ u, u ≠ node → Held g later u (status u)) (u : Nat) :
    Held g later u (Function.update status node next u) := by
  rcases eq_or_ne u node with rfl | apart
  · rwa [Function.update_self]
  · rw [Function.update_of_ne apart]
    exact others u apart

theorem pending_update (inside : node < g.numVertices) (status : Nat → Status) (next : Status) (v : Nat) :
    pending g (Function.update status node next) v + (remaining g node (status node)).count v =
      pending g status v + (remaining g node next).count v := by
  have member : node ∈ Finset.range g.numVertices := Finset.mem_range.mpr inside
  unfold pending
  rw [← Finset.add_sum_erase _ _ member,← Finset.add_sum_erase _ _ member]
  have others : ∑ u ∈ (Finset.range g.numVertices).erase node,
      (remaining g u (Function.update status node next u)).count v =
      ∑ u ∈ (Finset.range g.numVertices).erase node, (remaining g u (status u)).count v := by
    apply Finset.sum_congr rfl
    intro u listed
    rw [Function.update_of_ne (Finset.ne_of_mem_erase listed)]
  rw [others,Function.update_self]
  omega

/-- Nobody is left to release an edge into a task that needs no more permits. -/
theorem Consistent.released (consistent : Consistent g status shared started) (inside : node < g.numVertices)
    (ready : needed g node (status node) = 0) {u : Nat} (linked : g.Linked u node) :
    node ∉ remaining g u (status u) := by
  have permits := consistent.permits node inside
  rw [ready] at permits
  have released : pending g status node = 0 := by omega
  have bound : u < g.numVertices := (g.inside _ linked).1
  have zero := (Finset.sum_eq_zero_iff.mp released) u (Finset.mem_range.mpr bound)
  exact List.count_eq_zero.mp zero

theorem toUpdate_subset (u : Nat) (own : Status) : toUpdate g u own ⊆ remaining g u own := by
  match own with
  | .unfetched => exact List.Subset.refl _
  | .active (.acquiring _) => exact List.Subset.refl _
  | .active (.loading _) => exact List.Subset.refl _
  | .active (.timing _ _) => exact List.Subset.refl _
  | .active (.updating _ _) => exact List.Subset.refl _
  | .active (.releasing _ _ _) => exact List.subset_cons_self _ _
  | .completed => exact List.Subset.refl _

/-- With all permits in hand, the wake time is the latest end of a predecessor. -/
theorem Consistent.woken (consistent : Consistent g status shared started) (inside : node < g.numVertices)
    (ready : needed g node (status node) = 0) : shared.lastWakerTime node = g.base node := by
  apply Nat.le_antisymm (consistent.waker node)
  apply Graph.base_le
  intro u linked
  apply (consistent.held u).woken node (Graph.mem_successors.mpr linked)
  intro member
  exact consistent.released inside ready linked (toUpdate_subset u _ member)

/-- What a step has to show: clocks that only go forward, the balance of permits, and its own
task's part. -/
theorem Consistent.update {next : Status} {later : Shared} {log : List Nat}
    (consistent : Consistent g status shared started) (inside : node < g.numVertices)
    (clock : shared.globalTimer ≤ later.globalTimer)
    (wakers : ∀ v, shared.lastWakerTime v ≤ later.lastWakerTime v)
    (own : Held g later node next)
    (balance : ∀ v, later.semaphores v + (remaining g node next).count v + needed g v (status v) =
      shared.semaphores v + (remaining g node (status node)).count v +
        needed g v (Function.update status node next v))
    (fewer : needed g node next ≤ needed g node (status node))
    (waker : ∀ v, later.lastWakerTime v ≤ g.base v)
    (timer : later.globalTimer = shared.globalTimer ∨ later.globalTimer = g.critical node)
    (logs : log = started ∧ (HasStarted next ↔ HasStarted (status node)) ∨
      log = started ++ [node] ∧ HasStarted next ∧ ¬ HasStarted (status node)) :
    Consistent g (Function.update status node next) later log := by
  have entries (v : Nat) (bound : v < g.numVertices) :
      v ∈ log ↔ HasStarted (Function.update status node next v) := by
    rcases eq_or_ne v node with rfl | apart
    · rw [Function.update_self]
      rcases logs with ⟨rfl,same⟩ | ⟨rfl,started,-⟩
      · rw [consistent.log v bound,same]
      · simp [started]
    · rw [Function.update_of_ne apart,← consistent.log v bound]
      rcases logs with ⟨rfl,-⟩ | ⟨rfl,-,-⟩
      · exact Iff.rfl
      · simp [apart]
  refine ⟨?_,?_,held_update own fun u _ => (consistent.held u).mono clock wakers,waker,?_,?_,entries,?_⟩
  · intro v bound
    have before := consistent.permits v bound
    have change := pending_update inside status next v
    have equation := balance v
    omega
  · intro v
    rcases eq_or_ne v node with rfl | apart
    · rw [Function.update_self]
      exact fewer.trans (consistent.few v)
    · rw [Function.update_of_ne apart]
      exact consistent.few v
  · rcases timer with same | reached
    · rw [same]
      exact consistent.timer
    · exact Or.inr ⟨node,inside,reached⟩
  · rcases logs with ⟨rfl,-⟩ | ⟨rfl,-,fresh⟩
    · exact consistent.nodup
    · refine List.nodup_append.mpr ⟨consistent.nodup,List.nodup_singleton node,?_⟩
      intro v listed w member
      rw [List.mem_singleton.mp member]
      rintro rfl
      exact fresh ((consistent.log v inside).mp listed)
  · rcases logs with ⟨rfl,-⟩ | ⟨rfl,-,-⟩
    · exact consistent.logged
    · intro v member
      rcases List.mem_append.mp member with old | new
      · exact consistent.logged v old
      · rw [List.mem_singleton.mp new]
        exact inside

def statusOf : Option Phase → Status
  | some phase => .active phase
  | none => .completed

section Execute
variable {later : Shared} {next : Option Phase} {spurious : Bool}

/-- A step that keeps the targets, the permits and the semaphores of its task. -/
theorem Consistent.quiet {phase : Phase} {log : List Nat}
    (consistent : Consistent g status shared started) (own : Status) (inside : node < g.numVertices)
    (active : status node = .active phase) (clock : shared.globalTimer ≤ later.globalTimer)
    (wakers : ∀ v, shared.lastWakerTime v ≤ later.lastWakerTime v) (kept : Held g later node own)
    (same : later.semaphores = shared.semaphores) (targets : remaining g node own = remaining g node (.active phase))
    (permits : needed g node own = needed g node (.active phase))
    (waker : ∀ v, later.lastWakerTime v ≤ g.base v)
    (timer : later.globalTimer = shared.globalTimer ∨ later.globalTimer = g.critical node)
    (logs : log = started ∧ (HasStarted own ↔ HasStarted (.active phase)) ∨
      log = started ++ [node] ∧ HasStarted own ∧ ¬ HasStarted (.active phase)) :
    Consistent g (Function.update status node own) later log := by
  rw [← active] at targets permits logs
  apply consistent.update inside clock wakers kept _ permits.le waker timer logs
  intro v
  rw [same,targets]
  rcases eq_or_ne v node with rfl | apart
  · rw [Function.update_self,permits]
  · rw [Function.update_of_ne apart]

/-- What an access finds and does, by the phase it is in. -/
inductive Access (g : Graph) (node : Nat) (spurious : Bool) (shared : Shared) :
    Phase → Option Phase → Shared → Prop
  | start (fits : shared.lastWakerTime node + g.duration node < 2^63) :
      Access g node spurious shared (.acquiring 0)
      (some (.loading (shared.lastWakerTime node + g.duration node))) shared
  | acquire (left) (available : 0 < shared.semaphores node) (counted : g.inDegree node - left < 2^31) :
      Access g node spurious shared (.acquiring (left + 1)) (some (.acquiring left)) { shared with
        semaphores := Function.update shared.semaphores node (shared.semaphores node - 1) }
  | load (finish) : Access g node spurious shared (.loading finish)
      (some (.timing finish shared.globalTimer)) shared
  | retry (finish current) (later : current < finish) (failed : spurious ∨ shared.globalTimer ≠ current) :
      Access g node spurious shared (.timing finish current)
        (some (.timing finish shared.globalTimer)) shared
  | exchange (finish current) (later : current < finish) (seen : shared.globalTimer = current) :
      Access g node spurious shared (.timing finish current)
        (some (.updating finish (g.successors node))) { shared with globalTimer := finish }
  | keep (finish current) (earlier : finish ≤ current) :
      Access g node spurious shared (.timing finish current)
        (some (.updating finish (g.successors node))) shared
  | update (finish target rest) : Access g node spurious shared (.updating finish (target::rest))
      (some (.releasing finish target rest)) { shared with
        lastWakerTime := Function.update shared.lastWakerTime target
          (Nat.max (shared.lastWakerTime target) finish) }
  | done (finish) : Access g node spurious shared (.updating finish []) none shared
  | release (finish target rest) :
      Access g node spurious shared (.releasing finish target rest)
        (some (.updating finish rest)) { shared with
          semaphores := Function.update shared.semaphores target (shared.semaphores target + 1) }

theorem executeTask_access {phase : Phase}
    (ran : executeTask g node spurious shared phase = some (next,later)) :
    Access g node spurious shared phase next later := by
  match phase with
  | .acquiring 0 =>
    simp only [executeTask] at ran
    split at ran
    next fits =>
      cases Option.some.inj ran
      exact .start fits
    next => cases ran
  | .acquiring (left + 1) =>
    simp only [executeTask] at ran
    split at ran
    next available =>
      cases Option.some.inj ran
      exact .acquire left available.1 available.2
    next => cases ran
  | .loading finish =>
    cases Option.some.inj ran
    exact .load finish
  | .timing finish current =>
    simp only [executeTask] at ran
    split at ran
    next later =>
      split at ran
      next failed =>
        cases Option.some.inj ran
        exact .retry finish current later failed
      next exchanged =>
        cases Option.some.inj ran
        exact .exchange finish current later (not_not.mp (not_or.mp exchanged).2)
    next earlier =>
      cases Option.some.inj ran
      exact .keep finish current (not_lt.mp earlier)
  | .updating finish (target::rest) =>
    cases Option.some.inj ran
    exact .update finish target rest
  | .updating finish [] =>
    cases Option.some.inj ran
    exact .done finish
  | .releasing finish target rest =>
    cases Option.some.inj ran
    exact .release finish target rest

theorem Consistent.execute {phase : Phase} (consistent : Consistent g status shared started)
    (forward : g.Forward) (inside : node < g.numVertices) (active : status node = .active phase)
    (ran : executeTask g node spurious shared phase = some (next,later)) :
    Consistent g (Function.update status node (statusOf next)) later (Sema.logged started node phase) := by
  have held := consistent.held node
  rw [active] at held
  cases executeTask_access ran with
  | start fits =>
    have ready : needed g node (status node) = 0 := by rw [active]; rfl
    have finish : shared.lastWakerTime node + g.duration node = g.critical node := by
      rw [consistent.woken inside ready,Graph.critical_eq forward,Nat.add_comm]
    exact consistent.quiet (.active (.loading _)) inside active le_rfl (fun _ => le_rfl)
      ⟨held.part,finish,held.woken⟩ rfl rfl rfl consistent.waker (Or.inl rfl) (Or.inr ⟨rfl,trivial,id⟩)
  | acquire left available counted =>
    refine consistent.update inside le_rfl (fun _ => le_rfl) ⟨held.part,trivial,held.woken⟩ ?_
      (by rw [active]; exact Nat.le_succ left) consistent.waker (Or.inl rfl)
      (Or.inl ⟨rfl,by rw [active]; exact Iff.rfl⟩)
    intro v
    rw [active]
    rcases eq_or_ne v node with rfl | apart
    · simp only [Function.update_self,active,needed,remaining,statusOf]
      omega
    · simp only [Function.update_of_ne apart,remaining,statusOf]
  | load finish =>
    exact consistent.quiet (.active (.timing _ _)) inside active le_rfl (fun _ => le_rfl)
      ⟨held.part,⟨held.timed,le_rfl⟩,held.woken⟩ rfl rfl rfl consistent.waker (Or.inl rfl)
      (Or.inl ⟨rfl,Iff.rfl⟩)
  | retry finish current later failed =>
    exact consistent.quiet (.active (.timing _ _)) inside active le_rfl (fun _ => le_rfl)
      ⟨held.part,⟨held.timed.1,le_rfl⟩,held.woken⟩ rfl rfl rfl consistent.waker (Or.inl rfl)
      (Or.inl ⟨rfl,Iff.rfl⟩)
  | exchange finish current later seen =>
    obtain ⟨same,past⟩ := held.timed
    exact consistent.quiet (.active (.updating _ _)) inside active (seen.trans_le later.le) (fun _ => le_rfl)
      ⟨List.Subset.refl _,⟨same,same.ge⟩,held.woken⟩ rfl rfl rfl consistent.waker (Or.inr same)
      (Or.inl ⟨rfl,Iff.rfl⟩)
  | keep finish current earlier =>
    obtain ⟨same,past⟩ := held.timed
    exact consistent.quiet (.active (.updating _ _)) inside active le_rfl (fun _ => le_rfl)
      ⟨List.Subset.refl _,⟨same,same.symm.trans_le (earlier.trans past)⟩,held.woken⟩ rfl rfl rfl
      consistent.waker (Or.inl rfl) (Or.inl ⟨rfl,Iff.rfl⟩)
  | update finish target rest =>
    obtain ⟨same,reached⟩ := held.timed
    have linked : g.Linked node target := Graph.mem_successors.mp (held.part List.mem_cons_self)
    have ahead (v : Nat) : shared.lastWakerTime v ≤
        Function.update shared.lastWakerTime target (Nat.max (shared.lastWakerTime target) finish) v := by
      rcases eq_or_ne v target with rfl | apart
      · rw [Function.update_self]
        exact Nat.le_max_left _ _
      · rw [Function.update_of_ne apart]
    refine consistent.quiet (.active (.releasing _ _ _)) inside active le_rfl ahead ⟨held.part,held.timed,?_⟩
      rfl rfl rfl ?_ (Or.inl rfl) (Or.inl ⟨rfl,Iff.rfl⟩)
    · intro v member done
      rcases eq_or_ne v target with rfl | apart
      · simp only [Function.update_self]
        exact same.symm.trans_le (Nat.le_max_right _ _)
      · simp only [Function.update_of_ne apart]
        exact held.woken v member fun listed => done ((List.mem_cons.mp listed).resolve_left apart)
    · intro v
      rcases eq_or_ne v target with rfl | apart
      · simp only [Function.update_self]
        exact Nat.max_le.mpr ⟨consistent.waker v,same.trans_le (Graph.critical_le_base linked)⟩
      · simp only [Function.update_of_ne apart]
        exact consistent.waker v
  | done finish =>
    exact consistent.quiet .completed inside active le_rfl (fun _ => le_rfl)
      ⟨held.part,held.timed.2,held.woken⟩ rfl rfl rfl consistent.waker (Or.inl rfl) (Or.inl ⟨rfl,Iff.rfl⟩)
  | release finish target rest =>
    refine consistent.update inside le_rfl (fun _ => le_rfl)
      ⟨fun v member => held.part (List.mem_cons_of_mem target member),held.timed,held.woken⟩ ?_
      (Nat.zero_le _) consistent.waker (Or.inl rfl) (Or.inl ⟨rfl,by rw [active]; exact Iff.rfl⟩)
    intro v
    have idle : needed g v (Function.update status node (statusOf (some (.updating finish rest))) v) =
        needed g v (status v) := by
      rcases eq_or_ne v node with rfl | apart
      · rw [Function.update_self,active]
        rfl
      · rw [Function.update_of_ne apart]
    rw [idle,active]
    rcases eq_or_ne v target with rfl | apart
    · simp only [Function.update_self,remaining,statusOf,List.count_cons_self]
      omega
    · simp only [Function.update_of_ne apart,remaining,statusOf,List.count_cons_of_ne apart.symm]

end Execute
end Steps

/-- The tasks as the workers have them: fetched in order, each in the hands of one worker at most. -/
structure Tracks (g : Graph) (workers : Nat) (s : State) (status : Nat → Status) : Prop where
  fetched : ∀ v, status v = .unfetched ↔ g.numVertices ≤ v ∨ s.index ≤ v
  owned : ∀ w node phase, s.workers w = .executing node phase → status node = .active phase
  owner : ∀ v phase, status v = .active phase → ∃ w, s.workers w = .executing v phase
  unique : ∀ w other node phase next, s.workers w = .executing node phase →
    s.workers other = .executing node next → w = other
  joined : ∀ w, s.workers w = .joined → workers ≤ w ∨ g.numVertices ≤ s.index
  outside : ∀ w, workers ≤ w → s.workers w = .joined

/-- Some assignment of statuses accounts for workers, permits and clocks. -/
def Sound (g : Graph) (workers : Nat) (s : State) : Prop :=
  ∃ status, Tracks g workers s status ∧ Consistent g status s.shared s.started

section Runs
variable {g : Graph} {workers : Nat} {s t : State} {status : Nat → Status}

theorem Tracks.inside (tracks : Tracks g workers s status) {w node : Nat} {phase : Phase}
    (held : s.workers w = .executing node phase) : node < g.numVertices ∧ node < s.index := by
  have active := tracks.owned w node phase held
  have apart : ¬ (g.numVertices ≤ node ∨ s.index ≤ node) := by
    rw [← tracks.fetched,active]
    exact Status.noConfusion
  omega

theorem inDegree_eq_sum (g : Graph) (v : Nat) :
    ∑ u ∈ Finset.range g.numVertices, (g.successors u).count v = g.inDegree v := by
  have general : ∀ edges : List (Nat × Nat), (∀ edge ∈ edges, edge.1 < g.numVertices) →
      ∑ u ∈ Finset.range g.numVertices, ((edges.filter (·.1 = u)).map (·.2)).count v =
        (edges.filter (·.2 = v)).length := by
    intro edges
    induction edges with
    | nil => simp
    | cons edge rest ih =>
      intro bounds
      have first := bounds edge List.mem_cons_self
      have later := ih fun other member => bounds other (List.mem_cons_of_mem edge member)
      have split (u : Nat) : (((edge::rest).filter (·.1 = u)).map (·.2)).count v =
          (if u = edge.1 then (if edge.2 = v then 1 else 0) else 0) +
            ((rest.filter (·.1 = u)).map (·.2)).count v := by
        by_cases source : edge.1 = u
        · by_cases target : edge.2 = v
          · simp [source,target,Nat.add_comm]
          · simp [source,target]
        · simp [source,Ne.symm source]
      simp only [split,Finset.sum_add_distrib,later,Finset.sum_ite_eq',Finset.mem_range,first,if_true]
      by_cases target : edge.2 = v
      · simp [target,Nat.add_comm]
      · simp [target]
  exact general g.edges fun edge member => (g.inside edge member).1

theorem initial_sound (g : Graph) (workers : Nat) : Sound g workers (initial workers) := by
  refine ⟨fun _ => .unfetched,?_,?_⟩
  · refine ⟨fun v => iff_of_true rfl (Or.inr (Nat.zero_le v)),?_,?_,?_,?_,?_⟩
    · intro w node phase held
      simp only [initial] at held
      split at held <;> cases held
    · intro v phase active
      cases active
    · intro w other node phase next held
      simp only [initial] at held
      split at held <;> cases held
    · intro w joined
      simp only [initial] at joined
      split at joined
      next => cases joined
      next outside => exact Or.inl (not_lt.mp outside)
    · intro w outside
      exact if_neg (not_lt.mpr outside)
  · refine ⟨?_,fun _ => le_rfl,?_,fun _ => Nat.zero_le _,Or.inl rfl,List.nodup_nil,?_,by simp [initial]⟩
    · intro v _
      have sum := inDegree_eq_sum g v
      simpa [initial,pending,remaining,needed] using sum
    · intro u
      exact ⟨List.Subset.refl _,trivial,fun v member absent => absurd member absent⟩
    · intro v _
      exact iff_of_false List.not_mem_nil id

theorem Tracks.leave (tracks : Tracks g workers s status) {w : Nat} (fetching : s.workers w = .fetching)
    (last : g.numVertices ≤ s.index) :
    Tracks g workers { s with index := s.index + 1, workers := Function.update s.workers w .joined } status := by
  have kept (other node : Nat) (phase : Phase)
      (held : Function.update s.workers w .joined other = .executing node phase) :
      s.workers other = .executing node phase := by
    rcases eq_or_ne other w with rfl | apart
    · rw [Function.update_self] at held
      cases held
    · rwa [Function.update_of_ne apart] at held
  refine ⟨?_,fun other node phase held => tracks.owned other node phase (kept other node phase held),?_,?_,
    fun _ _ => Or.inr (Nat.le_succ_of_le last),?_⟩
  · intro v
    rw [tracks.fetched]
    simp only
    omega
  · intro v phase active
    obtain ⟨other,held⟩ := tracks.owner v phase active
    have apart : other ≠ w := by
      rintro rfl
      rw [fetching] at held
      cases held
    exact ⟨other,by simpa [Function.update_of_ne apart] using held⟩
  · intro one other node phase next first second
    exact tracks.unique one other node phase next (kept _ _ _ first) (kept _ _ _ second)
  · intro other outside
    rcases eq_or_ne other w with rfl | apart
    · exact Function.update_self ..
    · simpa [Function.update_of_ne apart] using tracks.outside other outside

/-- A worker that has a task of its own, fetched or held before, goes on with a new phase of it or
gives it up. -/
theorem Tracks.move {index : Nat} {shared : Shared} {started : List Nat} {own : Status} {now : Worker}
    {w node : Nat} (tracks : Tracks g workers s status)
    (mine : s.workers w = .fetching ∧ s.index = node ∨ ∃ phase, s.workers w = .executing node phase)
    (inside : node < g.numVertices) (fetched : own ≠ .unfetched)
    (counted : ∀ v, v ≠ node → (s.index ≤ v ↔ index ≤ v)) (after : node < index)
    (ahead : s.index ≤ index)
    (kind : (∃ phase, now = .executing node phase ∧ own = .active phase) ∨ now = .fetching ∧ own = .completed) :
    Tracks g workers ⟨index,shared,Function.update s.workers w now,started⟩
      (Function.update status node own) := by
  have alone (other : Nat) (phase : Phase) (held : s.workers other = .executing node phase) : other = w := by
    rcases mine with ⟨-,last⟩ | ⟨before,own⟩
    · have bound := (tracks.inside held).2
      omega
    · exact tracks.unique other w node phase before held own
  have others (v : Nat) (phase : Phase) (apart : v ≠ node) (held : s.workers w = .executing v phase) : False := by
    rcases mine with ⟨fetching,-⟩ | ⟨before,own⟩
    · rw [fetching] at held
      cases held
    · rw [own] at held
      cases held
      exact apart rfl
  have read (other v : Nat) (phase : Phase)
      (held : Function.update s.workers w now other = .executing v phase) :
      other = w ∧ v = node ∧ own = .active phase ∨ other ≠ w ∧ v ≠ node ∧ s.workers other = .executing v phase := by
    rcases eq_or_ne other w with rfl | apart
    · rw [Function.update_self] at held
      rcases kind with ⟨next,rfl,same⟩ | ⟨rfl,-⟩
      · cases held
        exact Or.inl ⟨rfl,rfl,same⟩
      · cases held
    · rw [Function.update_of_ne apart] at held
      refine Or.inr ⟨apart,?_,held⟩
      rintro rfl
      exact apart (alone other phase held)
  refine ⟨?_,?_,?_,?_,?_,?_⟩
  · intro v
    rcases eq_or_ne v node with rfl | apart
    · rw [Function.update_self]
      simp only [fetched,false_iff]
      omega
    · rw [Function.update_of_ne apart,tracks.fetched,counted v apart]
  · intro other v phase held
    rcases read other v phase held with ⟨-,rfl,same⟩ | ⟨-,apart,before⟩
    · rw [Function.update_self,same]
    · rw [Function.update_of_ne apart]
      exact tracks.owned other v phase before
  · intro v phase active
    rcases eq_or_ne v node with rfl | apart
    · rw [Function.update_self] at active
      rcases kind with ⟨next,rfl,same⟩ | ⟨-,same⟩
      · rw [same] at active
        cases active
        exact ⟨w,Function.update_self ..⟩
      · rw [same] at active
        cases active
    · rw [Function.update_of_ne apart] at active
      obtain ⟨other,held⟩ := tracks.owner v phase active
      have different : other ≠ w := by
        rintro rfl
        exact others v phase apart held
      exact ⟨other,by simpa [Function.update_of_ne different] using held⟩
  · intro one other v phase next first second
    rcases read one v phase first with ⟨rfl,rfl,-⟩ | ⟨-,apart,before⟩
    · rcases read other _ next second with ⟨rfl,-,-⟩ | ⟨-,different,-⟩
      · rfl
      · exact absurd rfl different
    · rcases read other v next second with ⟨-,same,-⟩ | ⟨-,-,held⟩
      · exact absurd same apart
      · exact tracks.unique one other v phase next before held
  · intro other joined
    have before : s.workers other = .joined := by
      rcases eq_or_ne other w with rfl | apart
      · simp only [Function.update_self] at joined
        rcases kind with ⟨_,rfl,-⟩ | ⟨rfl,-⟩ <;> cases joined
      · simpa [Function.update_of_ne apart] using joined
    exact (tracks.joined other before).imp_right fun last => last.trans ahead
  · intro other outside
    have before := tracks.outside other outside
    have apart : other ≠ w := by
      rintro rfl
      rcases mine with ⟨fetching,-⟩ | ⟨phase,executing⟩
      · rw [fetching] at before
        cases before
      · rw [executing] at before
        cases before
    simpa [Function.update_of_ne apart] using before

theorem Sound.step (forward : g.Forward) (sound : Sound g workers s) {action : Action}
    (stepped : step g s action = some t) : Sound g workers t := by
  obtain ⟨status,tracks,consistent⟩ := sound
  simp only [Sema.step] at stepped
  split at stepped
  next fetching =>
    cases Option.some.inj stepped
    rcases Nat.lt_or_ge s.index g.numVertices with more | last
    · rw [if_pos more]
      have fresh : status s.index = .unfetched := (tracks.fetched s.index).mpr (Or.inr le_rfl)
      refine ⟨_,tracks.move (Or.inl ⟨fetching,rfl⟩) more Status.noConfusion ?_ (Nat.lt_succ_self _)
        (Nat.le_succ _) (Or.inl ⟨_,rfl,rfl⟩),?_⟩
      · intro v apart
        omega
      · have held := consistent.held s.index
        rw [fresh] at held
        refine consistent.update more le_rfl (fun _ => le_rfl) ⟨held.part,trivial,held.woken⟩ ?_
          (by rw [fresh]; exact le_rfl) consistent.waker (Or.inl rfl) (Or.inl ⟨rfl,by rw [fresh]; exact Iff.rfl⟩)
        intro v
        rw [fresh]
        rcases eq_or_ne v s.index with rfl | apart
        · rw [Function.update_self,fresh]
          rfl
        · rw [Function.update_of_ne apart]
          rfl
    · rw [if_neg (not_lt.mpr last)]
      exact ⟨status,tracks.leave fetching last,consistent⟩
  next node phase executing =>
    obtain ⟨⟨next,later⟩,ran,same⟩ := Option.map_eq_some_iff.mp stepped
    cases same
    obtain ⟨inside,counted⟩ := tracks.inside executing
    have active := tracks.owned _ node phase executing
    refine ⟨_,tracks.move (Or.inr ⟨phase,executing⟩) inside ?_ (fun _ _ => Iff.rfl) counted le_rfl ?_,
      consistent.execute forward inside active ran⟩
    · cases next <;> exact Status.noConfusion
    · cases next with
      | some phase => exact Or.inl ⟨phase,rfl,rfl⟩
      | none => exact Or.inr ⟨rfl,rfl⟩
  next => cases stepped

end Runs
end MetaPB.Executor.Sema

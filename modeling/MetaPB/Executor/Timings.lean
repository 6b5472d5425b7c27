import MetaPB.Executor.Timeline
import MetaPB.Lib.Occupancy
import Mathlib.Data.List.Pairwise

/-! The timings of a run. Every worker reads the clock before and after it executes a task and
records both with the task's completion. The records are spans of one CPU and of what `dpuMutex_`
guards, so they exclude each other there and follow the waits, in either mode. -/
namespace MetaPB.Executor
open Lib Lib.Transition Lib.Occupancy Operator Utils

/-- Two readings of the clock, in nanoseconds. -/
structure TaskTiming where
  start : ℤ
  stop : ℤ
  deriving DecidableEq

/-- An event, with the clock as its worker could read it then. -/
structure Moment where
  event : Event
  now : ℤ

/-- The pool, the two readings each thread holds, and the timings by worker. The map's order of
keys does not matter to any reader, so a worker's timings are kept as they come. -/
structure Watched where
  pool : Pool
  start : Worker → ℤ := fun _ => 0
  stop : Worker → ℤ := fun _ => 0
  timings : Worker → List (Nat × TaskTiming) := fun _ => []

namespace Watched

def held (watched : Watched) (worker : Worker) : TaskTiming := ⟨watched.start worker,watched.stop worker⟩

/-- The start is read with the mutex just taken, the end before it is released. -/
def record (watched : Watched) (moment : Moment) (pool : Pool) : Watched :=
  let worker := moment.event.worker
  match moment.event.action with
  | .start => { watched with pool := pool, start := Function.update watched.start worker moment.now }
  | .execute => { watched with pool := pool, stop := Function.update watched.stop worker moment.now }
  | .publish =>
    { watched with
      pool := pool
      timings := Function.update watched.timings worker
        (watched.timings worker ++ [(moment.event.id,watched.held worker)]) }
  | _ => { watched with pool := pool }

def step (om : PerfModel) (watched : Watched) (moment : Moment) : Option Watched :=
  (watched.pool.step om moment.event).map (watched.record moment)

/-- A timing that is read but not recorded yet. -/
def pending (watched : Watched) (worker : Worker) : List (Nat × TaskTiming) :=
  match watched.pool.phase worker with
  | .executed task => [(task.id,watched.held worker)]
  | _ => []

@[simp] theorem record_pool (watched : Watched) (moment : Moment) (pool : Pool) :
    (watched.record moment pool).pool = pool := by
  unfold record
  split <;> rfl

end Watched

/-- The last start of every worker, and the spans of all tasks in the order they end. -/
structure Ledger where
  starts : Worker → ℤ := fun _ => 0
  spans : List (Span Subtask ℤ) := []

def follow (ledger : Ledger) (moment : Moment) : Ledger :=
  let worker := moment.event.worker
  match moment.event.action with
  | .start => { ledger with starts := Function.update ledger.starts worker moment.now }
  | .execute =>
    { ledger with
      spans := ledger.spans ++ [⟨(worker,moment.event.id),ledger.starts worker,moment.now⟩] }
  | _ => ledger

def ledger (moments : List Moment) : Ledger := moments.foldl follow {}

def spans (moments : List Moment) : List (Span Subtask ℤ) := (ledger moments).spans

theorem ledger_snoc (moments : List Moment) (moment : Moment) :
    ledger (moments ++ [moment]) = follow (ledger moments) moment := by
  simp [ledger]

/-- The spans of a worker, as it records them. -/
def recorded (worker : Worker) (spans : List (Span Subtask ℤ)) : List (Nat × TaskTiming) :=
  (spans.filter (·.job.1 = worker)).map fun span => (span.job.2,⟨span.start,span.stop⟩)

/-- A clock that is never set back. -/
def Forward (moments : List Moment) : Prop := moments.Pairwise fun a b => a.now ≤ b.now

/-- A reading that some worker took. -/
def ReadIn (moments : List Moment) (reading : ℤ) : Prop := ∃ moment ∈ moments, moment.now = reading

def subtaskWaits (dependencies : Nat → List Nat) (subtask : Subtask) : List Subtask :=
  (subtask.1.waitsFor dependencies subtask.2).map (subtask.1.awaits,·)

/-- What was finished when a worker read the clock and started. -/
structure Begun (dependencies : Nat → List Nat) (moments : List Moment) (subtask : Subtask) (start : ℤ) :
    Prop where
  known : ReadIn moments start
  clear : ∀ span ∈ spans moments, span.job.1.device = subtask.1.device → span.stop ≤ start
  ready : ∀ wait ∈ subtaskWaits dependencies subtask,
    ∃ earlier ∈ spans moments, earlier.job = wait ∧ earlier.stop ≤ start

structure Clocked (dependencies : Nat → List Nat) (moments : List Moment) (watched : Watched) : Prop where
  starts : watched.start = (ledger moments).starts
  timed : ∀ worker, watched.timings worker ++ watched.pending worker = recorded worker (spans moments)
  realizes : Realizes (fun subtask : Subtask => subtask.1.device) (subtaskWaits dependencies) (spans moments)
  past : ∀ span ∈ spans moments, ReadIn moments span.start ∧ ReadIn moments span.stop
  running : ∀ worker task, watched.pool.phase worker = .executing task →
    Begun dependencies moments (worker,task.id) (watched.start worker)
  executed : ∀ worker id, (watched.pool.completed worker id).isCompleted = true ∨
    (∃ task, watched.pool.phase worker = .executed task ∧ task.id = id) →
      ∃ span ∈ spans moments, span.job = (worker,id)

namespace Pool
variable {om : PerfModel} {pool next : Pool} {worker other : Worker} {action : Action} {id : Nat} {task : Task}

theorem Moves.executing (moves : Moves om pool worker id action next)
    (running : next.phase other = .executing task) : pool.phase other = .executing task ∨
      action = .start ∧ other = worker ∧ pool.phase worker = .ready task ∧ task.id = id := by
  rcases eq_or_ne other worker with rfl | apart
  · cases moves with
    | start front phase named =>
      obtain rfl : front = task := by simpa using running
      exact Or.inr ⟨rfl,rfl,phase,named⟩
    | _ => simp at running
  · exact Or.inl (moves.phase_other apart ▸ running)

theorem Moves.executed (moves : Moves om pool worker id action next)
    (finished : next.phase other = .executed task) : pool.phase other = .executed task ∨
      action = .execute ∧ other = worker ∧ pool.phase worker = .executing task ∧ task.id = id := by
  rcases eq_or_ne other worker with rfl | apart
  · cases moves with
    | execute front phase named =>
      obtain rfl : front = task := by simpa using finished
      exact Or.inr ⟨rfl,rfl,phase,named⟩
    | _ => simp at finished
  · exact Or.inl (moves.phase_other apart ▸ finished)

/-- Two workers that execute on one device are the same worker. -/
theorem Sound.exclusive (sound : pool.Sound) {first second : Worker} {a b : Task}
    (one : pool.phase first = .executing a) (two : pool.phase second = .executing b)
    (same : first.device = second.device) : first = second := by
  rcases eq_or_ne first .cpu with rfl | shared
  · cases second <;> first | rfl | exact absurd same (by decide)
  · have other : second ≠ .cpu := by
      rintro rfl
      cases first <;> first | exact shared rfl | exact absurd same (by decide)
    have held := sound.locked first a one shared
    rw [sound.locked second b two other] at held
    exact (Option.some.inj held).symm

end Pool

section Step
variable {om : PerfModel} {dependencies : Nat → List Nat} {moments : List Moment} {watched : Watched}
  {next : Pool} {worker : Worker} {action : Action} {id : Nat} {now : ℤ}

theorem ReadIn.later {reading : ℤ} (read : ReadIn moments reading) (moment : Moment) :
    ReadIn (moments ++ [moment]) reading := by
  obtain ⟨earlier,member,stamp⟩ := read
  exact ⟨earlier,List.mem_append_left _ member,stamp⟩

theorem ReadIn.le (late : ∀ moment ∈ moments, moment.now ≤ now) {reading : ℤ}
    (read : ReadIn moments reading) : reading ≤ now := by
  obtain ⟨moment,member,rfl⟩ := read
  exact late moment member

theorem Begun.later {subtask : Subtask} {start : ℤ} {moment : Moment}
    (begun : Begun dependencies moments subtask start)
    (same : spans (moments ++ [moment]) = spans moments) :
    Begun dependencies (moments ++ [moment]) subtask start :=
  ⟨begun.known.later moment,same ▸ begun.clear,same ▸ begun.ready⟩

theorem pending_other {moment : Moment} (moves : Pool.Moves om watched.pool worker id action next)
    (named : moment.event.worker = worker) {other : Worker} (apart : other ≠ worker) :
    (watched.record moment next).timings other ++ (watched.record moment next).pending other =
      watched.timings other ++ watched.pending other := by
  subst named
  have timings : (watched.record moment next).timings other = watched.timings other := by
    unfold Watched.record
    split <;> simp [apart]
  have readings : (watched.record moment next).held other = watched.held other := by
    unfold Watched.record
    split <;> simp [Watched.held,apart]
  rw [timings,Watched.pending,Watched.record_pool,moves.phase_other apart,readings,Watched.pending]

theorem Clocked.next_quiet (clocked : Clocked dependencies moments watched)
    (moves : Pool.Moves om watched.pool worker id action next)
    (quiet : action = .pop ∨ action = .check) :
    Clocked dependencies (moments ++ [⟨⟨worker,action,id⟩,now⟩])
      (watched.record ⟨⟨worker,action,id⟩,now⟩ next) := by
  have same : ledger (moments ++ [⟨⟨worker,action,id⟩,now⟩]) = ledger moments := by
    rw [ledger_snoc]
    rcases quiet with rfl | rfl <;> rfl
  have stays : spans (moments ++ [⟨⟨worker,action,id⟩,now⟩]) = spans moments :=
    congrArg Ledger.spans same
  have plain : watched.record ⟨⟨worker,action,id⟩,now⟩ next = { watched with pool := next } := by
    rcases quiet with rfl | rfl <;> rfl
  constructor
  · rw [plain,same]
    exact clocked.starts
  · intro other
    rw [stays,← clocked.timed other]
    rcases eq_or_ne other worker with rfl | apart
    · rw [plain]
      congr 1
      cases moves with
      | pop task rest phase => simp [Watched.pending,phase]
      | refused task latest phase => simp [Watched.pending,phase]
      | cleared task latest phase => simp [Watched.pending,phase]
      | _ => simp at quiet
    · exact pending_other moves rfl apart
  · rw [stays]
    exact clocked.realizes
  · intro span member
    obtain ⟨start,stop⟩ := clocked.past span (stays ▸ member)
    exact ⟨start.later _,stop.later _⟩
  · intro other task running
    rw [Watched.record_pool] at running
    rcases moves.executing running with before | ⟨rfl,-⟩
    · rw [plain]
      exact (clocked.running other task before).later stays
    · simp at quiet
  · intro other task seen
    rw [stays]
    rw [Watched.record_pool] at seen
    apply clocked.executed other task
    rcases seen with bit | ⟨front,finished,named⟩
    · rw [moves.isCompleted] at bit
      split at bit
      next published =>
        rw [published.1] at quiet
        simp at quiet
      next => exact Or.inl bit
    · rcases moves.executed finished with before | ⟨rfl,-⟩
      · exact Or.inr ⟨front,before,named⟩
      · simp at quiet

theorem Clocked.next_start (clocked : Clocked dependencies moments watched)
    (sound : watched.pool.Sound) (linked : watched.pool.dependencies = dependencies)
    (late : ∀ moment ∈ moments, moment.now ≤ now)
    (moves : Pool.Moves om watched.pool worker id .start next) :
    Clocked dependencies (moments ++ [⟨⟨worker,.start,id⟩,now⟩])
      (watched.record ⟨⟨worker,.start,id⟩,now⟩ next) := by
  have stays : spans (moments ++ [⟨⟨worker,.start,id⟩,now⟩]) = spans moments := by
    rw [spans,ledger_snoc]
    rfl
  constructor
  · rw [ledger_snoc,follow,← clocked.starts]
    rfl
  · intro other
    rw [stays,← clocked.timed other]
    rcases eq_or_ne other worker with rfl | apart
    · congr 1
      cases moves with
      | start task phase => simp [Watched.pending,phase]
    · exact pending_other moves rfl apart
  · rw [stays]
    exact clocked.realizes
  · intro span member
    obtain ⟨start,stop⟩ := clocked.past span (stays ▸ member)
    exact ⟨start.later _,stop.later _⟩
  · intro other task running
    rw [Watched.record_pool] at running
    rcases eq_or_ne other worker with rfl | apart
    · have own : (watched.record ⟨⟨other,.start,id⟩,now⟩ next).start other = now := by
        simp [Watched.record]
      rw [own]
      refine ⟨⟨_,List.mem_append_right _ (List.mem_singleton_self _),rfl⟩,?_,?_⟩
      · intro span member _
        exact (clocked.past span (stays ▸ member)).2.le late
      · intro wait needed
        rw [stays]
        obtain ⟨dep,inside,rfl⟩ := List.mem_map.mp needed
        cases moves with
        | start front phase =>
          obtain rfl : front = task := by simpa using running
          have settled := sound.settled other front (by simp [phase,Phase.cleared])
          rw [Pool.waitList_eq,linked] at settled
          obtain ⟨span,member,job⟩ := clocked.executed other.awaits dep (Or.inl (settled dep inside))
          exact ⟨span,member,job,(clocked.past span member).2.le late⟩
    · have kept : (watched.record ⟨⟨worker,.start,id⟩,now⟩ next).start other =
          watched.start other := by simp [Watched.record,apart]
      rw [kept]
      rcases moves.executing running with before | ⟨-,same,-⟩
      · exact (clocked.running other task before).later stays
      · exact absurd same apart
  · intro other task seen
    rw [stays]
    rw [Watched.record_pool] at seen
    apply clocked.executed other task
    rcases seen with bit | ⟨front,finished,named⟩
    · rw [moves.isCompleted] at bit
      exact Or.inl (by simpa using bit)
    · rcases moves.executed finished with before | ⟨wrong,-⟩
      · exact Or.inr ⟨front,before,named⟩
      · contradiction

theorem Clocked.next_execute (clocked : Clocked dependencies moments watched)
    (sound : watched.pool.Sound) (late : ∀ moment ∈ moments, moment.now ≤ now)
    (moves : Pool.Moves om watched.pool worker id .execute next) :
    Clocked dependencies (moments ++ [⟨⟨worker,.execute,id⟩,now⟩])
      (watched.record ⟨⟨worker,.execute,id⟩,now⟩ next) := by
  obtain ⟨task,phase,rfl⟩ : ∃ task, watched.pool.phase worker = .executing task ∧ task.id = id := by
    cases moves with
    | execute task phase named => exact ⟨task,phase,named⟩
  obtain ⟨known,clear,ready⟩ := clocked.running worker task phase
  have grows : spans (moments ++ [⟨⟨worker,.execute,task.id⟩,now⟩]) =
      spans moments ++ [⟨(worker,task.id),watched.start worker,now⟩] := by
    rw [spans,ledger_snoc,follow,← clocked.starts]
    rfl
  have starts : (watched.record ⟨⟨worker,.execute,task.id⟩,now⟩ next).start = watched.start := rfl
  constructor
  · rw [ledger_snoc,follow,starts]
    exact clocked.starts
  · intro other
    have sorted : recorded other (spans moments ++ [⟨(worker,task.id),watched.start worker,now⟩]) =
        recorded other (spans moments) ++
          if worker = other then [(task.id,⟨watched.start worker,now⟩)] else [] := by
      rw [recorded,List.filter_append,List.map_append,recorded]
      congr 1
      split <;> simp [*]
    rw [grows,sorted,← clocked.timed other]
    rcases eq_or_ne other worker with rfl | apart
    · have finished : next.phase other = .executed task := by
        cases moves with
        | execute front running =>
          rw [phase] at running
          cases running
          simp
      simp [Watched.pending,phase,finished,Watched.held,Watched.record]
    · rw [if_neg apart.symm,List.append_nil]
      exact pending_other moves rfl apart
  · rw [grows]
    apply clocked.realizes.snoc
    · exact known.le late
    · exact clear
    · exact ready
  · intro span member
    rw [grows] at member
    rcases List.mem_append.mp member with before | same
    · obtain ⟨start,stop⟩ := clocked.past span before
      exact ⟨start.later _,stop.later _⟩
    · cases List.mem_singleton.mp same
      exact ⟨known.later _,_,List.mem_append_right _ (List.mem_singleton_self _),rfl⟩
  · intro other front running
    rw [Watched.record_pool] at running
    rcases moves.executing running with before | ⟨wrong,-⟩
    · have apart : other ≠ worker := by
        rintro rfl
        cases moves
        simp at running
      obtain ⟨known,clear,ready⟩ := clocked.running other front before
      rw [starts]
      refine ⟨known.later _,?_,?_⟩
      · intro span member same
        rw [grows] at member
        rcases List.mem_append.mp member with earlier | last
        · exact clear span earlier same
        · -- the worker that ends now would share its device with another that executes
          cases List.mem_singleton.mp last
          exact absurd (sound.exclusive before phase same.symm) apart
      · intro wait needed
        obtain ⟨earlier,member,job,ended⟩ := ready wait needed
        exact ⟨earlier,grows ▸ List.mem_append_left _ member,job,ended⟩
    · contradiction
  · intro other front seen
    rw [Watched.record_pool] at seen
    rw [grows]
    have known : (watched.pool.completed other front).isCompleted = true ∨
        (∃ held, watched.pool.phase other = .executed held ∧ held.id = front) →
          ∃ span ∈ spans moments ++ [⟨(worker,task.id),watched.start worker,now⟩],
            span.job = (other,front) := by
      intro before
      obtain ⟨span,member,job⟩ := clocked.executed other front before
      exact ⟨span,List.mem_append_left _ member,job⟩
    rcases seen with bit | ⟨held,finished,rfl⟩
    · rw [moves.isCompleted] at bit
      exact known (Or.inl (by simpa using bit))
    · rcases moves.executed finished with before | ⟨-,rfl,-,named⟩
      · exact known (Or.inr ⟨held,before,rfl⟩)
      · exact ⟨_,List.mem_append_right _ (List.mem_singleton_self _),by rw [named]⟩

theorem Clocked.next_publish (clocked : Clocked dependencies moments watched)
    (moves : Pool.Moves om watched.pool worker id .publish next) :
    Clocked dependencies (moments ++ [⟨⟨worker,.publish,id⟩,now⟩])
      (watched.record ⟨⟨worker,.publish,id⟩,now⟩ next) := by
  obtain ⟨task,phase,rfl⟩ : ∃ task, watched.pool.phase worker = .executed task ∧ task.id = id := by
    cases moves with
    | publish task phase named => exact ⟨task,phase,named⟩
  have same : ledger (moments ++ [⟨⟨worker,.publish,task.id⟩,now⟩]) = ledger moments := by
    rw [ledger_snoc]
    rfl
  have stays : spans (moments ++ [⟨⟨worker,.publish,task.id⟩,now⟩]) = spans moments :=
    congrArg Ledger.spans same
  constructor
  · rw [same]
    exact clocked.starts
  · intro other
    rw [stays,← clocked.timed other]
    rcases eq_or_ne other worker with rfl | apart
    · have idle : next.phase other = .idle := by
        cases moves
        simp
      simp [Watched.pending,phase,idle,Watched.record]
    · exact pending_other moves rfl apart
  · rw [stays]
    exact clocked.realizes
  · intro span member
    obtain ⟨start,stop⟩ := clocked.past span (stays ▸ member)
    exact ⟨start.later _,stop.later _⟩
  · intro other front running
    rw [Watched.record_pool] at running
    rcases moves.executing running with before | ⟨wrong,-⟩
    · exact (clocked.running other front before).later stays
    · contradiction
  · intro other front seen
    rw [stays]
    rw [Watched.record_pool] at seen
    rcases seen with bit | ⟨held,finished,named⟩
    · rw [moves.isCompleted] at bit
      split at bit
      next now =>
        obtain ⟨-,rfl,rfl⟩ := now
        exact clocked.executed other task.id (Or.inr ⟨task,phase,rfl⟩)
      next => exact clocked.executed other front (Or.inl bit)
    · rcases moves.executed finished with before | ⟨wrong,-⟩
      · exact clocked.executed other front (Or.inr ⟨held,before,named⟩)
      · contradiction

end Step

theorem run_watched (om : PerfModel) (moments : List Moment) (watched : Watched) :
    (run (Watched.step om) watched moments).map Watched.pool =
      run (Pool.step om) watched.pool (moments.map (·.event)) := by
  induction moments generalizing watched with
  | nil => rfl
  | cons moment rest ih =>
    rw [List.map_cons,run,run,Watched.step]
    cases watched.pool.step om moment.event with
    | none => rfl
    | some next =>
      rw [Option.map_some,Option.bind_some,Option.bind_some,ih,Watched.record_pool]

theorem spans_job (moments : List Moment) :
    (spans moments).map (·.job) = executions (moments.map (·.event)) := by
  induction moments using List.reverseRecOn with
  | nil => rfl
  | append_singleton moments moment ih =>
    rw [List.map_append,List.map_singleton,executions_snoc,← ih,spans,ledger_snoc,follow]
    obtain ⟨⟨worker,action,id⟩,now⟩ := moment
    cases action <;> simp [spans]

theorem recorded_id (worker : Worker) (spans : List (Span Subtask ℤ)) :
    (recorded worker spans).map (·.1) = served worker (spans.map (·.job)) := by
  simp only [recorded,served,List.map_map,List.filter_map]
  rfl

/-- Timings that account for a run: every subtask once and in the schedule's order, one at a time
on the CPU and one at a time of what `dpuMutex_` guards, each after all it waits for. -/
structure Accounted (g : TaskGraph) (order : List Nat) (timings : Worker → List (Nat × TaskTiming)) :
    Prop where
  once : ∀ worker, (timings worker).map (·.1) = order
  forward : ∀ worker, ∀ timing ∈ timings worker, timing.2.start ≤ timing.2.stop
  serial : ∀ worker, (timings worker).Pairwise fun a b => a.2.stop ≤ b.2.start
  exclusive : ∀ first second, first ≠ second → first ≠ .cpu → second ≠ .cpu →
    ∀ a ∈ timings first, ∀ b ∈ timings second, a.2.stop ≤ b.2.start ∨ b.2.stop ≤ a.2.start
  waited : ∀ worker, ∀ timing ∈ timings worker, ∀ wait ∈ worker.waitsFor g.predecessors timing.1,
    ∃ earlier ∈ timings worker.awaits, earlier.1 = wait ∧ earlier.2.stop ≤ timing.2.start

section Account
variable {worker : Worker} {all : List (Span Subtask ℤ)}

theorem mem_recorded {timing : Nat × TaskTiming} : timing ∈ recorded worker all ↔
    ∃ span ∈ all, span.job = (worker,timing.1) ∧ timing.2 = ⟨span.start,span.stop⟩ := by
  simp only [recorded,List.mem_map,List.mem_filter,decide_eq_true_eq]
  constructor
  · intro found
    obtain ⟨span,⟨member,own⟩,rfl⟩ := found
    exact ⟨span,member,by rw [← own],rfl⟩
  · intro found
    obtain ⟨span,member,job,times⟩ := found
    refine ⟨span,⟨member,by rw [job]⟩,?_⟩
    rw [job,← times]

variable {g : TaskGraph} {order : List Nat}
  (realizes : Realizes (fun subtask : Subtask => subtask.1.device) (subtaskWaits g.predecessors) all)
include realizes

theorem accounted_recorded (once : ∀ worker, served worker (all.map (·.job)) = order) :
    Accounted g order (recorded · all) := by
  constructor
  · intro worker
    rw [recorded_id,once]
  · intro worker timing member
    obtain ⟨span,inside,-,times⟩ := mem_recorded.mp member
    rw [times]
    exact realizes.forward span inside
  · intro worker
    rw [recorded,List.pairwise_map]
    apply (realizes.exclusive.filter _).imp_of_mem
    intro a b first second apart
    have one : a.job.1 = worker := by simpa using (List.mem_filter.mp first).2
    have two : b.job.1 = worker := by simpa using (List.mem_filter.mp second).2
    exact apart (by rw [one,two])
  · intro first second distinct firstShared secondShared a aMember b bMember
    obtain ⟨one,oneInside,oneJob,oneTimes⟩ := mem_recorded.mp aMember
    obtain ⟨two,twoInside,twoJob,twoTimes⟩ := mem_recorded.mp bMember
    have device (worker : Worker) (shared : worker ≠ .cpu) : worker.device = .dpu := by
      cases worker with
      | cpu => exact absurd rfl shared
      | _ => rfl
    have either : all.Pairwise fun a b => a.job.1.device = .dpu → b.job.1.device = .dpu →
        a.stop ≤ b.start ∨ b.stop ≤ a.start :=
      realizes.exclusive.imp fun apart left right => Or.inl (apart (left.trans right.symm))
    have symmetric : Std.Symm fun a b : Span Subtask ℤ =>
        a.job.1.device = .dpu → b.job.1.device = .dpu → a.stop ≤ b.start ∨ b.stop ≤ a.start :=
      ⟨fun _ _ apart left right => (apart right left).symm⟩
    have apart : one ≠ two := by
      rintro rfl
      exact distinct (congrArg Prod.fst (oneJob.symm.trans twoJob))
    rw [oneTimes,twoTimes]
    exact either.forall oneInside twoInside apart (by rw [oneJob]; exact device first firstShared)
      (by rw [twoJob]; exact device second secondShared)
  · intro worker timing member wait linked
    obtain ⟨span,inside,job,times⟩ := mem_recorded.mp member
    obtain ⟨before,after,rfl⟩ := List.append_of_mem inside
    have needed : (worker.awaits,wait) ∈ subtaskWaits g.predecessors span.job := by
      rw [job]
      exact List.mem_map_of_mem linked
    obtain ⟨earlier,early,earlierJob,ended⟩ := realizes.waited before span after rfl _ needed
    refine ⟨(wait,⟨earlier.start,earlier.stop⟩),mem_recorded.mpr ⟨earlier,?_,earlierJob,rfl⟩,rfl,?_⟩
    · exact List.mem_append_left _ early
    · rw [times]
      exact ended

end Account

section Run
variable {om : PerfModel} {heapBasePtr : Nat} {g : TaskGraph} {sched : Schedule} {eT : ExecType}
  {moments : List Moment} {watched : Watched}

theorem run_clocked (orders : g.Orders sched.order) (forward : Forward moments)
    (ran : run (Watched.step om) { pool := parseGraph heapBasePtr g sched eT } moments = some watched) :
    Clocked g.predecessors moments watched := by
  refine run_history (fun moments watched => Forward moments → Clocked g.predecessors moments watched)
    ?_ ?_ moments watched ran forward
  · intro _
    have idle (worker : Worker) : (parseGraph heapBasePtr g sched eT).phase worker = .idle := by
      rw [parseGraph_eq]
      rfl
    refine ⟨rfl,?_,Realizes.nil,fun _ absent => absurd absent List.not_mem_nil,?_,?_⟩
    · intro worker
      rw [Watched.pending,idle]
      rfl
    · intro worker task running
      rw [idle] at running
      contradiction
    · intro worker id seen
      rw [idle,parseGraph_eq] at seen
      simp [cleanStatus] at seen
  · intro moments watched moment next ran clocked stepped forward
    obtain ⟨⟨worker,action,id⟩,now⟩ := moment
    obtain ⟨earlier,-,late⟩ := List.pairwise_append.mp forward
    replace late : ∀ moment ∈ moments, moment.now ≤ now := fun moment member =>
      late moment member _ (List.mem_singleton_self _)
    obtain ⟨pool,moved,rfl⟩ := Option.map_eq_some_iff.mp stepped
    have reached := run_watched om moments { pool := parseGraph heapBasePtr g sched eT }
    rw [ran,Option.map_some] at reached
    obtain ⟨sound,linked⟩ := run_sound reached.symm
    rw [parsed_dependencies heapBasePtr eT orders] at linked
    have moves := Pool.step_moves moved
    cases action with
    | pop => exact (clocked earlier).next_quiet moves (Or.inl rfl)
    | check => exact (clocked earlier).next_quiet moves (Or.inr rfl)
    | start => exact (clocked earlier).next_start sound linked late moves
    | execute => exact (clocked earlier).next_execute sound late moves
    | publish => exact (clocked earlier).next_publish moves

/-- Once all threads have left, the timings are the spans of the run by worker. -/
theorem joined_timings (orders : g.Orders sched.order) (forward : Forward moments)
    (ran : run (Watched.step om) { pool := parseGraph heapBasePtr g sched eT } moments = some watched)
    (joined : watched.pool.Joined) : watched.timings = (recorded · (spans moments)) := by
  ext1 worker
  have timed := (run_clocked orders forward ran).timed worker
  rw [Watched.pending,(joined worker).1,List.append_nil] at timed
  exact timed

theorem joined_served
    (ran : run (Watched.step om) { pool := parseGraph heapBasePtr g sched eT } moments = some watched)
    (joined : watched.pool.Joined) (worker : Worker) :
    served worker ((spans moments).map (·.job)) = sched.order := by
  have reached := run_watched om moments { pool := parseGraph heapBasePtr g sched eT }
  rw [ran,Option.map_some] at reached
  have split := run_performed (by decide : Action.execute ≠ .check) worker reached.symm
  obtain ⟨idle,drained⟩ := joined worker
  rw [spans_job,served_executions]
  simpa [idle,drained,Phase.before] using split

/-- In either mode and any interleaving, with a clock that is never set back, the timings of a
complete run account for it. -/
theorem execWorkload_timings (orders : g.Orders sched.order) (forward : Forward moments)
    (ran : run (Watched.step om) { pool := parseGraph heapBasePtr g sched eT } moments = some watched)
    (joined : watched.pool.Joined) : Accounted g sched.order watched.timings := by
  rw [joined_timings orders forward ran joined]
  exact accounted_recorded (run_clocked orders forward ran).realizes (joined_served ran joined)

/-- Events a nanosecond apart. -/
def ticking (events : List Event) : List Moment :=
  events.zipIdx.map fun numbered => ⟨numbered.1,numbered.2⟩

theorem ticking_forward (events : List Event) : Forward (ticking events) := by
  have rising : events.zipIdx.Pairwise fun a b => a.2 < b.2 := by
    have numbers := List.pairwise_lt_range' (s := 0) (n := events.length)
    rw [← List.zipIdx_map_snd,List.pairwise_map] at numbers
    exact numbers
  rw [Forward,ticking,List.pairwise_map]
  exact rising.imp fun before => Int.ofNat_le.mpr before.le

theorem ticking_event (events : List Event) : (ticking events).map (·.event) = events := by
  rw [ticking,List.map_map]
  exact List.zipIdx_map_fst _ _

theorem run_ticking {om : PerfModel} {start pool : Pool} {events : List Event}
    (reached : run (Pool.step om) start events = some pool) :
    ∃ watched, run (Watched.step om) { pool := start } (ticking events) = some watched ∧
      watched.pool = pool := by
  have traced := run_watched om (ticking events) { pool := start }
  rw [ticking_event,reached] at traced
  exact Option.map_eq_some_iff.mp traced

theorem execWorkload_timings_chain : ∃ watched,
    run (Watched.step chainPerf) { pool := parseGraph 0 chain chainSchedule .DO }
      (ticking (chainRun [(.cpu,1),(.dpu,1),(.map,1),(.reduce,1)])) = some watched ∧
    (watched.timings .reduce).map (·.1) = [0,1,2] := by
  have whole : ((run (Pool.step chainPerf) (parseGraph 0 chain chainSchedule .DO)
      (chainRun [(.cpu,1),(.dpu,1),(.map,1),(.reduce,1)])).map fun pool => decide pool.Joined) =
        some true := by decide +kernel
  obtain ⟨pool,reached,joined⟩ := Option.map_eq_some_iff.mp whole
  obtain ⟨watched,ran,rfl⟩ := run_ticking reached
  exact ⟨watched,ran,
    (execWorkload_timings (by decide) (ticking_forward _) ran (of_decide_eq_true joined)).once .reduce⟩

end Run
end MetaPB.Executor

import MetaPB.Lib.Best
import MetaPB.Lib.Transition
import Mathlib.Algebra.BigOperators.Group.Finset.Piecewise
import Mathlib.Algebra.Order.Field.Rat
import Mathlib.Data.List.Count

/-! The task executor that is driven by one semaphore per vertex: worker threads fetch vertex
ids in order, wait for a permit per incoming edge and hand permits on. One step is one
access to something shared. A release adds its permit whatever `max()` is, as an atomic
addition does; signed arithmetic that overflows is no step. -/
namespace MetaPB.Executor.Sema
open Lib.Transition

/-- The graph of durations; edges are pairs of source and target in insertion order. -/
structure Graph where
  durations : List Nat
  edges : List (Nat × Nat)
  inside : ∀ edge ∈ edges, edge.1 < durations.length ∧ edge.2 < durations.length
  ranged : ∀ duration ∈ durations, duration < 2^63

namespace Graph

def numVertices (g : Graph) : Nat := g.durations.length

def duration (g : Graph) (node : Nat) : Nat := g.durations.getD node 0

def inDegree (g : Graph) (node : Nat) : Nat := (g.edges.filter (·.2 = node)).length

/-- The targets of the out edges, one for every edge. -/
def successors (g : Graph) (node : Nat) : List Nat := (g.edges.filter (·.1 = node)).map (·.2)

def Linked (g : Graph) (u v : Nat) : Prop := (u,v) ∈ g.edges

def Forward (g : Graph) : Prop := ∀ edge ∈ g.edges, edge.1 < edge.2

end Graph

structure Shared where
  semaphores : Nat → Nat := fun _ => 0
  lastWakerTime : Nat → Nat := fun _ => 0
  globalTimer : Nat := 0

/-- Where `executeTask` is: with permits to acquire, before the load of the global timer, in
the loop that updates it, and before either access to the next successor. -/
inductive Phase
  | acquiring (left : Nat)
  | loading (finish : Nat)
  | timing (finish current : Nat)
  | updating (finish : Nat) (rest : List Nat)
  | releasing (finish target : Nat) (rest : List Nat)
  deriving DecidableEq

/-- One access of `executeTask`; no phase is left when it returns. -/
def executeTask (g : Graph) (node : Nat) (spurious : Bool) (shared : Shared) :
    Phase → Option (Option Phase × Shared)
  | .acquiring 0 =>
    if shared.lastWakerTime node + g.duration node < 2^63 then
      some (some (.loading (shared.lastWakerTime node + g.duration node)),shared)
    else none
  | .acquiring (left + 1) =>
    -- the `i` that counts the acquired permits is an int
    if 0 < shared.semaphores node ∧ g.inDegree node - left < 2^31 then
      some (some (.acquiring left),{ shared with
        semaphores := Function.update shared.semaphores node (shared.semaphores node - 1) })
    else none
  | .loading finish => some (some (.timing finish shared.globalTimer),shared)
  | .timing finish current =>
    if finish > current then
      -- a failed exchange loads the timer again, and a weak one may fail without a reason
      if spurious ∨ shared.globalTimer ≠ current then
        some (some (.timing finish shared.globalTimer),shared)
      else some (some (.updating finish (g.successors node)),{ shared with globalTimer := finish })
    else some (some (.updating finish (g.successors node)),shared)
  | .updating finish (target::rest) =>
    some (some (.releasing finish target rest),{ shared with
      lastWakerTime := Function.update shared.lastWakerTime target
        (Nat.max (shared.lastWakerTime target) finish) })
  | .updating _ [] => some (none,shared)
  | .releasing finish target rest =>
    some (some (.updating finish rest),{ shared with
      semaphores := Function.update shared.semaphores target (shared.semaphores target + 1) })

inductive Worker
  | fetching
  | executing (node : Nat) (phase : Phase)
  | joined
  deriving DecidableEq

structure State where
  index : Nat := 0
  shared : Shared := {}
  workers : Nat → Worker
  -- the nodes of the log lines "node .. start at"
  started : List Nat := []

def initial (workers : Nat) : State :=
  { workers := fun id => if id < workers then .fetching else .joined }

/-- The worker that takes its next step, and whether a weak exchange fails there for no reason. -/
structure Action where
  worker : Nat
  spurious : Bool := false

def logged (started : List Nat) (node : Nat) : Phase → List Nat
  | .acquiring 0 => started ++ [node]
  | _ => started

/-- What a worker does next: its task goes on, or it fetches another one. -/
def resumed (node : Nat) : Option Phase → Worker
  | some phase => .executing node phase
  | none => .fetching

def step (g : Graph) (s : State) (action : Action) : Option State :=
  match s.workers action.worker with
  | .fetching =>
    let i := s.index
    some { s with
      index := i + 1
      workers := Function.update s.workers action.worker
        (if i < g.numVertices then .executing i (.acquiring (g.inDegree i)) else .joined) }
  | .executing node phase =>
    (executeTask g node action.spurious s.shared phase).map fun (next,shared) =>
      { s with
        shared := shared
        workers := Function.update s.workers action.worker (resumed node next)
        started := logged s.started node phase }
  | .joined => none

/-- A task nobody fetched yet, or one in the hands of a worker. -/
def Unfinished (g : Graph) (s : State) (node : Nat) : Prop :=
  node < g.numVertices ∧ (s.index ≤ node ∨ ∃ worker phase, s.workers worker = .executing node phase)

def Joined (s : State) : Prop := ∀ worker, s.workers worker = .joined

/-- A path of the graph with the sum of its durations. -/
def PathSum (g : Graph) (total : Nat) : Prop :=
  ∃ path : List Nat, path ≠ [] ∧ (∀ node ∈ path, node < g.numVertices) ∧ path.IsChain g.Linked ∧
    (path.map g.duration).sum = total

/-- What the executor is for: no deadlock, every task once, and the critical path on the clock. -/
structure Correct (g : Graph) (s : State) : Prop where
  live : (∃ node, Unfinished g s node) → ∃ action next, step g s action = some next
  ends : ∃ last, Reachable (step g) s last ∧ Joined last
  once : s.started.Nodup
  all : Joined s → s.started.Perm (List.range g.numVertices)
  critical : Joined s → 0 < g.numVertices → IsGreatest {total | PathSum g total} s.shared.globalTimer
  idle : Joined s → g.numVertices = 0 → s.shared.globalTimer = 0

end MetaPB.Executor.Sema

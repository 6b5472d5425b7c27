import MetaPB.Operator.Registry
import Mathlib.Logic.Relation
import Mathlib.Data.List.Perm.Basic

/-! Task graphs as the executor and the schedulers read them: bundled vertex and
edge properties, in and out edges in insertion order, and schedules. Parallel
edges and self loops are graphs too; acyclicity is asked for where it is needed. -/
namespace MetaPB.Executor
open Operator

structure TaskProperties where
  op : OperatorTag := .UNDEFINED
  opType : OperatorType := .Undefined
  inputSizeMiB : Nat := 0
  deriving DecidableEq

structure Transfer where
  source : Nat
  target : Nat
  dataSizeRatio : ℚ := 1
  deriving DecidableEq

structure TaskGraph where
  vertices : List TaskProperties
  edges : List Transfer
  inside : ∀ edge ∈ edges, edge.source < vertices.length ∧ edge.target < vertices.length

structure Schedule where
  isAlwaysWrittingBack : Bool := true
  order : List Nat
  offloadRatio : List ℚ

namespace TaskGraph

def numVertices (g : TaskGraph) : Nat := g.vertices.length

def properties (g : TaskGraph) (task : Nat) : TaskProperties := g.vertices.getD task {}

def inEdges (g : TaskGraph) (task : Nat) : List Transfer := g.edges.filter (·.target = task)

def outEdges (g : TaskGraph) (task : Nat) : List Transfer := g.edges.filter (·.source = task)

def predecessors (g : TaskGraph) (task : Nat) : List Nat := (g.inEdges task).map (·.source)

def successors (g : TaskGraph) (task : Nat) : List Nat := (g.outEdges task).map (·.target)

def Linked (g : TaskGraph) (u v : Nat) : Prop := ∃ edge ∈ g.edges, edge.source = u ∧ edge.target = v

def Ancestor (g : TaskGraph) : Nat → Nat → Prop := Relation.TransGen g.Linked

def Acyclic (g : TaskGraph) : Prop := ∀ task, ¬ g.Ancestor task task

def Orders (g : TaskGraph) (order : List Nat) : Prop := order.Perm (List.range g.numVertices)

/-- The order puts the source of every edge before its target. -/
def Topological (g : TaskGraph) (order : List Nat) : Prop :=
  ∀ edge ∈ g.edges, order.idxOf edge.source < order.idxOf edge.target

instance (g : TaskGraph) (u v : Nat) : Decidable (g.Linked u v) :=
  inferInstanceAs (Decidable (∃ edge ∈ g.edges, edge.source = u ∧ edge.target = v))

instance (g : TaskGraph) (order : List Nat) : Decidable (g.Orders order) :=
  inferInstanceAs (Decidable (order.Perm (List.range g.numVertices)))

instance (g : TaskGraph) (order : List Nat) : Decidable (g.Topological order) :=
  inferInstanceAs (Decidable (∀ edge ∈ g.edges, order.idxOf edge.source < order.idxOf edge.target))

theorem mem_predecessors (g : TaskGraph) (u v : Nat) : u ∈ g.predecessors v ↔ g.Linked u v := by
  simp [predecessors,inEdges,Linked,and_assoc,and_comm]

theorem mem_successors (g : TaskGraph) (u v : Nat) : v ∈ g.successors u ↔ g.Linked u v := by
  simp [successors,outEdges,Linked,and_assoc]

theorem Linked.bounds {g : TaskGraph} {u v : Nat} (linked : g.Linked u v) :
    u < g.numVertices ∧ v < g.numVertices := by
  obtain ⟨edge,member,rfl,rfl⟩ := linked
  exact g.inside edge member

theorem Orders.nodup {g : TaskGraph} {order : List Nat} (orders : g.Orders order) : order.Nodup :=
  orders.nodup_iff.mpr List.nodup_range

theorem Orders.mem_iff {g : TaskGraph} {order : List Nat} (orders : g.Orders order) (task : Nat) :
    task ∈ order ↔ task < g.numVertices := by
  rw [List.Perm.mem_iff orders,List.mem_range]

theorem Orders.length {g : TaskGraph} {order : List Nat} (orders : g.Orders order) :
    order.length = g.numVertices := by
  rw [List.Perm.length_eq orders,List.length_range]

theorem Topological.linked {g : TaskGraph} {order : List Nat} (topological : g.Topological order)
    {u v : Nat} (linked : g.Linked u v) : order.idxOf u < order.idxOf v := by
  obtain ⟨edge,member,rfl,rfl⟩ := linked
  exact topological edge member

theorem Topological.ancestor {g : TaskGraph} {order : List Nat} (topological : g.Topological order)
    {u v : Nat} (above : g.Ancestor u v) : order.idxOf u < order.idxOf v := by
  induction above with
  | single linked => exact topological.linked linked
  | tail _ linked ih => exact ih.trans (topological.linked linked)

theorem Topological.acyclic {g : TaskGraph} {order : List Nat} (topological : g.Topological order) :
    g.Acyclic := fun _ above => Nat.lt_irrefl _ (topological.ancestor above)

end TaskGraph

/-- One task on its own. -/
def singleTask (inputSizeMiB : Nat) : TaskGraph := ⟨[⟨.MAC,.MemoryBound,inputSizeMiB⟩],[],by simp⟩

end MetaPB.Executor

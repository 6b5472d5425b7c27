import MetaPB.Executor.TaskGraph
import MetaPB.Lib.Loop
import Mathlib.Data.List.Nodup

/-! Building task graphs vertex by vertex and edge by edge. A loop that adds the same edges
from whatever graph it is in adds, as a whole, the edges of its turns one after the other. -/
namespace MetaPB.Executor
open Operator Lib.Loop

/-- What the generators return. -/
structure Workload where
  g : TaskGraph
  name : String

namespace TaskGraph

/-- `Graph g(n)`. -/
def blank (n : Nat) : TaskGraph := ⟨List.replicate n {},[],fun _ member => absurd member List.not_mem_nil⟩

/-- `boost::add_vertex`, whose vertex is the old number of vertices. -/
def addVertex (g : TaskGraph) (p : TaskProperties) : TaskGraph where
  vertices := g.vertices ++ [p]
  edges := g.edges
  inside edge member := by
    obtain ⟨source,target⟩ := g.inside edge member
    rw [List.length_append]
    exact ⟨source.trans_le (Nat.le_add_right _ _),target.trans_le (Nat.le_add_right _ _)⟩

/-- `boost::add_edge`, which adds the vertices up to both ends. -/
def addEdge (g : TaskGraph) (edge : Transfer) : TaskGraph where
  vertices := g.vertices ++ List.replicate (max edge.source edge.target + 1 - g.vertices.length) {}
  edges := g.edges ++ [edge]
  inside other member := by
    rw [List.length_append,List.length_replicate]
    rcases List.mem_append.mp member with old | new
    · obtain ⟨source,target⟩ := g.inside other old
      omega
    · rw [List.mem_singleton.mp new]
      omega

/-- `add_edge` of signed ids: the conversion of a negative one asks for more vertices than a
vector may have. -/
def addEdgeInt (g : TaskGraph) (source target : ℤ) (ratio : ℚ) : Option TaskGraph :=
  if 0 ≤ source ∧ 0 ≤ target then some (g.addEdge ⟨source.toNat,target.toNat,ratio⟩) else none

/-- `g[task] = p`. -/
def setProperties (g : TaskGraph) (task : Nat) (p : TaskProperties) : TaskGraph where
  vertices := g.vertices.set task p
  edges := g.edges
  inside edge member := by
    rw [List.length_set]
    exact g.inside edge member

def setAll (g : TaskGraph) (p : TaskProperties) : TaskGraph where
  vertices := g.vertices.map fun _ => p
  edges := g.edges
  inside edge member := by
    rw [List.length_map]
    exact g.inside edge member

/-- The later graph has the vertices of the earlier one and, behind its edges, some more. -/
structure Grown (g : TaskGraph) (more : List Transfer) (next : TaskGraph) : Prop where
  size : next.numVertices = g.numVertices
  edges : next.edges = g.edges ++ more

theorem Grown.refl (g : TaskGraph) : g.Grown [] g := ⟨rfl,(List.append_nil _).symm⟩

theorem Grown.trans {g next last : TaskGraph} {more rest : List Transfer} (first : g.Grown more next)
    (second : next.Grown rest last) : g.Grown (more ++ rest) last :=
  ⟨second.size.trans first.size,by rw [second.edges,first.edges,List.append_assoc]⟩

theorem setProperties_grown (g : TaskGraph) (task : Nat) (p : TaskProperties) :
    g.Grown [] (g.setProperties task p) := ⟨List.length_set,(List.append_nil _).symm⟩

theorem setProperties_size (g : TaskGraph) (task : Nat) (p : TaskProperties) :
    (g.setProperties task p).numVertices = g.numVertices := (setProperties_grown g task p).size

theorem setProperties_edges (g : TaskGraph) (task : Nat) (p : TaskProperties) :
    (g.setProperties task p).edges = g.edges := rfl

theorem setProperties_other {g : TaskGraph} {task other : Nat} (apart : other ≠ task) (p : TaskProperties) :
    (g.setProperties task p).properties other = g.properties other := by
  simp only [properties,setProperties,List.getD_eq_getElem?_getD]
  rw [List.getElem?_set_ne apart.symm]

theorem setProperties_apply {g : TaskGraph} {task : Nat} (inside : task < g.numVertices) (p : TaskProperties)
    (other : Nat) : (g.setProperties task p).properties other = if other = task then p else g.properties other := by
  unfold numVertices at inside
  split
  next same => simp [same,properties,setProperties,inside]
  next apart => exact setProperties_other apart p

theorem foldl_setProperties (p : Nat → TaskProperties) (g : TaskGraph) {count : Nat}
    (within : count ≤ g.numVertices) :
    let drawn := (List.range count).foldl (fun g task => g.setProperties task (p task)) g
    drawn.numVertices = g.numVertices ∧ drawn.edges = g.edges ∧
      ∀ task, drawn.properties task = if task < count then p task else g.properties task := by
  induction count with
  | zero => exact ⟨rfl,rfl,fun _ => rfl⟩
  | succ count ih =>
    obtain ⟨size,edges,each⟩ := ih (Nat.le_of_succ_le within)
    simp only [List.range_succ,List.foldl_append,List.foldl_cons,List.foldl_nil]
    refine ⟨(setProperties_size ..).trans size,(setProperties_edges ..).trans edges,fun task => ?_⟩
    rw [setProperties_apply (size ▸ within),each]
    rcases lt_trichotomy task count with early | rfl | late
    · rw [if_neg early.ne,if_pos early,if_pos (early.trans (Nat.lt_succ_self _))]
    · rw [if_pos rfl,if_pos (Nat.lt_succ_self _)]
    · rw [if_neg late.ne',if_neg late.not_gt,if_neg (by omega)]

theorem addEdge_grown {g : TaskGraph} {edge : Transfer} (source : edge.source < g.numVertices)
    (target : edge.target < g.numVertices) : g.Grown [edge] (g.addEdge edge) := by
  have enough : max edge.source edge.target + 1 - g.vertices.length = 0 := by
    unfold numVertices at source target
    omega
  refine ⟨?_,rfl⟩
  simp [numVertices,addEdge,enough]

theorem addEdgeInt_grown {g : TaskGraph} {source target : Nat} (ratio : ℚ)
    (sourceIn : source < g.numVertices) (targetIn : target < g.numVertices) :
    ∃ next, g.addEdgeInt source target ratio = some next ∧ g.Grown [⟨source,target,ratio⟩] next := by
  refine ⟨g.addEdge ⟨source,target,ratio⟩,?_,addEdge_grown sourceIn targetIn⟩
  simp [addEdgeInt]

theorem addVertex_size (g : TaskGraph) (p : TaskProperties) :
    (g.addVertex p).numVertices = g.numVertices + 1 := List.length_append

theorem addVertex_last (g : TaskGraph) (p : TaskProperties) :
    (g.addVertex p).properties g.numVertices = p := by
  simp [properties,addVertex,numVertices]

theorem addEdge_properties {g : TaskGraph} (edge : Transfer) {task : Nat} (inside : task < g.numVertices) :
    (g.addEdge edge).properties task = g.properties task := by
  unfold numVertices at inside
  simp [properties,addEdge,List.getElem?_append_left,inside]

theorem addEdge_size_le (g : TaskGraph) (edge : Transfer) : g.numVertices ≤ (g.addEdge edge).numVertices :=
  (Nat.le_add_right _ _).trans_eq List.length_append.symm

theorem addVertex_early {g : TaskGraph} {task : Nat} (inside : task < g.numVertices) (p : TaskProperties) :
    (g.addVertex p).properties task = g.properties task := by
  unfold numVertices at inside
  simp [properties,addVertex,List.getElem?_append_left,inside]

theorem setAll_apply {g : TaskGraph} {task : Nat} (inside : task < g.numVertices) (p : TaskProperties) :
    (g.setAll p).properties task = p := by
  unfold numVertices at inside
  simp [properties,setAll,inside]

variable {α : Type}

theorem foldl_grown {step : TaskGraph → α → TaskGraph} {emit : α → List Transfer} {n : Nat}
    {items : List α} {g : TaskGraph} (size : g.numVertices = n)
    (grows : ∀ item ∈ items, ∀ g : TaskGraph, g.numVertices = n → g.Grown (emit item) (step g item)) :
    g.Grown (items.flatMap emit) (items.foldl step g) := by
  induction items generalizing g with
  | nil => exact .refl g
  | cons item rest ih =>
    have first := grows item List.mem_cons_self g size
    exact first.trans (ih (first.size.trans size) fun other member =>
      grows other (List.mem_cons_of_mem item member))

theorem loop_grown {body : Nat → TaskGraph → Option TaskGraph} {emit : Nat → List Transfer}
    {n count : Nat} {g : TaskGraph} (size : g.numVertices = n)
    (grows : ∀ i < count, ∀ g : TaskGraph, g.numVertices = n →
      ∃ next, body i g = some next ∧ g.Grown (emit i) next) :
    ∃ next, loop count body g = some next ∧ g.Grown ((List.range count).flatMap emit) next := by
  apply loop_returns (fun k (next : TaskGraph) => g.Grown ((List.range k).flatMap emit) next) (.refl g)
  intro i small middle before
  obtain ⟨next,ran,grown⟩ := grows i small middle (before.size.trans size)
  refine ⟨next,ran,?_⟩
  rw [List.range_succ,List.flatMap_append,List.flatMap_singleton]
  exact before.trans grown

end TaskGraph

theorem nodup_flatMap_of_key {α β : Type} {emit : α → List β} (key : β → α) {items : List α}
    (distinct : items.Nodup) (each : ∀ item ∈ items, (emit item).Nodup)
    (keyed : ∀ item ∈ items, ∀ x ∈ emit item, key x = item) : (items.flatMap emit).Nodup := by
  refine List.nodup_flatMap.mpr ⟨each,?_⟩
  refine List.Pairwise.imp_of_mem ?_ distinct
  intro first second firstIn secondIn apart x left right
  exact apart ((keyed first firstIn x left).symm.trans (keyed second secondIn x right))

theorem nodup_map_filter {α β γ : Type} [DecidableEq β] {f : α → β} {h : α → γ} {items : List α}
    (distinct : (items.map fun item => (f item,h item)).Nodup) (b : β) :
    ((items.filter (f · = b)).map h).Nodup := by
  have part := distinct.sublist ((List.filter_sublist (p := (f · = b))).map fun item => (f item,h item))
  have same : (items.filter (f · = b)).map (fun item => (f item,h item)) =
      ((items.filter (f · = b)).map h).map fun c => (b,c) := by
    rw [List.map_map]
    apply List.map_congr_left
    intro item member
    have first : f item = b := by simpa using (List.mem_filter.mp member).2
    simp [first]
  rw [same] at part
  exact part.of_map _

namespace TaskGraph

def ends (edge : Transfer) : Nat × Nat := (edge.source,edge.target)

theorem successors_nodup {g : TaskGraph} (distinct : (g.edges.map ends).Nodup) (task : Nat) :
    (g.successors task).Nodup := nodup_map_filter distinct task

theorem predecessors_nodup {g : TaskGraph} (distinct : (g.edges.map ends).Nodup) (task : Nat) :
    (g.predecessors task).Nodup := by
  have swapped := distinct.map Prod.swap_injective
  rw [List.map_map] at swapped
  exact nodup_map_filter swapped task

end TaskGraph
end MetaPB.Executor

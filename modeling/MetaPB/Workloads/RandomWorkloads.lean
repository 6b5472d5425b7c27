import MetaPB.Operator.OperatorManager
import MetaPB.Workloads.Tasks

/-! Random workloads: two fixed graphs whose tasks are drawn. Whatever is drawn, HO has one entry
and one exit and MO has neither, and both are executed to the end unless a draw can be free. -/
namespace MetaPB.Workloads
open Operator Executor Executor.TaskGraph Scheduler

def getMOEdges : List (Nat × Nat) :=
  [(0,6),(0,7),(0,16),(1,6),(1,8),(1,17),(2,7),(2,8),(2,9),(2,10),(2,19),(3,9),(3,11),(3,12),(3,18),
    (4,10),(4,11),(4,13),(4,20),(5,12),(5,13),(5,21),(6,14),(7,14),(8,14),(9,14),(10,14),(11,14),
    (12,14),(13,14),(14,15),(15,16),(15,17),(15,18),(15,19),(15,20),(15,21),(16,22),(17,22),(18,22),
    (19,22),(20,22),(21,22),(22,23),(16,23),(17,23),(18,23),(19,23),(20,23),(21,23)]

def getHOEdges : List (Nat × Nat) :=
  [(0,1),(0,2),(0,3),(0,4),(1,5),(1,6),(2,5),(2,7),(3,5),(4,6),(4,7),(5,8),(6,8),(7,8)]

/-- What the two distributions return for one task: a number from 0 to 1, and one up to any last. -/
structure Draw where
  dis : ℚ
  lower : 0 ≤ dis
  upper : dis < 1
  pick : (last : Nat) → Fin (last + 1)

/-- A set of tags in the order of the enumeration. -/
def ordered (ops : List OperatorTag) : List OperatorTag := allOPSet.filter (· ∈ ops)

def randomProperty (CBRatio : ℚ) (batchSizeMiB : Nat) (draw : Draw) : TaskProperties :=
  let chosenSet := if draw.dis < CBRatio then computeBoundOPSet else memoryBoundOPSet
  if chosenSet ≠ [] then
    { op := (ordered chosenSet).getD (draw.pick (chosenSet.length - 1)) .UNDEFINED
      opType := if chosenSet = computeBoundOPSet then .ComputeBound else .MemoryBound
      inputSizeMiB := batchSizeMiB }
  else {}

/-- `Graph g(edges.begin(), edges.end(), n)`, drawn tasks, and the first and last one replaced. -/
def randomize (edges : List (Nat × Nat)) (n : Nat) (CBRatio : ℚ) (batchSizeMiB : Nat)
    (draws : Nat → Draw) : TaskGraph :=
  let g := edges.foldl (fun g edge => g.addEdge ⟨edge.1,edge.2,1⟩) (blank n)
  let g := (List.range g.numVertices).foldl (fun g task =>
    g.setProperties task (randomProperty CBRatio batchSizeMiB (draws task))) g
  let g := g.setProperties (g.numVertices - 1) ⟨.LOGIC_END,.Logical,batchSizeMiB⟩
  g.setProperties 0 ⟨.LOGIC_START,.Logical,0⟩

def randomizeHO (CBRatio : ℚ) (batchSizeMiB : Nat) (draws : Nat → Draw) : TaskGraph :=
  randomize getHOEdges 9 CBRatio batchSizeMiB draws

def randomizeMO (CBRatio : ℚ) (batchSizeMiB : Nat) (draws : Nat → Draw) : TaskGraph :=
  randomize getMOEdges 25 CBRatio batchSizeMiB draws

/-- The operators that a draw can choose. -/
def Drawable (CBRatio : ℚ) (opTag : OperatorTag) : Prop :=
  opTag ∈ computeBoundOPSet ∧ 0 < CBRatio ∨ opTag ∈ memoryBoundOPSet ∧ CBRatio < 1

section Draws
variable {CBRatio : ℚ} {batchSizeMiB : Nat}

theorem randomProperty_below {draw : Draw} (below : draw.dis < CBRatio) :
    randomProperty CBRatio batchSizeMiB draw =
      ⟨(ordered computeBoundOPSet).getD (draw.pick (computeBoundOPSet.length - 1)) .UNDEFINED,.ComputeBound,batchSizeMiB⟩ := by
  rw [randomProperty,if_pos below]
  rfl

theorem randomProperty_above {draw : Draw} (above : CBRatio ≤ draw.dis) :
    randomProperty CBRatio batchSizeMiB draw =
      ⟨(ordered memoryBoundOPSet).getD (draw.pick (memoryBoundOPSet.length - 1)) .UNDEFINED,.MemoryBound,batchSizeMiB⟩ := by
  rw [randomProperty,if_neg (not_lt.mpr above)]
  rfl

theorem ordered_spec {ops : List OperatorTag} (full : (ordered ops).length = ops.length) (filled : ops ≠ [])
    (pick : Fin (ops.length - 1 + 1)) : (ordered ops).getD pick .UNDEFINED ∈ ops := by
  have inside : pick.val < (ordered ops).length := by
    have positive := List.length_pos_of_ne_nil filled
    have below := pick.isLt
    omega
  rw [List.getD_eq_getElem _ _ inside]
  exact of_decide_eq_true (List.mem_filter.mp (List.getElem_mem inside)).2

theorem randomProperty_spec (CBRatio : ℚ) (batchSizeMiB : Nat) (draw : Draw) :
    Drawable CBRatio (randomProperty CBRatio batchSizeMiB draw).op ∧
      (randomProperty CBRatio batchSizeMiB draw).inputSizeMiB = batchSizeMiB := by
  rcases lt_or_ge draw.dis CBRatio with below | above
  · rw [randomProperty_below below]
    exact ⟨Or.inl ⟨ordered_spec (by decide) (by decide) _,draw.lower.trans_lt below⟩,rfl⟩
  · rw [randomProperty_above above]
    exact ⟨Or.inr ⟨ordered_spec (by decide) (by decide) _,above.trans_lt draw.upper⟩,rfl⟩

theorem exists_pick {ops : List OperatorTag} (full : (ordered ops).length = ops.length) {opTag : OperatorTag}
    (member : opTag ∈ ops) :
    ∃ pick : (last : Nat) → Fin (last + 1), (ordered ops).getD (pick (ops.length - 1)) .UNDEFINED = opTag := by
  have listed : opTag ∈ ordered ops := by
    refine List.mem_filter.mpr ⟨?_,decide_eq_true member⟩
    cases opTag <;> decide
  obtain ⟨i,inside,same⟩ := List.mem_iff_getElem.mp listed
  refine ⟨fun last => ⟨min i last,Nat.lt_succ_of_le (Nat.min_le_right ..)⟩,?_⟩
  have place : min i (ops.length - 1) = i := by omega
  simp only [place]
  rw [List.getD_eq_getElem _ _ inside,same]

theorem exists_draw {opTag : OperatorTag} (drawable : Drawable CBRatio opTag) (batchSizeMiB : Nat) :
    ∃ draw, (randomProperty CBRatio batchSizeMiB draw).op = opTag := by
  rcases drawable with ⟨member,positive⟩ | ⟨member,below⟩
  · obtain ⟨pick,picked⟩ := exists_pick (by decide) member
    let draw : Draw := ⟨0,le_rfl,zero_lt_one,pick⟩
    refine ⟨draw,?_⟩
    rw [randomProperty_below (show draw.dis < CBRatio from positive)]
    exact picked
  · obtain ⟨pick,picked⟩ := exists_pick (by decide) member
    let draw : Draw := ⟨max 0 CBRatio,le_max_left ..,max_lt zero_lt_one below,pick⟩
    refine ⟨draw,?_⟩
    rw [randomProperty_above (show CBRatio ≤ draw.dis from le_max_right ..)]
    exact picked

end Draws
section Shape
variable {edges : List (Nat × Nat)} {n : Nat} {CBRatio : ℚ} {batchSizeMiB : Nat} {draws : Nat → Draw}

/-- The edges as given, a START, drawn tasks and an END. -/
structure Drawn (edges : List (Nat × Nat)) (n : Nat) (CBRatio : ℚ) (batchSizeMiB : Nat)
    (draws : Nat → Draw) (g : TaskGraph) : Prop where
  size : g.numVertices = n
  linked : ∀ u v, g.Linked u v ↔ (u,v) ∈ edges
  start : g.properties 0 = ⟨.LOGIC_START,.Logical,0⟩
  exit : g.properties (n - 1) = ⟨.LOGIC_END,.Logical,batchSizeMiB⟩
  inner : ∀ task, 0 < task → task < n - 1 →
    g.properties task = randomProperty CBRatio batchSizeMiB (draws task)

/-- Before START and END are put in, every vertex holds what was drawn for it. -/
theorem tasks_drawn (bounds : ∀ edge ∈ edges, edge.1 < n ∧ edge.2 < n) (p : Nat → TaskProperties) :
    let linked := edges.foldl (fun g edge => g.addEdge ⟨edge.1,edge.2,1⟩) (blank n)
    let tasks := (List.range linked.numVertices).foldl (fun g task => g.setProperties task (p task)) linked
    tasks.numVertices = n ∧ tasks.edges = edges.map (fun edge => ⟨edge.1,edge.2,1⟩) ∧
      ∀ task < n, tasks.properties task = p task := by
  intro linked tasks
  have blankSize : (blank n).numVertices = n := List.length_replicate
  have joined : (blank n).Grown (edges.flatMap fun edge => [⟨edge.1,edge.2,1⟩]) linked := by
    apply foldl_grown blankSize
    intro edge member g size
    exact addEdge_grown (size ▸ (bounds edge member).1) (size ▸ (bounds edge member).2)
  have count : linked.numVertices = n := joined.size.trans blankSize
  obtain ⟨size,kept,each⟩ := foldl_setProperties p linked le_rfl
  refine ⟨size.trans count,?_,fun task inside => ?_⟩
  · rw [List.map_eq_flatMap]
    exact kept.trans joined.edges
  · rw [each,if_pos (inside.trans_eq count.symm)]

theorem randomize_drawn (bounds : ∀ edge ∈ edges, edge.1 < n ∧ edge.2 < n) (several : 1 < n) :
    Drawn edges n CBRatio batchSizeMiB draws (randomize edges n CBRatio batchSizeMiB draws) := by
  obtain ⟨count,kept,each⟩ := tasks_drawn bounds fun task => randomProperty CBRatio batchSizeMiB (draws task)
  let linked := edges.foldl (fun g edge => g.addEdge ⟨edge.1,edge.2,1⟩) (blank n)
  let tasks := (List.range linked.numVertices).foldl (fun g task =>
    g.setProperties task (randomProperty CBRatio batchSizeMiB (draws task))) linked
  have size : tasks.numVertices = n := count
  let ended := tasks.setProperties (tasks.numVertices - 1) ⟨.LOGIC_END,.Logical,batchSizeMiB⟩
  have endedSize : ended.numVertices = n := (setProperties_size ..).trans size
  have apply (task : Nat) : (randomize edges n CBRatio batchSizeMiB draws).properties task =
      if task = 0 then ⟨.LOGIC_START,.Logical,0⟩ else if task = n - 1 then ⟨.LOGIC_END,.Logical,batchSizeMiB⟩
        else tasks.properties task := by
    have first : 0 < ended.numVertices := by omega
    have last : tasks.numVertices - 1 < tasks.numVertices := by omega
    have split := setProperties_apply first ⟨.LOGIC_START,.Logical,0⟩ task
    rwa [setProperties_apply last,size] at split
  have edgesAre : (randomize edges n CBRatio batchSizeMiB draws).edges =
      edges.map fun edge => ⟨edge.1,edge.2,1⟩ := kept
  constructor
  · exact (setProperties_size ..).trans endedSize
  · intro u v
    unfold TaskGraph.Linked
    rw [edgesAre]
    simp
  · rw [apply,if_pos rfl]
  · rw [apply,if_neg (by omega),if_pos rfl]
  · intro task later inner
    rw [apply,if_neg later.ne',if_neg inner.ne]
    exact each task (by omega)

theorem Drawn.forward {g : TaskGraph} (drawn : Drawn edges n CBRatio batchSizeMiB draws g)
    (higher : ∀ edge ∈ edges, edge.1 < edge.2) (u v : Nat) (linked : g.Linked u v) : u < v :=
  higher _ ((drawn.linked u v).mp linked)

theorem randomizeHO_drawn (CBRatio : ℚ) (batchSizeMiB : Nat) (draws : Nat → Draw) :
    Drawn getHOEdges 9 CBRatio batchSizeMiB draws (randomizeHO CBRatio batchSizeMiB draws) :=
  randomize_drawn (by decide) (by decide)

theorem randomizeMO_drawn (CBRatio : ℚ) (batchSizeMiB : Nat) (draws : Nat → Draw) :
    Drawn getMOEdges 25 CBRatio batchSizeMiB draws (randomizeMO CBRatio batchSizeMiB draws) :=
  randomize_drawn (by decide) (by decide)

theorem randomizeHO_entryExit (CBRatio : ℚ) (batchSizeMiB : Nat) (draws : Nat → Draw) :
    EntryExit (randomizeHO CBRatio batchSizeMiB draws) := by
  have drawn := randomizeHO_drawn CBRatio batchSizeMiB draws
  apply entryExit_of_neighbours (drawn.forward (by decide))
  · intro v inside later
    have entered : ∀ v < 9, v ≠ 0 → ∃ edge ∈ getHOEdges, edge.2 = v := by decide
    obtain ⟨edge,member,rfl⟩ := entered v (drawn.size ▸ inside) later
    exact ⟨edge.1,(drawn.linked _ _).mpr member⟩
  · intro v inside more
    have left : ∀ v < 9, v ≠ 9 - 1 → ∃ edge ∈ getHOEdges, edge.1 = v := by decide
    rw [drawn.size] at inside more
    obtain ⟨edge,member,rfl⟩ := left v inside more
    exact ⟨edge.2,(drawn.linked _ _).mpr member⟩
  · rw [drawn.size,drawn.exit]

/-- Nothing leads to END, and six tasks have nothing before them. -/
theorem randomizeMO_ends (CBRatio : ℚ) (batchSizeMiB : Nat) (draws : Nat → Draw) {v : Nat} (inside : v < 25) :
    let g := randomizeMO CBRatio batchSizeMiB draws
    ((∀ u, ¬ g.Linked u v) ↔ v ≤ 5 ∨ v = 24) ∧ ((∀ w, ¬ g.Linked v w) ↔ v = 23 ∨ v = 24) := by
  intro g
  have drawn := randomizeMO_drawn CBRatio batchSizeMiB draws
  have entered : ∀ v < 25, (∀ edge ∈ getMOEdges, edge.2 ≠ v) ↔ v ≤ 5 ∨ v = 24 := by decide
  have left : ∀ v < 25, (∀ edge ∈ getMOEdges, edge.1 ≠ v) ↔ v = 23 ∨ v = 24 := by decide
  constructor
  · rw [← entered v inside]
    constructor
    · rintro unlinked edge member rfl
      exact unlinked edge.1 ((drawn.linked _ _).mpr member)
    · intro unlinked u linked
      exact unlinked _ ((drawn.linked u v).mp linked) rfl
  · rw [← left v inside]
    constructor
    · rintro unlinked edge member rfl
      exact unlinked edge.2 ((drawn.linked _ _).mpr member)
    · intro unlinked w linked
      exact unlinked _ ((drawn.linked v w).mp linked) rfl

end Shape
section Finish
variable {om : PerfModel} {edges : List (Nat × Nat)} {n : Nat} {CBRatio : ℚ} {batchSizeMiB : Nat}

def Costly (om : PerfModel) (CBRatio : ℚ) (batchSizeMiB : Nat) : Prop :=
  ∀ opTag, Drawable CBRatio opTag → Takes om batchSizeMiB opTag

def DrawsFinish (om : PerfModel) (heapBasePtr : Nat) (eT : ExecType) (drawn : (Nat → Draw) → TaskGraph) : Prop :=
  ∀ draws, SchedulesFinish om heapBasePtr eT (drawn draws)

theorem Drawn.task {g : TaskGraph} {draws : Nat → Draw} (drawn : Drawn edges n CBRatio batchSizeMiB draws g)
    (forward : ∀ edge ∈ edges, edge.1 < edge.2 ∧ edge.2 < n) {v : Nat} (later : v ≠ 0)
    (successors : g.successors v ≠ []) : g.properties v = randomProperty CBRatio batchSizeMiB (draws v) := by
  obtain ⟨w,listed⟩ := List.exists_mem_of_ne_nil _ successors
  have member := (drawn.linked v w).mp ((mem_successors ..).mp listed)
  obtain ⟨up,below⟩ := forward _ member
  exact drawn.inner v (Nat.pos_of_ne_zero later) (by omega)

theorem drawsFinish_iff (nonneg : om.Nonneg) (heapBasePtr : Nat) (eT : ExecType) {drawn : (Nat → Draw) → TaskGraph}
    (shape : ∀ draws, Drawn edges n CBRatio batchSizeMiB draws (drawn draws))
    (forward : ∀ edge ∈ edges, edge.1 < edge.2 ∧ edge.2 < n) (several : ∃ edge ∈ edges, 0 < edge.1) :
    DrawsFinish om heapBasePtr eT drawn ↔ Costly om CBRatio batchSizeMiB := by
  have acyclic (draws : Nat → Draw) : (drawn draws).Acyclic :=
    acyclic_of_forward ((shape draws).forward fun edge member => (forward edge member).1)
  have finish (draws : Nat → Draw) : SchedulesFinish om heapBasePtr eT (drawn draws) ↔
      ∀ v, v ≠ 0 → (drawn draws).successors v ≠ [] → Takes om batchSizeMiB ((drawn draws).properties v).op := by
    apply schedulesFinish_iff nonneg (acyclic draws)
    intro v later successors
    rw [(shape draws).task forward later successors]
    exact (randomProperty_spec CBRatio batchSizeMiB (draws v)).2
  constructor
  · intro every opTag drawable
    obtain ⟨draw,same⟩ := exists_draw drawable batchSizeMiB
    obtain ⟨edge,member,later⟩ := several
    have fixed := shape fun _ => draw
    have successors : (drawn fun _ => draw).successors edge.1 ≠ [] :=
      List.ne_nil_of_mem ((mem_successors ..).mpr ((fixed.linked _ _).mpr member))
    have takes := (finish _).mp (every fun _ => draw) edge.1 later.ne' successors
    rwa [fixed.task forward later.ne' successors,same] at takes
  · intro costly draws
    refine (finish draws).mpr fun v later successors => ?_
    rw [(shape draws).task forward later successors]
    exact costly _ (randomProperty_spec CBRatio batchSizeMiB (draws v)).1

/-- HO workloads have one entry and one exit; in MO workloads nothing is before six tasks, and END is
linked to nothing. The pool finishes all schedules of either exactly if no operator that can be drawn is free. -/
theorem random_workloads_finish_iff (om : PerfModel) (nonneg : om.Nonneg) (CBRatio : ℚ)
    (batchSizeMiB heapBasePtr : Nat) (eT : ExecType) :
    (∀ draws, EntryExit (randomizeHO CBRatio batchSizeMiB draws)) ∧
    (∀ draws, ∀ v < 25, ((∀ u, ¬ (randomizeMO CBRatio batchSizeMiB draws).Linked u v) ↔ v ≤ 5 ∨ v = 24) ∧
      ((∀ w, ¬ (randomizeMO CBRatio batchSizeMiB draws).Linked v w) ↔ v = 23 ∨ v = 24)) ∧
    (DrawsFinish om heapBasePtr eT (randomizeHO CBRatio batchSizeMiB) ↔ Costly om CBRatio batchSizeMiB) ∧
    (DrawsFinish om heapBasePtr eT (randomizeMO CBRatio batchSizeMiB) ↔ Costly om CBRatio batchSizeMiB) := by
  refine ⟨randomizeHO_entryExit CBRatio batchSizeMiB,?_,?_,?_⟩
  · intro draws v inside
    exact randomizeMO_ends CBRatio batchSizeMiB draws inside
  · exact drawsFinish_iff nonneg heapBasePtr eT (randomizeHO_drawn CBRatio batchSizeMiB) (by decide) (by decide)
  · exact drawsFinish_iff nonneg heapBasePtr eT (randomizeMO_drawn CBRatio batchSizeMiB) (by decide) (by decide)

/-- Free tasks may stand in any order, and on some the threads wait forever. -/
theorem random_workloads_finish_iff_uniform :
    DrawsFinish (uniformPerf 1) 0 .MIMIC (randomizeMO (1 / 2) 20) ∧
      ¬ DrawsFinish (uniformPerf 0) 0 .MIMIC (randomizeHO (1 / 2) 20) := by
  constructor
  · obtain ⟨-,-,-,finish⟩ := random_workloads_finish_iff (uniformPerf 1)
      ⟨fun _ _ => zero_le_one,fun _ _ => zero_le_one⟩ (1 / 2) 20 0 .MIMIC
    refine finish.mpr fun opTag drawable => ?_
    norm_num [Takes,uniformPerf]
  · obtain ⟨-,-,finish,-⟩ := random_workloads_finish_iff (uniformPerf 0) ⟨fun _ _ => le_rfl,fun _ _ => le_rfl⟩
      (1 / 2) 20 0 .MIMIC
    intro finishes
    refine finish.mp finishes .FILTER (Or.inl ⟨by decide,by norm_num⟩) ?_
    norm_num [uniformPerf]

end Finish
end MetaPB.Workloads

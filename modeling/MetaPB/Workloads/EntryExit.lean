import MetaPB.Workloads.Butterfly
import MetaPB.Workloads.Gaussian

/-! What the schedulers assume of a workload, and the generated graphs that meet it: edges
lead to higher vertices, vertex 0 is the one entry and the last vertex the one exit. With
the first, a predecessor for all others and a successor for all others give the rest. -/
namespace MetaPB.Workloads
open Operator Executor Executor.TaskGraph Lib.Loop Lib.Butterfly

/-- One entry, one exit and a numbering along the edges. -/
structure EntryExit (g : TaskGraph) : Prop where
  forward : ∀ u v, g.Linked u v → u < v
  acyclic : g.Acyclic
  source : ∀ v < g.numVertices, (∀ u, ¬ g.Linked u v) ↔ v = 0
  sink : ∀ v < g.numVertices, (∀ w, ¬ g.Linked v w) ↔ v = g.numVertices - 1
  exit : (g.properties (g.numVertices - 1)).op = .LOGIC_END
  between : ∀ v < g.numVertices, Relation.ReflTransGen g.Linked 0 v ∧
    Relation.ReflTransGen g.Linked v (g.numVertices - 1)

theorem acyclic_of_forward {g : TaskGraph} (forward : ∀ u v, g.Linked u v → u < v) : g.Acyclic := by
  have above (u v : Nat) (path : Relation.TransGen g.Linked u v) : u < v := by
    induction path with
    | single linked => exact forward _ _ linked
    | tail _ linked ih => exact ih.trans (forward _ _ linked)
  exact fun v path => Nat.lt_irrefl v (above v v path)

theorem entryExit_of_neighbours {g : TaskGraph} (forward : ∀ u v, g.Linked u v → u < v)
    (before : ∀ v < g.numVertices, v ≠ 0 → ∃ u, g.Linked u v)
    (after : ∀ v < g.numVertices, v ≠ g.numVertices - 1 → ∃ w, g.Linked v w)
    (exit : (g.properties (g.numVertices - 1)).op = .LOGIC_END) : EntryExit g := by
  have entered (v : Nat) (inside : v < g.numVertices) : Relation.ReflTransGen g.Linked 0 v := by
    induction v using Nat.strong_induction_on with
    | _ v ih =>
      rcases eq_or_ne v 0 with rfl | positive
      · exact .refl
      · obtain ⟨u,linked⟩ := before v inside positive
        exact (ih u (forward u v linked) linked.bounds.1).tail linked
  have left (rest : Nat) : ∀ v < g.numVertices, g.numVertices - 1 - v = rest →
      Relation.ReflTransGen g.Linked v (g.numVertices - 1) := by
    induction rest using Nat.strong_induction_on with
    | _ rest ih =>
      intro v inside same
      rcases eq_or_ne v (g.numVertices - 1) with last | more
      · rw [← last]
      · obtain ⟨w,linked⟩ := after v inside more
        have higher := forward v w linked
        have bound := linked.bounds.2
        exact .head linked (ih (g.numVertices - 1 - w) (by omega) w bound rfl)
  refine ⟨forward,acyclic_of_forward forward,?_,?_,exit,
    fun v inside => ⟨entered v inside,left _ v inside rfl⟩⟩
  · intro v inside
    constructor
    · intro unlinked
      by_contra positive
      obtain ⟨u,linked⟩ := before v inside positive
      exact unlinked u linked
    · rintro rfl u linked
      exact Nat.not_lt_zero u (forward u 0 linked)
  · intro v inside
    constructor
    · intro unlinked
      by_contra more
      obtain ⟨w,linked⟩ := after v inside more
      exact unlinked w linked
    · intro last w linked
      have higher := forward v w linked
      have bound := linked.bounds.2
      omega

/-- One turn of the string: a vertex, and the edge to it from the one before. -/
def addOperator (s : TaskGraph × Nat) (p : TaskProperties) : TaskGraph × Nat :=
  let thisNode := s.1.numVertices
  ((s.1.addVertex p).addEdge ⟨s.2,thisNode,1⟩,thisNode)

/-- A string of operators between START and END. -/
def genInterleavedWorkload (batchSizeMiB opNum : Nat) : Option Workload :=
  let start : TaskProperties := ⟨.LOGIC_START,.Logical,batchSizeMiB⟩
  let memBound : TaskProperties := ⟨.ELEW_ADD,.MemoryBound,batchSizeMiB⟩
  let computeBound : TaskProperties := ⟨.CONV_1D,.ComputeBound,batchSizeMiB⟩
  let finish : TaskProperties := ⟨.LOGIC_END,.Logical,batchSizeMiB⟩
  -- `i <= opNum` holds of every int when opNum is the largest one, and `i++` overflows
  if opNum < 2^31 - 1 then
    let g := (TaskGraph.blank 0).addVertex start
    let s := (List.range' 1 opNum).foldl (fun s i =>
      addOperator s (if i % 2 ≠ 0 then computeBound else memBound)) (g,0)
    some ⟨(addOperator s finish).1,"string_workload"⟩
  else none

/-- A string of `count` edges, with its last vertex. -/
structure Chain (count : Nat) (s : TaskGraph × Nat) : Prop where
  last : s.2 = count
  size : s.1.numVertices = count + 1
  edges : s.1.edges = (List.range count).map fun i => ⟨i,i + 1,1⟩

theorem Chain.next {count : Nat} {s : TaskGraph × Nat} (before : Chain count s) (p : TaskProperties) :
    Chain (count + 1) (addOperator s p) ∧ (addOperator s p).1.properties (count + 1) = p := by
  obtain ⟨last,size,edges⟩ := before
  have longer : (s.1.addVertex p).numVertices = count + 1 + 1 := by rw [addVertex_size,size]
  have grown : (s.1.addVertex p).Grown [⟨s.2,s.1.numVertices,1⟩] (addOperator s p).1 := by
    apply addEdge_grown
    · simp only [last,longer]
      omega
    · simp only [size,longer]
      omega
  refine ⟨⟨size,grown.size.trans longer,?_⟩,?_⟩
  · rw [grown.edges,List.range_succ,List.map_append,← edges,last,size]
    rfl
  · rw [← size]
    exact (addEdge_properties _ (by omega)).trans (addVertex_last s.1 p)

theorem genInterleavedWorkload_chain (batchSizeMiB : Nat) {opNum : Nat} (small : opNum < 2^31 - 1) :
    ∃ workload last, genInterleavedWorkload batchSizeMiB opNum = some workload ∧
      Chain (opNum + 1) (workload.g,last) ∧ (workload.g.properties (opNum + 1)).op = .LOGIC_END := by
  have string (kind : Nat → TaskProperties) (start : TaskProperties) (count : Nat) :
      Chain count ((List.range' 1 count).foldl (fun s i => addOperator s (kind i))
        ((TaskGraph.blank 0).addVertex start,0)) := by
    induction count with
    | zero => exact ⟨rfl,rfl,rfl⟩
    | succ count ih =>
      rw [List.range'_1_concat,List.foldl_append]
      exact (ih.next _).1
  rw [genInterleavedWorkload,if_pos small]
  obtain ⟨chain,exit⟩ := (string _ _ opNum).next ⟨.LOGIC_END,.Logical,batchSizeMiB⟩
  exact ⟨_,_,rfl,chain,congrArg TaskProperties.op exit⟩

theorem Chain.entryExit {g : TaskGraph} {opNum last : Nat} (chain : Chain (opNum + 1) (g,last))
    (exit : (g.properties (opNum + 1)).op = .LOGIC_END) : EntryExit g := by
  have size : g.numVertices = opNum + 2 := chain.size
  have linked (u v : Nat) : g.Linked u v ↔ u < opNum + 1 ∧ v = u + 1 := by
    unfold TaskGraph.Linked
    rw [chain.edges]
    simp [eq_comm]
  apply entryExit_of_neighbours
  · intro u v edge
    have := (linked u v).mp edge
    omega
  · intro v inside positive
    exact ⟨v - 1,(linked _ _).mpr (by omega)⟩
  · intro v inside more
    exact ⟨v + 1,(linked _ _).mpr (by omega)⟩
  · rwa [size]

theorem cellId_first (n : Nat) : cellId (n + 2) 0 0 = 0 := by
  have first : cells (n + 2) = (0,0) :: (cells (n + 2)).tail := by
    simp [cells,List.range_succ_eq_map,List.range'_succ]
  rw [cellId,first,List.idxOf_cons_self]

theorem genGEA_entryExit (n batchSizeMiB : Nat) : EntryExit (genGEA (n + 2) batchSizeMiB).g := by
  obtain ⟨size,exit,-⟩ := genGEA_shape n batchSizeMiB
  have linked := genGEA_linked n batchSizeMiB
  have cell (v : Nat) (inside : v < (cells (n + 2)).length) : ∃ row col, row < n + 1 ∧ row ≤ col ∧
      col < n + 2 ∧ v = cellId (n + 2) row col := by
    have member := List.getElem_mem inside
    obtain ⟨small,above,below⟩ := mem_cells.mp member
    exact ⟨_,_,small,above,below,((cells_nodup (n + 2)).idxOf_getElem v inside).symm⟩
  have less {row col next there : Nat} (pIn : (row,col) ∈ cells (n + 2)) (qIn : (next,there) ∈ cells (n + 2))
      (before : row < next ∨ row = next ∧ col < there) :
      cellId (n + 2) row col < cellId (n + 2) next there :=
    idxOf_lt pIn qIn before
  apply entryExit_of_neighbours
  · intro u v edge
    rcases (linked u v).mp edge with ⟨row,i,small,above,below,rfl,rfl⟩ | ⟨row,col,small,above,below,rfl,rfl⟩ |
      ⟨rfl,rfl⟩
    · exact less (mem_cells.mpr ⟨by omega,le_rfl,by omega⟩) (mem_cells.mpr ⟨by omega,above.le,below⟩)
        (Or.inr ⟨rfl,above⟩)
    · exact less (mem_cells.mpr ⟨by omega,above.le,below⟩) (mem_cells.mpr ⟨by omega,above,below⟩)
        (Or.inl (Nat.lt_succ_self row))
    · exact cellId_lt (mem_cells.mpr ⟨by omega,Nat.le_succ n,by omega⟩)
  · intro v inside positive
    rcases Nat.lt_or_ge v (cells (n + 2)).length with early | last
    · obtain ⟨row,col,small,above,below,rfl⟩ := cell v early
      rcases Nat.lt_or_eq_of_le above with right | rfl
      · exact ⟨_,(linked _ _).mpr (Or.inl ⟨row,col,small,right,below,rfl,rfl⟩)⟩
      · cases row with
        | zero => exact absurd (cellId_first n) positive
        | succ row =>
          exact ⟨_,(linked _ _).mpr (Or.inr (Or.inl ⟨row,row + 1,by omega,Nat.lt_succ_self row,below,rfl,rfl⟩))⟩
    · exact ⟨_,(linked _ _).mpr (Or.inr (Or.inr ⟨rfl,by omega⟩))⟩
  · intro v inside more
    obtain ⟨row,col,small,above,below,rfl⟩ := cell v (by omega)
    rcases Nat.lt_or_eq_of_le above with right | rfl
    · rcases Nat.lt_or_ge row n with lower | bottom
      · exact ⟨_,(linked _ _).mpr (Or.inr (Or.inl ⟨row,col,lower,right,below,rfl,rfl⟩))⟩
      · have rowIs : row = n := by omega
        have colIs : col = n + 1 := by omega
        subst rowIs
        subst colIs
        exact ⟨_,(linked _ _).mpr (Or.inr (Or.inr ⟨rfl,rfl⟩))⟩
    · exact ⟨_,(linked _ _).mpr (Or.inl ⟨row,row + 1,small,Nat.lt_succ_self row,by omega,rfl,rfl⟩)⟩
  · rw [size]
    exact exit

theorem Butterfly.entryExit {m : Nat} {g : TaskGraph} (shape : Butterfly m g) : EntryExit g := by
  have size := shape.size
  have positive := Nat.two_pow_pos m
  have stage (v : Nat) (inside : v < endVertex m) (later : v ≠ 0) :
      ∃ s ≤ m, ∃ x < 2^m, v = stageVertex m s x := by
    have bound : v - 1 < 2^m * (m + 1) := by
      unfold endVertex at inside
      omega
    have whole := Nat.div_add_mod' (v - 1) (2^m)
    refine ⟨(v - 1) / 2^m,Nat.lt_succ_iff.mp (Nat.div_lt_of_lt_mul bound),(v - 1) % 2^m,
      Nat.mod_lt _ positive,?_⟩
    unfold stageVertex
    omega
  apply entryExit_of_neighbours
  · intro u v edge
    rcases shape.linked_iff.mp edge with ⟨i,iIn,rfl,rfl⟩ | ⟨s,small,a,aIn,b,bIn,-,rfl,rfl⟩ | ⟨i,iIn,rfl,rfl⟩
    · exact stageVertex_pos 0 i
    · have next : (s + 1) * 2^m = s * 2^m + 2^m := Nat.succ_mul s _
      unfold stageVertex
      omega
    · exact stageVertex_lt le_rfl iIn
  · intro v inside later
    rcases Nat.lt_or_ge v (endVertex m) with early | last
    · obtain ⟨s,layer,x,xIn,rfl⟩ := stage v early later
      cases s with
      | zero => exact ⟨_,shape.linked_iff.mpr (Or.inl ⟨x,xIn,rfl,rfl⟩)⟩
      | succ s => exact ⟨_,(shape.linked_back layer xIn _).mpr ⟨x,xIn,⟨rfl,rfl⟩,rfl⟩⟩
    · exact ⟨_,shape.linked_iff.mpr (Or.inr (Or.inr ⟨0,positive,rfl,by omega⟩))⟩
  · intro v inside more
    rcases eq_or_ne v 0 with rfl | later
    · exact ⟨_,shape.linked_iff.mpr (Or.inl ⟨0,positive,rfl,rfl⟩)⟩
    · obtain ⟨s,layer,x,xIn,rfl⟩ := stage v (by omega) later
      rcases Nat.lt_or_eq_of_le layer with inner | rfl
      · exact ⟨_,(shape.linked_stage inner xIn _).mpr ⟨x,xIn,⟨rfl,rfl⟩,rfl⟩⟩
      · exact ⟨_,shape.linked_iff.mpr (Or.inr (Or.inr ⟨x,xIn,rfl,rfl⟩))⟩
  · rw [size]
    exact shape.exit

/-- With `2^27` positions an edge of stage 14 ends at `2^31`, which no int holds. -/
theorem genFFT_overflows (batchSizeMiB : Nat) : genFFT 67108865 batchSizeMiB = none := by
  have power : nextExp2 67108865 = BitVec.ofNat 32 (2^27) := by decide +kernel
  have log : Nat.log2 (nextExp2 67108865).toNat = 27 := by
    have width : (BitVec.ofNat 32 (2^27)).toNat = 2^27 := by decide +kernel
    rw [power,width,Nat.log2_two_pow]
  by_contra returned
  obtain ⟨workload,made⟩ := Option.ne_none_iff_exists'.mp returned
  simp only [genFFT,log,Option.bind_eq_bind,Option.bind_eq_some_iff] at made
  obtain ⟨_,stages,-⟩ := made
  obtain ⟨_,_,blocks⟩ := loop_turn stages (by decide : 14 < 27)
  rw [power] at blocks
  obtain ⟨_,_,offsets⟩ := loop_turn blocks (by decide : 4095 < 2^27 / 2^(14 + 1))
  obtain ⟨g,next,crossed⟩ := loop_turn offsets (by decide : 16383 < 2^(14 + 1) / 2)
  have negative : vertexId (BitVec.ofNat 32 (2^27)) (4095 * 2^(14 + 1) + 16383 + 1 + 2^(14 + 1) / 2) (14 + 1) =
      -2^31 := by decide +kernel
  simp only [crossEdges,negative,TaskGraph.addEdgeInt] at crossed
  norm_num at crossed
  cases crossed

theorem generated_workloads_overflow :
    ¬ (∃ workload, genFFT 67108865 1 = some workload ∧ EntryExit workload.g) ∧
      ¬ ∃ workload, genInterleavedWorkload 1 2147483647 = some workload ∧ EntryExit workload.g := by
  constructor
  · rintro ⟨workload,made,-⟩
    rw [genFFT_overflows] at made
    contradiction
  · rintro ⟨workload,made,-⟩
    rw [genInterleavedWorkload,if_neg (by decide)] at made
    contradiction

/-- At all sizes whose vertex ids and loop counters are ints, the three generators return graphs
with one entry, one exit and edges to higher vertices. -/
theorem generated_workloads_entryExit (batchSizeMiB signalLength matrixSize opNum : Nat)
    (positive : 1 ≤ signalLength) (int : signalLength < 2^31)
    (fits : (nextExp2 signalLength).toNat * (Nat.log2 (nextExp2 signalLength).toNat + 1) + 2 < 2^31)
    (square : 2 ≤ matrixSize) (counter : opNum < 2^31 - 1) :
    (∃ workload, genFFT signalLength batchSizeMiB = some workload ∧ EntryExit workload.g) ∧
      EntryExit (genGEA matrixSize batchSizeMiB).g ∧
      ∃ workload, genInterleavedWorkload batchSizeMiB opNum = some workload ∧ EntryExit workload.g := by
  rw [nextExp2_toNat positive int,Nat.log2_two_pow] at fits
  obtain ⟨fft,made,shape⟩ := genFFT_butterfly batchSizeMiB positive int fits
  obtain ⟨string,_,strung,chain,exit⟩ := genInterleavedWorkload_chain batchSizeMiB counter
  obtain ⟨n,rfl⟩ := Nat.exists_eq_add_of_le' square
  exact ⟨⟨fft,made,shape.entryExit⟩,genGEA_entryExit n batchSizeMiB,string,strung,chain.entryExit exit⟩

theorem generated_workloads_entryExit_small :
    (∃ workload, genFFT 4 1 = some workload ∧ EntryExit workload.g) ∧ EntryExit (genGEA 4 1).g ∧
      ∃ workload, genInterleavedWorkload 1 6 = some workload ∧ EntryExit workload.g :=
  generated_workloads_entryExit 1 4 4 6 (by decide) (by decide) (by decide) (by decide) (by decide)

end MetaPB.Workloads

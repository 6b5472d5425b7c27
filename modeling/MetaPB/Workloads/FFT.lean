import MetaPB.Executor.GraphBuilder
import MetaPB.Lib.Butterfly
import Mathlib.Data.BitVec

/-! The FFT workload: the next power of two by the bit trick on 32-bit words, the stages in
a triple loop over block, offset and stage, and one entry and exit around them. While the
vertex count fits an int, the graph is a butterfly between START and END. -/
namespace MetaPB.Workloads
open Operator Executor Lib.Loop Lib.Butterfly

/-- The bitwise magic that finds the next power of two. -/
def nextExp2 (signalLength : Nat) : BitVec 32 :=
  let N := BitVec.ofNat 32 signalLength
  let N := N - 1#32
  let N := N ||| N >>> 1
  let N := N ||| N >>> 2
  let N := N ||| N >>> 4
  let N := N ||| N >>> 8
  let N := N ||| N >>> 16
  N + 1#32

/-- An unsigned sum stored in an `int`. -/
def vertexId (N : BitVec 32) (u stage : Nat) : ℤ :=
  (BitVec.ofNat 32 u + BitVec.ofNat 32 stage * N).toInt

def crossEdges (N : BitVec 32) (stage u v : Nat) (g : TaskGraph) : Option TaskGraph := do
  let uh := vertexId N u stage
  let ul := vertexId N u (stage + 1)
  let vh := vertexId N v stage
  let vl := vertexId N v (stage + 1)
  let g ← g.addEdgeInt uh vl 1
  let g ← g.addEdgeInt vh ul 1
  let g ← g.addEdgeInt uh ul 1
  g.addEdgeInt vh vl 1

-- where a shift or a sum of ints would overflow, the first edge already has a negative end
def genFFT (signalLength batchSizeMiB : Nat) : Option Workload := do
  let N := nextExp2 signalLength
  let log2N := Nat.log2 N.toNat
  let startNode : TaskProperties := ⟨.LOGIC_START,.Logical,0⟩
  let endNode : TaskProperties := ⟨.LOGIC_END,.Logical,0⟩
  let fftNode : TaskProperties := ⟨.AFFINE,.ComputeBound,batchSizeMiB⟩
  let g := TaskGraph.blank (N * (BitVec.ofNat 32 log2N + 1#32) + 2#32).toNat
  let g ← loop log2N (fun stage =>
    let numBlocks := N.toNat / 2^(stage + 1)
    let blockSize := 2^(stage + 1)
    loop numBlocks fun block => loop (blockSize / 2) fun k =>
      let u := block * blockSize + k + 1
      let v := u + blockSize / 2
      crossEdges N stage u v) g
  let g := g.setAll fftNode
  let last := (N * (BitVec.ofNat 32 log2N + 1#32) + 1#32).toNat
  let g ← loop N.toNat (fun i g =>
    let g := g.addEdge ⟨0,i + 1,1⟩
    some (g.addEdge ⟨(N * BitVec.ofNat 32 log2N + BitVec.ofNat 32 i + 1#32).toNat,last,1⟩)) g
  let g := g.setProperties 0 startNode
  let g := g.setProperties last endNode
  return ⟨g,"FFT_" ++ toString N.toNat⟩

theorem nextExp2_toNat {signalLength : Nat} (positive : 1 ≤ signalLength) (int : signalLength < 2^31) :
    (nextExp2 signalLength).toNat = 2^Nat.clog 2 signalLength := by
  have before : (BitVec.ofNat 32 signalLength - 1#32).toNat = signalLength - 1 := by
    rw [BitVec.toNat_sub]
    simp
    omega
  have spread := ((((spread_self (signalLength - 1)).double.double).double).double).double
  have ones := spread.eq_ones (by omega)
  rw [size_pred_eq_clog positive] at ones
  have bound : Nat.clog 2 signalLength ≤ 31 := Nat.clog_le_of_le_pow int.le
  have power : 2^Nat.clog 2 signalLength ≤ 2^31 := Nat.pow_le_pow_right Nat.zero_lt_two bound
  have least : 0 < 2^Nat.clog 2 signalLength := Nat.two_pow_pos _
  simp only [nextExp2,BitVec.toNat_add,BitVec.toNat_or,BitVec.toNat_ushiftRight,before]
  norm_num at ones ⊢
  rw [ones]
  omega

section Shape
variable {m : Nat}

/-- The vertex of a position in a stage; START comes before all of them, END behind. -/
def stageVertex (m stage x : Nat) : Nat := x + 1 + stage * 2^m

def endVertex (m : Nat) : Nat := 2^m * (m + 1) + 1

/-- The four edges of one turn, between both ends in a stage and both in the next. -/
def crossing (m stage x : Nat) : List Transfer :=
  [⟨stageVertex m stage x,stageVertex m (stage + 1) (x + 2^stage),1⟩,
    ⟨stageVertex m stage (x + 2^stage),stageVertex m (stage + 1) x,1⟩,
    ⟨stageVertex m stage x,stageVertex m (stage + 1) x,1⟩,
    ⟨stageVertex m stage (x + 2^stage),stageVertex m (stage + 1) (x + 2^stage),1⟩]

def stageEdges (m : Nat) : List Transfer :=
  (List.range m).flatMap fun stage => (List.range (2^m / 2^(stage + 1))).flatMap fun block =>
    (List.range (2^(stage + 1) / 2)).flatMap fun k => crossing m stage (block * 2^(stage + 1) + k)

def borderEdges (m : Nat) : List Transfer :=
  (List.range (2^m)).flatMap fun i => [⟨0,i + 1,1⟩,⟨stageVertex m m i,endVertex m,1⟩]

theorem half_block (stage : Nat) : 2^(stage + 1) / 2 = 2^stage := by
  rw [Nat.pow_succ,Nat.mul_div_cancel _ Nat.zero_lt_two]

theorem block_inside {stage block k : Nat} (small : stage < m) (blockIn : block < 2^m / 2^(stage + 1))
    (offset : k < 2^stage) : block * 2^(stage + 1) + k + 2^stage < 2^m := by
  have double : 2^(stage + 1) = 2 * 2^stage := Nat.pow_succ'
  have fits : (block + 1) * 2^(stage + 1) ≤ 2^m := by
    have whole := Nat.div_mul_cancel (Nat.pow_dvd_pow 2 (Nat.succ_le_of_lt small))
    rw [← whole]
    exact Nat.mul_le_mul_right _ blockIn
  rw [Nat.succ_mul] at fits
  omega

theorem stageVertex_lt {stage x : Nat} (layer : stage ≤ m) (inside : x < 2^m) :
    stageVertex m stage x < endVertex m := by
  have rows : stage * 2^m ≤ m * 2^m := Nat.mul_le_mul_right _ layer
  have total : 2^m * (m + 1) = m * 2^m + 2^m := by rw [Nat.mul_comm,Nat.succ_mul]
  unfold stageVertex endVertex
  omega

theorem vertexId_eq (fits : endVertex m + 1 < 2^31) {N : BitVec 32} (power : N.toNat = 2^m)
    {x stage : Nat} (layer : stage ≤ m) (inside : x < 2^m) :
    vertexId N (x + 1) stage = stageVertex m stage x := by
  have bound := stageVertex_lt layer inside
  have small : stage * 2^m < 2^31 := by
    unfold stageVertex at bound
    omega
  have positive := Nat.two_pow_pos m
  have least : stage ≤ stage * 2^m := Nat.le_mul_of_pos_right stage positive
  have row : (BitVec.ofNat 32 stage * N).toNat = stage * 2^m := by
    rw [BitVec.toNat_mul,BitVec.toNat_ofNat,power,Nat.mod_eq_of_lt (by omega : stage < 2^32),
      Nat.mod_eq_of_lt (by omega)]
  have total : (BitVec.ofNat 32 (x + 1) + BitVec.ofNat 32 stage * N).toNat = stageVertex m stage x := by
    unfold stageVertex at bound ⊢
    rw [BitVec.toNat_add,BitVec.toNat_ofNat,row,Nat.mod_eq_of_lt (by omega : x + 1 < 2^32),
      Nat.mod_eq_of_lt (by omega)]
  rw [vertexId,BitVec.toInt_eq_toNat_of_lt (by omega),total]

theorem crossEdges_grown (fits : endVertex m + 1 < 2^31) {N : BitVec 32} (power : N.toNat = 2^m)
    {x stage : Nat} (small : stage < m) (inside : x + 2^stage < 2^m) {g : TaskGraph}
    (size : g.numVertices = endVertex m + 1) :
    ∃ next, crossEdges N stage (x + 1) (x + 2^stage + 1) g = some next ∧
      g.Grown (crossing m stage x) next := by
  have low : x < 2^m := (Nat.le_add_right x _).trans_lt inside
  have ids (y : Nat) (yIn : y < 2^m) (layer : Nat) (below : layer ≤ m) :
      vertexId N (y + 1) layer = stageVertex m layer y ∧ stageVertex m layer y < endVertex m + 1 :=
    ⟨vertexId_eq fits power below yIn,(stageVertex_lt below yIn).trans (Nat.lt_succ_self _)⟩
  obtain ⟨uh,uhIn⟩ := ids x low stage small.le
  obtain ⟨ul,ulIn⟩ := ids x low (stage + 1) small
  obtain ⟨vh,vhIn⟩ := ids _ inside stage small.le
  obtain ⟨vl,vlIn⟩ := ids _ inside (stage + 1) small
  obtain ⟨g₁,first,grown₁⟩ := TaskGraph.addEdgeInt_grown 1 (size ▸ uhIn) (size ▸ vlIn)
  have size₁ := grown₁.size.trans size
  obtain ⟨g₂,second,grown₂⟩ := TaskGraph.addEdgeInt_grown 1 (size₁ ▸ vhIn) (size₁ ▸ ulIn)
  have size₂ := grown₂.size.trans size₁
  obtain ⟨g₃,third,grown₃⟩ := TaskGraph.addEdgeInt_grown 1 (size₂ ▸ uhIn) (size₂ ▸ ulIn)
  have size₃ := grown₃.size.trans size₂
  obtain ⟨g₄,fourth,grown₄⟩ := TaskGraph.addEdgeInt_grown 1 (size₃ ▸ vhIn) (size₃ ▸ vlIn)
  refine ⟨g₄,?_,grown₁.trans (grown₂.trans (grown₃.trans grown₄))⟩
  simp only [crossEdges,uh,ul,vh,vl,first,second,third,fourth,Option.bind_eq_bind,Option.bind_some]

theorem stages_grown (fits : endVertex m + 1 < 2^31) {N : BitVec 32} (power : N.toNat = 2^m)
    {g : TaskGraph} (size : g.numVertices = endVertex m + 1) :
    ∃ next, loop m (fun stage => loop (N.toNat / 2^(stage + 1)) fun block =>
        loop (2^(stage + 1) / 2) fun k => crossEdges N stage (block * 2^(stage + 1) + k + 1)
          (block * 2^(stage + 1) + k + 1 + 2^(stage + 1) / 2)) g = some next ∧
      g.Grown (stageEdges m) next := by
  rw [power]
  apply TaskGraph.loop_grown size
  intro stage small g size
  apply TaskGraph.loop_grown size
  intro block blockIn g size
  apply TaskGraph.loop_grown size
  intro k offset g size
  rw [half_block] at offset
  have other : block * 2^(stage + 1) + k + 1 + 2^(stage + 1) / 2 =
      block * 2^(stage + 1) + k + 2^stage + 1 := by
    rw [half_block]
    omega
  rw [other]
  exact crossEdges_grown fits power small (block_inside small blockIn offset) size

theorem border_grown {N : BitVec 32} (power : N.toNat = 2^m) (fits : endVertex m + 1 < 2^31)
    {g : TaskGraph} (size : g.numVertices = endVertex m + 1) :
    ∃ next, loop N.toNat (fun i g => some ((g.addEdge ⟨0,i + 1,1⟩).addEdge
        ⟨(N * BitVec.ofNat 32 m + BitVec.ofNat 32 i + 1#32).toNat,endVertex m,1⟩)) g = some next ∧
      g.Grown (borderEdges m) next := by
  rw [power]
  apply TaskGraph.loop_grown size
  intro i small g size
  have inside := stageVertex_lt le_rfl small
  have first := stageVertex_lt (Nat.zero_le m) small
  have bound : m < 2^m := Nat.lt_two_pow_self
  have source : (N * BitVec.ofNat 32 m + BitVec.ofNat 32 i + 1#32).toNat = stageVertex m m i := by
    unfold stageVertex at inside ⊢
    have swap : 2^m * m = m * 2^m := Nat.mul_comm _ _
    simp only [BitVec.toNat_add,BitVec.toNat_mul,BitVec.toNat_ofNat,power]
    rw [Nat.mod_eq_of_lt (by omega : m < 2^32),Nat.mod_eq_of_lt (by omega : i < 2^32),
      Nat.mod_eq_of_lt (by omega : 1 < 2^32),Nat.mod_eq_of_lt (by omega : 2^m * m < 2^32),
      Nat.mod_eq_of_lt (by omega : 2^m * m + i < 2^32),Nat.mod_eq_of_lt (by omega)]
    omega
  refine ⟨_,rfl,?_⟩
  rw [source]
  have entry : g.Grown [⟨0,i + 1,1⟩] (g.addEdge ⟨0,i + 1,1⟩) := by
    apply TaskGraph.addEdge_grown
    · rw [size]
      exact Nat.succ_pos _
    · rw [size]
      unfold stageVertex at first
      exact (by omega : i + 1 < endVertex m + 1)
  refine entry.trans (TaskGraph.addEdge_grown ?_ ?_)
  · rw [entry.size,size]
    exact Nat.lt_succ_of_lt inside
  · rw [entry.size,size]
    exact Nat.lt_succ_self _

/-- The graph the generator is meant to return. -/
structure Butterfly (m : Nat) (g : TaskGraph) : Prop where
  size : g.numVertices = endVertex m + 1
  edges : g.edges = stageEdges m ++ borderEdges m
  exit : (g.properties (endVertex m)).op = .LOGIC_END

theorem border_tasks {first second : Nat → Transfer} {count : Nat} {g next : TaskGraph}
    (ran : loop count (fun i g => some ((g.addEdge (first i)).addEdge (second i))) g = some next) :
    ∀ v < g.numVertices, next.properties v = g.properties v := by
  refine (loop_invariant (fun _ (s : TaskGraph) => g.numVertices ≤ s.numVertices ∧
    ∀ v < g.numVertices, s.properties v = g.properties v) ⟨le_rfl,fun _ _ => rfl⟩ ?_ ran).2
  rintro i - s t ⟨room,same⟩ stepped
  obtain rfl := Option.some.inj stepped
  have grows := TaskGraph.addEdge_size_le s (first i)
  refine ⟨(room.trans grows).trans (TaskGraph.addEdge_size_le ..),fun v inside => ?_⟩
  have early := inside.trans_le room
  rw [TaskGraph.addEdge_properties _ (early.trans_le grows),TaskGraph.addEdge_properties _ early,same v inside]

/-- What the generator returns, up to the last graph before START and END are put in. -/
theorem genFFT_built {signalLength : Nat} (batchSizeMiB : Nat) (positive : 1 ≤ signalLength)
    (int : signalLength < 2^31) (fits : endVertex (Nat.clog 2 signalLength) + 1 < 2^31) :
    let last := endVertex (Nat.clog 2 signalLength)
    ∃ g : TaskGraph, genFFT signalLength batchSizeMiB =
        some ⟨(g.setProperties 0 ⟨.LOGIC_START,.Logical,0⟩).setProperties last ⟨.LOGIC_END,.Logical,0⟩,
          "FFT_" ++ toString (nextExp2 signalLength).toNat⟩ ∧
      g.numVertices = last + 1 ∧
      g.edges = stageEdges (Nat.clog 2 signalLength) ++ borderEdges (Nat.clog 2 signalLength) ∧
      ∀ v < last + 1, g.properties v = ⟨.AFFINE,.ComputeBound,batchSizeMiB⟩ := by
  generalize clog : Nat.clog 2 signalLength = m at fits ⊢
  have power : (nextExp2 signalLength).toNat = 2^m := clog ▸ nextExp2_toNat positive int
  have log : Nat.log2 (nextExp2 signalLength).toNat = m := by rw [power,Nat.log2_two_pow]
  have bound : m < 2^m := Nat.lt_two_pow_self
  have product : (2^m * (m + 1) : Nat) < 2^31 := by
    unfold endVertex at fits
    omega
  have widths : (2^m : Nat) ≤ 2^m * (m + 1) := Nat.le_mul_of_pos_right _ (Nat.succ_pos m)
  have last : (nextExp2 signalLength * (BitVec.ofNat 32 m + 1#32) + 1#32).toNat = endVertex m := by
    simp only [BitVec.toNat_add,BitVec.toNat_mul,BitVec.toNat_ofNat,power]
    rw [Nat.mod_eq_of_lt (by omega : m < 2^32),Nat.mod_eq_of_lt (by omega : 1 < 2^32),
      Nat.mod_eq_of_lt (by omega : m + 1 < 2^32),Nat.mod_eq_of_lt (by omega : 2^m * (m + 1) < 2^32),
      Nat.mod_eq_of_lt (by omega)]
    rfl
  have count : (nextExp2 signalLength * (BitVec.ofNat 32 m + 1#32) + 2#32).toNat = endVertex m + 1 := by
    unfold endVertex at fits ⊢
    simp only [BitVec.toNat_add,BitVec.toNat_mul,BitVec.toNat_ofNat,power]
    rw [Nat.mod_eq_of_lt (by omega : m < 2^32),Nat.mod_eq_of_lt (by omega : 1 < 2^32),
      Nat.mod_eq_of_lt (by omega : 2 < 2^32),Nat.mod_eq_of_lt (by omega : m + 1 < 2^32),
      Nat.mod_eq_of_lt (by omega : 2^m * (m + 1) < 2^32),Nat.mod_eq_of_lt (by omega)]
  have blank : (TaskGraph.blank (endVertex m + 1)).numVertices = endVertex m + 1 := List.length_replicate
  obtain ⟨g₁,staged,grown₁⟩ := stages_grown fits power blank
  have size₁ : (g₁.setAll ⟨.AFFINE,.ComputeBound,batchSizeMiB⟩).numVertices = endVertex m + 1 :=
    (List.length_map _).trans (grown₁.size.trans blank)
  obtain ⟨g₂,bordered,grown₂⟩ := border_grown power fits size₁
  have size₂ := grown₂.size.trans size₁
  refine ⟨g₂,?_,size₂,?_,fun v inside => ?_⟩
  · simp only [genFFT,log,last,count,Option.bind_eq_bind,staged,bordered,Option.bind_some,Option.pure_def]
  · have same : g₂.edges = g₁.edges ++ borderEdges m := grown₂.edges
    have plain : g₁.edges = stageEdges m := grown₁.edges
    exact same.trans (by rw [plain])
  · rw [border_tasks bordered v (inside.trans_eq size₁.symm)]
    exact TaskGraph.setAll_apply ((inside.trans_eq size₁.symm).trans_eq (List.length_map _)) _

theorem genFFT_butterfly {signalLength : Nat} (batchSizeMiB : Nat) (positive : 1 ≤ signalLength)
    (int : signalLength < 2^31) (fits : endVertex (Nat.clog 2 signalLength) + 1 < 2^31) :
    ∃ workload, genFFT signalLength batchSizeMiB = some workload ∧
      Butterfly (Nat.clog 2 signalLength) workload.g := by
  obtain ⟨g,built,size,edges,-⟩ := genFFT_built batchSizeMiB positive int fits
  refine ⟨_,built,?_,edges,?_⟩
  · exact ((g.setProperties_grown 0 _).trans (TaskGraph.setProperties_grown _ _ _)).size.trans size
  · have bound : endVertex (Nat.clog 2 signalLength) < g.vertices.length :=
      (Nat.lt_succ_self _).trans_eq size.symm
    simp [TaskGraph.properties,TaskGraph.setProperties,bound]

end Shape
end MetaPB.Workloads

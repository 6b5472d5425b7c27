import MetaPB.Scheduler.Execution
import MetaPB.Scheduler.Feasibility
import MetaPB.Workloads.EntryExit

/-! What the generators put into the vertices between entry and exit, and which of these tasks
have to take time for the pool to finish the workload. -/
namespace MetaPB.Workloads
open Operator Executor Executor.TaskGraph Scheduler Lib.Word

section Cells
variable {N : Nat} {batchSizeMiB : Nat} {rc2Task : TaskMap} {g : TaskGraph}

def cellTask (batchSizeMiB : Nat) (cell : Nat × Nat) : TaskProperties :=
  if cell.2 = cell.1 then geaDiagonal batchSizeMiB else geaNode batchSizeMiB

/-- The later graph has the task at that vertex, and the other cells as they were. -/
def Puts (N vertex : Nat) (p : TaskProperties) (g next : TaskGraph) : Prop :=
  (cells N).length ≤ next.numVertices ∧
    ∀ v < (cells N).length, next.properties v = if v = vertex then p else g.properties v

theorem Puts.again {vertex : Nat} {p : TaskProperties} {middle next : TaskGraph}
    (first : Puts N vertex p g middle) (second : Puts N vertex p middle next) : Puts N vertex p g next := by
  refine ⟨second.1,fun v inside => ?_⟩
  rw [second.2 v inside,first.2 v inside]
  split <;> rfl

theorem connect_puts (found : Found N rc2Task) (p : TaskProperties) {row col toRow toCol : Nat}
    (source : (row,col) ∈ cells N) (target : (toRow,toCol) ∈ cells N) (room : (cells N).length ≤ g.numVertices) :
    ∃ next, connect rc2Task p g row col toRow toCol = some next ∧ Puts N (cellId N row col) p g next := by
  refine ⟨(g.setProperties (cellId N row col) p).addEdge ⟨cellId N row col,cellId N toRow toCol,1⟩,?_,?_,?_⟩
  · simp [connect,found.at source,found.at target]
  · have size := setProperties_size g (cellId N row col) p
    exact (room.trans_eq size.symm).trans (addEdge_size_le ..)
  · intro v inside
    have early := inside.trans_le room
    rw [addEdge_properties _ (early.trans_eq (setProperties_size ..).symm),
      setProperties_apply ((cellId_lt source).trans_le room)]

theorem diagonal_puts (found : Found N rc2Task) (p : TaskProperties) {row col : Nat}
    (source : (row,col) ∈ cells N) {items : List Nat} (targets : ∀ i ∈ items, (row,i) ∈ cells N)
    (filled : items ≠ []) (room : (cells N).length ≤ g.numVertices) :
    Puts N (cellId N row col) p g (items.foldl (fun g i => (connect rc2Task p g row col row i).getD g) g) := by
  induction items generalizing g with
  | nil => exact absurd rfl filled
  | cons i rest ih =>
    obtain ⟨next,made,puts⟩ := connect_puts found p source (targets i List.mem_cons_self) room
    rw [List.foldl_cons,made,Option.getD_some]
    rcases List.eq_nil_or_concat rest with rfl | more
    · exact puts
    · have others : rest ≠ [] := by
        rintro rfl
        obtain ⟨_,_,same⟩ := more
        simp at same
      exact puts.again (ih (fun other member => targets other (List.mem_cons_of_mem i member)) others puts.1)

theorem connectCell_puts {n : Nat} (found : Found (n + 2) rc2Task) {cell : Nat × Nat}
    (member : cell ∈ cells (n + 2)) (room : (cells (n + 2)).length ≤ g.numVertices) :
    Puts (n + 2) (cellId (n + 2) cell.1 cell.2) (cellTask batchSizeMiB cell) g
      (connectCell (n + 2) batchSizeMiB rc2Task g cell.1 cell.2) := by
  obtain ⟨row,col⟩ := cell
  obtain ⟨small,above,below⟩ := mem_cells.mp member
  simp only [connectCell,cellTask]
  split
  next diagonal =>
    subst diagonal
    apply diagonal_puts found _ member _ _ room
    · intro i listed
      have later := List.mem_range'_1.mp listed
      exact mem_cells.mpr ⟨small,by omega,by omega⟩
    · intro empty
      have := List.range'_eq_nil_iff.mp empty
      omega
  next off =>
    rcases Nat.lt_or_ge (row + 1) (n + 1) with lower | bottom
    · have target : (row + 1,col) ∈ cells (n + 2) := mem_cells.mpr ⟨lower,by omega,below⟩
      obtain ⟨next,made,puts⟩ := connect_puts found (geaNode batchSizeMiB) member target room
      rw [made]
      exact puts
    · obtain rfl : row = n := by omega
      obtain rfl : col = row + 1 := by omega
      have below : (row + 1,row + 1) ∉ cells (row + 2) := fun listed => by
        have := (mem_cells.mp listed).1
        omega
      have refused : connect rc2Task (geaNode batchSizeMiB) g row (row + 1) (row + 1) (row + 1) = none := by
        simp [connect,found.at member,found (row + 1),below]
      have corner : row = row + 2 - 2 ∧ row + 1 = row + 2 - 1 := ⟨rfl,rfl⟩
      simp only [refused,if_pos corner,found.at member,Option.getD_some]
      let marked := g.setProperties (cellId (row + 2) row (row + 1)) (geaNode batchSizeMiB)
      have size : marked.numVertices = g.numVertices := setProperties_size ..
      have longer : marked.numVertices ≤ (marked.addVertex geaEnd).numVertices :=
        (Nat.le_succ _).trans_eq (addVertex_size ..).symm
      refine ⟨(room.trans_eq size.symm).trans (longer.trans (addEdge_size_le ..)),fun v inside => ?_⟩
      have early := (inside.trans_le room).trans_eq size.symm
      rw [addEdge_properties _ (early.trans_le longer),addVertex_early early,
        setProperties_apply ((cellId_lt member).trans_le room)]

theorem cells_puts {n : Nat} (found : Found (n + 2) rc2Task) {rest : List (Nat × Nat)}
    (within : ∀ cell ∈ rest, cell ∈ cells (n + 2)) (room : (cells (n + 2)).length ≤ g.numVertices) :
    ∀ cell ∈ cells (n + 2), cell ∈ rest ∨
        g.properties (cellId (n + 2) cell.1 cell.2) = cellTask batchSizeMiB cell →
      (rest.foldl (fun g cell => connectCell (n + 2) batchSizeMiB rc2Task g cell.1 cell.2) g).properties
        (cellId (n + 2) cell.1 cell.2) = cellTask batchSizeMiB cell := by
  induction rest generalizing g with
  | nil =>
    intro cell _ put
    exact put.resolve_left List.not_mem_nil
  | cons first rest ih =>
    intro cell member put
    have puts : Puts (n + 2) (cellId (n + 2) first.1 first.2) (cellTask batchSizeMiB first) g
        (connectCell (n + 2) batchSizeMiB rc2Task g first.1 first.2) :=
      connectCell_puts found (within first List.mem_cons_self) room
    obtain ⟨enough,each⟩ := puts
    apply ih (fun other listed => within other (List.mem_cons_of_mem first listed)) enough cell member
    rcases eq_or_ne cell first with rfl | apart
    · right
      rw [each _ (cellId_lt member),if_pos rfl]
    · rcases put with listed | already
      · exact Or.inl ((List.mem_cons.mp listed).resolve_left apart)
      · right
        have other : cellId (n + 2) cell.1 cell.2 ≠ cellId (n + 2) first.1 first.2 := fun same =>
          apart ((List.idxOf_inj member).mp same)
        rw [each _ (cellId_lt member),if_neg other,already]

theorem genGEA_tasks (n batchSizeMiB : Nat) {cell : Nat × Nat} (member : cell ∈ cells (n + 2)) :
    (genGEA (n + 2) batchSizeMiB).g.properties (cellId (n + 2) cell.1 cell.2) = cellTask batchSizeMiB cell := by
  obtain ⟨size,edges,mapped⟩ := addCells_mapped (n + 2)
  simp only [genGEA,foldl_cells]
  exact cells_puts mapped (fun _ listed => listed) size.ge cell member (Or.inl member)

end Cells
section Signals

theorem genFFT_tasks {signalLength : Nat} (batchSizeMiB : Nat) (positive : 1 ≤ signalLength)
    (int : signalLength < 2^31) (fits : endVertex (Nat.clog 2 signalLength) + 1 < 2^31) {workload : Workload}
    (made : genFFT signalLength batchSizeMiB = some workload) {v : Nat} (later : v ≠ 0)
    (early : v < endVertex (Nat.clog 2 signalLength)) :
    workload.g.properties v = ⟨.AFFINE,.ComputeBound,batchSizeMiB⟩ := by
  obtain ⟨g,built,-,-,each⟩ := genFFT_built batchSizeMiB positive int fits
  obtain rfl := Option.some.inj (made.symm.trans built)
  rw [setProperties_other early.ne,setProperties_other later]
  exact each v (Nat.lt_succ_of_lt early)

end Signals
section Strings

theorem addOperator_tasks {s : TaskGraph × Nat} {v : Nat} (p : TaskProperties) :
    (addOperator s p).1.properties s.1.numVertices = p ∧
      (v < s.1.numVertices → (addOperator s p).1.properties v = s.1.properties v) := by
  have longer : (s.1.addVertex p).numVertices = s.1.numVertices + 1 := addVertex_size ..
  constructor
  · exact (addEdge_properties _ (by omega)).trans (addVertex_last ..)
  · intro early
    exact (addEdge_properties _ (by omega)).trans (addVertex_early early p)

/-- CONV_1D and ELEW_ADD in turn. -/
def stringTask (batchSizeMiB i : Nat) : TaskProperties :=
  if i % 2 ≠ 0 then ⟨.CONV_1D,.ComputeBound,batchSizeMiB⟩ else ⟨.ELEW_ADD,.MemoryBound,batchSizeMiB⟩

theorem genInterleavedWorkload_tasks {batchSizeMiB opNum : Nat} {workload : Workload}
    (made : genInterleavedWorkload batchSizeMiB opNum = some workload) {v : Nat} (later : v ≠ 0)
    (early : v ≤ opNum) : workload.g.properties v = stringTask batchSizeMiB v := by
  have string (start : TaskProperties) (count : Nat) :
      let s := (List.range' 1 count).foldl (fun s i => addOperator s (stringTask batchSizeMiB i))
        ((TaskGraph.blank 0).addVertex start,0)
      Chain count s ∧ ∀ v, v ≠ 0 → v ≤ count → s.1.properties v = stringTask batchSizeMiB v := by
    induction count with
    | zero => exact ⟨⟨rfl,rfl,rfl⟩,fun v later none => absurd (Nat.le_zero.mp none) later⟩
    | succ count ih =>
      obtain ⟨chain,each⟩ := ih
      rw [List.range'_1_concat,List.foldl_append]
      refine ⟨(chain.next _).1,fun v later within => ?_⟩
      rcases Nat.lt_or_eq_of_le within with before | rfl
      · have inside := before.trans_eq chain.size.symm
        exact ((addOperator_tasks _).2 inside).trans (each v later (Nat.lt_succ_iff.mp before))
      · rw [Nat.add_comm 1 count]
        exact (chain.next _).2
  unfold genInterleavedWorkload at made
  split at made
  next =>
    obtain rfl := Option.some.inj made
    obtain ⟨chain,each⟩ := string ⟨.LOGIC_START,.Logical,batchSizeMiB⟩ opNum
    have inside := (Nat.lt_succ_of_le early).trans_eq chain.size.symm
    exact ((addOperator_tasks _).2 inside).trans (each v later early)
  next => contradiction

end Strings

/-- An operator that takes time on one of the processors. -/
def Takes (om : PerfModel) (batchSizeMiB : Nat) (opTag : OperatorTag) : Prop :=
  (om.deducePerfCPU opTag (wrap32 batchSizeMiB)).timeCostSecond +
    (om.deducePerfDPU opTag (wrap32 batchSizeMiB)).timeCostSecond ≠ 0

/-- The pool finishes whatever the schedulers make of a graph. -/
def SchedulesFinish (om : PerfModel) (heapBasePtr : Nat) (eT : ExecType) (g : TaskGraph) : Prop :=
  ∀ sched, Scheduled om g sched → ThreadsFinish om heapBasePtr g sched eT

section Finish
variable {om : PerfModel} {heapBasePtr : Nat} {eT : ExecType}

theorem schedulesFinish_iff (nonneg : om.Nonneg) {g : TaskGraph} (acyclic : g.Acyclic) {batchSizeMiB : Nat}
    (sizes : ∀ v, v ≠ 0 → g.successors v ≠ [] → (g.properties v).inputSizeMiB = batchSizeMiB) :
    SchedulesFinish om heapBasePtr eT g ↔
      ∀ v, v ≠ 0 → g.successors v ≠ [] → Takes om batchSizeMiB (g.properties v).op := by
  constructor
  · intro finish v later successors free
    have found : FreeInner om g v := by
      refine ⟨later,successors,?_⟩
      simp only [initialInfo]
      rw [sizes v later successors]
      exact free
    obtain ⟨sched,scheduled,stuck⟩ := exists_unfinished nonneg acyclic found heapBasePtr eT
    exact stuck (finish sched scheduled)
  · intro takes sched scheduled
    refine finishes_of_costly nonneg acyclic (fun v found => ?_) heapBasePtr eT scheduled
    obtain ⟨later,successors,free⟩ := found
    simp only [initialInfo] at free
    rw [sizes v later successors] at free
    exact takes v later successors free

/-- Between entry and exit, where tasks of one size use certain operators. -/
theorem EntryExit.finish_iff (nonneg : om.Nonneg) {g : TaskGraph} (shape : EntryExit g) {batchSizeMiB : Nat}
    {used : OperatorTag → Prop}
    (inner : ∀ v, v ≠ 0 → v < g.numVertices - 1 →
      used (g.properties v).op ∧ (g.properties v).inputSizeMiB = batchSizeMiB)
    (every : ∀ opTag, used opTag → ∃ v, v ≠ 0 ∧ v < g.numVertices - 1 ∧ (g.properties v).op = opTag) :
    SchedulesFinish om heapBasePtr eT g ↔ ∀ opTag, used opTag → Takes om batchSizeMiB opTag := by
  have early {v : Nat} (successors : g.successors v ≠ []) : v < g.numVertices - 1 := by
    obtain ⟨w,listed⟩ := List.exists_mem_of_ne_nil _ successors
    have edge := (mem_successors ..).mp listed
    have up := shape.forward v w edge
    have bound := edge.bounds.2
    omega
  rw [schedulesFinish_iff nonneg shape.acyclic fun v later successors => (inner v later (early successors)).2]
  constructor
  · intro takes opTag uses
    obtain ⟨v,later,before,rfl⟩ := every opTag uses
    have linked : ¬ ∀ w, ¬ g.Linked v w := fun none => before.ne ((shape.sink v (by omega)).mp none)
    obtain ⟨w,edge⟩ := not_forall_not.mp linked
    exact takes v later (List.ne_nil_of_mem ((mem_successors ..).mpr edge))
  · intro takes v later successors
    exact takes _ (inner v later (early successors)).1

theorem genFFT_finish_iff (nonneg : om.Nonneg) {signalLength : Nat} (batchSizeMiB : Nat)
    (positive : 1 ≤ signalLength) (int : signalLength < 2^31)
    (fits : endVertex (Nat.clog 2 signalLength) + 1 < 2^31) :
    ∃ workload, genFFT signalLength batchSizeMiB = some workload ∧
      (SchedulesFinish om heapBasePtr eT workload.g ↔ Takes om batchSizeMiB .AFFINE) := by
  obtain ⟨workload,made,shape⟩ := genFFT_butterfly batchSizeMiB positive int fits
  have tasks (v : Nat) (later : v ≠ 0) (early : v < workload.g.numVertices - 1) :
      workload.g.properties v = ⟨.AFFINE,.ComputeBound,batchSizeMiB⟩ := by
    rw [shape.size,Nat.add_sub_cancel] at early
    exact genFFT_tasks batchSizeMiB positive int fits made later early
  have finish : SchedulesFinish om heapBasePtr eT workload.g ↔
      ∀ opTag, opTag = .AFFINE → Takes om batchSizeMiB opTag := by
    apply shape.entryExit.finish_iff nonneg
    · intro v later early
      rw [tasks v later early]
      exact ⟨rfl,rfl⟩
    rintro opTag rfl
    have several : 1 < workload.g.numVertices - 1 := by
      rw [shape.size]
      have : 0 < 2^Nat.clog 2 signalLength * (Nat.clog 2 signalLength + 1) := by positivity
      unfold endVertex
      omega
    exact ⟨1,one_ne_zero,several,by rw [tasks 1 one_ne_zero several]⟩
  exact ⟨workload,made,finish.trans forall_eq⟩

theorem genInterleavedWorkload_finish_iff (nonneg : om.Nonneg) (batchSizeMiB : Nat) {opNum : Nat}
    (counter : opNum < 2^31 - 1) :
    ∃ workload, genInterleavedWorkload batchSizeMiB opNum = some workload ∧
      (SchedulesFinish om heapBasePtr eT workload.g ↔
        (1 ≤ opNum → Takes om batchSizeMiB .CONV_1D) ∧ (2 ≤ opNum → Takes om batchSizeMiB .ELEW_ADD)) := by
  obtain ⟨workload,last,made,chain,exit⟩ := genInterleavedWorkload_chain batchSizeMiB counter
  have size : workload.g.numVertices = opNum + 2 := chain.size
  have tasks (v : Nat) (later : v ≠ 0) (early : v < workload.g.numVertices - 1) :
      workload.g.properties v = stringTask batchSizeMiB v :=
    genInterleavedWorkload_tasks made later (by omega)
  have finish : SchedulesFinish om heapBasePtr eT workload.g ↔
      ∀ opTag, opTag = .CONV_1D ∧ 1 ≤ opNum ∨ opTag = .ELEW_ADD ∧ 2 ≤ opNum → Takes om batchSizeMiB opTag := by
    apply (chain.entryExit exit).finish_iff nonneg
    · intro v later early
      rw [tasks v later early,stringTask]
      split
      · exact ⟨Or.inl ⟨rfl,by omega⟩,rfl⟩
      · exact ⟨Or.inr ⟨rfl,by omega⟩,rfl⟩
    · rintro opTag (⟨rfl,first⟩ | ⟨rfl,more⟩)
      · exact ⟨1,one_ne_zero,by omega,by rw [tasks 1 one_ne_zero (by omega)]; rfl⟩
      · exact ⟨2,two_ne_zero,by omega,by rw [tasks 2 two_ne_zero (by omega)]; rfl⟩
  refine ⟨workload,made,finish.trans ⟨fun takes => ?_,?_⟩⟩
  · exact ⟨fun first => takes _ (Or.inl ⟨rfl,first⟩),fun more => takes _ (Or.inr ⟨rfl,more⟩)⟩
  · rintro ⟨odd,even⟩ opTag (⟨rfl,first⟩ | ⟨rfl,more⟩)
    · exact odd first
    · exact even more

theorem genGEA_finish_iff (nonneg : om.Nonneg) (n batchSizeMiB : Nat) :
    SchedulesFinish om heapBasePtr eT (genGEA (n + 2) batchSizeMiB).g ↔
      Takes om batchSizeMiB .AFFINE ∧ (1 ≤ n → Takes om batchSizeMiB .ELEW_PROD) := by
  obtain ⟨size,-,-⟩ := genGEA_shape n batchSizeMiB
  have behind {row col : Nat} (member : (row,col) ∈ cells (n + 2)) (apart : (row,col) ≠ (0,0)) :
      cellId (n + 2) row col ≠ 0 := by
    have entry : (0,0) ∈ cells (n + 2) := mem_cells.mpr ⟨by omega,le_rfl,by omega⟩
    intro same
    exact apart ((List.idxOf_inj member).mp (same.trans (cellId_first n).symm))
  have finish : SchedulesFinish om heapBasePtr eT (genGEA (n + 2) batchSizeMiB).g ↔
      ∀ opTag, opTag = .AFFINE ∨ opTag = .ELEW_PROD ∧ 1 ≤ n → Takes om batchSizeMiB opTag := by
    apply (genGEA_entryExit n batchSizeMiB).finish_iff nonneg
    · intro v later early
      rw [size,Nat.add_sub_cancel] at early
      obtain ⟨row,col,named⟩ : ∃ row col, (cells (n + 2))[v] = (row,col) := ⟨_,_,rfl⟩
      have member : (row,col) ∈ cells (n + 2) := named ▸ List.getElem_mem early
      have place : cellId (n + 2) row col = v := by
        rw [cellId,← named]
        exact (cells_nodup (n + 2)).idxOf_getElem v early
      have task := genGEA_tasks n batchSizeMiB member
      simp only [place] at task
      rw [task,cellTask]
      split
      next diagonal =>
        obtain ⟨small,-,-⟩ := mem_cells.mp member
        have inner : row ≠ 0 := by
          rintro rfl
          simp only at diagonal
          subst diagonal
          exact later (place.symm.trans (cellId_first n))
        exact ⟨Or.inr ⟨rfl,by omega⟩,rfl⟩
      next => exact ⟨Or.inl rfl,rfl⟩
    · rintro opTag (rfl | ⟨rfl,more⟩)
      · have member : (0,1) ∈ cells (n + 2) := mem_cells.mpr ⟨by omega,by omega,by omega⟩
        refine ⟨cellId (n + 2) 0 1,behind member (by decide),?_,?_⟩
        · rw [size,Nat.add_sub_cancel]
          exact cellId_lt member
        · rw [genGEA_tasks n batchSizeMiB member]
          rfl
      · have member : (1,1) ∈ cells (n + 2) := mem_cells.mpr ⟨by omega,by omega,by omega⟩
        refine ⟨cellId (n + 2) 1 1,behind member (by decide),?_,?_⟩
        · rw [size,Nat.add_sub_cancel]
          exact cellId_lt member
        · rw [genGEA_tasks n batchSizeMiB member]
          rfl
  refine finish.trans ⟨fun takes => ?_,?_⟩
  · exact ⟨takes _ (Or.inl rfl),fun more => takes _ (Or.inr ⟨rfl,more⟩)⟩
  · rintro ⟨node,diagonal⟩ opTag (rfl | ⟨rfl,more⟩)
    · exact node
    · exact diagonal more

/-- At all sizes that the generators can build, the pool finishes every schedule of every scheduler exactly
if the operators between entry and exit take time. The diagonal of a small matrix is its entry. -/
theorem generated_workloads_finish_iff (om : PerfModel) (nonneg : om.Nonneg)
    (batchSizeMiB signalLength matrixSize opNum heapBasePtr : Nat) (eT : ExecType)
    (positive : 1 ≤ signalLength) (int : signalLength < 2^31)
    (fits : (nextExp2 signalLength).toNat * (Nat.log2 (nextExp2 signalLength).toNat + 1) + 2 < 2^31)
    (square : 2 ≤ matrixSize) (counter : opNum < 2^31 - 1) :
    (∃ workload, genFFT signalLength batchSizeMiB = some workload ∧
      (SchedulesFinish om heapBasePtr eT workload.g ↔ Takes om batchSizeMiB .AFFINE)) ∧
    (SchedulesFinish om heapBasePtr eT (genGEA matrixSize batchSizeMiB).g ↔
      Takes om batchSizeMiB .AFFINE ∧ (3 ≤ matrixSize → Takes om batchSizeMiB .ELEW_PROD)) ∧
    ∃ workload, genInterleavedWorkload batchSizeMiB opNum = some workload ∧
      (SchedulesFinish om heapBasePtr eT workload.g ↔
        (1 ≤ opNum → Takes om batchSizeMiB .CONV_1D) ∧ (2 ≤ opNum → Takes om batchSizeMiB .ELEW_ADD)) := by
  rw [nextExp2_toNat positive int,Nat.log2_two_pow] at fits
  obtain ⟨n,rfl⟩ := Nat.exists_eq_add_of_le' square
  have more : 3 ≤ n + 2 ↔ 1 ≤ n := by omega
  refine ⟨genFFT_finish_iff nonneg batchSizeMiB positive int fits,?_,
    genInterleavedWorkload_finish_iff nonneg batchSizeMiB counter⟩
  rw [more]
  exact genGEA_finish_iff nonneg n batchSizeMiB

theorem generated_workloads_finish_iff_uniform :
    SchedulesFinish (uniformPerf 1) 0 .MIMIC (genGEA 4 20).g ∧
      ¬ SchedulesFinish (uniformPerf 0) 0 .MIMIC (genGEA 4 20).g := by
  constructor
  · obtain ⟨-,finish,-⟩ := generated_workloads_finish_iff (uniformPerf 1)
      ⟨fun _ _ => zero_le_one,fun _ _ => zero_le_one⟩ 20 4 4 6 0 .MIMIC (by decide) (by decide) (by decide)
      (by decide) (by decide)
    refine finish.mpr ⟨?_,fun _ => ?_⟩ <;> norm_num [Takes,uniformPerf]
  · obtain ⟨-,finish,-⟩ := generated_workloads_finish_iff (uniformPerf 0) ⟨fun _ _ => le_rfl,fun _ _ => le_rfl⟩
      20 4 4 6 0 .MIMIC (by decide) (by decide) (by decide) (by decide) (by decide)
    intro finishes
    refine (finish.mp finishes).1 ?_
    norm_num [uniformPerf]

end Finish
end MetaPB.Workloads

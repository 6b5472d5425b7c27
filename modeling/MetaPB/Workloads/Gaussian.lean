import MetaPB.Executor.GraphBuilder

/-! The Gaussian elimination workload: one task for every cell of the upper triangle without
its last row, found again through a map from coordinates to tasks. A diagonal task feeds
the rest of its row, every other one the task below, and the last one END. -/
namespace MetaPB.Workloads
open Operator Executor Executor.TaskGraph

/-- The map from row and column to tasks. -/
abbrev TaskMap := Nat → Nat → Option Nat

def insert (rc2Task : TaskMap) (row col task : Nat) : TaskMap :=
  fun r c => if r = row ∧ c = col then some task else rc2Task r c

def geaNode (batchSizeMiB : Nat) : TaskProperties := ⟨.AFFINE,.ComputeBound,batchSizeMiB⟩
def geaDiagonal (batchSizeMiB : Nat) : TaskProperties := ⟨.ELEW_PROD,.MemoryBound,batchSizeMiB⟩
def geaEnd : TaskProperties := ⟨.LOGIC_END,.Logical,0⟩

def addCell (s : TaskGraph × TaskMap) (row col : Nat) : TaskGraph × TaskMap :=
  (s.1.addVertex {},insert s.2 row col s.1.numVertices)

/-- Properties and one edge for two tasks that are both in the map. -/
def connect (rc2Task : TaskMap) (p : TaskProperties) (g : TaskGraph) (row col toRow toCol : Nat) :
    Option TaskGraph := do
  let source ← rc2Task row col
  let target ← rc2Task toRow toCol
  return (g.setProperties source p).addEdge ⟨source,target,1⟩

def connectCell (N batchSizeMiB : Nat) (rc2Task : TaskMap) (g : TaskGraph) (row col : Nat) : TaskGraph :=
  if col = row then
    (List.range' (col + 1) (N - (col + 1))).foldl (fun g i =>
      (connect rc2Task (geaDiagonal batchSizeMiB) g row col row i).getD g) g
  else
    match connect rc2Task (geaNode batchSizeMiB) g row col (row + 1) col with
    | some g => g
    | none =>
      if row = N - 2 ∧ col = N - 1 then
        let g := g.setProperties ((rc2Task row col).getD 0) (geaNode batchSizeMiB)
        let finish := g.numVertices
        (g.addVertex geaEnd).addEdge ⟨(rc2Task (N - 2) (N - 1)).getD 0,finish,1⟩
      else g

def genGEA (matrixSize batchSizeMiB : Nat) : Workload :=
  let N := matrixSize
  let (g,rc2Task) := (List.range (N - 1)).foldl (fun s row =>
    (List.range' row (N - row)).foldl (fun s col => addCell s row col) s) (.blank 0,fun _ _ => none)
  let g := (List.range (N - 1)).foldl (fun g row =>
    (List.range' row (N - row)).foldl (fun g col => connectCell N batchSizeMiB rc2Task g row col) g) g
  ⟨g,"GEA_" ++ toString N⟩

/-- The cells in the order both loop nests visit them. -/
def cells (N : Nat) : List (Nat × Nat) :=
  (List.range (N - 1)).flatMap fun row => (List.range' row (N - row)).map fun col => (row,col)

theorem foldl_cells {σ : Type} (N : Nat) (step : σ → Nat → Nat → σ) (s : σ) :
    (List.range (N - 1)).foldl (fun s row =>
      (List.range' row (N - row)).foldl (fun s col => step s row col) s) s =
      (cells N).foldl (fun s cell => step s cell.1 cell.2) s := by
  simp only [cells,List.foldl_flatMap,List.foldl_map]

theorem mem_cells {N row col : Nat} : (row,col) ∈ cells N ↔ row < N - 1 ∧ row ≤ col ∧ col < N := by
  simp only [cells,List.mem_flatMap,List.mem_map,List.mem_range,List.mem_range'_1,Prod.mk.injEq]
  constructor
  · rintro ⟨r,small,c,⟨above,below⟩,rfl,rfl⟩
    exact ⟨small,above,by omega⟩
  · intro both
    obtain ⟨small,above,below⟩ := both
    exact ⟨row,small,col,⟨above,by omega⟩,rfl,rfl⟩

theorem cells_sorted (N : Nat) :
    (cells N).Pairwise fun p q => p.1 < q.1 ∨ p.1 = q.1 ∧ p.2 < q.2 := by
  rw [cells,List.pairwise_flatMap]
  constructor
  · intro row _
    rw [List.pairwise_map]
    exact List.Pairwise.imp (fun less => Or.inr ⟨rfl,less⟩) (List.pairwise_lt_range' 1)
  · refine List.pairwise_lt_range.imp ?_
    intro row next less p first q second
    obtain ⟨_,-,rfl⟩ := List.mem_map.mp first
    obtain ⟨_,-,rfl⟩ := List.mem_map.mp second
    exact Or.inl less

theorem idxOf_lt {N : Nat} {p q : Nat × Nat} (pIn : p ∈ cells N) (qIn : q ∈ cells N)
    (before : p.1 < q.1 ∨ p.1 = q.1 ∧ p.2 < q.2) : (cells N).idxOf p < (cells N).idxOf q := by
  have pAt := List.idxOf_lt_length_iff.mpr pIn
  have qAt := List.idxOf_lt_length_iff.mpr qIn
  have sorted := List.pairwise_iff_getElem.mp (cells_sorted N)
  rcases Nat.lt_trichotomy ((cells N).idxOf p) ((cells N).idxOf q) with less | same | more
  · exact less
  · have equal : p = q := by
      rw [← List.getElem_idxOf pAt,← List.getElem_idxOf qAt]
      simp only [same]
    subst equal
    omega
  · have back := sorted _ _ qAt pAt more
    simp only [List.getElem_idxOf] at back
    omega

theorem cells_nodup (N : Nat) : (cells N).Nodup := by
  refine List.Pairwise.imp ?_ (cells_sorted N)
  rintro p q before rfl
  omega

/-- The map finds every cell visited so far under its place in the order. -/
def Mapped (seen : List (Nat × Nat)) (s : TaskGraph × TaskMap) : Prop :=
  s.1.numVertices = seen.length ∧ s.1.edges = [] ∧
    ∀ row col, s.2 row col = if (row,col) ∈ seen then some (seen.idxOf (row,col)) else none

theorem addCell_mapped {seen : List (Nat × Nat)} {s : TaskGraph × TaskMap} {cell : Nat × Nat}
    (fresh : cell ∉ seen) (before : Mapped seen s) :
    Mapped (seen ++ [cell]) (addCell s cell.1 cell.2) := by
  obtain ⟨size,edges,found⟩ := before
  refine ⟨by simp [addCell,addVertex_size,size],edges,?_⟩
  intro row col
  simp only [addCell,insert]
  rcases eq_or_ne (row,col) cell with rfl | apart
  · simp [List.idxOf_append_of_notMem fresh,size]
  · have other : ¬ (row = cell.1 ∧ col = cell.2) := fun same => apart (Prod.ext same.1 same.2)
    rw [if_neg other,found]
    by_cases member : (row,col) ∈ seen
    · rw [if_pos member,if_pos (List.mem_append_left _ member),List.idxOf_append_of_mem member]
    · rw [if_neg member,if_neg]
      simp [member,apart]

theorem addCells_mapped (N : Nat) :
    Mapped (cells N) ((cells N).foldl (fun s cell => addCell s cell.1 cell.2) (.blank 0,fun _ _ => none)) := by
  have each : ∀ (rest seen : List (Nat × Nat)) (s : TaskGraph × TaskMap), (seen ++ rest).Nodup →
      Mapped seen s → Mapped (seen ++ rest) (rest.foldl (fun s cell => addCell s cell.1 cell.2) s) := by
    intro rest
    induction rest with
    | nil =>
      intro seen s _ before
      rwa [List.append_nil]
    | cons cell rest ih =>
      intro seen s distinct before
      have split : seen ++ cell::rest = seen ++ [cell] ++ rest := by simp
      have fresh : cell ∉ seen := by
        intro member
        exact (List.nodup_append.mp distinct).2.2 cell member cell List.mem_cons_self rfl
      rw [split] at distinct ⊢
      exact ih _ _ distinct (addCell_mapped fresh before)
  exact each (cells N) [] _ (cells_nodup N) ⟨rfl,rfl,fun _ _ => rfl⟩

def cellId (N row col : Nat) : Nat := (cells N).idxOf (row,col)

theorem cellId_lt {N row col : Nat} (member : (row,col) ∈ cells N) : cellId N row col < (cells N).length :=
  List.idxOf_lt_length_iff.mpr member

/-- The map the first loop nest leaves behind. -/
def Found (N : Nat) (rc2Task : TaskMap) : Prop :=
  ∀ row col, rc2Task row col = if (row,col) ∈ cells N then some (cellId N row col) else none

section Connect
variable {N : Nat} (batchSizeMiB : Nat) {rc2Task : TaskMap} {g : TaskGraph}

theorem Found.at (found : Found N rc2Task) {row col : Nat} (member : (row,col) ∈ cells N) :
    rc2Task row col = some (cellId N row col) := by rw [found,if_pos member]

theorem connect_grown (found : Found N rc2Task) (p : TaskProperties) {row col toRow toCol : Nat}
    (source : (row,col) ∈ cells N) (target : (toRow,toCol) ∈ cells N)
    (size : g.numVertices = (cells N).length) :
    ∃ next, connect rc2Task p g row col toRow toCol = some next ∧
      g.Grown [⟨cellId N row col,cellId N toRow toCol,1⟩] next := by
  refine ⟨(g.setProperties (cellId N row col) p).addEdge ⟨cellId N row col,cellId N toRow toCol,1⟩,?_,?_⟩
  · simp [connect,found.at source,found.at target]
  · have kept := setProperties_grown g (cellId N row col) p
    refine kept.trans (addEdge_grown ?_ ?_)
    · rw [kept.size,size]
      exact cellId_lt source
    · rw [kept.size,size]
      exact cellId_lt target

/-- The edges a cell other than the last one adds. -/
def cellEdges (N : Nat) (cell : Nat × Nat) : List Transfer :=
  if cell.2 = cell.1 then
    (List.range' (cell.2 + 1) (N - (cell.2 + 1))).flatMap fun i =>
      [⟨cellId N cell.1 cell.2,cellId N cell.1 i,1⟩]
  else [⟨cellId N cell.1 cell.2,cellId N (cell.1 + 1) cell.2,1⟩]

theorem connectCell_grown (found : Found N rc2Task) {cell : Nat × Nat} (member : cell ∈ cells N)
    (inner : cell ≠ (N - 2,N - 1)) (size : g.numVertices = (cells N).length) :
    g.Grown (cellEdges N cell) (connectCell N batchSizeMiB rc2Task g cell.1 cell.2) := by
  obtain ⟨row,col⟩ := cell
  obtain ⟨small,above,below⟩ := mem_cells.mp member
  simp only [connectCell,cellEdges]
  split
  next diagonal =>
    subst diagonal
    apply foldl_grown size
    intro i listed g size
    have later := List.mem_range'_1.mp listed
    have target : (col,i) ∈ cells N := mem_cells.mpr ⟨small,by omega,by omega⟩
    obtain ⟨next,made,grown⟩ := connect_grown found (geaDiagonal batchSizeMiB) member target size
    rw [made]
    exact grown
  next off =>
    have lower : row + 1 < N - 1 := by
      by_contra last
      exact inner (Prod.ext (by omega) (by omega))
    have target : (row + 1,col) ∈ cells N := mem_cells.mpr ⟨lower,by omega,below⟩
    obtain ⟨next,made,grown⟩ := connect_grown found (geaNode batchSizeMiB) member target size
    rw [made]
    exact grown

theorem connectCell_last {n : Nat} (found : Found (n + 2) rc2Task)
    (size : g.numVertices = (cells (n + 2)).length) :
    (connectCell (n + 2) batchSizeMiB rc2Task g n (n + 1)).numVertices = (cells (n + 2)).length + 1 ∧
      (connectCell (n + 2) batchSizeMiB rc2Task g n (n + 1)).edges =
        g.edges ++ [⟨cellId (n + 2) n (n + 1),(cells (n + 2)).length,1⟩] ∧
      ((connectCell (n + 2) batchSizeMiB rc2Task g n (n + 1)).properties (cells (n + 2)).length).op =
        .LOGIC_END := by
  have member : (n,n + 1) ∈ cells (n + 2) := mem_cells.mpr ⟨by omega,by omega,by omega⟩
  have below : (n + 1,n + 1) ∉ cells (n + 2) := fun listed => by
    have := (mem_cells.mp listed).1
    omega
  have refused : connect rc2Task (geaNode batchSizeMiB) g n (n + 1) (n + 1) (n + 1) = none := by
    simp [connect,found.at member,found (n + 1),below]
  let marked := g.setProperties (cellId (n + 2) n (n + 1)) (geaNode batchSizeMiB)
  have same : marked.numVertices = (cells (n + 2)).length := (setProperties_grown g _ _).size.trans size
  have result : connectCell (n + 2) batchSizeMiB rc2Task g n (n + 1) =
      (marked.addVertex geaEnd).addEdge ⟨cellId (n + 2) n (n + 1),(cells (n + 2)).length,1⟩ := by
    simp only [connectCell,refused]
    rw [if_neg (Nat.succ_ne_self n),if_pos ⟨rfl,rfl⟩]
    have width : n + 2 - 1 = n + 1 := rfl
    simp only [width,found.at member,Nat.add_sub_cancel,Option.getD_some]
    rw [← same]
  have longer : (marked.addVertex geaEnd).numVertices = (cells (n + 2)).length + 1 := by
    rw [addVertex_size,same]
  have grown : (marked.addVertex geaEnd).Grown [⟨cellId (n + 2) n (n + 1),(cells (n + 2)).length,1⟩]
      ((marked.addVertex geaEnd).addEdge ⟨cellId (n + 2) n (n + 1),(cells (n + 2)).length,1⟩) := by
    apply addEdge_grown
    · rw [longer]
      exact Nat.lt_succ_of_lt (cellId_lt member)
    · rw [longer]
      exact Nat.lt_succ_self _
  rw [result]
  refine ⟨grown.size.trans longer,grown.edges,?_⟩
  rw [addEdge_properties _ (by rw [longer]; exact Nat.lt_succ_self _),← same,addVertex_last]
  rfl

end Connect

theorem cells_split (n : Nat) : ∃ inner, cells (n + 2) = inner ++ [(n,n + 1)] := by
  have rows : List.range (n + 2 - 1) = List.range n ++ [n] := List.range_succ
  have last : List.range' n (n + 2 - n) = [n] ++ [n + 1] := by
    have two : n + 2 - n = 2 := by omega
    rw [two]
    rfl
  rw [cells,rows,List.flatMap_append,List.flatMap_singleton,last,List.map_append,← List.append_assoc]
  exact ⟨_,rfl⟩

theorem genGEA_shape (n batchSizeMiB : Nat) :
    let g := (genGEA (n + 2) batchSizeMiB).g
    g.numVertices = (cells (n + 2)).length + 1 ∧
      (g.properties (cells (n + 2)).length).op = .LOGIC_END ∧
      ∃ inner, cells (n + 2) = inner ++ [(n,n + 1)] ∧ g.edges = inner.flatMap (cellEdges (n + 2)) ++
        [⟨cellId (n + 2) n (n + 1),(cells (n + 2)).length,1⟩] := by
  obtain ⟨inner,split⟩ := cells_split n
  intro g
  obtain ⟨size,edges,mapped⟩ := addCells_mapped (n + 2)
  generalize start : (cells (n + 2)).foldl (fun s cell => addCell s cell.1 cell.2)
    (TaskGraph.blank 0,fun _ _ => none) = s at size edges mapped
  have built : g = (cells (n + 2)).foldl (fun g cell =>
      connectCell (n + 2) batchSizeMiB s.2 g cell.1 cell.2) s.1 := by
    simp only [g,genGEA,foldl_cells,start]
  have found : Found (n + 2) s.2 := mapped
  have distinct := cells_nodup (n + 2)
  rw [split] at distinct
  have grown : s.1.Grown (inner.flatMap (cellEdges (n + 2))) (inner.foldl (fun g cell =>
      connectCell (n + 2) batchSizeMiB s.2 g cell.1 cell.2) s.1) := by
    apply foldl_grown size
    intro cell member g size
    have listed : cell ∈ cells (n + 2) := split ▸ List.mem_append_left _ member
    apply connectCell_grown batchSizeMiB found listed _ size
    intro last
    exact (List.nodup_append.mp distinct).2.2 cell member (n,n + 1) (List.mem_singleton_self _) last
  obtain ⟨count,added,exit⟩ := connectCell_last batchSizeMiB found (grown.size.trans size)
  have ended : g = connectCell (n + 2) batchSizeMiB s.2 (inner.foldl (fun g cell =>
      connectCell (n + 2) batchSizeMiB s.2 g cell.1 cell.2) s.1) n (n + 1) := by
    rw [built]
    conv_lhs => rw [split]
    rw [List.foldl_append]
    rfl
  rw [← ended] at count added exit
  refine ⟨count,exit,inner,split,?_⟩
  rw [added,grown.edges,edges,List.nil_append]

/-- The edges as a relation: along a row from its diagonal, down a column, or into END. -/
theorem genGEA_linked (n batchSizeMiB u v : Nat) :
    (genGEA (n + 2) batchSizeMiB).g.Linked u v ↔
      (∃ row i, row < n + 1 ∧ row < i ∧ i < n + 2 ∧ u = cellId (n + 2) row row ∧ v = cellId (n + 2) row i) ∨
      (∃ row col, row < n ∧ row < col ∧ col < n + 2 ∧ u = cellId (n + 2) row col ∧
        v = cellId (n + 2) (row + 1) col) ∨
      u = cellId (n + 2) n (n + 1) ∧ v = (cells (n + 2)).length := by
  obtain ⟨-,-,inner,split,edges⟩ := genGEA_shape n batchSizeMiB
  have members (cell : Nat × Nat) : cell ∈ inner ↔ cell ∈ cells (n + 2) ∧ cell ≠ (n,n + 1) := by
    have distinct := cells_nodup (n + 2)
    rw [split] at distinct ⊢
    have fresh : (n,n + 1) ∉ inner := fun listed =>
      (List.nodup_append.mp distinct).2.2 _ listed _ (List.mem_singleton_self _) rfl
    constructor
    · intro listed
      exact ⟨List.mem_append_left _ listed,fun same => fresh (same ▸ listed)⟩
    · intro both
      exact (List.mem_append.mp both.1).resolve_right fun last => both.2 (List.mem_singleton.mp last)
  unfold TaskGraph.Linked
  rw [edges]
  constructor
  · intro found
    obtain ⟨edge,listed,rfl,rfl⟩ := found
    rcases List.mem_append.mp listed with early | last
    · obtain ⟨⟨row,col⟩,inCells,emitted⟩ := List.mem_flatMap.mp early
      obtain ⟨inAll,apart⟩ := (members _).mp inCells
      obtain ⟨small,above,below⟩ := mem_cells.mp inAll
      unfold cellEdges at emitted
      split at emitted
      next diagonal =>
        obtain ⟨i,later,single⟩ := List.mem_flatMap.mp emitted
        rw [List.mem_singleton] at single
        have bound := List.mem_range'_1.mp later
        simp only at diagonal bound single
        subst diagonal
        exact Or.inl ⟨col,i,by omega,by omega,by omega,by rw [single],by rw [single]⟩
      next off =>
        rw [List.mem_singleton] at emitted
        simp only at off emitted
        have lower : row < n := by
          by_contra bottom
          exact apart (Prod.ext (by omega) (by omega))
        exact Or.inr (Or.inl ⟨row,col,lower,by omega,below,by rw [emitted],by rw [emitted]⟩)
    · rw [List.mem_singleton.mp last]
      exact Or.inr (Or.inr ⟨rfl,rfl⟩)
  · rintro (⟨row,i,small,above,below,rfl,rfl⟩ | ⟨row,col,small,above,below,rfl,rfl⟩ | ⟨rfl,rfl⟩)
    · refine ⟨⟨cellId (n + 2) row row,cellId (n + 2) row i,1⟩,?_,rfl,rfl⟩
      apply List.mem_append_left
      refine List.mem_flatMap.mpr ⟨(row,row),(members _).mpr ⟨mem_cells.mpr ⟨by omega,le_rfl,by omega⟩,?_⟩,?_⟩
      · intro same
        have first := congrArg Prod.fst same
        have second := congrArg Prod.snd same
        simp only at first second
        omega
      · rw [cellEdges,if_pos rfl]
        exact List.mem_flatMap.mpr ⟨i,List.mem_range'_1.mpr ⟨by omega,by omega⟩,List.mem_singleton_self _⟩
    · refine ⟨⟨cellId (n + 2) row col,cellId (n + 2) (row + 1) col,1⟩,?_,rfl,rfl⟩
      apply List.mem_append_left
      refine List.mem_flatMap.mpr ⟨(row,col),(members _).mpr ⟨mem_cells.mpr ⟨by omega,above.le,below⟩,?_⟩,?_⟩
      · intro same
        have first := congrArg Prod.fst same
        simp only at first
        omega
      · rw [cellEdges,if_neg above.ne']
        exact List.mem_singleton_self _
    · exact ⟨_,List.mem_append_right _ (List.mem_singleton_self _),rfl,rfl⟩

end MetaPB.Workloads

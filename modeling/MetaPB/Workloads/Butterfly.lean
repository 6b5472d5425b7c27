import MetaPB.Workloads.FFT

/-! The graph of the FFT workload as a butterfly network: what its edges are, that none
occurs twice, two edges out of and into every inner stage vertex, and one path from every
first-stage vertex to every last-stage vertex. -/
namespace MetaPB.Workloads
open Operator Executor Executor.TaskGraph Lib.Loop Lib.Butterfly

section Stages
variable {m : Nat}

theorem stageVertex_parts {x : Nat} (s : Nat) (inside : x < 2^m) :
    (stageVertex m s x - 1) / 2^m = s ∧ (stageVertex m s x - 1) % 2^m = x := by
  have plain : stageVertex m s x - 1 = x + s * 2^m := by
    unfold stageVertex
    omega
  rw [plain,Nat.add_mul_div_right _ _ (Nat.two_pow_pos m),Nat.div_eq_of_lt inside,
    Nat.add_mul_mod_self_right,Nat.mod_eq_of_lt inside]
  exact ⟨Nat.zero_add s,rfl⟩

theorem stageVertex_inj {s x t y : Nat} (xIn : x < 2^m) (yIn : y < 2^m)
    (same : stageVertex m s x = stageVertex m t y) : s = t ∧ x = y := by
  obtain ⟨left,first⟩ := stageVertex_parts s xIn
  obtain ⟨right,second⟩ := stageVertex_parts t yIn
  rw [same] at left first
  exact ⟨left.symm.trans right,first.symm.trans second⟩

theorem mem_crossing {stage x : Nat} {edge : Transfer} :
    edge ∈ crossing m stage x ↔ ∃ a b, (a = x ∨ a = x + 2^stage) ∧ (b = x ∨ b = x + 2^stage) ∧
      edge = ⟨stageVertex m stage a,stageVertex m (stage + 1) b,1⟩ := by
  constructor
  · intro member
    simp only [crossing,List.mem_cons,List.not_mem_nil,or_false] at member
    rcases member with rfl | rfl | rfl | rfl
    · exact ⟨_,_,Or.inl rfl,Or.inr rfl,rfl⟩
    · exact ⟨_,_,Or.inr rfl,Or.inl rfl,rfl⟩
    · exact ⟨_,_,Or.inl rfl,Or.inl rfl,rfl⟩
    · exact ⟨_,_,Or.inr rfl,Or.inr rfl,rfl⟩
  · rintro ⟨a,b,rfl | rfl,rfl | rfl,rfl⟩ <;> simp [crossing]

theorem mem_stageEdges {edge : Transfer} :
    edge ∈ stageEdges m ↔ ∃ stage < m, ∃ a < 2^m, ∃ b < 2^m, Link stage a b ∧
      edge = ⟨stageVertex m stage a,stageVertex m (stage + 1) b,1⟩ := by
  simp only [stageEdges,List.mem_flatMap,List.mem_range]
  constructor
  · intro found
    obtain ⟨stage,small,block,blockIn,k,offset,member⟩ := found
    rw [half_block] at offset
    have inside := block_inside small blockIn offset
    obtain ⟨a,b,aEnd,bEnd,rfl⟩ := mem_crossing.mp member
    have low : block * 2^(stage + 1) + k < 2^m := (Nat.le_add_right _ _).trans_lt inside
    have bound (c : Nat) (cEnd : c = block * 2^(stage + 1) + k ∨ c = block * 2^(stage + 1) + k + 2^stage) :
        c < 2^m := by
      rcases cEnd with rfl | rfl
      · exact low
      · exact inside
    have left := (link_iff_ends offset).mpr aEnd
    have right := (link_iff_ends offset).mpr bEnd
    exact ⟨stage,small,a,bound a aEnd,b,bound b bEnd,left.symm.trans right,rfl⟩
  · intro found
    obtain ⟨stage,small,a,aIn,b,bIn,link,rfl⟩ := found
    have offset : a % 2^stage < 2^stage := Nat.mod_lt a (Nat.two_pow_pos stage)
    refine ⟨stage,small,a / 2^(stage + 1),?_,a % 2^stage,offset.trans_eq (half_block stage).symm,mem_crossing.mpr ⟨a,b,?_,?_,rfl⟩⟩
    · exact Nat.div_lt_div_of_lt_of_dvd (Nat.pow_dvd_pow 2 (Nat.succ_le_of_lt small)) aIn
    · exact (link_iff_ends offset).mp (link_block stage a)
    · exact (link_iff_ends offset).mp ((link_block stage a).trans link)

theorem mem_borderEdges {edge : Transfer} :
    edge ∈ borderEdges m ↔ ∃ i < 2^m, edge = ⟨0,stageVertex m 0 i,1⟩ ∨
      edge = ⟨stageVertex m m i,endVertex m,1⟩ := by
  simp [borderEdges,stageVertex]

theorem crossing_nodup {stage x : Nat} (inside : x + 2^stage < 2^m) :
    ((crossing m stage x).map ends).Nodup := by
  have low : x < 2^m := (Nat.le_add_right x _).trans_lt inside
  have apart : x ≠ x + 2^stage := (Nat.lt_add_of_pos_right (Nat.two_pow_pos stage)).ne
  have different (s : Nat) : stageVertex m s x ≠ stageVertex m s (x + 2^stage) :=
    fun same => apart (stageVertex_inj low inside same).2
  simp [crossing,ends,different,(different _).symm]

theorem crossing_key {stage block k : Nat} (offset : k < 2^stage)
    (inside : block * 2^(stage + 1) + k + 2^stage < 2^m) {pair : Nat × Nat}
    (member : pair ∈ (crossing m stage (block * 2^(stage + 1) + k)).map ends) :
    (pair.1 - 1) / 2^m = stage ∧ (pair.1 - 1) % 2^m / 2^(stage + 1) = block ∧
      (pair.1 - 1) % 2^m % 2^stage = k := by
  obtain ⟨edge,listed,rfl⟩ := List.mem_map.mp member
  obtain ⟨a,b,aEnd,-,rfl⟩ := mem_crossing.mp listed
  have aIn : a < 2^m := by
    rcases aEnd with rfl | rfl
    · exact (Nat.le_add_right _ _).trans_lt inside
    · exact inside
  obtain ⟨row,place⟩ := stageVertex_parts stage aIn
  obtain ⟨blockAt,offsetAt⟩ := parts_of_ends offset aEnd
  refine ⟨row,?_,?_⟩
  · exact (congrArg (· / 2^(stage + 1)) place).trans blockAt
  · exact (congrArg (· % 2^stage) place).trans offsetAt

theorem stageEdges_nodup : ((stageEdges m).map ends).Nodup := by
  simp only [stageEdges,List.map_flatMap,half_block]
  have key {stage : Nat} (small : stage ∈ List.range m) {block : Nat}
      (blockIn : block ∈ List.range (2^m / 2^(stage + 1))) {k : Nat} (offset : k ∈ List.range (2^stage)) :
      block * 2^(stage + 1) + k + 2^stage < 2^m ∧
        ∀ pair ∈ (crossing m stage (block * 2^(stage + 1) + k)).map ends,
          (pair.1 - 1) / 2^m = stage ∧ (pair.1 - 1) % 2^m / 2^(stage + 1) = block ∧
            (pair.1 - 1) % 2^m % 2^stage = k := by
    rw [List.mem_range] at small blockIn offset
    have inside := block_inside small blockIn offset
    exact ⟨inside,fun _ member => crossing_key offset inside member⟩
  apply nodup_flatMap_of_key (fun pair : Nat × Nat => (pair.1 - 1) / 2^m) List.nodup_range
  · intro stage small
    apply nodup_flatMap_of_key (fun pair : Nat × Nat => (pair.1 - 1) % 2^m / 2^(stage + 1)) List.nodup_range
    · intro block blockIn
      apply nodup_flatMap_of_key (fun pair : Nat × Nat => (pair.1 - 1) % 2^m % 2^stage) List.nodup_range
      · intro k offset
        exact crossing_nodup (key small blockIn offset).1
      · intro k offset pair member
        exact ((key small blockIn offset).2 pair member).2.2
    · intro block blockIn pair member
      obtain ⟨k,offset,listed⟩ := List.mem_flatMap.mp member
      exact ((key small blockIn offset).2 pair listed).2.1
  · intro stage small pair member
    obtain ⟨block,blockIn,inner⟩ := List.mem_flatMap.mp member
    obtain ⟨k,offset,listed⟩ := List.mem_flatMap.mp inner
    exact ((key small blockIn offset).2 pair listed).1

theorem borderEdges_nodup : ((borderEdges m).map ends).Nodup := by
  simp only [borderEdges,List.map_flatMap]
  apply nodup_flatMap_of_key (fun pair : Nat × Nat => if pair.1 = 0 then pair.2 - 1 else (pair.1 - 1) % 2^m)
    List.nodup_range
  · intro i _
    have apart : (0,i + 1) ≠ (stageVertex m m i,endVertex m) := by
      intro same
      have first := congrArg Prod.fst same
      simp only [stageVertex] at first
      omega
    simp [ends,apart]
  · intro i small pair member
    obtain ⟨-,place⟩ := stageVertex_parts m (List.mem_range.mp small)
    simp only [List.map_cons,List.map_nil,List.mem_cons,List.not_mem_nil,or_false,ends] at member
    rcases member with rfl | rfl
    · rw [if_pos rfl,Nat.add_sub_cancel]
    · rw [if_neg (by unfold stageVertex; omega),place]

theorem Butterfly.nodup {g : TaskGraph} (shape : Butterfly m g) : (g.edges.map ends).Nodup := by
  rw [shape.edges,List.map_append]
  refine List.nodup_append.mpr ⟨stageEdges_nodup,borderEdges_nodup,?_⟩
  intro pair first other second same
  obtain ⟨edge,inStages,rfl⟩ := List.mem_map.mp first
  obtain ⟨border,inBorder,rfl⟩ := List.mem_map.mp second
  obtain ⟨stage,small,a,aIn,b,bIn,-,rfl⟩ := mem_stageEdges.mp inStages
  obtain ⟨i,iIn,rfl | rfl⟩ := mem_borderEdges.mp inBorder
  · have clash := congrArg Prod.fst same
    simp [ends,stageVertex] at clash
  · have clash := (stageVertex_inj aIn iIn (congrArg Prod.fst same)).1
    omega

variable {g : TaskGraph}

/-- The edges as a relation: into the first stage, along a link, or out of the last stage. -/
theorem Butterfly.linked_iff (shape : Butterfly m g) {u v : Nat} :
    g.Linked u v ↔
      (∃ i < 2^m, u = 0 ∧ v = stageVertex m 0 i) ∨
      (∃ s < m, ∃ a < 2^m, ∃ b < 2^m, Link s a b ∧ u = stageVertex m s a ∧ v = stageVertex m (s + 1) b) ∨
      ∃ i < 2^m, u = stageVertex m m i ∧ v = endVertex m := by
  unfold TaskGraph.Linked
  rw [shape.edges]
  constructor
  · intro found
    obtain ⟨edge,member,rfl,rfl⟩ := found
    rcases List.mem_append.mp member with inner | border
    · obtain ⟨s,small,a,aIn,b,bIn,link,rfl⟩ := mem_stageEdges.mp inner
      exact Or.inr (Or.inl ⟨s,small,a,aIn,b,bIn,link,rfl,rfl⟩)
    · obtain ⟨i,iIn,rfl | rfl⟩ := mem_borderEdges.mp border
      · exact Or.inl ⟨i,iIn,rfl,rfl⟩
      · exact Or.inr (Or.inr ⟨i,iIn,rfl,rfl⟩)
  · intro cases
    rcases cases with ⟨i,iIn,rfl,rfl⟩ | ⟨s,small,a,aIn,b,bIn,link,rfl,rfl⟩ | ⟨i,iIn,rfl,rfl⟩
    · exact ⟨_,List.mem_append_right _ (mem_borderEdges.mpr ⟨i,iIn,Or.inl rfl⟩),rfl,rfl⟩
    · exact ⟨_,List.mem_append_left _ (mem_stageEdges.mpr ⟨s,small,a,aIn,b,bIn,link,rfl⟩),rfl,rfl⟩
    · exact ⟨_,List.mem_append_right _ (mem_borderEdges.mpr ⟨i,iIn,Or.inr rfl⟩),rfl,rfl⟩

theorem stageVertex_pos (s x : Nat) : 0 < stageVertex m s x :=
  (Nat.succ_pos x).trans_le (Nat.le_add_right _ _)

theorem Butterfly.linked_stage (shape : Butterfly m g) {s x : Nat} (small : s < m) (inside : x < 2^m)
    (v : Nat) :
    g.Linked (stageVertex m s x) v ↔ ∃ y < 2^m, Link s x y ∧ v = stageVertex m (s + 1) y := by
  rw [shape.linked_iff]
  constructor
  · intro cases
    rcases cases with ⟨i,-,start,-⟩ | ⟨t,-,a,aIn,b,bIn,link,same,target⟩ | ⟨i,iIn,same,-⟩
    · exact absurd start (stageVertex_pos s x).ne'
    · obtain ⟨rfl,rfl⟩ := stageVertex_inj inside aIn same
      exact ⟨b,bIn,link,target⟩
    · exact absurd (stageVertex_inj inside iIn same).1 small.ne
  · intro found
    obtain ⟨y,yIn,link,target⟩ := found
    exact Or.inr (Or.inl ⟨s,small,x,inside,y,yIn,link,rfl,target⟩)

theorem Butterfly.linked_back (shape : Butterfly m g) {s y : Nat} (small : s < m) (inside : y < 2^m)
    (u : Nat) :
    g.Linked u (stageVertex m (s + 1) y) ↔ ∃ x < 2^m, Link s x y ∧ u = stageVertex m s x := by
  rw [shape.linked_iff]
  constructor
  · intro cases
    rcases cases with ⟨i,iIn,-,same⟩ | ⟨t,-,a,aIn,b,bIn,link,source,same⟩ | ⟨i,-,-,same⟩
    · exact absurd (stageVertex_inj inside iIn same).1 (Nat.succ_ne_zero s)
    · obtain ⟨row,rfl⟩ := stageVertex_inj inside bIn same
      cases Nat.succ.inj row
      exact ⟨a,aIn,link,source⟩
    · exact absurd same (stageVertex_lt small inside).ne
  · intro found
    obtain ⟨x,xIn,link,source⟩ := found
    exact Or.inr (Or.inl ⟨s,small,x,xIn,y,inside,link,source,rfl⟩)

theorem Butterfly.layers (shape : Butterfly m g) : Layers g.Linked (stageVertex m) m := by
  refine ⟨?_,?_,?_⟩
  · intro s x t y _ xIn _ yIn same
    exact stageVertex_inj xIn yIn same
  · intro s small x inside v
    exact shape.linked_stage small inside v
  · intro x inside v linked
    have exit : v = endVertex m := by
      rcases shape.linked_iff.mp linked with ⟨i,-,start,-⟩ | ⟨t,small,a,aIn,_,_,_,same,_⟩ | ⟨_,_,_,target⟩
      · exact absurd start (stageVertex_pos m x).ne'
      · exact absurd (stageVertex_inj inside aIn same).1 small.ne'
      · exact target
    subst exit
    refine ⟨?_,fun s layer y yIn same => (stageVertex_lt layer yIn).ne same.symm⟩
    intro w further
    rcases shape.linked_iff.mp further with ⟨i,_,start,_⟩ | ⟨t,small,a,aIn,_,_,_,same,_⟩ | ⟨i,iIn,same,_⟩
    · exact absurd start (Nat.succ_ne_zero _)
    · exact (stageVertex_lt small.le aIn).ne same.symm
    · exact (stageVertex_lt le_rfl iIn).ne same.symm

theorem two_links {s x : Nat} (small : s < m) (inside : x < 2^m) :
    ∃ low high, low < 2^m ∧ high < 2^m ∧ low ≠ high ∧ ∀ y, Link s x y ↔ y = low ∨ y = high := by
  have offset : x % 2^s < 2^s := Nat.mod_lt x (Nat.two_pow_pos s)
  have blockIn : x / 2^(s + 1) < 2^m / 2^(s + 1) :=
    Nat.div_lt_div_of_lt_of_dvd (Nat.pow_dvd_pow 2 (Nat.succ_le_of_lt small)) inside
  have top := block_inside small blockIn offset
  refine ⟨_,_,(Nat.le_add_right _ _).trans_lt top,top,
    (Nat.lt_add_of_pos_right (Nat.two_pow_pos s)).ne,?_⟩
  intro y
  rw [← link_iff_ends offset]
  exact ⟨(link_block s x).trans,(link_block s x).symm.trans⟩

theorem length_eq_two {vertices : List Nat} (distinct : vertices.Nodup) {stage low high : Nat}
    (lowIn : low < 2^m) (highIn : high < 2^m) (apart : low ≠ high)
    (members : ∀ v, v ∈ vertices ↔ v = stageVertex m stage low ∨ v = stageVertex m stage high) :
    vertices.length = 2 := by
  have different : stageVertex m stage low ≠ stageVertex m stage high :=
    fun same => apart (stageVertex_inj lowIn highIn same).2
  have both : [stageVertex m stage low,stageVertex m stage high].Nodup := by simp [different]
  have same : vertices.Perm [stageVertex m stage low,stageVertex m stage high] := by
    apply (List.perm_ext_iff_of_nodup distinct both).mpr
    intro v
    rw [members]
    simp
  exact same.length_eq

theorem Butterfly.two_out (shape : Butterfly m g) {s x : Nat} (small : s < m) (inside : x < 2^m) :
    (g.outEdges (stageVertex m s x)).length = 2 ∧
      ∀ edge ∈ g.outEdges (stageVertex m s x), ∃ y < 2^m, edge.target = stageVertex m (s + 1) y := by
  obtain ⟨low,high,lowIn,highIn,apart,links⟩ := two_links small inside
  constructor
  · rw [← List.length_map (·.target)]
    apply length_eq_two (successors_nodup shape.nodup (stageVertex m s x)) lowIn highIn apart
    intro v
    rw [TaskGraph.mem_successors,shape.linked_stage small inside]
    constructor
    · intro found
      obtain ⟨y,-,link,rfl⟩ := found
      exact ((links y).mp link).imp (congrArg _) (congrArg _)
    · rintro (rfl | rfl)
      · exact ⟨low,lowIn,(links low).mpr (Or.inl rfl),rfl⟩
      · exact ⟨high,highIn,(links high).mpr (Or.inr rfl),rfl⟩
  · intro edge member
    obtain ⟨listed,source⟩ := List.mem_filter.mp member
    have linked : g.Linked (stageVertex m s x) edge.target := ⟨edge,listed,by simpa using source,rfl⟩
    obtain ⟨y,yIn,-,target⟩ := (shape.linked_stage small inside _).mp linked
    exact ⟨y,yIn,target⟩

theorem Butterfly.two_in (shape : Butterfly m g) {s y : Nat} (small : s < m) (inside : y < 2^m) :
    (g.inEdges (stageVertex m (s + 1) y)).length = 2 ∧
      ∀ edge ∈ g.inEdges (stageVertex m (s + 1) y), ∃ x < 2^m, edge.source = stageVertex m s x := by
  obtain ⟨low,high,lowIn,highIn,apart,links⟩ := two_links small inside
  constructor
  · rw [← List.length_map (·.source)]
    apply length_eq_two (predecessors_nodup shape.nodup (stageVertex m (s + 1) y)) lowIn highIn apart
    intro u
    rw [TaskGraph.mem_predecessors,shape.linked_back small inside]
    constructor
    · intro found
      obtain ⟨x,-,link,rfl⟩ := found
      exact ((links x).mp link.symm).imp (congrArg _) (congrArg _)
    · rintro (rfl | rfl)
      · exact ⟨low,lowIn,((links low).mpr (Or.inl rfl)).symm,rfl⟩
      · exact ⟨high,highIn,((links high).mpr (Or.inr rfl)).symm,rfl⟩
  · intro edge member
    obtain ⟨listed,target⟩ := List.mem_filter.mp member
    have linked : g.Linked edge.source (stageVertex m (s + 1) y) := ⟨edge,listed,rfl,by simpa using target⟩
    obtain ⟨x,xIn,-,source⟩ := (shape.linked_back small inside _).mp linked
    exact ⟨x,xIn,source⟩

end Stages

/-- The FFT workload is a full butterfly on the smallest power of two that holds the signal. -/
theorem genFFT_full_butterfly (signalLength batchSizeMiB : Nat) (positive : 1 ≤ signalLength)
    (int : signalLength < 2^31)
    (fits : (nextExp2 signalLength).toNat * (Nat.log2 (nextExp2 signalLength).toNat + 1) + 2 < 2^31) :
    let N := (nextExp2 signalLength).toNat
    let log2N := Nat.log2 N
    ∃ workload, genFFT signalLength batchSizeMiB = some workload ∧
      workload.g.numVertices = N * (log2N + 1) + 2 ∧
      N = 2^log2N ∧ signalLength ≤ N ∧ (∀ k, signalLength ≤ 2^k → N ≤ 2^k) ∧
      (∀ s < log2N, ∀ x < N, (workload.g.outEdges (stageVertex log2N s x)).length = 2 ∧
        ∀ edge ∈ workload.g.outEdges (stageVertex log2N s x),
          ∃ y < N, edge.target = stageVertex log2N (s + 1) y) ∧
      (∀ s < log2N, ∀ y < N, (workload.g.inEdges (stageVertex log2N (s + 1) y)).length = 2 ∧
        ∀ edge ∈ workload.g.inEdges (stageVertex log2N (s + 1) y),
          ∃ x < N, edge.source = stageVertex log2N s x) ∧
      (workload.g.edges.map ends).Nodup ∧
      ∀ i < N, ∀ o < N, ∃! path,
        Walk workload.g.Linked (stageVertex log2N 0 i) (stageVertex log2N log2N o) path := by
  have power := nextExp2_toNat positive int
  rw [power,Nat.log2_two_pow] at fits
  obtain ⟨workload,made,shape⟩ := genFFT_butterfly batchSizeMiB positive int fits
  intro N log2N
  have log : log2N = Nat.clog 2 signalLength := by
    simp only [log2N,N]
    rw [power,Nat.log2_two_pow]
  have width : N = 2^log2N := by rw [log,← power]
  rw [width,log]
  refine ⟨workload,made,shape.size,rfl,Nat.le_pow_clog Nat.one_lt_two _,?_,?_,?_,shape.nodup,?_⟩
  · intro k enough
    exact Nat.pow_le_pow_right Nat.zero_lt_two (Nat.clog_le_of_le_pow enough)
  · intro s small x inside
    exact shape.two_out small inside
  · intro s small y inside
    exact shape.two_in small inside
  · intro i iIn o oIn
    exact shape.layers.existsUnique_walk oIn (Nat.zero_le _) iIn (by simp)

theorem genFFT_full_butterfly_five : ∃ workload, genFFT 5 1 = some workload ∧
    workload.g.numVertices = 34 ∧ (workload.g.edges.map ends).Nodup ∧
    ∃! path, Walk workload.g.Linked (stageVertex 3 0 1) (stageVertex 3 3 6) path := by
  obtain ⟨workload,made,size,-,-,-,-,-,distinct,paths⟩ :=
    genFFT_full_butterfly 5 1 (by decide) (by decide) (by decide)
  exact ⟨workload,made,size,distinct,paths 1 (by decide) 6 (by decide)⟩

end MetaPB.Workloads

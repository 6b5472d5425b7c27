import MetaPB.Executor.Completion
import MetaPB.Executor.Memory
import MetaPB.Scheduler.Baselines

/-! How large the heap of a pool has to be. The CPU-only schedule lays three buffers of a
task's whole workload side by side, and the last of them is written to its end: two runs that
start with different ints there end with the same one. -/
namespace MetaPB.Scheduler
open Executor Operator Lib.Word Lib.BlockMemory Lib.Transition

/-- One run on two memories. -/
def ActsOnBoth (pool : Pool) (event : Event) (before after : Platform × Platform) : Prop :=
  pool.Acts event before.1 after.1 ∧ pool.Acts event before.2 after.2

/-- A computing task with as many page blocks as any. -/
structure Widest (g : TaskGraph) (blocks task : Nat) : Prop where
  inside : task < g.numVertices
  computes : (cpuBody (g.properties task).op).isSome
  count : getNearestPageBlkCnt (g.properties task).inputSizeMiB = blocks
  most : ∀ tp ∈ g.vertices, (cpuBody tp.op).isSome → getNearestPageBlkCnt tp.inputSizeMiB ≤ blocks

section Loops
variable {opTag : OperatorTag} {base n target : Nat} {both after : Platform × Platform}

/-- A loop on three buffers side by side, of which the last may reach past the target. -/
theorem loop_agrees {body : Body} (loop : cpuBody opTag = some body) (few : n < 208)
    (before : base + 2 * bufferInts n + 7 ≤ target)
    (apart : ∀ address, address ≠ target → both.1.host address = both.2.host address)
    {first second : Ints}
    (one : OperatorManager.execBody body ⟨4 * base,4 * (base + bufferInts n),4 * (base + 2 * bufferInts n),n,{}⟩
      both.1.host = some first)
    (two : OperatorManager.execBody body ⟨4 * base,4 * (base + bufferInts n),4 * (base + 2 * bufferInts n),n,{}⟩
      both.2.host = some second) {address : Nat}
    (start : address ≠ target ∨ both.1.host target = both.2.host target ∨
      target + pageItemNum = base + 3 * bufferInts n) : first address = second address := by
  obtain ⟨result,executed,rfl⟩ := Option.map_eq_some_iff.mp one
  obtain ⟨written,again,rfl⟩ := Option.map_eq_some_iff.mp two
  simp only [Nat.mul_div_cancel_left _ (by decide : 0 < 4)] at executed again ⊢
  have items : itemNum n = bufferInts n := (itemNum_eq_iff n).mpr (by omega)
  have source (src : Nat) (low : src ≤ base + bufferInts n) :
      ∀ x < itemNum n + 7, window both.1.host src x = window both.2.host src x := by
    intro x near
    exact apart _ (by omega)
  rw [splice,splice]
  split
  next above =>
    refine Body.exec_agrees loop (source _ (by omega)) (source _ le_rfl) executed again ?_
    simp only [window_apply,Nat.add_sub_cancel' above,items]
    rcases eq_or_ne address target with rfl | other
    · rcases start with other | same | last
      · exact absurd rfl other
      · exact Or.inr same
      · left
        simp only [bufferInts,pageItemNum,dpuDmaBffrByte,dpuNum] at last above ⊢
        omega
    · exact Or.inr (apart address other)
  next below => exact apart address (by omega)

end Loops
section Calls
variable {om : PerfModel} {g : TaskGraph} {order : List Nat} {base blocks top target : Nat}

theorem cpuOnly_within (order : List Nat) :
    ∀ ratio ∈ (CPUOnlyScheduler.schedule order).offloadRatio, 0 ≤ ratio ∧ ratio ≤ 1 := by
  intro ratio member
  rw [List.eq_of_mem_replicate member]
  exact ⟨le_rfl,zero_le_one⟩

theorem cpuOnly_quiet {i : Nat} {worker : Worker} {call : Call}
    (planned : (plannedTask (4 * base) g (CPUOnlyScheduler.schedule order) .DO i worker).execute.call = some call)
    (idle : worker ≠ .cpu ∨ cpuBody (g.properties ((CPUOnlyScheduler.schedule order).taskAt i)).op = none)
    (address : Nat) : ¬ call.Writes address := by
  intro writes
  have called := planned_call planned
  cases worker with
  | cpu =>
    obtain rfl : call = _ := called
    have computes := (Call.writes_computing rfl writes).1
    rw [idle.resolve_left (not_not.mpr rfl)] at computes
    cases computes
  | dpu =>
    obtain ⟨-,rfl⟩ := called
    exact writes
  | map =>
    obtain ⟨-,rfl⟩ := called
    exact writes
  | reduce =>
    obtain ⟨-,rfl⟩ := called
    obtain ⟨-,-,-,reduce⟩ := cpuOnly_plan g order i
    obtain ⟨above,below⟩ := writes
    simp only [memPlan,reduce,bufferInts] at above below
    omega

/-- A call keeps two memories together wherever they agree, and the widest task brings them
together at the first int of its last chunk. -/
theorem call_agrees (small : g.Small) (orders : g.Orders order) (widest : Widest g blocks top) (positive : 0 < blocks)
    (place : target + pageItemNum = base + 3 * bufferInts blocks) {i : Nat} (inside : i < order.length)
    {worker : Worker} {call : Call}
    (planned : (plannedTask (4 * base) g (CPUOnlyScheduler.schedule order) .DO i worker).execute.call = some call)
    {before after : Platform × Platform} (one : call.Does before.1 after.1) (two : call.Does before.2 after.2)
    (apart : ∀ address, address ≠ target → before.1.host address = before.2.host address) {address : Nat}
    (start : address ≠ target ∨ before.1.host target = before.2.host target ∨
      worker = .cpu ∧ (CPUOnlyScheduler.schedule order).taskAt i = top) :
    after.1.host address = after.2.host address := by
  have low := planned_low (Nat.dvd_mul_right 4 base) small orders (cpuOnly_within order) inside planned
  have quiet (idle : worker ≠ .cpu ∨
      cpuBody (g.properties ((CPUOnlyScheduler.schedule order).taskAt i)).op = none) :
      after.1.host address = after.2.host address := by
    rw [Call.host_kept low one (cpuOnly_quiet planned idle address),
      Call.host_kept low two (cpuOnly_quiet planned idle address)]
    rcases eq_or_ne address target with rfl | other
    · rcases start with other | same | ⟨rfl,rfl⟩
      · exact absurd rfl other
      · exact same
      · have computes := widest.computes
        rw [idle.resolve_left (not_not.mpr rfl)] at computes
        cases computes
    · exact apart address other
  rcases eq_or_ne worker .cpu with rfl | away
  · cases loop : cpuBody (g.properties ((CPUOnlyScheduler.schedule order).taskAt i)).op with
    | none => exact quiet (Or.inr loop)
    | some body =>
      have counted : ∃ tp ∈ g.vertices, g.properties ((CPUOnlyScheduler.schedule order).taskAt i) = tp ∧
          Counted g (CPUOnlyScheduler.schedule order) i (getNearestPageBlkCnt tp.inputSizeMiB) :=
        planned_counts small orders (cpuOnly_within order) inside
      obtain ⟨tp,listed,named,few,-,-,-,-⟩ := counted
      obtain rfl : call = _ := planned_call planned
      have cpu := (cpuOnly_plan g order i).1
      have count : (planTask g (CPUOnlyScheduler.schedule order) i).totalPageBlkCnt =
          getNearestPageBlkCnt tp.inputSizeMiB := by rw [← named]; rfl
      rw [count] at cpu
      have most := widest.most tp listed (by rw [← named,loop]; rfl)
      have short : (planTask g (CPUOnlyScheduler.schedule order) i).cpuPageBlkCnt < 208 := cpu.trans_lt few
      rw [memPlan_cpuTCB base short,cpu] at one two
      obtain ⟨first,ran1,host1⟩ := (Call.does_loop loop).mp one
      obtain ⟨second,ran2,host2⟩ := (Call.does_loop loop).mp two
      rw [host1,host2]
      have before : base + 2 * bufferInts (getNearestPageBlkCnt tp.inputSizeMiB) + 7 ≤ target := by
        simp only [bufferInts,pageItemNum,dpuDmaBffrByte,dpuNum] at place ⊢
        omega
      refine loop_agrees loop few before apart ran1 ran2 (start.imp_right (Or.imp_right ?_))
      intro last
      have same : getNearestPageBlkCnt tp.inputSizeMiB = blocks := by
        rw [← named,last.2,widest.count]
      rw [same,place]
  · exact quiet (Or.inl away)

theorem execute_called (widest : Widest g blocks top) (positive : 0 < blocks) {pool next : Pool}
    (reached : Reachable (Pool.step om) (parseGraph (4 * base) g (CPUOnlyScheduler.schedule order) .DO) pool)
    (moved : pool.step om ⟨.cpu,.execute,top⟩ = some next) : pool.called ⟨.cpu,.execute,top⟩ ≠ none := by
  cases Pool.step_moves moved with
  | execute task phase named =>
    obtain ⟨i,-,rfl⟩ := reachable_planned reached .cpu task (by simp [phase,Phase.task])
    have same := named
    rw [plannedTask_id] at same
    have cpu := (cpuOnly_plan g order i).1
    have count : (planTask g (CPUOnlyScheduler.schedule order) i).totalPageBlkCnt = blocks := by
      rw [← widest.count,← same]
      rfl
    have counted : (memPlan (4 * base) (planTask g (CPUOnlyScheduler.schedule order) i)).cpuTCB.pageBlkCnt ≠ 0 := by
      simp only [memPlan,cpu,count]
      exact positive.ne'
    have closure : (plannedTask (4 * base) g (CPUOnlyScheduler.schedule order) .DO i .cpu).execute =
        .execCPU _ _ := if_pos counted
    simp only [Pool.called,phase]
    rw [if_pos named,closure]
    exact Option.some_ne_none _

/-- Once the widest task was executed, nothing tells the memories apart. -/
theorem run_together (small : g.Small) (orders : g.Orders order) (widest : Widest g blocks top)
    (positive : 0 < blocks) (place : target + pageItemNum = base + 3 * bufferInts blocks)
    {both : Platform × Platform}
    (apart : ∀ address, address ≠ target → both.1.host address = both.2.host address) {events : List Event}
    {final : Pool × Platform × Platform}
    (ran : Runs (Carried (Pool.step om) ActsOnBoth)
      (parseGraph (4 * base) g (CPUOnlyScheduler.schedule order) .DO,both) events final) :
    ⟨.cpu,.execute,top⟩ ∈ events → final.2.1.host target = final.2.2.host target := by
  refine (ran.history (fun events state => Reachable (Pool.step om)
      (parseGraph (4 * base) g (CPUOnlyScheduler.schedule order) .DO) state.1 ∧
    (∀ address, address ≠ target → state.2.1.host address = state.2.2.host address) ∧
    (⟨.cpu,.execute,top⟩ ∈ events → state.2.1.host target = state.2.2.host target)) ?_ ?_).2.2
  · exact ⟨.refl _ _,apart,fun none => absurd none List.not_mem_nil⟩
  · intro past event state next holds stepped
    obtain ⟨reached,elsewhere,together⟩ := holds
    obtain ⟨moved,first,second⟩ := stepped
    unfold Pool.Acts at first second
    cases called : state.1.called event with
    | none =>
      rw [called] at first second
      refine ⟨reached.next moved,?_,?_⟩
      · rw [first,second]
        exact elsewhere
      · rw [first,second]
        intro member
        rcases List.mem_append.mp member with earlier | now
        · exact together earlier
        · obtain rfl := List.mem_singleton.mp now
          exact absurd called (execute_called widest positive reached moved)
    | some call =>
      rw [called] at first second
      obtain ⟨i,inside,same,planned⟩ := called_planned reached called
      refine ⟨reached.next moved,fun address other => ?_,fun member => ?_⟩
      · exact call_agrees small orders widest positive place inside planned first second elsewhere (Or.inl other)
      · apply call_agrees small orders widest positive place inside planned first second elsewhere
        right
        rcases List.mem_append.mp member with earlier | now
        · exact Or.inl (together earlier)
        · obtain rfl := List.mem_singleton.mp now
          exact Or.inr ⟨rfl,(congrArg Event.id same).symm⟩

end Calls

section Need
variable {g : TaskGraph} {order : List Nat} {base size : Nat}

theorem exists_widest {tp : TaskProperties} (listed : tp ∈ g.vertices) (computes : (cpuBody tp.op).isSome) :
    ∃ blocks top, Widest g blocks top ∧ getNearestPageBlkCnt tp.inputSizeMiB ≤ blocks := by
  let computing := (Finset.range g.numVertices).filter fun task => (cpuBody (g.properties task).op).isSome
  have member {other : TaskProperties} (inside : other ∈ g.vertices) (runs : (cpuBody other.op).isSome) :
      ∃ task ∈ computing, g.properties task = other := by
    obtain ⟨task,bound,rfl⟩ := exists_task inside
    exact ⟨task,Finset.mem_filter.mpr ⟨Finset.mem_range.mpr bound,runs⟩,rfl⟩
  obtain ⟨first,found,named⟩ := member listed computes
  obtain ⟨top,most,largest⟩ := computing.exists_max_image
    (fun task => getNearestPageBlkCnt (g.properties task).inputSizeMiB) ⟨first,found⟩
  obtain ⟨inside,runs⟩ := Finset.mem_filter.mp most
  refine ⟨_,top,⟨Finset.mem_range.mp inside,runs,rfl,?_⟩,named ▸ largest first found⟩
  intro other otherIn otherRuns
  obtain ⟨task,counted,rfl⟩ := member otherIn otherRuns
  exact largest task counted

/-- Two memories under one complete run, in which every task is executed. -/
theorem exists_both_run (om : PerfModel) (small : g.Small) (orders : g.Orders order)
    (topological : g.Topological order) (base : Nat) (before : Platform × Platform) :
    ∃ events pool after, Runs (Carried (Pool.step om) ActsOnBoth)
        (parseGraph (4 * base) g (CPUOnlyScheduler.schedule order) .DO,before) events (pool,after) ∧
      ∀ task < g.numVertices, (⟨.cpu,.execute,task⟩ : Event) ∈ events := by
  obtain ⟨events,pool,-,ran,joined⟩ : ∃ events pool, events.length ≤ 20 * g.numVertices ∧
      run (Pool.step om) (parseGraph (4 * base) g (CPUOnlyScheduler.schedule order) .DO) events = some pool ∧
        pool.Joined := finishes_of_topological om (4 * base) .DO orders topological [] _ rfl
  have acted : ∃ after, Runs (Carried (Pool.step om) ActsOnBoth)
      (parseGraph (4 * base) g (CPUOnlyScheduler.schedule order) .DO,before) events (pool,after) := by
    refine exists_carried ?_ (.refl _ _) ran before
    intro pool event next reached _ before
    have live := exists_acts (Nat.dvd_mul_right 4 base) small orders (cpuOnly_within order) reached event
    obtain ⟨one,acted⟩ := live before.1
    obtain ⟨two,follows⟩ := live before.2
    exact ⟨(one,two),acted,follows⟩
  obtain ⟨after,both⟩ := acted
  refine ⟨events,pool,after,both,fun task inside => ?_⟩
  have performed := run_performed (by decide : Action.execute ≠ .check) .cpu ran
  simp only [joined .cpu,Phase.before,List.append_nil,List.map_nil] at performed
  rw [← mem_performed,performed]
  exact (orders.mem_iff task).mpr inside

theorem cpuOnly_overruns (om : PerfModel) (small : g.Small) (orders : g.Orders order)
    (topological : g.Topological order) (whole : 1024 ∣ size) {tp : TaskProperties} (listed : tp ∈ g.vertices)
    (computes : (cpuBody tp.op).isSome)
    (short : size < 3 * getNearestPageBlkCnt tp.inputSizeMiB * pageBlkSize) :
    ¬ KeepsHeap om (4 * base) size g (CPUOnlyScheduler.schedule order) := by
  intro keeps
  obtain ⟨blocks,top,widest,most⟩ := exists_widest listed computes
  have positive : 0 < blocks := by
    rcases Nat.eq_zero_or_pos blocks with rfl | positive
    · rw [Nat.le_zero.mp most] at short
      omega
    · exact positive
  let target := base + 3 * bufferInts blocks - pageItemNum
  have place : target + pageItemNum = base + 3 * bufferInts blocks := by
    simp only [target,bufferInts,pageItemNum,dpuDmaBffrByte,dpuNum]
    omega
  have outside : ¬ Inside (4 * base / 4) (size / 4) target := by
    intro hit
    obtain ⟨-,below⟩ := hit
    have wide := short.trans_le (Nat.mul_le_mul_right pageBlkSize (Nat.mul_le_mul_left 3 most))
    simp only [bufferInts,pageItemNum,dpuDmaBffrByte,dpuNum,pageBlkSize,pageSizeByte] at place wide
    omega
  let zeros : Platform := ⟨fun _ => 0,fun _ _ => 0⟩
  let marked : Platform := ⟨Function.update (fun _ => 0) target 1,fun _ _ => 0⟩
  obtain ⟨events,pool,⟨first,second⟩,both,executed⟩ :=
    exists_both_run om small orders topological base (zeros,marked)
  have together : first.host target = second.host target := by
    refine run_together small orders widest positive place ?_ both (executed top widest.inside)
    intro address other
    simp [zeros,marked,other]
  have kept : first.host target = 0 := keeps zeros events (pool,first)
    (both.seen (fun state => (state.1,state.2.1)) fun _ _ _ stepped => ⟨stepped.1,stepped.2.1⟩) target outside
  have marks : second.host target = 1 := by
    have same := keeps marked events (pool,second)
      (both.seen (fun state => (state.1,state.2.2)) fun _ _ _ stepped => ⟨stepped.1,stepped.2.2⟩) target outside
    simpa [marked] using same
  rw [kept,marks] at together
  cases together

/-- A heap holds every `DO` run of every schedule, and already those of the CPU-only schedule, exactly
if it is three times as large as every task that is not logical. On the DPUs that many pages do. -/
theorem heap_enough_iff (om : PerfModel) (g : TaskGraph) (order : List Nat) (heapBasePtr size : Nat)
    (orders : g.Orders order) (topological : g.Topological order) (small : g.Small)
    (kinds : ∀ tp ∈ g.vertices, isLogic tp.op = false → (cpuBody tp.op).isSome)
    (aligned : 4 ∣ heapBasePtr) (whole : 1024 ∣ size) :
    let Enough := ∀ tp ∈ g.vertices, isLogic tp.op = false →
      3 * getNearestPageBlkCnt tp.inputSizeMiB * pageBlkSize ≤ size
    let Admitted := fun sched : Schedule =>
      g.Orders sched.order ∧ ∀ ratio ∈ sched.offloadRatio, 0 ≤ ratio ∧ ratio ≤ 1
    ((∀ sched, Admitted sched → KeepsHeap om heapBasePtr size g sched) ↔ Enough) ∧
      (KeepsHeap om heapBasePtr size g (CPUOnlyScheduler.schedule order) ↔ Enough) ∧
      ∀ pages, (∀ tp ∈ g.vertices, isLogic tp.op = false →
        3 * getNearestPageBlkCnt tp.inputSizeMiB ≤ pages) →
          ∀ sched, Admitted sched → KeepsPages om heapBasePtr pages g sched := by
  intro Enough Admitted
  have holds (fits : Enough) (sched : Schedule) (admitted : Admitted sched) :
      KeepsHeap om heapBasePtr size g sched :=
    keepsHeap_of_fits om aligned small admitted.1 admitted.2 fits
  have needs (keeps : KeepsHeap om heapBasePtr size g (CPUOnlyScheduler.schedule order)) : Enough := by
    obtain ⟨base,rfl⟩ := aligned
    intro tp listed moves
    by_contra short
    exact cpuOnly_overruns om small orders topological whole listed (kinds tp listed moves) (not_le.mp short) keeps
  have cpuOnly : Admitted (CPUOnlyScheduler.schedule order) := ⟨orders,cpuOnly_within order⟩
  refine ⟨⟨fun all => needs (all _ cpuOnly),holds⟩,⟨needs,fun fits => holds fits _ cpuOnly⟩,?_⟩
  intro pages fits sched admitted
  exact keepsPages_of_fits om aligned small admitted.1 admitted.2 fits

/-- Nine page blocks do for a task of 20 MiB, a heap of 20 MiB does not. -/
theorem heap_enough_iff_chain :
    KeepsHeap chainPerf 4096 (9 * pageBlkSize) chain (CPUOnlyScheduler.schedule [0,1,2]) ∧
      ¬ KeepsHeap chainPerf 4096 (20 * 2^20) chain (CPUOnlyScheduler.schedule [0,1,2]) := by
  constructor
  · exact (heap_enough_iff chainPerf chain [0,1,2] 4096 (9 * pageBlkSize) (by decide) (by decide) (by decide)
      (by decide) (by decide) (by decide)).2.1.mpr (by decide)
  · intro keeps
    have fits := (heap_enough_iff chainPerf chain [0,1,2] 4096 (20 * 2^20) (by decide) (by decide) (by decide)
      (by decide) (by decide) (by decide)).2.1.mp keeps
    exact absurd fits (by decide)

end Need
end MetaPB.Scheduler

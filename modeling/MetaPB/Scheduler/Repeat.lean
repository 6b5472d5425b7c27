import MetaPB.Scheduler.Feasibility

/-! Repeated calls on one scheduler object. The processors' availability times outlive a
call, so a later call places its tasks on what earlier calls have left. Availability that
is the same on both processors shifts every time by one amount and changes no choice. -/
namespace MetaPB.Scheduler
open Executor Operator Lib Lib.Sorting Lib.Sequence

section Machine
variable (ar : Arithmetic)

/-- The processors a scheduler object has after a number of calls. -/
def processorsAfter (sort : (Nat → Nat → Bool) → List Nat → List Nat) (om : PerfModel) (g : TaskGraph) :
    Nat → Option (List Processor)
  | 0 => some freshProcessors
  | calls + 1 => (processorsAfter sort om g calls).bind fun processors =>
    (scheduleOnIn ar sort om g processors).map (·.processors)

/-- The call that follows a number of earlier calls. -/
def callAfter (sort : (Nat → Nat → Bool) → List Nat → List Nat) (om : PerfModel) (g : TaskGraph)
    (calls : Nat) : Option Placement :=
  (processorsAfter ar sort om g calls).bind (scheduleOnIn ar sort om g)

end Machine

/-- Times that one shift moves together: none is negative, none reaches the largest double, and
no free task may be sorted behind its successor. -/
structure Movable (om : PerfModel) (g : TaskGraph) (time : ℚ) : Prop where
  nonneg : om.Nonneg
  costly : ∀ tn, ¬ FreeInner om g tn
  small : time + totalSpent om g < doubleMax

/-- Both processors are free at one time: at zero still, or at one that moves the whole call, of
exact times. -/
def EvenAfter (ar : Arithmetic) (sort : (Nat → Nat → Bool) → List Nat → List Nat) (om : PerfModel)
    (g : TaskGraph) (calls : Nat) : Prop :=
  ∃ time, processorsAfter ar sort om g calls = some (processorsOf fun _ => time) ∧
    (time = 0 ∨ ar = .exact ∧ Movable om g time)

/-- Two runs of the placement loop, the second later by a fixed time. -/
structure Shifted (om : PerfModel) (g : TaskGraph) (time : ℚ) (placed : List Nat)
    (table later : SchedulingInfo) (nextAvailable afterwards : Int → ℚ) : Prop where
  costs : SameCosts (initialInfo om g) later
  side : ∀ tn ∈ placed, (later tn).assignedProcessor = (table tn).assignedProcessor
  ended : ∀ tn ∈ placed, (later tn).endTime = (table tn).endTime + time
  free : ∀ processor, afterwards processor = nextAvailable processor + time

section Shift
variable {om : PerfModel} {g : TaskGraph} {time : ℚ} {before after : List Nat} {tn : Nat}
  {table later : SchedulingInfo} {nextAvailable afterwards : Int → ℚ}

theorem Shifted.finishTime_eq
    (shifted : Shifted om g time before table later nextAvailable afterwards)
    (costs : SameCosts (initialInfo om g) table) (placed : ∀ edge ∈ g.inEdges tn, edge.source ∈ before)
    (processor : Int) : finishTime om g tn later ⟨processor,afterwards processor⟩ =
      finishTime om g tn table ⟨processor,nextAvailable processor⟩ + time := by
  have arrive : arrivals om g tn later processor =
      (arrivals om g tn table processor).map (· + time) := by
    unfold arrivals
    rw [List.map_map]
    have kept : (g.inEdges tn).filter (fun edge => (later edge.source).assignedProcessor ≠ processor) =
        (g.inEdges tn).filter fun edge => (table edge.source).assignedProcessor ≠ processor := by
      apply List.filter_congr
      intro edge member
      rw [shifted.side _ (placed edge member)]
    rw [kept]
    apply List.map_congr_left
    intro edge member
    rw [shifted.ended _ (placed edge (List.mem_of_mem_filter member)),Function.comp_apply,add_right_comm]
  have start : earliestStartTime om g tn later ⟨processor,afterwards processor⟩ =
      earliestStartTime om g tn table ⟨processor,nextAvailable processor⟩ + time := by
    rw [earliestStartTime_eq,earliestStartTime_eq,arrive,List.foldl_map,shifted.free processor]
    exact List.foldl_hom (· + time) fun best arrival => max_add_add_right best arrival time
  rw [finishTime,finishTime,start,shifted.costs tn processor,costs tn processor,add_right_comm]

theorem Shifted.next (shifted : Shifted om g time before table later nextAvailable afterwards)
    (costs : SameCosts (initialInfo om g) table) (placed : ∀ edge ∈ g.inEdges tn, edge.source ∈ before)
    {processor other : Int} {finish ending : ℚ}
    (chosen : Chosen om g tn table nextAvailable processor finish)
    (second : Chosen om g tn later afterwards other ending)
    (below : finishTime om g tn table ⟨0,nextAvailable 0⟩ < doubleMax)
    (still : finishTime om g tn table ⟨0,nextAvailable 0⟩ + time < doubleMax) :
    other = processor ∧ Shifted om g time (before ++ [tn])
      (Function.update table tn (placedInfo (table tn) processor (nextAvailable processor) finish))
      (Function.update later tn (placedInfo (later tn) other (afterwards other) ending))
      (Function.update nextAvailable processor finish) (Function.update afterwards other ending) := by
  have moved := shifted.finishTime_eq costs placed
  have secondBelow : finishTime om g tn later ⟨0,afterwards 0⟩ < doubleMax := by rwa [moved]
  have same : other = 1 ↔ processor = 1 := by
    rw [second.dpu_iff secondBelow,chosen.dpu_iff below,moved,moved]
    exact add_lt_add_iff_right time
  have one : other = processor := by
    rcases chosen.side with rfl | rfl
    · exact second.side.resolve_right fun dpu => absurd (same.mp dpu) (by decide)
    · exact same.mpr rfl
  subst one
  have ends : ending = finish + time := by
    rw [second.exact_of_lt (second.least.trans_lt secondBelow),moved,
      chosen.exact_of_lt (chosen.least.trans_lt below)]
  refine ⟨rfl,shifted.costs.update _ _ _ _,?_,?_,?_⟩
  · intro v member
    rcases eq_or_ne v tn with rfl | apart
    · simp [placedInfo]
    · rw [Function.update_of_ne apart,Function.update_of_ne apart]
      exact shifted.side v (by simpa [apart] using member)
  · intro v member
    rcases eq_or_ne v tn with rfl | apart
    · simpa [placedInfo] using ends
    · rw [Function.update_of_ne apart,Function.update_of_ne apart]
      exact shifted.ended v (by simpa [apart] using member)
  · intro processor
    rcases eq_or_ne processor other with rfl | apart
    · rw [Function.update_self,Function.update_self,ends]
    · rw [Function.update_of_ne apart,Function.update_of_ne apart]
      exact shifted.free processor

theorem placeTasks_shifted (nonneg : om.Nonneg) (costs : SameCosts (initialInfo om g) table)
    (unplaced : ∀ tn, (table tn).endTime = 0) {order : List Nat} (topological : g.Topological order)
    (nodup : order.Nodup) (early : 0 ≤ time) (small : time + (order.map (spent om g)).sum < doubleMax) :
    (placeTasks om g order table (processorsOf fun _ => time)).1 =
      (placeTasks om g order table freshProcessors).1 := by
  have loop : ∃ ratios final available,
      placeTasks om g order table freshProcessors = (ratios,final,processorsOf available) ∧
        Within om g (order.map (spent om g)).sum final available ∧ ∃ later afterwards,
          placeTasks om g order table (processorsOf fun _ => time) =
            (ratios,later,processorsOf afterwards) ∧
          Shifted om g time order final later available afterwards := by
    refine placeTasks_invariant (fun placed ratios final available =>
      Within om g (placed.map (spent om g)).sum final available ∧ ∃ later afterwards,
        placeTasks om g placed table (processorsOf fun _ => time) =
          (ratios,later,processorsOf afterwards) ∧
        Shifted om g time placed final later available afterwards) ?_ ?_
    · refine ⟨⟨costs,fun _ _ => le_rfl,fun tn => (unplaced tn).le⟩,table,fun _ => time,rfl,?_⟩
      exact ⟨costs,by simp,by simp,fun _ => (zero_add time).symm⟩
    · intro before tn rest ratios final available processor finish split held chosen
      obtain ⟨within,later,afterwards,looped,shifted⟩ := held
      have placed : ∀ edge ∈ g.inEdges tn, edge.source ∈ before :=
        inEdges_placed (split ▸ topological) (split ▸ nodup)
      have least : finishTime om g tn final ⟨0,available 0⟩ ≤ _ :=
        finishTime_le nonneg within.costs (within.free 0 (Or.inl rfl)) within.ended
      have tail : 0 ≤ (rest.map (spent om g)).sum := by
        apply List.sum_nonneg
        intro cost member
        obtain ⟨task,-,rfl⟩ := List.mem_map.mp member
        exact spent_nonneg nonneg task
      rw [split,List.map_append,List.sum_append,List.map_cons,List.sum_cons] at small
      obtain ⟨other,ending,second,stepped⟩ := placeTask_cases ratios tn later afterwards
      obtain ⟨rfl,next⟩ := shifted.next within.costs placed chosen second (by linarith) (by linarith)
      refine ⟨?_,_,_,?_,next⟩
      · rw [List.map_append,List.sum_append,List.map_singleton,List.sum_singleton]
        exact within.next nonneg chosen
      · rw [placeTasks_snoc,looped,stepped]
  obtain ⟨_,_,_,first,_,_,_,second,_⟩ := loop
  rw [first,second]

end Shift

section Calls
variable {sort : (Nat → Nat → Bool) → List Nat → List Nat} {om : PerfModel} {g : TaskGraph}

theorem Chosen.nonneg {tn : Nat} {table : SchedulingInfo} {nextAvailable : Int → ℚ} {processor : Int}
    {finish : ℚ} (chosen : Chosen om g tn table nextAvailable processor finish) (nonneg : om.Nonneg)
    (costs : SameCosts (initialInfo om g) table) (free : ∀ side, 0 ≤ nextAvailable side) : 0 ≤ finish := by
  rcases lt_or_ge finish doubleMax with below | above
  · have start := (le_earliestStartTime om g tn table ⟨processor,nextAvailable processor⟩).1
    rw [chosen.exact_of_lt below,finishTime,costs tn processor]
    exact add_nonneg ((free processor).trans start) (computationCost_nonneg nonneg tn processor)
  · exact doubleMax_pos.le.trans above

theorem processorsAfter_spec (contract : StdSort sort) (nonneg : om.Nonneg) (acyclic : g.Acyclic)
    (calls : Nat) : ∃ available, processorsAfter .exact sort om g calls = some (processorsOf available) ∧
      ∀ side, 0 ≤ available side := by
  induction calls with
  | zero => exact ⟨fun _ => 0,rfl,fun _ => le_rfl⟩
  | succ calls ih =>
    obtain ⟨before,called,early⟩ := ih
    obtain ⟨table,order,ranked,-,-,placing⟩ := scheduleOn_spec contract nonneg acyclic
    have loop : ∃ ratios final available,
        placeTasks om g order table (processorsOf before) = (ratios,final,processorsOf available) ∧
          SameCosts (initialInfo om g) final ∧ ∀ side, 0 ≤ available side := by
      refine placeTasks_invariant (fun _ _ table available =>
        SameCosts (initialInfo om g) table ∧ ∀ side, 0 ≤ available side) ⟨ranked.sameCosts,early⟩ ?_
      intro _ tn _ _ table available processor finish _ held chosen
      obtain ⟨costs,free⟩ := held
      refine ⟨costs.update _ _ _ _,?_⟩
      exact (Function.forall_update_iff available fun _ time => 0 ≤ time).mpr
        ⟨chosen.nonneg nonneg costs free,fun side _ => free side⟩
    obtain ⟨_,_,available,looped,-,free⟩ := loop
    refine ⟨available,?_,free⟩
    have placed := placing (processorsOf before)
    rw [looped] at placed
    rw [processorsAfter,called,Option.bind_some]
    exact congrArg (Option.map (·.processors)) placed

theorem EvenAfter.nonneg (contract : StdSort sort) (nonneg : om.Nonneg) (acyclic : g.Acyclic)
    {calls : Nat} {time : ℚ}
    (even : processorsAfter .exact sort om g calls = some (processorsOf fun _ => time)) : 0 ≤ time := by
  obtain ⟨available,called,free⟩ := processorsAfter_spec contract nonneg acyclic calls
  have same : processorsOf (fun _ => time) = processorsOf available :=
    Option.some.inj (even.symm.trans called)
  simp only [processorsOf,List.cons.injEq,Processor.mk.injEq] at same
  rw [same.1.2]
  exact free 0

/-- On even processors a call returns what a fresh scheduler would. -/
theorem scheduleOn_even (contract : StdSort sort) (nonneg : om.Nonneg) (acyclic : g.Acyclic)
    (costly : ∀ tn, ¬ FreeInner om g tn) {time : ℚ} (early : 0 ≤ time)
    (small : time + totalSpent om g < doubleMax) :
    (scheduleOn sort om g (processorsOf fun _ => time)).map (·.result) = schedule sort om g := by
  obtain ⟨table,order,ranked,all,sorted,placing⟩ := scheduleOn_spec contract nonneg acyclic
  have orders : g.Orders order := sorted.perm
  have topological := sorted_topological (initialInfo_nonneg nonneg) acyclic ranked all costly sorted
  have total : (order.map (spent om g)).sum = totalSpent om g :=
    List.Perm.sum_eq (List.Perm.map (spent om g) orders)
  have ratios := placeTasks_shifted nonneg ranked.sameCosts ranked.unplaced topological orders.nodup
    early (total ▸ small)
  rw [schedule_eq_scheduleOn,placing,placing,Option.map_some,Option.map_some,placementOf,placementOf,
    ratios]

theorem callAfter_order (contract : StdSort sort) (nonneg : om.Nonneg) (acyclic : g.Acyclic)
    (calls : Nat) : ∃ first placement, schedule sort om g = some first ∧
      callAfter .exact sort om g calls = some placement ∧ placement.result.order = first.order := by
  obtain ⟨available,called,-⟩ := processorsAfter_spec contract nonneg acyclic calls
  obtain ⟨table,order,-,-,-,placing⟩ := scheduleOn_spec contract nonneg acyclic
  have fresh := schedule_eq_scheduleOn sort om g
  have again : callAfter .exact sort om g calls = scheduleOn sort om g (processorsOf available) := by
    rw [callAfter,called,Option.bind_some]
  rw [placing] at fresh again
  exact ⟨_,_,fresh,again,rfl⟩

/-- As long as every call finds both processors free at one time, all calls return what the
first one does. -/
theorem schedule_repeats (ar : Arithmetic) (sort : (Nat → Nat → Bool) → List Nat → List Nat)
    (om : PerfModel) (g : TaskGraph) (contract : StdSort sort) (acyclic : g.Acyclic) (calls : Nat)
    (even : ∀ earlier < calls, EvenAfter ar sort om g earlier) :
    (∀ earlier < calls, (callAfter ar sort om g earlier).map (·.result) = scheduleIn ar sort om g) ∧
      (om.Nonneg → ∃ first, scheduleIn ar sort om g = some first) := by
  constructor
  · intro earlier before
    obtain ⟨time,reached,rfl | ⟨rfl,movable⟩⟩ := even earlier before
    · -- nothing has happened to the processors, so the call is the first one again
      rw [callAfter,reached,Option.bind_some,scheduleIn_eq_scheduleOnIn]
      rfl
    · rw [callAfter,reached,Option.bind_some]
      exact scheduleOn_even contract movable.nonneg acyclic movable.costly
        (EvenAfter.nonneg contract movable.nonneg acyclic reached) movable.small
  · intro nonneg
    obtain ⟨table,filled,-,-⟩ := calculateUpwardRanks_spec ar (initialInfo_nonneg nonneg) acyclic fun _ => rfl
    obtain ⟨first,returned,-⟩ := scheduleIn_returns filled sort
    exact ⟨first,returned⟩

end Calls
section Pair

/-- A MAC task and a task of some operator, with no edge between them. -/
def pairWith (op : OperatorTag) : TaskGraph :=
  ⟨[⟨.MAC,.MemoryBound,1⟩,⟨op,.Undefined,1⟩],[],by simp⟩

/-- Only MAC costs anything. -/
def macCost (cpu dpu : ℚ) (op : OperatorTag) (side : Int) : ℚ :=
  if op = .MAC then (if side = 0 then cpu else dpu) else 0

def macPerf (cpu dpu : ℚ) : PerfModel where
  deducePerfCPU opTag _ := {timeCostSecond := macCost cpu dpu opTag 0}
  deducePerfDPU opTag _ := {timeCostSecond := macCost cpu dpu opTag 1}

variable {cpu dpu : ℚ} {sort : (Nat → Nat → Bool) → List Nat → List Nat} {op : OperatorTag}

theorem macCost_nonneg (cpuNonneg : 0 ≤ cpu) (dpuNonneg : 0 ≤ dpu) (op : OperatorTag) (side : Int) :
    0 ≤ macCost cpu dpu op side := by
  unfold macCost
  split
  · split
    · exact cpuNonneg
    · exact dpuNonneg
  · exact le_rfl

theorem macPerf_nonneg (cpuNonneg : 0 ≤ cpu) (dpuNonneg : 0 ≤ dpu) : (macPerf cpu dpu).Nonneg :=
  ⟨fun op _ => macCost_nonneg cpuNonneg dpuNonneg op 0,fun op _ => macCost_nonneg cpuNonneg dpuNonneg op 1⟩

theorem pairWith_topological (op : OperatorTag) (order : List Nat) : (pairWith op).Topological order :=
  fun _ member => absurd member List.not_mem_nil

theorem pairWith_acyclic (op : OperatorTag) : (pairWith op).Acyclic :=
  (pairWith_topological op []).acyclic

theorem pairWith_costly (om : PerfModel) (tn : Nat) : ¬ FreeInner om (pairWith op) tn := by
  intro free
  exact free.2.1 rfl

theorem pairWith_costs (side : Int) :
    computationCost (initialInfo (macPerf cpu dpu) (pairWith op) 0) side = macCost cpu dpu .MAC side ∧
      computationCost (initialInfo (macPerf cpu dpu) (pairWith op) 1) side = macCost cpu dpu op side := by
  rcases eq_or_ne side 0 with rfl | dpuSide
  · exact ⟨rfl,rfl⟩
  · have same (tag : OperatorTag) : macCost cpu dpu tag side = macCost cpu dpu tag 1 := by
      simp [macCost,dpuSide]
    rw [same,same,computationCost,computationCost,if_neg dpuSide,if_neg dpuSide]
    exact ⟨rfl,rfl⟩

theorem pairWith_sorted {table : SchedulingInfo} {order : List Nat}
    (ranked : Ranked (pairWith op) (initialInfo (macPerf cpu dpu) (pairWith op)) table)
    (all : ∀ tn < (pairWith op).numVertices, (table tn).upwardRank ≠ -1)
    (few : macCost cpu dpu op 0 + macCost cpu dpu op 1 < 20)
    (sorted : Sorted (byRank table) (List.range (pairWith op).numVertices) order) : order = [0,1] := by
  have entry : (table 0).upwardRank = 10 + 0 := (ranked.stored 0 (all 0 Nat.two_pos)).1
  have last : (table 1).upwardRank = (macCost cpu dpu op 0 + macCost cpu dpu op 1) / 2 + 0 :=
    (ranked.stored 1 (all 1 Nat.one_lt_two)).1
  have ahead : byRank table 0 1 = true := by
    rw [byRank,entry,last]
    exact decide_eq_true (by linarith)
  exact Sorted.pair sorted ahead

/-- Without predecessors a step compares what the processors are free for. -/
theorem Chosen.plain {om : PerfModel} {tn : Nat} {table : SchedulingInfo} {available : Int → ℚ}
    {processor : Int} {finish : ℚ} (chosen : Chosen om (pairWith op) tn table available processor finish)
    {cost : Int → ℚ} (costs : ∀ side, computationCost (table tn) side = cost side)
    (small : available 0 + cost 0 < doubleMax) :
    (processor = 1 ↔ available 1 + cost 1 < available 0 + cost 0) ∧
      finish = available processor + cost processor := by
  have free (side : Int) : finishTime om (pairWith op) tn table ⟨side,available side⟩ =
      available side + cost side := by
    rw [← costs side]
    rfl
  have below : finishTime om (pairWith op) tn table ⟨0,available 0⟩ < doubleMax := by rwa [free 0]
  have choice := chosen.dpu_iff below
  rw [free 0,free 1] at choice
  exact ⟨choice,(chosen.exact_of_lt (chosen.least.trans_lt below)).trans (free processor)⟩

/-- The availability a task leaves on the processor it is placed on. -/
def busier (available : Int → ℚ) (processor : Int) (cost : Int → ℚ) : Int → ℚ :=
  Function.update available processor (available processor + cost processor)

/-- Both tasks go where they finish first, the MAC task before the other. -/
theorem pairWith_placed (contract : StdSort sort) (cpuNonneg : 0 ≤ cpu) (dpuNonneg : 0 ≤ dpu)
    (few : macCost cpu dpu op 0 + macCost cpu dpu op 1 < 20) (available : Int → ℚ)
    (small : available 0 + cpu + macCost cpu dpu op 0 < doubleMax) :
    ∃ placement processor last,
      (processor = 0 ∨ processor = 1) ∧ (processor = 1 ↔ available 1 + dpu < available 0 + cpu) ∧
      (last = 0 ∨ last = 1) ∧
      (last = 1 ↔ busier available processor (macCost cpu dpu .MAC) 1 + macCost cpu dpu op 1 <
        busier available processor (macCost cpu dpu .MAC) 0 + macCost cpu dpu op 0) ∧
      scheduleOnIn .exact sort (macPerf cpu dpu) (pairWith op) (processorsOf available) = some placement ∧
      placement.result.offloadRatio = [if processor = 1 then 1 else 0,0] ∧
      placement.processors = processorsOf
        (busier (busier available processor (macCost cpu dpu .MAC)) last (macCost cpu dpu op)) := by
  have nonneg := macPerf_nonneg cpuNonneg dpuNonneg
  obtain ⟨table,order,ranked,all,sorted,placing⟩ :=
    scheduleOn_spec contract nonneg (pairWith_acyclic op)
  cases pairWith_sorted ranked all few sorted
  have costs := ranked.sameCosts
  have added := macCost_nonneg cpuNonneg dpuNonneg op 0
  obtain ⟨processor,finish,chosen,entryStep⟩ : ∃ processor finish,
      Chosen (macPerf cpu dpu) (pairWith op) 0 table available processor finish ∧
        placeTask (macPerf cpu dpu) (pairWith op) ([],table,processorsOf available) 0 = _ :=
    placeTask_cases [] 0 table available
  have own (side : Int) : computationCost (table 0) side = macCost cpu dpu .MAC side :=
    (costs 0 side).trans (pairWith_costs side).1
  obtain ⟨choice,rfl⟩ := chosen.plain own ((le_add_of_nonneg_right added).trans_lt small)
  set middle := Function.update table 0 (placedInfo (table 0) processor (available processor)
    (available processor + macCost cpu dpu .MAC processor))
  obtain ⟨last,ending,second,lastStep⟩ : ∃ last ending,
      Chosen (macPerf cpu dpu) (pairWith op) 1 middle
          (busier available processor (macCost cpu dpu .MAC)) last ending ∧
        placeTask (macPerf cpu dpu) (pairWith op) ([] ++ [if processor = 1 then 1 else 0],middle,
          processorsOf (busier available processor (macCost cpu dpu .MAC))) 1 = _ :=
    placeTask_cases _ 1 middle _
  have other (side : Int) : computationCost (middle 1) side = macCost cpu dpu op side :=
    (costs.update 0 processor _ _ 1 side).trans (pairWith_costs side).2
  have later : busier available processor (macCost cpu dpu .MAC) 0 + macCost cpu dpu op 0 < doubleMax := by
    refine lt_of_le_of_lt (add_le_add_left ?_ _) small
    rcases chosen.side with rfl | rfl
    · exact le_rfl
    · exact le_add_of_nonneg_right cpuNonneg
  obtain ⟨lastChoice,rfl⟩ := second.plain other later
  have looped : placeTasks (macPerf cpu dpu) (pairWith op) [0,1] table (processorsOf available) =
      placeTask (macPerf cpu dpu) (pairWith op)
        (placeTask (macPerf cpu dpu) (pairWith op) ([],table,processorsOf available) 0) 1 := rfl
  have entryStep' : placeTask (macPerf cpu dpu) (pairWith op) ([],table,processorsOf available) 0 =
      ([] ++ [if processor = 1 then 1 else 0],middle,
        processorsOf (busier available processor (macCost cpu dpu .MAC))) := entryStep
  rw [entryStep',lastStep] at looped
  refine ⟨_,processor,last,chosen.side,choice,second.side,lastChoice,placing _,?_,?_⟩
  · rw [looped]
    rfl
  · rw [looped]
    rfl

theorem pairWith_totalSpent : totalSpent (macPerf cpu dpu) (pairWith .LOGIC_END) = cpu := by
  have first : spent (macPerf cpu dpu) (pairWith .LOGIC_END) 0 = cpu + 0 := rfl
  have last : spent (macPerf cpu dpu) (pairWith .LOGIC_END) 1 = 0 + 0 := rfl
  have both : totalSpent (macPerf cpu dpu) (pairWith .LOGIC_END) =
      spent (macPerf cpu dpu) (pairWith .LOGIC_END) 0 +
        (spent (macPerf cpu dpu) (pairWith .LOGIC_END) 1 + 0) := rfl
  rw [both,first,last]
  ring

theorem macCost_end (side : Int) : macCost cpu dpu .LOGIC_END side = 0 := if_neg (by decide)

theorem macCost_end_few : macCost cpu dpu .LOGIC_END 0 + macCost cpu dpu .LOGIC_END 1 < 20 := by
  rw [macCost_end,macCost_end]
  norm_num

theorem pairWith_choice (contract : StdSort sort) (cpuNonneg : 0 ≤ cpu) (dpuNonneg : 0 ≤ dpu)
    {available : Int → ℚ} (small : available 0 + cpu < doubleMax) (less : cpu < doubleMax)
    (agree : (scheduleOn sort (macPerf cpu dpu) (pairWith .LOGIC_END) (processorsOf available)).map
      (·.result) = schedule sort (macPerf cpu dpu) (pairWith .LOGIC_END)) :
    available 1 + dpu < available 0 + cpu ↔ dpu < cpu := by
  obtain ⟨placement,processor,_,-,choice,-,-,called,ratio,-⟩ :=
    pairWith_placed contract cpuNonneg dpuNonneg macCost_end_few available (by rwa [macCost_end,add_zero])
  obtain ⟨first,fresh,_,-,freshChoice,-,-,freshCalled,freshRatio,-⟩ :=
    pairWith_placed contract cpuNonneg dpuNonneg macCost_end_few (fun _ => 0)
      (by rwa [macCost_end,add_zero,zero_add])
  rw [schedule_eq_scheduleOn,scheduleOn,called,freshProcessors,freshCalled] at agree
  have same : placement.result = first.result := Option.some.inj agree
  rw [same,freshRatio] at ratio
  have entry := (List.cons.inj ratio).1
  rw [zero_add,zero_add] at freshChoice
  rw [← choice,← freshChoice]
  constructor
  · intro onDPU
    by_contra onCPU
    rw [if_pos onDPU,if_neg onCPU] at entry
    exact zero_ne_one entry
  · intro onDPU
    by_contra onCPU
    rw [if_neg onCPU,if_pos onDPU] at entry
    exact one_ne_zero entry

/-- What earlier calls leave makes no difference to any graph and model exactly when it is the
same on both processors. -/
theorem scheduleOn_eq_schedule_iff (available : Int → ℚ) (cpuFree : 0 ≤ available 0)
    (cpuEarly : available 0 < doubleMax) (dpuEarly : available 1 < doubleMax) :
    (∀ sort om g, StdSort sort → om.Nonneg → g.Acyclic → (∀ tn, ¬ FreeInner om g tn) →
      available 0 + totalSpent om g < doubleMax → available 1 + totalSpent om g < doubleMax →
      (scheduleOn sort om g (processorsOf available)).map (·.result) = schedule sort om g) ↔
      available 0 = available 1 := by
  constructor
  · intro agrees
    have choice (cpu dpu : ℚ) (cpuNonneg : 0 ≤ cpu) (dpuNonneg : 0 ≤ dpu)
        (cpuSmall : available 0 + cpu < doubleMax) (dpuSmall : available 1 + cpu < doubleMax) :
        available 1 + dpu < available 0 + cpu ↔ dpu < cpu := by
      apply pairWith_choice (favour_stdSort 0) cpuNonneg dpuNonneg cpuSmall (by linarith)
      apply agrees (favour 0) _ _ (favour_stdSort 0) (macPerf_nonneg cpuNonneg dpuNonneg)
        (pairWith_acyclic _) (pairWith_costly _)
      · rwa [pairWith_totalSpent]
      · rwa [pairWith_totalSpent]
    rcases lt_trichotomy (available 0) (available 1) with less | even | more
    · -- a CPU cost too small to bridge the difference
      let cpu := min (available 1 - available 0) ((doubleMax - available 1) / 2)
      have positive : 0 < cpu := lt_min (by linarith) (by linarith)
      have bridge : cpu ≤ available 1 - available 0 := min_le_left _ _
      have half : cpu ≤ (doubleMax - available 1) / 2 := min_le_right _ _
      have sooner := (choice cpu 0 positive.le le_rfl (by linarith) (by linarith)).mpr positive
      linarith
    · exact even
    · have sooner := (choice 0 0 le_rfl le_rfl (by linarith) (by linarith)).mp (by linarith)
      exact absurd sooner (lt_irrefl 0)
  · intro even sort om g contract nonneg acyclic costly small _
    have same : processorsOf available = processorsOf fun _ => available 0 := by
      simp [processorsOf,even]
    rw [same]
    exact scheduleOn_even contract nonneg acyclic costly cpuFree small

theorem lt_doubleMax {time : ℚ} (small : time < 2^53 - 1) : time < doubleMax := small.trans_le le_doubleMax

/-- Two MAC tasks, one on each processor, leave both free at one time. -/
theorem schedule_repeats_pair :
    (callAfter .exact (favour 0) (macPerf 1 1) (pairWith .MAC) 1).map (·.result) =
      schedule (favour 0) (macPerf 1 1) (pairWith .MAC) ∧
    ∃ first, schedule (favour 0) (macPerf 1 1) (pairWith .MAC) = some first := by
  have nonneg := macPerf_nonneg zero_le_one zero_le_one
  have even : ∀ earlier < 2, EvenAfter .exact (favour 0) (macPerf 1 1) (pairWith .MAC) earlier := by
    intro earlier before
    rcases Nat.le_one_iff_eq_zero_or_eq_one.mp (Nat.lt_succ_iff.mp before) with rfl | rfl
    · exact ⟨0,rfl,Or.inl rfl⟩
    · have total : totalSpent (macPerf 1 1) (pairWith .MAC) = 1 + 0 + (1 + 0 + 0) := rfl
      have cost (side : Int) : macCost 1 1 .MAC side = 1 := by simp [macCost]
      obtain ⟨placement,processor,last,side,choice,lastSide,lastChoice,called,-,left⟩ :=
        pairWith_placed (favour_stdSort 0) zero_le_one zero_le_one (by rw [cost,cost]; norm_num)
          (fun _ => 0) (lt_doubleMax (by rw [cost]; norm_num))
      have onCPU : processor = 0 := side.resolve_right fun onDPU => by simpa using choice.mp onDPU
      subst onCPU
      have onDPU : last = 1 := lastChoice.mpr (by simp [busier,cost])
      subst onDPU
      refine ⟨1,?_,Or.inr ⟨rfl,nonneg,pairWith_costly _,?_⟩⟩
      · rw [processorsAfter,processorsAfter,Option.bind_some,freshProcessors,called,Option.map_some,left]
        simp [processorsOf,busier,cost]
      · rw [total]
        exact lt_doubleMax (by norm_num)
  obtain ⟨same,returns⟩ := schedule_repeats .exact (favour 0) (macPerf 1 1) (pairWith .MAC)
    (favour_stdSort 0) (pairWith_acyclic .MAC) 2 even
  exact ⟨same 1 (by decide),returns nonneg⟩

/-- A MAC task that goes to the CPU in the first call goes to the DPU in the second. -/
theorem schedule_not_repeating : ¬ ∀ (sort : (Nat → Nat → Bool) → List Nat → List Nat)
    (om : PerfModel) (g : TaskGraph) (calls : Nat) (first later : Placement), StdSort sort →
      om.Nonneg → g.Acyclic → callAfter .exact sort om g 0 = some first →
      callAfter .exact sort om g calls = some later →
      later.result.order = first.result.order ∧
        later.result.offloadRatio = first.result.offloadRatio := by
  intro always
  have cost (side : Int) : macCost 1 1 .MAC side = 1 := by simp [macCost]
  obtain ⟨first,processor,last,side,choice,-,-,called,ratio,left⟩ :=
    pairWith_placed (favour_stdSort 0) zero_le_one zero_le_one macCost_end_few (fun _ => 0)
      (lt_doubleMax (by rw [macCost_end]; norm_num))
  have onCPU : processor = 0 := side.resolve_right fun onDPU => by simpa using choice.mp onDPU
  subst onCPU
  have same : busier (busier (fun _ => 0) 0 (macCost 1 1 .MAC)) last (macCost 1 1 .LOGIC_END) =
      busier (fun _ => 0) 0 (macCost 1 1 .MAC) := by
    rw [busier,macCost_end,add_zero,Function.update_eq_self]
  rw [same] at left
  obtain ⟨later,second,_,-,secondChoice,-,-,secondCalled,secondRatio,-⟩ :=
    pairWith_placed (favour_stdSort 0) zero_le_one zero_le_one macCost_end_few
      (busier (fun _ => 0) 0 (macCost 1 1 .MAC))
      (lt_doubleMax (by rw [macCost_end]; norm_num [busier,cost]))
  have onDPU : second = 1 := secondChoice.mpr (by norm_num [busier,cost])
  have reached : callAfter .exact (favour 0) (macPerf 1 1) (pairWith .LOGIC_END) 1 = some later := by
    rw [callAfter,processorsAfter,processorsAfter,Option.bind_some,freshProcessors,called,
      Option.map_some,left,Option.bind_some,secondCalled]
  have agree := (always _ _ _ 1 first later (favour_stdSort 0) (macPerf_nonneg zero_le_one zero_le_one)
    (pairWith_acyclic _) called reached).2
  rw [ratio,secondRatio,if_pos onDPU,if_neg zero_ne_one] at agree
  exact one_ne_zero (List.cons.inj agree).1

end Pair
end MetaPB.Scheduler

import MetaPB.Scheduler.MetaScheduler
import MetaPB.Scheduler.RankOrder

/-! The best of the three searches. An index is chosen exactly when some cost that a search was
answered is below the value the choice starts from, and what is chosen then is the best point of
all three. A schedule that is returned has a ratio within bounds for every task. -/
namespace MetaPB.Scheduler.MetaScheduler
open Executor Operator Utils Optimizer Lib Lib.Loop Lib.Best Lib.Sorting

section Settings
variable (m : MetaScheduler) (trial : Trial)

theorem settings_limited : (m.settings trial).Limited := by
  intro d small
  have small : d < m.tg.numVertices := small
  exact ⟨-100,100,by simp [settings,small],by simp [settings,small],by norm_num⟩

theorem settings_full (points : List (List ℚ)) :
    ((m.settings trial).evaluateFunc points).length = points.length := by
  simp [settings,evalSchedules]

theorem settings_valid (turning : 1 ≤ m.optIterMax) : (m.settings trial).Valid := by
  refine ⟨by norm_num [settings],turning,by simp [settings],by simp [settings],?_,
    fun points => (m.settings_full trial points).le⟩
  intro d low high lowAt highAt
  rw [List.eq_of_mem_replicate (List.mem_of_getElem? lowAt),
    List.eq_of_mem_replicate (List.mem_of_getElem? highAt)]
  norm_num

end Settings

section Searches
variable {m : MetaScheduler} {t : Trials} {trial : Trial} {s : Search ℚ Single}

/-- The costs an optimiser is answered for its first frame. -/
def firstCosts (m : MetaScheduler) (trial : Trial) : Option (List Single) :=
  (firstFrame (m.settings trial) trial.firstDraws).map (m.evalSchedules trial.execWorkload)

/-- What the best and the record of a search are, once it has returned. -/
structure Searched (m : MetaScheduler) (trial : Trial) (s : Search ℚ Single) : Prop where
  best : BestSoFar (s.ptHistory.take m.optIterMax) s.valHistory s.gBestPt s.gBestVal
  reported : Reported (m.settings trial) s
  frames : ∀ frame ∈ s.ptHistory, (m.settings trial).FrameInBox frame
  opening : 1 ≤ m.optIterMax → ∀ costs, m.firstCosts trial = some costs → ∀ cost ∈ costs,
    Answered (m.settings trial) s cost

theorem search_searched {σ : Type} {d : Derived ℚ Single σ} {members : Option σ}
    (fills : ∀ (s : Search ℚ Single) members newFrm own,
      (∀ frame ∈ s.ptHistory, (m.settings trial).FrameInBox frame) →
        d.exploration s members = some (newFrm,own) → (m.settings trial).FrameInBox newFrm)
    (ran : m.search trial d members = some s) : Searched m trial s := by
  simp only [search,Optimizer.construct,Option.bind_eq_bind,Option.bind_eq_some_iff,
    Option.map_eq_some_iff] at ran
  obtain ⟨start,⟨firstFrm,made,rfl⟩,own,-,⟨final,_⟩,ended,same⟩ := ran
  cases Option.some.inj same
  have boxed := firstFrame_inBox (m.settings_limited trial) made
  refine ⟨turns_bestSoFar firstFrm le_rfl ended,turns_reported (m.settings_full trial) ended,
    turns_inBox fills ?_ ended,?_⟩
  · intro frame member
    rwa [List.mem_singleton.mp member]
  · intro turning costs listed cost member
    rw [firstCosts,made] at listed
    cases Option.some.inj listed
    exact ⟨firstFrm,turns_first_call (m.settings_full trial) boxed turning ended,member⟩

theorem searches_searched {oVec : List (Search ℚ Single)} (ran : m.searches t = some oVec) :
    ∃ pso aoa rsa, oVec = [pso,aoa,rsa] ∧ Searched m t.pso pso ∧ Searched m t.aoa aoa ∧
      Searched m t.rsa rsa := by
  simp only [searches,Option.bind_eq_bind,Option.bind_eq_some_iff] at ran
  obtain ⟨pso,first,aoa,second,rsa,third,same⟩ := ran
  refine ⟨pso,aoa,rsa,(Option.some.inj same).symm,?_,?_,?_⟩
  · exact search_searched (fun _ _ _ _ frames explored =>
      PSO.exploration_inBox (m.settings_limited _) frames explored) first
  · exact search_searched (fun _ _ _ _ _ explored =>
      AOA.exploration_inBox (m.settings_limited _) explored) second
  · exact search_searched (fun _ _ _ _ _ explored =>
      RSA.exploration_inBox (m.settings_limited _) explored) third

/-- First costs that leave the explorations all they read: a best point, and for a swarm one of
every particle. -/
structure Launched (m : MetaScheduler) (t : Trials) : Prop where
  pso : ∀ costs, m.firstCosts t.pso = some costs → ∀ cost ∈ costs, cost < NumericLimits.max
  aoa : ∀ costs, m.firstCosts t.aoa = some costs → ∃ cost ∈ costs, cost < NumericLimits.max
  rsa : ∀ costs, m.firstCosts t.rsa = some costs → ∃ cost ∈ costs, cost < NumericLimits.max

theorem searches_isSome (m : MetaScheduler) (t : Trials) : (m.searches t).isSome = true ↔
    (m.search t.pso (PSO.derived (m.settings t.pso) (m.psoArgs t.quotient) t.pso.draws t.quotient)
      (PSO.construct (m.settings t.pso) (m.psoArgs t.quotient) t.pso.draws)).isSome = true ∧
    (m.search t.aoa (AOA.derived (m.settings t.aoa) t.aoa.draws t.quotient) (some AOA.construct)).isSome = true ∧
    (m.search t.rsa (RSA.derived (m.settings t.rsa) t.rsa.draws t.quotient) (some {})).isSome = true := by
  simp [searches,Option.isSome_iff_exists,Option.bind_eq_some_iff]

theorem search_isSome {σ : Type} {d : Derived ℚ Single σ} {members : Option σ} {own : σ}
    {firstFrm : List (List ℚ)} (made : firstFrame (m.settings trial) trial.firstDraws = some firstFrm)
    (built : members = some own) : (m.search trial d members).isSome = true ↔
      (exec (m.settings trial) d (Search.start firstFrm,own)).isSome = true := by
  simp [search,Optimizer.construct,made,built,Option.isSome_iff_exists,Option.bind_eq_some_iff]

/-- The searches return exactly when they have one turn at most or the first costs launch them. -/
theorem searches_isSome_iff (m : MetaScheduler) (t : Trials) :
    (m.searches t).isSome = true ↔ (1 < m.optIterMax → m.Launched t) := by
  have made (trial : Trial) := firstFrame_returns (m.settings_limited trial) (by norm_num [settings]) trial.firstDraws
  obtain ⟨pso,psoMade,psoBoxed⟩ := made t.pso
  obtain ⟨aoa,aoaMade,aoaBoxed⟩ := made t.aoa
  obtain ⟨rsa,rsaMade,rsaBoxed⟩ := made t.rsa
  obtain ⟨own,built,-⟩ := PSO.construct_returns t.pso.draws (m.settings_limited t.pso) (m.psoArgs t.quotient)
  rw [searches_isSome,search_isSome psoMade built,search_isSome aoaMade rfl,search_isSome rsaMade rfl]
  have launched : m.Launched t ↔ (∀ cost ∈ m.evalSchedules t.pso.execWorkload pso, cost < NumericLimits.max) ∧
      (∃ cost ∈ m.evalSchedules t.aoa.execWorkload aoa, cost < NumericLimits.max) ∧
      ∃ cost ∈ m.evalSchedules t.rsa.execWorkload rsa, cost < NumericLimits.max := by
    have costs {trial : Trial} {frame : List (List ℚ)}
        (made : firstFrame (m.settings trial) trial.firstDraws = some frame) :
        m.firstCosts trial = some (m.evalSchedules trial.execWorkload frame) := by rw [firstCosts,made,Option.map_some]
    constructor
    · intro launched
      exact ⟨launched.pso _ (costs psoMade),launched.aoa _ (costs aoaMade),launched.rsa _ (costs rsaMade)⟩
    · intro all
      refine ⟨fun listed found => ?_,fun listed found => ?_,fun listed found => ?_⟩
      · cases (costs psoMade).symm.trans found
        exact all.1
      · cases (costs aoaMade).symm.trans found
        exact all.2.1
      · cases (costs rsaMade).symm.trans found
        exact all.2.2
  rcases Nat.eq_zero_or_pos m.optIterMax with idle | turning
  · simp [exec,turns,settings,idle,loop]
  · have valid (trial : Trial) := m.settings_valid trial turning
    rw [PSO.exec_isSome_iff (valid _) (m.settings_full _) m.tasks psoBoxed built,
      AOA.exec_isSome_iff (valid _) (m.settings_full _) m.tasks aoaBoxed,
      RSA.exec_isSome_iff (valid _) (m.settings_full _) m.tasks rsaBoxed,launched]
    exact ⟨fun each more => ⟨each.1 more,each.2.1 more,each.2.2 more⟩,
      fun all => ⟨fun more => (all more).1,fun more => (all more).2.1,fun more => (all more).2.2⟩⟩

end Searches

section Choice
variable {m : MetaScheduler} {t : Trials} {oVec : List (Search ℚ Single)}

/-- A cost one of the searches was answered. -/
def Costed (m : MetaScheduler) (t : Trials) (cost : Single) : Prop :=
  ∃ pso aoa rsa, m.searches t = some [pso,aoa,rsa] ∧ (Answered (m.settings t.pso) pso cost ∨
    Answered (m.settings t.aoa) aoa cost ∨ Answered (m.settings t.rsa) rsa cost)

/-- The optimiser chosen is one of the three, the point it rounds into the schedule is one that it
evaluated, and no value recorded by any of them is smaller than the one recorded there. -/
def PicksBest (m : MetaScheduler) (t : Trials) : Prop :=
  ∃ (oVec : List (Search ℚ Single)) (index : Nat) (chosen : Search ℚ Single) (frame place : Nat)
      (val : Single) (actual : List ℚ),
    m.searches t = some oVec ∧ (bestOptimizer oVec).1 = index ∧ index < 3 ∧ oVec[index]? = some chosen ∧
      entry chosen.ptHistory frame place = some chosen.gBestPt ∧
      entry chosen.valHistory frame place = some val ∧
      (∀ s ∈ oVec, ∀ j i other, entry s.valHistory j i = some other → val ≤ other) ∧
      m.actualRatio chosen.gBestPt = some actual ∧
      m.schedule t = some (⟨false,m.heftOrder,actual⟩,optimizerInfos index chosen)

/-- The choice keeps its illegal index, or it is a best search below the initial value. -/
theorem bestOptimizer_cases (oVec : List (Search ℚ Single)) :
    bestOptimizer oVec = (-1,initialBestVal) ∧ (∀ s ∈ oVec, initialBestVal ≤ s.gBestVal) ∨
      ∃ (i : Nat) (s : Search ℚ Single), oVec[i]? = some s ∧ bestOptimizer oVec = (↑i,s.gBestVal) ∧
        s.gBestVal < initialBestVal ∧ ∀ other ∈ oVec, s.gBestVal ≤ other.gBestVal := by
  have cases := foldl_place (fun s : Search ℚ Single => s.gBestVal) (fun i => (i : ℤ)) oVec 0 (-1,initialBestVal)
  simp only [Nat.zero_add] at cases
  exact cases

theorem initialBestVal_lt_max : initialBestVal < NumericLimits.max :=
  Single.ofRat_lt.mpr (by norm_num : (666666688 : ℚ) < (2^24 - 1) * 2^104)

theorem Searched.below_iff {trial : Trial} {s : Search ℚ Single} (searched : Searched m trial s) :
    s.gBestVal < initialBestVal ↔ ∃ cost < initialBestVal, Answered (m.settings trial) s cost := by
  constructor
  · intro below
    rcases searched.best with ⟨initial,-⟩ | ⟨frame,index,-,attained,-⟩
    · rw [initial] at below
      exact absurd initialBestVal_lt_max below.asymm
    · exact ⟨s.gBestVal,below,(searched.reported.recorded _).mp (exists_entry.mp ⟨frame,index,attained⟩)⟩
  · intro answered
    obtain ⟨cost,below,answered⟩ := answered
    obtain ⟨frame,index,listed⟩ := exists_entry.mpr ((searched.reported.recorded cost).mpr answered)
    rcases searched.best with ⟨-,above⟩ | ⟨_,_,-,-,smallest,-⟩
    · exact absurd ((above frame index cost listed).trans_lt below) initialBestVal_lt_max.asymm
    · exact (smallest frame index cost listed).trans_lt below

theorem percent_within {ratio : ℚ} (within : -100 ≤ ratio ∧ ratio ≤ 100) :
    0 ≤ percent ratio ∧ percent ratio ≤ 1 := by
  obtain ⟨least,most⟩ := within
  have nonneg : 0 ≤ (ratio / 200 + 1/2) / (1/100) := by linarith
  have bounds : 0 ≤ lround ((ratio / 200 + 1/2) / (1/100)) ∧ lround ((ratio / 200 + 1/2) / (1/100)) ≤ 100 := by
    rw [lround,if_pos nonneg]
    exact ⟨Int.floor_nonneg.mpr (by linarith),Int.floor_le_iff.mpr (by norm_num; linarith)⟩
  have lower : (0 : ℚ) ≤ lround ((ratio / 200 + 1/2) / (1/100)) := by exact_mod_cast bounds.1
  have upper : (lround ((ratio / 200 + 1/2) / (1/100)) : ℚ) ≤ 100 := by exact_mod_cast bounds.2
  rw [percent]
  constructor <;> linarith

/-- The ratios of a schedule: one for every task, within bounds, and zero for the last. -/
structure Rounded (m : MetaScheduler) (count : Nat) (actual : List ℚ) : Prop where
  size : actual.length = m.tg.numVertices
  within : ∀ i < count, ∀ ratio, actual[i]? = some ratio →
    (0 ≤ ratio ∧ ratio ≤ 1) ∧ (i = m.tg.numVertices - 1 → ratio = 0)

theorem actualRatio_returns {trial : Trial} {ratio : List ℚ} (inside : (m.settings trial).InBox ratio) :
    ∃ actual, m.actualRatio ratio = some actual ∧ Rounded m m.tg.numVertices actual := by
  apply loop_returns (Rounded m) ⟨by simp,by simp⟩
  intro i small actual before
  have bound : i < ratio.length := inside.size.symm ▸ small
  have listed := List.getElem?_eq_getElem bound
  have within := inside.within i _ listed (-100) 100 (by simp [settings,small]) (by simp [settings,small])
  refine ⟨actual.set i (if i = m.tg.numVertices - 1 then 0 else percent ratio[i]),?_,
    by simpa using before.size,set_filled before.within ?_⟩
  · simp only [listed,Option.bind_eq_bind,Option.bind_some,write_of_lt (before.size.symm ▸ small)]
  · split
    next last => exact ⟨by norm_num,fun _ => rfl⟩
    next inner => exact ⟨percent_within within,fun last => absurd last inner⟩

theorem Searched.firstBest {trial : Trial} {s : Search ℚ Single} (searched : Searched m trial s)
    (below : s.gBestVal < initialBestVal) :
    FirstBest (s.ptHistory.take m.optIterMax) s.valHistory s.gBestPt s.gBestVal ∧
      (m.settings trial).InBox s.gBestPt := by
  rcases searched.best with ⟨initial,-⟩ | best
  · exact absurd (initial ▸ below) initialBestVal_lt_max.asymm
  · obtain ⟨frame,member,inFrame⟩ := best.mem
    exact ⟨best,(searched.frames frame (List.mem_of_mem_take member)).inside _ inFrame⟩

theorem searches_mem (ran : m.searches t = some oVec) {s : Search ℚ Single} (member : s ∈ oVec) :
    ∃ trial, Searched m trial s ∧ ∀ cost, Answered (m.settings trial) s cost → m.Costed t cost := by
  obtain ⟨pso,aoa,rsa,rfl,first,second,third⟩ := searches_searched ran
  simp only [List.mem_cons,List.not_mem_nil,or_false] at member
  rcases member with rfl | rfl | rfl
  · exact ⟨_,first,fun cost own => ⟨_,_,_,ran,Or.inl own⟩⟩
  · exact ⟨_,second,fun cost own => ⟨_,_,_,ran,Or.inr (Or.inl own)⟩⟩
  · exact ⟨_,third,fun cost own => ⟨_,_,_,ran,Or.inr (Or.inr own)⟩⟩

theorem Costed.searched {cost : Single} (costed : m.Costed t cost) :
    ∃ oVec, m.searches t = some oVec ∧ oVec.length = 3 ∧ ∃ s ∈ oVec, ∃ trial, Searched m trial s ∧
      Answered (m.settings trial) s cost := by
  obtain ⟨pso,aoa,rsa,ran,answered⟩ := costed
  obtain ⟨_,_,_,same,first,second,third⟩ := searches_searched ran
  simp only [List.cons.injEq,and_true] at same
  obtain ⟨rfl,rfl,rfl⟩ := same
  refine ⟨_,ran,rfl,?_⟩
  rcases answered with own | own | own
  · exact ⟨pso,by simp,_,first,own⟩
  · exact ⟨aoa,by simp,_,second,own⟩
  · exact ⟨rsa,by simp,_,third,own⟩

theorem picksBest_of_costed {cost : Single} (costed : m.Costed t cost) (below : cost < initialBestVal) :
    m.PicksBest t := by
  obtain ⟨oVec,ran,three,low,member,_,searched,answered⟩ := costed.searched
  rcases bestOptimizer_cases oVec with ⟨-,dearer⟩ | ⟨index,chosen,listed,picked,small,least⟩
  · have less := searched.below_iff.mpr ⟨cost,below,answered⟩
    exact absurd less (not_lt.mpr (dearer low member))
  · obtain ⟨trial,own,-⟩ := searches_mem ran (List.mem_of_getElem? listed)
    have inside : index < 3 := three ▸ (List.getElem?_eq_some_iff.mp listed).1
    obtain ⟨best,boxed⟩ := own.firstBest small
    obtain ⟨actual,rounded,-⟩ := actualRatio_returns boxed
    obtain ⟨frame,place,placed,attained,-⟩ := best
    refine ⟨oVec,index,chosen,frame,place,chosen.gBestVal,actual,ran,by rw [picked],inside,listed,
      entry_take placed,attained,?_,rounded,?_⟩
    · intro s member j i other found
      obtain ⟨_,others,-⟩ := searches_mem ran member
      refine (least s member).trans ?_
      rcases others.best with ⟨initial,above⟩ | ⟨_,_,-,-,smallest,-⟩
      · exact initial.trans_le (above j i other found)
      · exact smallest j i other found
    · simp [schedule,ran,picked,listed,rounded]

theorem costed_of_chosen (ran : m.searches t = some oVec) {index : Nat}
    (chosen : (bestOptimizer oVec).1 = index) : ∃ cost, m.Costed t cost ∧ cost < initialBestVal := by
  rcases bestOptimizer_cases oVec with ⟨unpicked,-⟩ | ⟨i,s,listed,-,small,-⟩
  · rw [unpicked] at chosen
    omega
  · obtain ⟨trial,searched,costed⟩ := searches_mem ran (List.mem_of_getElem? listed)
    obtain ⟨cost,below,own⟩ := searched.below_iff.mp small
    exact ⟨cost,costed cost own,below⟩

theorem unchosen (ran : m.searches t = some oVec) (high : ∀ cost, m.Costed t cost → initialBestVal ≤ cost) :
    (bestOptimizer oVec).1 = -1 ∧ m.schedule t = none := by
  rcases bestOptimizer_cases oVec with ⟨unpicked,-⟩ | ⟨i,s,-,picked,-⟩
  · exact ⟨by rw [unpicked],by simp [schedule,ran,unpicked]⟩
  · obtain ⟨cost,costed,below⟩ := costed_of_chosen ran (by rw [picked] : (bestOptimizer oVec).1 = i)
    exact absurd below (not_lt.mpr (high cost costed))

theorem picksBest_of_first (turning : 1 ≤ m.optIterMax) (launched : 1 < m.optIterMax → m.Launched t)
    {trial : Trial} (own : trial ∈ [t.pso,t.aoa,t.rsa]) {costs : List Single} {cost : Single}
    (first : m.firstCosts trial = some costs) (member : cost ∈ costs) (below : cost < initialBestVal) :
    m.PicksBest t := by
  obtain ⟨oVec,ran⟩ := Option.isSome_iff_exists.mp ((searches_isSome_iff m t).mpr launched)
  obtain ⟨pso,aoa,rsa,rfl,one,two,three⟩ := searches_searched ran
  refine picksBest_of_costed ⟨pso,aoa,rsa,ran,?_⟩ below
  simp only [List.mem_cons,List.not_mem_nil,or_false] at own
  rcases own with rfl | rfl | rfl
  · exact Or.inl (one.opening turning costs first cost member)
  · exact Or.inr (Or.inl (two.opening turning costs first cost member))
  · exact Or.inr (Or.inr (three.opening turning costs first cost member))

theorem firstCosts_returns (m : MetaScheduler) (trial : Trial) : ∃ points,
    m.firstCosts trial = some (m.evalSchedules trial.execWorkload points) ∧
      (m.evalSchedules trial.execWorkload points).length = 32 := by
  obtain ⟨frame,made,boxed⟩ := firstFrame_returns (m.settings_limited trial) (by norm_num [settings])
    trial.firstDraws
  exact ⟨frame,by rw [firstCosts,made,Option.map_some],(m.settings_full trial frame).trans boxed.size⟩

theorem launched_of_below (low : ∀ trial ∈ [t.pso,t.aoa,t.rsa], ∀ points,
    ∀ cost ∈ m.evalSchedules trial.execWorkload points, cost < NumericLimits.max) : m.Launched t := by
  have below {trial : Trial} (own : trial ∈ [t.pso,t.aoa,t.rsa]) (costs : List Single)
      (listed : m.firstCosts trial = some costs) :
      (∀ cost ∈ costs, cost < NumericLimits.max) ∧ ∃ cost ∈ costs, cost < NumericLimits.max := by
    obtain ⟨points,again,size⟩ := m.firstCosts_returns trial
    cases listed.symm.trans again
    have all := low trial own points
    have first := List.getElem_mem (by omega : 0 < (m.evalSchedules trial.execWorkload points).length)
    exact ⟨all,_,first,all _ first⟩
  exact ⟨fun costs listed => (below (by simp) costs listed).1,
    fun costs listed => (below (by simp) costs listed).2,fun costs listed => (below (by simp) costs listed).2⟩

theorem picksBest_of_small (turning : 1 ≤ m.optIterMax) (small : ∀ trial ∈ [t.pso,t.aoa,t.rsa], ∀ points,
    ∀ cost ∈ m.evalSchedules trial.execWorkload points, cost < initialBestVal) : m.PicksBest t := by
  have launched : m.Launched t := launched_of_below fun trial own points cost member =>
    (small trial own points cost member).trans initialBestVal_lt_max
  have own : t.pso ∈ [t.pso,t.aoa,t.rsa] := List.mem_cons_self
  obtain ⟨points,listed,size⟩ := m.firstCosts_returns t.pso
  have first := List.getElem_mem (by omega : 0 < (m.evalSchedules t.pso.execWorkload points).length)
  exact picksBest_of_first turning (fun _ => launched) own listed first (small _ own points _ first)

/-- What is returned is the order of HEFT with the rounded point of a search. -/
theorem schedule_returned {sched : Schedule} {optInfo : OptimizerInfos}
    (ran : m.schedule t = some (sched,optInfo)) :
    sched.order = m.heftOrder ∧ Rounded m m.tg.numVertices sched.offloadRatio := by
  simp only [schedule,Option.bind_eq_bind,Option.bind_eq_some_iff] at ran
  obtain ⟨oVec,searched,best,chosen,actual,rounded,same⟩ := ran
  cases Option.some.inj same
  rcases bestOptimizer_cases oVec with ⟨unpicked,-⟩ | ⟨index,s,listed,picked,small,-⟩
  · simp [unpicked] at chosen
  · rw [picked,optimizerAt_natCast,listed] at chosen
    cases Option.some.inj chosen
    obtain ⟨trial,own,-⟩ := searches_mem searched (List.mem_of_getElem? listed)
    obtain ⟨_,again,fine⟩ := actualRatio_returns (own.firstBest small).2
    cases rounded.symm.trans again
    exact ⟨rfl,fine⟩

/-- Whatever is drawn and answered, a schedule that is returned orders the tasks of the graph and
has a ratio within bounds for each, zero for the last. -/
theorem schedule_wellFormed {sort : (Nat → Nat → Bool) → List Nat → List Nat} (contract : StdSort sort)
    {om : PerfModel} {alpha beta : ℚ} {optIterMax : Nat} {tg : TaskGraph}
    (made : construct sort om alpha beta optIterMax tg = some m) {sched : Schedule}
    {optInfo : OptimizerInfos} (ran : m.schedule t = some (sched,optInfo)) :
    tg.Orders sched.order ∧ sched.offloadRatio.length = tg.numVertices ∧
      (∀ ratio ∈ sched.offloadRatio, 0 ≤ ratio ∧ ratio ≤ 1) ∧ sched.offloadRatio.getLast? = some 0 := by
  obtain ⟨order,rounded⟩ := schedule_returned ran
  rw [construct] at made
  split at made
  next tasks =>
    obtain ⟨heSchedule,heft,rfl⟩ := Option.map_eq_some_iff.mp made
    obtain ⟨table,-,rfl⟩ := Option.map_eq_some_iff.mp heft
    refine ⟨?_,rounded.size,?_,?_⟩
    · rw [order]
      exact (contract _ _ (byRank_strictWeak table)).perm
    · intro ratio member
      obtain ⟨i,listed⟩ := List.mem_iff_getElem?.mp member
      have bound := (List.getElem?_eq_some_iff.mp listed).1
      exact (rounded.within i (rounded.size ▸ bound) ratio listed).1
    · have bound : tg.numVertices - 1 < sched.offloadRatio.length := by
        rw [rounded.size]
        exact Nat.sub_lt tasks Nat.one_pos
      have listed := List.getElem?_eq_getElem bound
      rw [List.getLast?_eq_getElem?,rounded.size,listed]
      exact congrArg some ((rounded.within _ (Nat.sub_lt tasks Nat.one_pos) _ listed).2 rfl)
  next => contradiction

/-- The scheduler picks the best of all values exactly when the searches are launched and one of
them is answered a cost below the initial value. -/
theorem schedule_picksBest_iff (m : MetaScheduler) (t : Trials) :
    m.PicksBest t ↔ (1 < m.optIterMax → m.Launched t) ∧ ∃ cost, m.Costed t cost ∧ cost < initialBestVal := by
  constructor
  · intro picks
    obtain ⟨oVec,index,_,_,_,_,_,ran,picked,-⟩ := picks
    have returns : (m.searches t).isSome = true := by rw [ran,Option.isSome_some]
    exact ⟨(searches_isSome_iff m t).mp returns,costed_of_chosen ran picked⟩
  · intro condition
    obtain ⟨-,cost,costed,below⟩ := condition
    exact picksBest_of_costed costed below

end Choice

/-- One task between a start and an end. -/
def shortString : TaskGraph :=
  ⟨[⟨.LOGIC_START,.Logical,1⟩,⟨.CONV_1D,.ComputeBound,1⟩,⟨.LOGIC_END,.Logical,1⟩],[⟨0,1,1⟩,⟨1,2,1⟩],by decide⟩

/-- Even weights and 50 turns. -/
def evenScheduler : MetaScheduler := ⟨1/2,1/2,50,shortString,[0,1,2],by decide⟩

def slowTrial : Trial := ⟨extremeDraws,extremeDraws,fun _ _ => { timeCostSecond := 7000000 }⟩

def slowTrials : Trials := ⟨slowTrial,slowTrial,slowTrial,⟨(· / ·),fun _ _ _ => rfl⟩⟩

/-- Every schedule takes 7000000 seconds and costs 700000000: a finite cost that is not below the
initial value, so that the illegal index is read. -/
theorem schedule_picks_none :
    (∀ trial ∈ [slowTrials.pso,slowTrials.aoa,slowTrials.rsa], ∀ points,
      ∀ cost ∈ evenScheduler.evalSchedules trial.execWorkload points,
        cost = Single.ofRat 700000000 ∧ cost < NumericLimits.max) ∧
    (∃ oVec, evenScheduler.searches slowTrials = some oVec ∧ (bestOptimizer oVec).1 = -1) ∧
    evenScheduler.schedule slowTrials = none ∧ ¬ evenScheduler.PicksBest slowTrials := by
  have costs : ∀ points, ∀ cost ∈ evenScheduler.evalSchedules slowTrial.execWorkload points,
      cost = Single.ofRat 700000000 := by
    intro points cost member
    obtain ⟨i,-,rfl⟩ := List.mem_map.mp member
    norm_num [evenScheduler,slowTrial]
  have all : ∀ trial ∈ [slowTrials.pso,slowTrials.aoa,slowTrials.rsa], trial = slowTrial := by
    simp [slowTrials]
  have every : ∀ trial ∈ [slowTrials.pso,slowTrials.aoa,slowTrials.rsa], ∀ points,
      ∀ cost ∈ evenScheduler.evalSchedules trial.execWorkload points, cost = Single.ofRat 700000000 :=
    fun trial own points cost member => costs points cost (all trial own ▸ member)
  have finite : Single.ofRat 700000000 < NumericLimits.max :=
    Single.ofRat_lt.mpr (by norm_num : (700000000 : ℚ) < (2^24 - 1) * 2^104)
  have launched : evenScheduler.Launched slowTrials :=
    launched_of_below fun trial own points cost member => every trial own points cost member ▸ finite
  obtain ⟨oVec,ran⟩ := Option.isSome_iff_exists.mp ((searches_isSome_iff _ _).mpr fun _ => launched)
  have high : ∀ cost, evenScheduler.Costed slowTrials cost → initialBestVal ≤ cost := by
    intro cost costed
    obtain ⟨pso,aoa,rsa,-,⟨call,-,member⟩ | ⟨call,-,member⟩ | ⟨call,-,member⟩⟩ := costed <;>
      exact (costs call cost member).ge.trans' (Single.ofRat_le.mpr (by norm_num))
  obtain ⟨illegal,refused⟩ := unchosen ran high
  refine ⟨fun trial own points cost member => ?_,⟨oVec,ran,illegal⟩,refused,fun picks => ?_⟩
  · have same := every trial own points cost member
    exact ⟨same,same ▸ finite⟩
  · obtain ⟨_,_,_,_,_,_,_,-,-,-,-,-,-,-,-,returned⟩ := picks
    rw [refused] at returned
    contradiction

end MetaPB.Scheduler.MetaScheduler

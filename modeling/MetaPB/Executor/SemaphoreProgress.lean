import MetaPB.Executor.SemaphoreInvariant
import MetaPB.Lib.LongestPath
import Mathlib.Algebra.Order.BigOperators.Group.Finset

/-! Runs of the semaphore executor. The lowest unfinished task waits for nobody, so the only
step it may lack is one that overflows. Where an int counts the edges into every vertex and 64
bits hold every path, the clock ends at the critical path. -/
namespace MetaPB.Executor.Sema
open Lib.Best Lib.LongestPath Lib.Transition

namespace Graph
variable {g : Graph}

theorem backwards_wellFounded (forward : g.Forward) : WellFounded fun u v => g.Linked u v :=
  Subrelation.wf (fun linked => forward _ linked) Nat.lt_wfRel.wf

theorem critical_solves (forward : g.Forward) :
    Solves (fun v u => g.Linked u v) (fun v c => g.duration v + c) g.critical (· < g.numVertices) := by
  refine ⟨fun v u _ linked => (g.inside _ linked).1,fun _ _ => Nat.zero_le _,?_⟩
  intro v _
  refine ⟨g.base v,?_,g.critical_eq forward v⟩
  rcases eq_or_ne (g.predecessors v) [] with first | entered
  · left
    refine ⟨fun u linked => ?_,by rw [base,first]; rfl⟩
    have member := mem_predecessors.mpr linked
    rw [first] at member
    exact List.not_mem_nil member
  · right
    have greatest : IsGreatest {c | c ∈ (g.predecessors v).map g.critical} (g.base v) :=
      foldl_max_isGreatest (by simpa using entered) fun _ _ => Nat.zero_le _
    simpa [mem_predecessors] using greatest

end Graph

section Paths
variable {g : Graph} {v total : Nat}

theorem pathWeight_list (inside : v < g.numVertices)
    (weight : PathWeight (fun v u => g.Linked u v) g.duration v total) :
    ∃ path, (∀ node ∈ path ++ [v], node < g.numVertices) ∧ (path ++ [v]).IsChain g.Linked ∧
      ((path ++ [v]).map g.duration).sum = total := by
  induction weight with
  | single v => exact ⟨[],by simpa using inside,List.isChain_singleton v,by simp⟩
  | step v u c linked weight ih =>
    obtain ⟨path,bounds,chain,rfl⟩ := ih (g.inside _ linked).1
    refine ⟨path ++ [u],?_,?_,?_⟩
    · intro node member
      rcases List.mem_append.mp member with before | last
      · exact bounds node before
      · rw [List.mem_singleton.mp last]
        exact inside
    · refine List.isChain_append.mpr ⟨chain,List.isChain_singleton v,?_⟩
      simpa using linked
    · simp only [List.map_append,List.sum_append,List.map_cons,List.map_nil,List.sum_singleton]
      omega

theorem list_pathWeight (path : List Nat) (chain : (path ++ [v]).IsChain g.Linked) :
    PathWeight (fun v u => g.Linked u v) g.duration v ((path ++ [v]).map g.duration).sum := by
  induction path using List.reverseRecOn generalizing v with
  | nil => simpa using PathWeight.single v
  | append_singleton path u ih =>
    obtain ⟨before,-,linked⟩ := List.isChain_append.mp chain
    have step := PathWeight.step v u _ (by simpa using linked) (ih before)
    convert step using 1
    simp only [List.map_append,List.sum_append,List.map_cons,List.map_nil,List.sum_singleton]
    omega

theorem pathSum_iff : PathSum g total ↔
    ∃ v < g.numVertices, PathWeight (fun v u => g.Linked u v) g.duration v total := by
  constructor
  · rintro ⟨path,filled,bounds,chain,rfl⟩
    rcases List.eq_nil_or_concat path with empty | ⟨before,v,rfl⟩
    · exact absurd empty filled
    · rw [List.concat_eq_append] at *
      exact ⟨v,bounds v (by simp),list_pathWeight before chain⟩
  · rintro ⟨v,inside,weight⟩
    obtain ⟨path,bounds,chain,sum⟩ := pathWeight_list inside weight
    exact ⟨path ++ [v],by simp,bounds,chain,sum⟩

theorem pathSum_critical (forward : g.Forward) (inside : v < g.numVertices) : PathSum g (g.critical v) :=
  pathSum_iff.mpr ⟨v,inside,(g.critical_solves forward).pathWeight_value (g.backwards_wellFounded forward) inside⟩

/-- A path of increasing ids takes no vertex twice. -/
theorem pathSum_le (forward : g.Forward) (sum : PathSum g total) : total ≤ g.durations.sum := by
  obtain ⟨path,-,bounds,chain,rfl⟩ := sum
  have increasing : path.IsChain (· < ·) := chain.imp fun u v linked => forward _ linked
  have distinct : path.Nodup := (List.isChain_iff_pairwise.mp increasing).imp Nat.ne_of_lt
  have listed : path ⊆ List.range g.numVertices := fun v member => List.mem_range.mpr (bounds v member)
  have whole : (List.range g.numVertices).map g.duration = g.durations := by
    apply List.ext_getElem
    · simp [Graph.numVertices]
    · intro v _ inside
      simp [Graph.duration,List.getElem?_eq_getElem inside]
  obtain ⟨some,same,sublist⟩ := List.subperm_of_subset distinct listed
  have shorter := (sublist.map g.duration).sum_le_sum fun _ _ => Nat.zero_le _
  rw [whole] at shorter
  rwa [← (same.map g.duration).sum_eq]

end Paths

section Runs
variable {g : Graph} {workers : Nat} {s t : State} {status : Nat → Status}

theorem step_fetching {w : Nat} {spurious : Bool} (free : s.workers w = .fetching) :
    Sema.step g s ⟨w,spurious⟩ = some ⟨s.index + 1,s.shared,Function.update s.workers w
      (if s.index < g.numVertices then .executing s.index (.acquiring (g.inDegree s.index)) else .joined),
      s.started⟩ := by
  simp only [Sema.step,free]

theorem step_executing {w u : Nat} {spurious : Bool} {phase : Phase} {next : Option Phase} {later : Shared}
    (held : s.workers w = .executing u phase)
    (ran : executeTask g u spurious s.shared phase = some (next,later)) :
    Sema.step g s ⟨w,spurious⟩ = some ⟨s.index,later,
      Function.update s.workers w (resumed u next),logged s.started u phase⟩ := by
  simp only [Sema.step,held,ran,Option.map_some]

theorem Tracks.completed (tracks : Tracks g workers s status) {v : Nat} (inside : v < g.numVertices)
    (done : ¬ Unfinished g s v) : status v = .completed := by
  cases own : status v with
  | unfetched =>
    have ahead := ((tracks.fetched v).mp own).resolve_left (not_le.mpr inside)
    exact absurd ⟨inside,Or.inl ahead⟩ done
  | active phase =>
    obtain ⟨w,held⟩ := tracks.owner v phase own
    exact absurd ⟨inside,Or.inr ⟨w,phase,held⟩⟩ done
  | completed => rfl

/-- The bounds of the machine integers: no vertex has too many edges into it, and no path lasts
too long. -/
structure Fits (g : Graph) : Prop where
  counted : ∀ v < g.numVertices, g.inDegree v < 2^31
  timed : ∀ v < g.numVertices, g.critical v < 2^63

theorem fits_iff (forward : g.Forward) :
    Fits g ↔ (∀ v < g.numVertices, g.inDegree v < 2^31) ∧ ∀ total, PathSum g total → total < 2^63 := by
  constructor
  · intro fits
    refine ⟨fits.counted,fun total sum => ?_⟩
    obtain ⟨v,inside,weight⟩ := pathSum_iff.mp sum
    exact ((g.critical_solves forward).pathWeight_le inside weight).trans_lt (fits.timed v inside)
  · rintro ⟨counted,short⟩
    exact ⟨counted,fun v inside => short _ (pathSum_critical forward inside)⟩

/-- Every access finds what it needs once all permits are there and nothing overflows. -/
theorem executeTask_progress (g : Graph) (node : Nat) (spurious : Bool) (shared : Shared) (phase : Phase)
    (permits : needed g node (.active phase) ≤ shared.semaphores node) (counted : g.inDegree node < 2^31)
    (timed : phase = .acquiring 0 → shared.lastWakerTime node + g.duration node < 2^63) :
    ∃ result, executeTask g node spurious shared phase = some result := by
  match phase with
  | .acquiring 0 => exact ⟨_,if_pos (timed rfl)⟩
  | .acquiring (left + 1) =>
    exact ⟨_,if_pos ⟨Nat.lt_of_lt_of_le (Nat.succ_pos left) permits,(Nat.sub_le _ _).trans_lt counted⟩⟩
  | .loading finish => exact ⟨_,rfl⟩
  | .timing finish current =>
    simp only [executeTask]
    split
    next => split <;> exact ⟨_,rfl⟩
    next => exact ⟨_,rfl⟩
  | .updating finish (target::rest) => exact ⟨_,rfl⟩
  | .updating finish [] => exact ⟨_,rfl⟩
  | .releasing finish target rest => exact ⟨_,rfl⟩

theorem Consistent.ready {shared : Shared} {started : List Nat} {u : Nat} (forward : g.Forward)
    (consistent : Consistent g status shared started) (inside : u < g.numVertices)
    (before : ∀ v < u, status v = .completed) : shared.semaphores u = needed g u (status u) := by
  have released : pending g status u = 0 := by
    apply Finset.sum_eq_zero
    intro v _
    apply List.count_eq_zero.mpr
    intro member
    have linked : g.Linked v u := Graph.mem_successors.mp ((consistent.held v).part member)
    rw [before v (forward _ linked)] at member
    exact List.not_mem_nil member
  have permits := consistent.permits u inside
  omega

theorem Sound.turn_lowest (forward : g.Forward) (fits : Fits g) (sound : Sound g workers s) {w u : Nat}
    {phase : Phase} (held : s.workers w = .executing u phase) (before : ∀ v < u, ¬ Unfinished g s v) :
    ∃ result, executeTask g u false s.shared phase = some result := by
  obtain ⟨status,tracks,consistent⟩ := sound
  have inside := (tracks.inside held).1
  have active := tracks.owned w u phase held
  have permits := consistent.ready forward inside fun v lower =>
    tracks.completed (lower.trans inside) (before v lower)
  rw [active] at permits
  apply executeTask_progress g u false s.shared phase permits.ge (fits.counted u inside)
  rintro rfl
  have ready : needed g u (status u) = 0 := by
    rw [active]
    rfl
  rw [consistent.woken inside ready,Nat.add_comm,← Graph.critical_eq forward]
  exact fits.timed u inside

/-- With all lower tasks done, a task nobody fetched is the next, and a worker is there to fetch it. -/
theorem Sound.fetching (sound : Sound g workers s) (working : 1 ≤ workers) {u : Nat} (inside : u < g.numVertices)
    (before : ∀ v < u, ¬ Unfinished g s v) (unfetched : s.index ≤ u) :
    s.index = u ∧ s.workers 0 = .fetching := by
  obtain ⟨status,tracks,consistent⟩ := sound
  have same : s.index = u := by
    by_contra apart
    have lower : s.index < u := lt_of_le_of_ne unfetched apart
    exact before s.index lower ⟨lower.trans inside,Or.inl le_rfl⟩
  refine ⟨same,?_⟩
  cases own : s.workers 0 with
  | fetching => rfl
  | executing node phase =>
    obtain ⟨bound,counted⟩ := tracks.inside own
    exact absurd ⟨bound,Or.inr ⟨0,phase,own⟩⟩ (before node (same ▸ counted))
  | joined =>
    rcases tracks.joined 0 own with outside | last <;> omega

theorem Sound.live (forward : g.Forward) (fits : Fits g) (sound : Sound g workers s) (working : 1 ≤ workers)
    (open_ : ∃ node, Unfinished g s node) : ∃ action next, Sema.step g s action = some next := by
  classical
  obtain ⟨⟨inside,lowest⟩,before⟩ := And.intro (Nat.find_spec open_) fun v => Nat.find_min (m := v) open_
  rcases lowest with unfetched | ⟨w,phase,held⟩
  · obtain ⟨-,free⟩ := sound.fetching working inside before unfetched
    exact ⟨⟨0,false⟩,_,step_fetching free⟩
  · obtain ⟨result,ran⟩ := sound.turn_lowest forward fits held before
    exact ⟨⟨w,false⟩,_,step_executing held ran⟩

theorem Tracks.joined_completed (tracks : Tracks g workers s status) (working : 1 ≤ workers) (joined : Joined s)
    {v : Nat} (inside : v < g.numVertices) : status v = .completed := by
  apply tracks.completed inside
  rintro ⟨-,unfetched | ⟨w,phase,held⟩⟩
  · rcases tracks.joined 0 (joined 0) with outside | last <;> omega
  · rw [joined w] at held
    cases held

/-- What a task has left to do, with nobody else at the clock. -/
def rank (g : Graph) (node : Nat) (shared : Shared) : Phase → Nat
  | .acquiring left => 2 * (g.successors node).length + left + 5
  | .loading _ => 2 * (g.successors node).length + 4
  | .timing _ current => 2 * (g.successors node).length + if shared.globalTimer = current then 2 else 3
  | .updating _ rest => 2 * rest.length + 1
  | .releasing _ _ rest => 2 * rest.length + 2

theorem executeTask_rank {node : Nat} {shared later : Shared} {phase next : Phase}
    (ran : executeTask g node false shared phase = some (some next,later)) :
    rank g node later next < rank g node shared phase := by
  cases executeTask_access ran with
  | start fits =>
    simp only [rank]
    omega
  | acquire left available counted =>
    simp only [rank]
    omega
  | load finish =>
    simp only [rank,if_true]
    omega
  | retry finish current later failed =>
    have moved : shared.globalTimer ≠ current := failed.resolve_left Bool.false_ne_true
    simp only [rank,if_true,if_neg moved]
    omega
  | exchange finish current later seen =>
    simp only [rank]
    split <;> omega
  | keep finish current earlier =>
    simp only [rank]
    split <;> omega
  | update finish target rest =>
    simp only [rank,List.length_cons]
    omega
  | release finish target rest =>
    simp only [rank]
    omega

/-- Some run from here ends with the tasks below the bound done. -/
def Reaches (g : Graph) (workers bound : Nat) (s : State) : Prop :=
  ∃ t, Reachable (Sema.step g) s t ∧ Sound g workers t ∧ ∀ v < bound, ¬ Unfinished g t v

theorem Sound.run_task (forward : g.Forward) (fits : Fits g) (sound : Sound g workers s) {w u : Nat}
    {phase : Phase} (held : s.workers w = .executing u phase) (before : ∀ v < u, ¬ Unfinished g s v) :
    Reaches g workers (u + 1) s := by
  induction left : rank g u s.shared phase using Nat.strong_induction_on generalizing s phase with
  | _ left ih =>
    obtain ⟨⟨next,later⟩,ran⟩ := sound.turn_lowest forward fits held before
    have stepped : ∃ t, Sema.step g s ⟨w,false⟩ = some t ∧ t.index = s.index ∧
        t.shared = later ∧ t.workers = Function.update s.workers w (resumed u next) :=
      ⟨_,step_executing held ran,rfl,rfl,rfl⟩
    obtain ⟨t,stepped,same,shared,moved⟩ := stepped
    have first : Reachable (Sema.step g) s t := (Reachable.refl _ s).next stepped
    have sound' := sound.step forward stepped
    have others (v : Nat) (apart : v ≠ u) (open_ : Unfinished g t v) : Unfinished g s v := by
      obtain ⟨inside,unfetched | ⟨other,own,taken⟩⟩ := open_
      · exact ⟨inside,Or.inl (same ▸ unfetched)⟩
      · refine ⟨inside,Or.inr ⟨other,own,?_⟩⟩
        rcases eq_or_ne other w with rfl | different
        · rw [moved,Function.update_self] at taken
          cases next with
          | some phase =>
            cases taken
            exact absurd rfl apart
          | none => cases taken
        · rwa [moved,Function.update_of_ne different] at taken
    have lower (v : Nat) (less : v < u) : ¬ Unfinished g t v :=
      fun open_ => before v less (others v less.ne open_)
    cases next with
    | some phase =>
      have ahead := executeTask_rank ran
      rw [← shared] at ahead
      obtain ⟨last,rest,ends⟩ := ih _ (left ▸ ahead) sound' (by rw [moved,Function.update_self]; rfl) lower rfl
      exact ⟨last,first.trans rest,ends⟩
    | none =>
      refine ⟨t,first,sound',?_⟩
      intro v less open_
      rcases (Nat.lt_succ_iff.mp less).lt_or_eq with below | rfl
      · exact lower v below open_
      · obtain ⟨status,tracks,-⟩ := sound
        obtain ⟨-,unfetched | ⟨other,own,taken⟩⟩ := open_
        · have counted := (tracks.inside held).2
          omega
        · rcases eq_or_ne other w with rfl | different
          · rw [moved,Function.update_self] at taken
            cases taken
          · rw [moved,Function.update_of_ne different] at taken
            exact different (tracks.unique _ _ _ _ _ taken held)

theorem Sound.run_next (forward : g.Forward) (fits : Fits g) (working : 1 ≤ workers) (sound : Sound g workers s)
    {u : Nat} (before : ∀ v < u, ¬ Unfinished g s v) : Reaches g workers (u + 1) s := by
  by_cases open_ : Unfinished g s u
  · obtain ⟨inside,unfetched | ⟨w,phase,held⟩⟩ := open_
    · obtain ⟨rfl,free⟩ := sound.fetching working inside before unfetched
      have stepped : ∃ t, Sema.step g s ⟨0,false⟩ = some t ∧ t.index = s.index + 1 ∧
          t.workers = Function.update s.workers 0 (.executing s.index (.acquiring (g.inDegree s.index))) :=
        ⟨_,step_fetching free,rfl,by simp only [if_pos inside]⟩
      obtain ⟨t,stepped,same,moved⟩ := stepped
      have lower (v : Nat) (less : v < s.index) : ¬ Unfinished g t v := by
        rintro ⟨bound,later | ⟨other,own,taken⟩⟩
        · omega
        · rcases eq_or_ne other 0 with rfl | different
          · rw [moved,Function.update_self] at taken
            cases taken
            exact less.false
          · rw [moved,Function.update_of_ne different] at taken
            exact before v less ⟨bound,Or.inr ⟨other,own,taken⟩⟩
      obtain ⟨last,rest,ends⟩ := (sound.step forward stepped).run_task forward fits
        (by rw [moved,Function.update_self]) lower
      exact ⟨last,((Reachable.refl _ s).next stepped).trans rest,ends⟩
    · exact sound.run_task forward fits held before
  · refine ⟨s,Reachable.refl _ s,sound,?_⟩
    intro v less
    rcases (Nat.lt_succ_iff.mp less).lt_or_eq with below | rfl
    · exact before v below
    · exact open_

theorem Sound.run_below (forward : g.Forward) (fits : Fits g) (working : 1 ≤ workers) (sound : Sound g workers s)
    (bound : Nat) : Reaches g workers bound s := by
  induction bound with
  | zero => exact ⟨s,Reachable.refl _ s,sound,fun v less => absurd less (Nat.not_lt_zero v)⟩
  | succ u ih =>
    obtain ⟨t,reached,sound',before⟩ := ih
    obtain ⟨last,rest,ends⟩ := sound'.run_next forward fits working before
    exact ⟨last,reached.trans rest,ends⟩

/-- With every task done, one worker after another finds no vertex to fetch. -/
theorem Sound.run_leave (forward : g.Forward) (sound : Sound g workers s)
    (last : g.numVertices ≤ s.index) (idle : ∀ w node phase, s.workers w ≠ .executing node phase) (count : Nat) :
    ∃ t, Reachable (Sema.step g) s t ∧ Sound g workers t ∧ g.numVertices ≤ t.index ∧
      (∀ w node phase, t.workers w ≠ .executing node phase) ∧ ∀ w < count, t.workers w = .joined := by
  induction count with
  | zero => exact ⟨s,Reachable.refl _ s,sound,last,idle,fun w less => absurd less (Nat.not_lt_zero w)⟩
  | succ count ih =>
    obtain ⟨t,reached,sound',last',idle',joined⟩ := ih
    cases own : t.workers count with
    | fetching =>
      have stepped : Sema.step g t ⟨count,false⟩ = _ := step_fetching own
      rw [if_neg (not_lt.mpr last')] at stepped
      refine ⟨_,reached.next stepped,sound'.step forward stepped,Nat.le_succ_of_le last',?_,?_⟩
      · intro w node phase
        rcases eq_or_ne w count with rfl | apart
        · simp only [Function.update_self]
          exact Worker.noConfusion
        · simpa only [Function.update_of_ne apart] using idle' w node phase
      · intro w less
        rcases (Nat.lt_succ_iff.mp less).lt_or_eq with below | rfl
        · simpa only [Function.update_of_ne below.ne] using joined w below
        · exact Function.update_self ..
    | executing node phase => exact absurd own (idle' count node phase)
    | joined =>
      refine ⟨t,reached,sound',last',idle',?_⟩
      intro w less
      rcases (Nat.lt_succ_iff.mp less).lt_or_eq with below | rfl
      · exact joined w below
      · exact own

theorem Sound.run_joined (forward : g.Forward) (fits : Fits g) (working : 1 ≤ workers)
    (sound : Sound g workers s) : ∃ t, Reachable (Sema.step g) s t ∧ Joined t := by
  obtain ⟨t,reached,sound',done⟩ := sound.run_below forward fits working g.numVertices
  have last : g.numVertices ≤ t.index := by
    by_contra more
    exact done t.index (not_le.mp more) ⟨not_le.mp more,Or.inl le_rfl⟩
  have idle (w node : Nat) (phase : Phase) : t.workers w ≠ .executing node phase := by
    intro held
    obtain ⟨status,tracks,-⟩ := sound'
    have inside := (tracks.inside held).1
    exact done node inside ⟨inside,Or.inr ⟨w,phase,held⟩⟩
  obtain ⟨final,rest,⟨status,tracks,-⟩,-,-,joined⟩ := sound'.run_leave forward last idle workers
  refine ⟨final,reached.trans rest,fun w => ?_⟩
  rcases Nat.lt_or_ge w workers with early | outside
  · exact joined w early
  · exact tracks.outside w outside

theorem Sound.correct (forward : g.Forward) (fits : Fits g) (working : 1 ≤ workers)
    (sound : Sound g workers s) : Correct g s := by
  have live := sound.live forward fits working
  have ends := sound.run_joined forward fits working
  obtain ⟨status,tracks,consistent⟩ := sound
  refine ⟨live,ends,consistent.nodup,?_,?_,?_⟩
  · intro joined
    apply (List.perm_ext_iff_of_nodup consistent.nodup List.nodup_range).mpr
    intro v
    rw [List.mem_range]
    refine ⟨consistent.logged v,fun inside => ?_⟩
    rw [consistent.log v inside,tracks.joined_completed working joined inside]
    exact trivial
  · intro joined nonempty
    have reached (v : Nat) (inside : v < g.numVertices) : g.critical v ≤ s.shared.globalTimer := by
      have timed := (consistent.held v).timed
      rwa [tracks.joined_completed working joined inside] at timed
    have solves := g.critical_solves forward
    constructor
    · have own : ∃ u < g.numVertices, s.shared.globalTimer = g.critical u := by
        rcases consistent.timer with zero | own
        · exact ⟨0,nonempty,le_antisymm (zero.trans_le (Nat.zero_le _)) (reached 0 nonempty)⟩
        · exact own
      obtain ⟨u,inside,same⟩ := own
      rw [same]
      exact pathSum_critical forward inside
    · intro total sum
      obtain ⟨v,inside,weight⟩ := pathSum_iff.mp sum
      exact (solves.pathWeight_le inside weight).trans (reached v inside)
  · intro _ empty
    rcases consistent.timer with zero | ⟨u,inside,-⟩
    · exact zero
    · omega

/-- The end that a task has worked out. -/
def finishOf : Phase → Nat
  | .acquiring _ => 0
  | .loading finish => finish
  | .timing finish _ => finish
  | .updating finish _ => finish
  | .releasing finish _ _ => finish

/-- What the machine integers leave of a run: ends and timer fit 64 bits, and a task whose permits
an int cannot count is never past them. -/
structure Bounded (g : Graph) (s : State) : Prop where
  timer : s.shared.globalTimer < 2^63
  finish : ∀ w node phase, s.workers w = .executing node phase → finishOf phase < 2^63
  unstarted : ∀ v ∈ s.started, g.inDegree v < 2^31
  acquiring : ∀ w node phase, s.workers w = .executing node phase → 2^31 ≤ g.inDegree node →
    ∃ left, phase = .acquiring left ∧ g.inDegree node < left + 2^31

theorem initial_bounded (g : Graph) (workers : Nat) : Bounded g (initial workers) := by
  have nobody (w node : Nat) (phase : Phase) : (initial workers).workers w ≠ .executing node phase := by
    simp only [initial]
    split <;> exact Worker.noConfusion
  exact ⟨Nat.two_pow_pos 63,fun w node phase held => absurd held (nobody w node phase),by simp [initial],
    fun w node phase held => absurd held (nobody w node phase)⟩

theorem executeTask_finish {node : Nat} {spurious : Bool} {shared later : Shared} {phase : Phase}
    {next : Option Phase} (ran : executeTask g node spurious shared phase = some (next,later))
    (timer : shared.globalTimer < 2^63) (finish : finishOf phase < 2^63) :
    later.globalTimer < 2^63 ∧ ∀ after, next = some after → finishOf after < 2^63 := by
  cases executeTask_access ran with
  | start fits => exact ⟨timer,fun _ same => Option.some.inj same ▸ fits⟩
  | exchange _ _ _ _ => exact ⟨finish,fun _ same => Option.some.inj same ▸ finish⟩
  | done _ => exact ⟨timer,fun _ same => nomatch same⟩
  | acquire _ _ _ => exact ⟨timer,fun _ same => Option.some.inj same ▸ Nat.two_pow_pos 63⟩
  | _ => exact ⟨timer,fun _ same => Option.some.inj same ▸ finish⟩

/-- The turn at which `i` would pass the largest int is missing. -/
theorem executeTask_acquiring {node left : Nat} {spurious : Bool} {shared later : Shared}
    {next : Option Phase} (ran : executeTask g node spurious shared (.acquiring left) = some (next,later))
    (wide : 2^31 ≤ g.inDegree node) (short : g.inDegree node < left + 2^31) :
    ∃ rest, left = rest + 1 ∧ next = some (.acquiring rest) ∧ g.inDegree node < rest + 2^31 := by
  cases executeTask_access ran with
  | start fits => omega
  | acquire rest available counted => exact ⟨rest,rfl,rfl,by omega⟩

theorem Bounded.step (bounded : Bounded g s) {action : Action} (stepped : Sema.step g s action = some t) :
    Bounded g t := by
  simp only [Sema.step] at stepped
  split at stepped
  next fetching =>
    cases Option.some.inj stepped
    have read (w node : Nat) (phase : Phase) (held : Function.update s.workers action.worker
        (if s.index < g.numVertices then .executing s.index (.acquiring (g.inDegree s.index)) else .joined) w =
          .executing node phase) :
        phase = .acquiring (g.inDegree node) ∨ s.workers w = .executing node phase := by
      rcases eq_or_ne w action.worker with rfl | apart
      · rw [Function.update_self] at held
        split at held
        · cases held
          exact Or.inl rfl
        · cases held
      · exact Or.inr (by rwa [Function.update_of_ne apart] at held)
    refine ⟨bounded.timer,fun w node phase held => ?_,bounded.unstarted,fun w node phase held wide => ?_⟩
    · rcases read w node phase held with rfl | before
      · exact Nat.two_pow_pos 63
      · exact bounded.finish w node phase before
    · rcases read w node phase held with rfl | before
      · exact ⟨_,rfl,Nat.lt_add_of_pos_right (by decide)⟩
      · exact bounded.acquiring w node phase before wide
  next node phase executing =>
    obtain ⟨⟨next,later⟩,ran,same⟩ := Option.map_eq_some_iff.mp stepped
    cases same
    obtain ⟨timer,finish⟩ := executeTask_finish ran bounded.timer (bounded.finish _ _ _ executing)
    have read (w v : Nat) (after : Phase)
        (held : Function.update s.workers action.worker (resumed node next) w = .executing v after) :
        v = node ∧ next = some after ∨ s.workers w = .executing v after := by
      rcases eq_or_ne w action.worker with rfl | apart
      · rw [Function.update_self] at held
        cases next with
        | some phase =>
          cases held
          exact Or.inl ⟨rfl,rfl⟩
        | none => cases held
      · exact Or.inr (by rwa [Function.update_of_ne apart] at held)
    refine ⟨timer,fun w v after held => ?_,fun v member => ?_,fun w v after held wide => ?_⟩
    · rcases read w v after held with ⟨-,same⟩ | before
      · exact finish after same
      · exact bounded.finish w v after before
    · by_contra wide
      have fresh : v ∉ s.started := fun listed => wide (bounded.unstarted v listed)
      cases phase with
      | acquiring left =>
        cases left with
        | zero =>
          have new : v ∈ s.started ++ [node] := member
          rw [List.mem_append,List.mem_singleton] at new
          obtain rfl := new.resolve_left fresh
          obtain ⟨left,same,short⟩ := bounded.acquiring _ _ _ executing (not_lt.mp wide)
          cases same
          omega
        | succ => exact fresh member
      | _ => exact fresh member
    · rcases read w v after held with ⟨rfl,same⟩ | before
      · obtain ⟨left,rfl,short⟩ := bounded.acquiring _ _ _ executing wide
        obtain ⟨rest,-,again,shorter⟩ := executeTask_acquiring ran wide short
        exact ⟨rest,Option.some.inj (same.symm.trans again),shorter⟩
      · exact bounded.acquiring w v after before wide
  next => cases stepped

theorem run_bounded (reached : Reachable (Sema.step g) (initial workers) s) : Bounded g s :=
  reached.invariant (Bounded g) (initial_bounded g workers) fun _ _ _ kept stepped => kept.step stepped

/-- The executor is correct under every interleaving exactly where an int counts the permits of
every vertex and 64 bits hold the sum along every path. -/
theorem run_correct_iff (forward : g.Forward) (working : 1 ≤ workers) :
    (∀ s, Reachable (Sema.step g) (initial workers) s → Correct g s) ↔
      (∀ v < g.numVertices, g.inDegree v < 2^31) ∧ ∀ total, PathSum g total → total < 2^63 := by
  constructor
  · intro correct
    obtain ⟨last,reached,joined⟩ := (correct _ (Reachable.refl _ _)).ends
    have bounded := run_bounded reached
    have ended := correct last reached
    refine ⟨fun v inside => ?_,fun total sum => ?_⟩
    · exact bounded.unstarted v ((ended.all joined).mem_iff.mpr (List.mem_range.mpr inside))
    · obtain ⟨v,inside,-⟩ := pathSum_iff.mp sum
      exact ((ended.critical joined (Nat.zero_lt_of_lt inside)).2 sum).trans_lt bounded.timer
  · intro fits s reached
    have sound := reached.invariant (Sound g workers) (initial_sound g workers)
      fun _ _ _ kept stepped => kept.step forward stepped
    exact sound.correct forward ((fits_iff forward).mpr fits) working

end Runs

/-- The graph of the executor's own test program. -/
def sampleGraph : Graph :=
  ⟨[50,100,150,200,250,300],[(0,1),(0,2),(1,3),(2,3),(3,5),(4,5)],by decide,by decide⟩

theorem sampleGraph_forward : sampleGraph.Forward := by
  unfold Graph.Forward
  decide

theorem run_correct_sample : sampleGraph.Forward ∧
    ∀ s, Reachable (step sampleGraph) (initial 4) s → Correct sampleGraph s := by
  refine ⟨sampleGraph_forward,(run_correct_iff sampleGraph_forward (by decide)).mpr ⟨by decide,?_⟩⟩
  intro total sum
  exact (pathSum_le sampleGraph_forward sum).trans_lt (by decide)

/-- Two tasks of 2^62 milliseconds, one after the other. -/
def longGraph : Graph := ⟨[2^62,2^62],[(0,1)],by decide,by decide⟩

/-- No 64-bit timer shows how long the two take. -/
theorem run_not_correct : ¬ ∀ (g : Graph) (workers : Nat), g.Forward → 1 ≤ workers →
    ∀ s, Reachable (step g) (initial workers) s → Correct g s := by
  intro always
  have forward : longGraph.Forward := by
    unfold Graph.Forward
    decide
  have correct := always longGraph 1 forward le_rfl
  obtain ⟨last,reached,joined⟩ := (correct _ (Reachable.refl _ _)).ends
  have both : PathSum longGraph (2^63) := by
    refine ⟨[0,1],by decide,by decide,?_,by decide⟩
    simp [Graph.Linked,longGraph]
  have shown := ((correct last reached).critical joined (by decide)).2 both
  exact absurd (run_bounded reached).timer (not_lt.mpr shown)

end MetaPB.Executor.Sema

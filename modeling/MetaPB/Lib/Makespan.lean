import MetaPB.Lib.Sequence
import Mathlib.Algebra.Order.BigOperators.Group.List
import Mathlib.Data.List.Induction
import Mathlib.Algebra.Order.Group.Basic
import Mathlib.Algebra.Order.Hom.Monoid

/-! Jobs that wait for other jobs and advance the clock of the resource they run
on: a job ends at the later of its resource's clock and its latest wait, plus its
cost. A silent job leaves every clock alone and records no end. The clocks are
fixed by the order of jobs on each resource, bounded below by every dependency
path and above by the total cost. -/
namespace MetaPB.Lib.Makespan
open Sequence

variable {J R K : Type*}

structure Jobs (J R K : Type*) where
  resource : J → R
  waits : J → List J
  cost : J → K
  silent : J → Bool

@[ext] structure Clocks (J R K : Type*) where
  clock : R → K
  finish : J → K

def wake [Zero K] [Max K] (finish : J → K) (waits : List J) : K :=
  waits.foldl (fun latest job => max latest (finish job)) 0

def Clocks.zero [Zero K] : Clocks J R K := ⟨fun _ => 0,fun _ => 0⟩

def Respects (jobs : Jobs J R K) (order : List J) : Prop :=
  ∀ before job after, order = before ++ job::after → ∀ wait ∈ jobs.waits job, wait ∈ before

/-- `PathCost jobs job c`: some dependency path that ends at `job` costs `c`. -/
inductive PathCost [Add K] (jobs : Jobs J R K) : J → K → Prop
  | single (job) : PathCost jobs job (jobs.cost job)
  | extend (wait job c) (linked : wait ∈ jobs.waits job) (path : PathCost jobs wait c) :
      PathCost jobs job (c + jobs.cost job)

theorem Respects.wait_mem {jobs : Jobs J R K} {order : List J} (respects : Respects jobs order)
    {wait job : J} (member : job ∈ order) (linked : wait ∈ jobs.waits job) : wait ∈ order := by
  obtain ⟨before,after,rfl⟩ := List.append_of_mem member
  exact List.mem_append_left _ (respects before job after rfl wait linked)

theorem Respects.sublist {jobs : Jobs J R K} {order : List J} (respects : Respects jobs order)
    {wait job : J} (member : job ∈ order) (linked : wait ∈ jobs.waits job) :
    [wait,job].Sublist order := by
  obtain ⟨before,after,rfl⟩ := List.append_of_mem member
  have early := List.singleton_sublist.mpr (respects before job after rfl wait linked)
  exact early.append (List.singleton_sublist.mpr (by simp))

theorem Respects.snoc {jobs : Jobs J R K} {order : List J} {last : J}
    (respects : Respects jobs order) (ready : ∀ wait ∈ jobs.waits last, wait ∈ order) :
    Respects jobs (order ++ [last]) := by
  intro before job after split wait linked
  rcases List.eq_nil_or_concat after with rfl | ⟨rest,final,rfl⟩
  · obtain ⟨rfl,same⟩ := List.append_inj' split (by simp)
    cases same
    exact ready wait linked
  · have shorter : order = before ++ job::rest := by
      have reshape : order ++ [last] = (before ++ job::rest) ++ [final] := by simpa using split
      exact (List.append_inj' reshape (by simp)).1
    exact respects before job rest shorter wait linked

theorem Respects.init {jobs : Jobs J R K} {order : List J} {last : J}
    (respects : Respects jobs (order ++ [last])) : Respects jobs order := by
  intro before job after split
  exact respects before job (after ++ [last]) (by simp [split])

section Wake
variable [Zero K] [LinearOrder K]

omit [Zero K] in
private theorem fold_bounds (finish : J → K) (waits : List J) (initial : K) :
    initial ≤ waits.foldl (fun latest job => max latest (finish job)) initial ∧
      (∀ wait ∈ waits, finish wait ≤ waits.foldl (fun latest job => max latest (finish job)) initial) ∧
      ∀ bound, initial ≤ bound → (∀ wait ∈ waits, finish wait ≤ bound) →
        waits.foldl (fun latest job => max latest (finish job)) initial ≤ bound := by
  induction waits generalizing initial with
  | nil => exact ⟨le_rfl,by simp,fun _ below _ => below⟩
  | cons wait rest ih =>
    obtain ⟨above,each,least⟩ := ih (max initial (finish wait))
    refine ⟨(le_max_left _ _).trans above,?_,?_⟩
    · intro other member
      rcases List.mem_cons.mp member with rfl | later
      · exact (le_max_right _ _).trans above
      · exact each other later
    · intro bound below all
      exact least bound (max_le below (all wait (by simp)))
        (fun other member => all other (by simp [member]))

theorem wake_nonneg (finish : J → K) (waits : List J) : 0 ≤ wake finish waits :=
  (fold_bounds finish waits 0).1

theorem le_wake (finish : J → K) {waits : List J} {wait : J} (member : wait ∈ waits) :
    finish wait ≤ wake finish waits := (fold_bounds finish waits 0).2.1 wait member

theorem wake_le {finish : J → K} {waits : List J} {bound : K} (nonneg : 0 ≤ bound)
    (all : ∀ wait ∈ waits, finish wait ≤ bound) : wake finish waits ≤ bound :=
  (fold_bounds finish waits 0).2.2 bound nonneg all

theorem fold_from_partial {finish : J → K} {waits : List J} {initial : K} (nonneg : 0 ≤ initial)
    (below : initial ≤ wake finish waits) :
    waits.foldl (fun latest job => max latest (finish job)) initial = wake finish waits := by
  obtain ⟨above,each,least⟩ := fold_bounds finish waits initial
  exact le_antisymm (least _ below fun wait member => le_wake finish member)
    (wake_le (nonneg.trans above) each)

theorem wake_mono {first second : J → K} {waits : List J}
    (below : ∀ wait ∈ waits, first wait ≤ second wait) : wake first waits ≤ wake second waits :=
  wake_le (wake_nonneg _ _) fun wait member => (below wait member).trans (le_wake second member)

theorem wake_congr {first second : J → K} {waits : List J}
    (same : ∀ wait ∈ waits, first wait = second wait) : wake first waits = wake second waits := by
  unfold wake
  exact List.foldl_ext _ _ _ fun latest job member => by rw [same job member]

end Wake

section Replay
variable [DecidableEq J] [DecidableEq R] [AddCommGroup K] [LinearOrder K]

def Jobs.ending (jobs : Jobs J R K) (clocks : Clocks J R K) (job : J) : K :=
  max (clocks.clock (jobs.resource job)) (wake clocks.finish (jobs.waits job)) + jobs.cost job

def Jobs.step (jobs : Jobs J R K) (clocks : Clocks J R K) (job : J) : Clocks J R K :=
  if jobs.silent job then clocks
  else
    ⟨Function.update clocks.clock (jobs.resource job) (jobs.ending clocks job),
      Function.update clocks.finish job (jobs.ending clocks job)⟩

def Jobs.replay (jobs : Jobs J R K) (order : List J) : Clocks J R K :=
  order.foldl jobs.step Clocks.zero

variable {jobs : Jobs J R K}

theorem replay_snoc (order : List J) (job : J) :
    jobs.replay (order ++ [job]) = jobs.step (jobs.replay order) job := by
  simp [Jobs.replay,List.foldl_append]

theorem step_commute (clocks : Clocks J R K) (first second : J)
    (resources : jobs.resource first ≠ jobs.resource second)
    (forward : first ∉ jobs.waits second) (backward : second ∉ jobs.waits first) :
    jobs.step (jobs.step clocks first) second = jobs.step (jobs.step clocks second) first := by
  have distinct : first ≠ second := fun same => resources (congrArg jobs.resource same)
  have keeps (a b : J) (apart : jobs.resource b ≠ jobs.resource a) (unlinked : a ∉ jobs.waits b)
      (loud : jobs.silent a = false) : jobs.ending (jobs.step clocks a) b = jobs.ending clocks b := by
    have woken : wake (jobs.step clocks a).finish (jobs.waits b) = wake clocks.finish (jobs.waits b) := by
      refine wake_congr fun wait member => ?_
      have other : wait ≠ a := fun same => unlinked (same ▸ member)
      simp [Jobs.step,loud,other]
    simp only [Jobs.ending,woken]
    simp [Jobs.step,loud,apart]
  cases quiet₁ : jobs.silent first with
  | true => simp [Jobs.step,quiet₁]
  | false =>
    cases quiet₂ : jobs.silent second with
    | true => simp [Jobs.step,quiet₂]
    | false =>
      have one := keeps first second resources.symm forward quiet₁
      have two := keeps second first resources backward quiet₂
      rw [Jobs.step.eq_1 jobs (jobs.step clocks first) second,
        Jobs.step.eq_1 jobs (jobs.step clocks second) first,one,two]
      simp only [quiet₁,quiet₂,Bool.false_eq_true,if_false,Jobs.step]
      rw [Function.update_comm resources,Function.update_comm distinct]

theorem replay_loud (order : List J) :
    jobs.replay order = jobs.replay (order.filter fun job => !jobs.silent job) := by
  induction order using List.reverseRecOn with
  | nil => rfl
  | append_singleton order job ih =>
    rw [replay_snoc,ih,List.filter_append]
    cases quiet : jobs.silent job with
    | true => simp [Jobs.step,quiet]
    | false => simp [quiet,replay_snoc]

/-- The order of the jobs that advance each resource decides every clock and every end. -/
theorem replay_eq_of_resource_order {first second : List J}
    (nodup : first.Nodup) (perm : first.Perm second)
    (firstRespects : Respects jobs first) (secondRespects : Respects jobs second)
    (same : ∀ r, first.filter (fun job => jobs.resource job = r ∧ jobs.silent job = false) =
      second.filter (fun job => jobs.resource job = r ∧ jobs.silent job = false)) :
    jobs.replay first = jobs.replay second := by
  have secondNodup : second.Nodup := perm.nodup_iff.mp nodup
  rw [replay_loud first,replay_loud second]
  apply foldl_eq_of_ordered (fun a b => jobs.resource a ≠ jobs.resource b ∧
    a ∉ jobs.waits b ∧ b ∉ jobs.waits a) (fun s a b apart => step_commute s a b apart.1 apart.2.1 apart.2.2)
    (nodup.filter _) (perm.filter _)
  apply List.pairwise_iff_forall_sublist.mpr
  intro a b inside linked
  have aMember : a ∈ second.filter fun job => !jobs.silent job := inside.subset (by simp)
  have bMember : b ∈ second.filter fun job => !jobs.silent job := inside.subset (by simp)
  obtain ⟨aInside,aLoud⟩ := List.mem_filter.mp aMember
  obtain ⟨bInside,bLoud⟩ := List.mem_filter.mp bMember
  have pairLoud : [a,b].filter (fun job => !jobs.silent job) = [a,b] := by simp_all
  apply idxOf_lt_of_sublist (nodup.filter _)
  rcases eq_or_ne (jobs.resource a) (jobs.resource b) with resources | resources
  · -- both run on one resource, whose order the two lists share
    have kept := (inside.trans List.filter_sublist).filter
      fun job => jobs.resource job = jobs.resource b ∧ jobs.silent job = false
    rw [← same] at kept
    have both := (kept.trans List.filter_sublist).filter fun job => !jobs.silent job
    simpa [resources,pairLoud,show jobs.silent a = false by simpa using aLoud,
      show jobs.silent b = false by simpa using bLoud] using both
  · rcases Decidable.em (a ∈ jobs.waits b) with forward | unlinked
    · have early := firstRespects.sublist (perm.mem_iff.mpr bInside) forward
      exact pairLoud ▸ early.filter fun job => !jobs.silent job
    · have backward : b ∈ jobs.waits a := by
        by_contra apart
        exact linked ⟨resources,unlinked,apart⟩
      have before := idxOf_lt_of_sublist secondNodup (secondRespects.sublist aInside backward)
      have after := idxOf_lt_of_sublist secondNodup (inside.trans List.filter_sublist)
      omega

theorem finish_snoc_of_ne {order : List J} {job last : J} (apart : job ≠ last) :
    (jobs.replay (order ++ [last])).finish job = (jobs.replay order).finish job := by
  rw [replay_snoc,Jobs.step]
  split
  · rfl
  · simp [apart]

theorem finish_snoc_self {order : List J} {job : J} (loud : jobs.silent job = false) :
    (jobs.replay (order ++ [job])).finish job = jobs.ending (jobs.replay order) job := by
  rw [replay_snoc,Jobs.step]
  simp [loud]

theorem finish_of_notMem {order : List J} {job : J} (absent : job ∉ order) :
    (jobs.replay order).finish job = 0 := by
  induction order using List.reverseRecOn with
  | nil => rfl
  | append_singleton order last ih =>
    obtain ⟨before,other⟩ : job ∉ order ∧ job ≠ last := by simpa using absent
    rw [finish_snoc_of_ne other,ih before]

section Bounds
variable [IsOrderedAddMonoid K] (nonneg : ∀ job, 0 ≤ jobs.cost job)
include nonneg

omit [DecidableEq J] [DecidableEq R] in
theorem clock_le_ending (clocks : Clocks J R K) (job : J) :
    clocks.clock (jobs.resource job) ≤ jobs.ending clocks job :=
  (le_max_left _ _).trans (le_add_of_nonneg_right (nonneg job))

theorem clock_mono (clocks : Clocks J R K) (job : J) (r : R) :
    clocks.clock r ≤ (jobs.step clocks job).clock r := by
  unfold Jobs.step
  split
  · exact le_rfl
  · by_cases same : r = jobs.resource job
    · subst same
      simpa using clock_le_ending nonneg clocks job
    · simp [same]

theorem replay_nonneg (order : List J) (r : R) : 0 ≤ (jobs.replay order).clock r := by
  induction order using List.reverseRecOn with
  | nil => exact le_rfl
  | append_singleton order job ih =>
    rw [replay_snoc]
    exact ih.trans (clock_mono nonneg _ job r)

theorem finish_nonneg (order : List J) (job : J) : 0 ≤ (jobs.replay order).finish job := by
  induction order using List.reverseRecOn with
  | nil => exact le_rfl
  | append_singleton order last ih =>
    rw [replay_snoc,Jobs.step]
    split
    · exact ih
    · by_cases same : job = last
      · subst same
        simpa using (replay_nonneg nonneg order _).trans (clock_le_ending nonneg _ job)
      · simpa [same] using ih

theorem finish_le_snoc {order : List J} {last : J} (fresh : last ∉ order) (job : J) :
    (jobs.replay order).finish job ≤ (jobs.replay (order ++ [last])).finish job := by
  rcases eq_or_ne job last with rfl | other
  · rw [finish_of_notMem fresh]
    exact finish_nonneg nonneg _ _
  · rw [finish_snoc_of_ne other]

theorem finish_le_clock {order : List J} {job : J} (member : job ∈ order)
    (loud : jobs.silent job = false) :
    (jobs.replay order).finish job ≤ (jobs.replay order).clock (jobs.resource job) := by
  induction order using List.reverseRecOn with
  | nil => simp at member
  | append_singleton order last ih =>
    rw [replay_snoc]
    by_cases same : job = last
    · subst same
      simp [Jobs.step,loud]
    · have before : job ∈ order := by simpa [same] using member
      refine le_trans ?_ ((ih before).trans (clock_mono nonneg _ last _))
      unfold Jobs.step
      split <;> simp [same]

omit nonneg in
theorem finish_after_wait {order : List J} (nodup : order.Nodup) (respects : Respects jobs order)
    {job wait : J} (member : job ∈ order) (loud : jobs.silent job = false)
    (linked : wait ∈ jobs.waits job) :
    (jobs.replay order).finish wait + jobs.cost job ≤ (jobs.replay order).finish job := by
  induction order using List.reverseRecOn with
  | nil => simp at member
  | append_singleton order last ih =>
    have lastFresh : last ∉ order := fun inside =>
      (List.disjoint_of_nodup_append nodup) inside (by simp)
    have waitBefore : wait ∈ order := by
      rcases eq_or_ne job last with rfl | other
      · exact respects order job [] (by simp) wait linked
      · have before : job ∈ order := by simpa [other] using member
        exact respects.init.wait_mem before linked
    have waitOther : wait ≠ last := fun same => lastFresh (same ▸ waitBefore)
    rw [finish_snoc_of_ne waitOther]
    rcases eq_or_ne job last with rfl | other
    · have late := le_wake (jobs.replay order).finish linked
      rw [finish_snoc_self loud,Jobs.ending]
      exact add_le_add (late.trans (le_max_right _ _)) le_rfl
    · have before : job ∈ order := by simpa [other] using member
      rw [finish_snoc_of_ne other]
      exact ih (nodup.sublist (by simp)) respects.init before

omit nonneg in
theorem cost_le_finish {order : List J} {job : J} (member : job ∈ order) (loud : jobs.silent job = false) :
    jobs.cost job ≤ (jobs.replay order).finish job := by
  induction order using List.reverseRecOn with
  | nil => simp at member
  | append_singleton order last ih =>
    rcases eq_or_ne job last with rfl | other
    · rw [finish_snoc_self loud]
      exact le_add_of_nonneg_left ((wake_nonneg _ _).trans (le_max_right _ _))
    · rw [finish_snoc_of_ne other]
      exact ih (by simpa [other] using member)

theorem path_le_finish {order : List J} (nodup : order.Nodup) (respects : Respects jobs order)
    (quietSource : ∀ job later, jobs.silent job = true → job ∈ jobs.waits later →
      ∀ c, PathCost jobs job c → c = 0)
    {job : J} (member : job ∈ order) (loud : jobs.silent job = false) {c : K} (path : PathCost jobs job c) :
    c ≤ (jobs.replay order).finish job := by
  induction path with
  | single job => exact cost_le_finish member loud
  | extend wait job c linked path ih =>
    have gap := finish_after_wait nodup respects member loud linked
    cases quiet : jobs.silent wait with
    | false => exact (add_le_add (ih (respects.wait_mem member linked) quiet) le_rfl).trans gap
    | true =>
      rw [quietSource wait job quiet linked c path]
      exact (add_le_add (finish_nonneg nonneg order wait) le_rfl).trans gap

/-- Every dependency path costs at most the final clock of some resource. Silent
jobs that something waits for must be free, with only free paths before them. -/
theorem path_le_clock {order : List J} (nodup : order.Nodup) (respects : Respects jobs order)
    (quietFree : ∀ job, jobs.silent job = true → jobs.cost job = 0)
    (quietSource : ∀ job later, jobs.silent job = true → job ∈ jobs.waits later →
      ∀ c, PathCost jobs job c → c = 0)
    {job : J} (member : job ∈ order) {c : K} (path : PathCost jobs job c) :
    ∃ r, c ≤ (jobs.replay order).clock r := by
  cases loud : jobs.silent job with
  | false =>
    have recorded := path_le_finish nonneg nodup respects quietSource member loud path
    exact ⟨_,recorded.trans (finish_le_clock nonneg member loud)⟩
  | true =>
    -- a silent end of the path adds nothing to the job before it
    cases path with
    | single => exact ⟨jobs.resource job,by rw [quietFree job loud]; exact replay_nonneg nonneg order _⟩
    | extend wait _ c linked path =>
      rw [quietFree job loud,add_zero]
      cases quiet : jobs.silent wait with
      | false =>
        have earlier := respects.wait_mem member linked
        have recorded := path_le_finish nonneg nodup respects quietSource earlier quiet path
        exact ⟨_,recorded.trans (finish_le_clock nonneg earlier quiet)⟩
      | true =>
        rw [quietSource wait job quiet linked c path]
        exact ⟨jobs.resource job,replay_nonneg nonneg order _⟩

theorem clock_le_total (order : List J) :
    (∀ r, (jobs.replay order).clock r ≤ (order.map jobs.cost).sum) ∧
      ∀ job, (jobs.replay order).finish job ≤ (order.map jobs.cost).sum := by
  induction order using List.reverseRecOn with
  | nil => exact ⟨fun _ => le_rfl,fun _ => le_rfl⟩
  | append_singleton order last ih =>
    have grown : (order.map jobs.cost).sum ≤ ((order ++ [last]).map jobs.cost).sum := by
      simpa using nonneg last
    have total : 0 ≤ (order.map jobs.cost).sum :=
      List.sum_nonneg (by simpa using fun job _ => nonneg job)
    have ended : jobs.ending (jobs.replay order) last ≤ ((order ++ [last]).map jobs.cost).sum := by
      have woken := wake_le total (fun wait (_ : wait ∈ jobs.waits last) => ih.2 wait)
      simpa [Jobs.ending] using ⟨ih.1 (jobs.resource last),woken⟩
    rw [replay_snoc,Jobs.step]
    split
    · exact ⟨fun r => (ih.1 r).trans grown,fun job => (ih.2 job).trans grown⟩
    · constructor
      · intro r
        by_cases same : r = jobs.resource last
        · simpa [same] using ended
        · simpa [same] using (ih.1 r).trans grown
      · intro job
        by_cases same : job = last
        · simpa [same] using ended
        · simpa [same] using (ih.2 job).trans grown

theorem load_le_clock (quietFree : ∀ job, jobs.silent job = true → jobs.cost job = 0) (order : List J)
    (r : R) : ((order.filter fun job => jobs.resource job = r).map jobs.cost).sum ≤
      (jobs.replay order).clock r := by
  induction order using List.reverseRecOn with
  | nil => exact le_rfl
  | append_singleton order job ih =>
    rw [replay_snoc,List.filter_append,List.map_append,List.sum_append]
    by_cases own : jobs.resource job = r
    · subst own
      have single : (([job].filter fun other => jobs.resource other = jobs.resource job).map jobs.cost).sum =
          jobs.cost job := by simp
      rw [single]
      cases quiet : jobs.silent job with
      | true => simpa [Jobs.step,quiet,quietFree job quiet] using ih
      | false =>
        simp only [Jobs.step,quiet,Bool.false_eq_true,if_false,Function.update_self,Jobs.ending]
        exact add_le_add (ih.trans (le_max_left _ _)) le_rfl
    · have idle : (([job].filter fun other => jobs.resource other = r).map jobs.cost).sum = 0 := by
        simp [own]
      rw [idle,add_zero]
      exact ih.trans (clock_mono nonneg _ job r)

/-- Where only the jobs of one resource cost anything, nothing of them overlaps. -/
theorem clock_eq_total (quietFree : ∀ job, jobs.silent job = true → jobs.cost job = 0) {order : List J} {r : R}
    (alone : ∀ job ∈ order, jobs.resource job ≠ r → jobs.cost job = 0) :
    (jobs.replay order).clock r = (order.map jobs.cost).sum := by
  apply le_antisymm ((clock_le_total nonneg order).1 r)
  refine le_trans (le_of_eq ?_) (load_le_clock nonneg quietFree order r)
  clear quietFree nonneg
  induction order with
  | nil => rfl
  | cons job rest ih =>
    have others := ih fun other member => alone other (List.mem_cons_of_mem _ member)
    by_cases own : jobs.resource job = r
    · simp [own,others]
    · simp [own,others,alone job (by simp) own]

end Bounds
end Replay

section Recost
variable [DecidableEq J] [DecidableEq R] {K' : Type*} [AddCommGroup K] [LinearOrder K]
  [AddCommGroup K'] [LinearOrder K']

/-- The same jobs at other costs. -/
def Jobs.recost (jobs : Jobs J R K) (cost : J → K') : Jobs J R K' where
  resource := jobs.resource
  waits := jobs.waits
  cost := cost
  silent := jobs.silent

omit [DecidableEq J] [DecidableEq R] in
theorem wake_le_of_hom (f : K →+o K') {first : J → K} {second : J → K'}
    (below : ∀ job, second job ≤ f (first job)) (waits : List J) : wake second waits ≤ f (wake first waits) := by
  apply wake_le
  · rw [← map_zero f]
    exact OrderHomClass.mono f (wake_nonneg _ _)
  · intro wait member
    exact (below wait).trans (OrderHomClass.mono f (le_wake first member))

/-- Costs bounded through an additive monotone function bound every clock and every end of the
same order through it. -/
theorem replay_le_of_hom (f : K →+o K') (jobs : Jobs J R K) {cost : J → K'} [IsOrderedAddMonoid K']
    (below : ∀ job, cost job ≤ f (jobs.cost job)) (order : List J) :
    (∀ r, ((jobs.recost cost).replay order).clock r ≤ f ((jobs.replay order).clock r)) ∧
      ∀ job, ((jobs.recost cost).replay order).finish job ≤ f ((jobs.replay order).finish job) := by
  induction order using List.reverseRecOn with
  | nil => exact ⟨fun _ => (map_zero f).ge,fun _ => (map_zero f).ge⟩
  | append_singleton order last ih =>
    obtain ⟨clocks,finishes⟩ := ih
    have ended : (jobs.recost cost).ending ((jobs.recost cost).replay order) last ≤
        f (jobs.ending (jobs.replay order) last) := by
      rw [Jobs.ending,Jobs.ending,map_add]
      refine add_le_add (max_le ?_ ?_) (below last)
      · exact (clocks _).trans (OrderHomClass.mono f (le_max_left _ _))
      · exact (wake_le_of_hom f finishes _).trans (OrderHomClass.mono f (le_max_right _ _))
    rw [replay_snoc,replay_snoc,Jobs.step,Jobs.step]
    cases quiet : jobs.silent last with
    | true => simpa [Jobs.recost,quiet] using And.intro clocks finishes
    | false =>
      have loud : (jobs.recost cost).silent last = false := quiet
      simp only [loud,Bool.false_eq_true,if_false]
      constructor
      · intro r
        rcases eq_or_ne r (jobs.resource last) with rfl | apart
        · simpa [Jobs.recost] using ended
        · simpa [Jobs.recost,apart] using clocks r
      · intro job
        rcases eq_or_ne job last with rfl | apart
        · simpa using ended
        · simpa [apart] using finishes job

end Recost

end MetaPB.Lib.Makespan

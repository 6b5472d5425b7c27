import MetaPB.Lib.Ledger
import MetaPB.Lib.Transition

/-! Construction and destruction of `GLOBAL_DPU_MGR` objects in any order. Two static flags
are shared by all objects, the DPU set is a member of each. A member the constructor does not
write is `none`, and freeing it is logged as a release without a handle. -/
namespace MetaPB.Operator
open Lib Lib.Ledger Lib.Transition

/-- The set returned by one call of `dpu_alloc`, named by the number of calls before it. -/
structure DpuSet where
  index : Nat
  nrDpus : Nat
  deriving DecidableEq

structure GlobalDpuMgr where
  id : Nat
  dpuSet : Option DpuSet := none
  dpuNum : Option Nat := none
  deriving DecidableEq

structure DpuGlobals where
  isAllocated : Bool := false
  isFreed : Bool := false
  managers : List GlobalDpuMgr := []
  /-- Calls of `dpu_alloc` and `dpu_free` so far. -/
  calls : List (Entry DpuSet) := []

/-- What happens to an object; `nrDpus` is what the allocated set has, should one be. -/
inductive Lifetime where
  | construct (id nrDpus : Nat)
  | destruct (id : Nat)

namespace DpuGlobals

def construct (id nrDpus : Nat) (s : DpuGlobals) : DpuGlobals :=
  if s.isAllocated = false then
    let dpuSet : DpuSet := ⟨(acquired s.calls).length,nrDpus⟩
    { isAllocated := true
      isFreed := false
      managers := s.managers ++ [⟨id,some dpuSet,some dpuSet.nrDpus⟩]
      calls := s.calls ++ [.acquire dpuSet] }
  else { s with managers := s.managers ++ [{id := id}] }

def destruct (manager : GlobalDpuMgr) (s : DpuGlobals) : DpuGlobals :=
  let managers := s.managers.erase manager
  if s.isFreed = false then
    { isAllocated := false
      isFreed := true
      managers := managers
      calls := s.calls ++ [.release manager.dpuSet] }
  else { s with managers := managers }

-- an object is constructed under an unused name, and destroyed once
def step (s : DpuGlobals) : Lifetime → Option DpuGlobals
  | .construct id nrDpus =>
    if s.managers.any (·.id = id) then none else some (s.construct id nrDpus)
  | .destruct id => (s.managers.find? (·.id = id)).map fun manager => s.destruct manager

end DpuGlobals

/-- Live managers hold sets that are not freed, every free is of a set obtained before and no
set is freed twice; without live managers each set was freed exactly once. -/
structure Owned (s : DpuGlobals) : Prop where
  live : ∀ manager ∈ s.managers, ∃ dpuSet, manager.dpuSet = some dpuSet ∧ Outstanding s.calls dpuSet
  obtained : ∀ given ∈ released s.calls, ∃ dpuSet ∈ acquired s.calls, given = some dpuSet
  once : ∀ dpuSet, (released s.calls).count (some dpuSet) ≤ 1
  closed : s.managers = [] → ∀ dpuSet ∈ acquired s.calls,
    (released s.calls).count (some dpuSet) = 1

/-- The property holds after every prefix of a run. -/
def Throughout (holds : DpuGlobals → Prop) (labels : List Lifetime) : Prop :=
  ∀ before after s, labels = before ++ after → run DpuGlobals.step {} before = some s → holds s

/-- No manager is constructed while another one is alive. -/
def Apart (labels : List Lifetime) : Prop :=
  ∀ before id nrDpus after s, labels = before ++ .construct id nrDpus::after →
    run DpuGlobals.step {} before = some s → s.managers = []

/-- Between lifetimes nothing is allocated; within one, exactly the set of its manager is. -/
structure OneOwner (s : DpuGlobals) : Prop where
  sound : Sound s.calls
  indexed : ∀ dpuSet ∈ acquired s.calls, dpuSet.index < (acquired s.calls).length
  owner : s.managers = [] ∧ s.isAllocated = false ∧ (∀ dpuSet, ¬ Outstanding s.calls dpuSet) ∨
    ∃ id dpuSet, s.managers = [⟨id,some dpuSet,some dpuSet.nrDpus⟩] ∧ s.isAllocated = true ∧
      s.isFreed = false ∧ ∀ other, Outstanding s.calls other ↔ other = dpuSet

section Owner
variable {s t : DpuGlobals}

theorem OneOwner.owned (one : OneOwner s) : Owned s where
  live manager member := by
    rcases one.owner with ⟨unmanaged,-,-⟩ | ⟨id,dpuSet,alone,-,-,held⟩
    · simp [unmanaged] at member
    · rw [alone,List.mem_singleton] at member
      subst member
      exact ⟨dpuSet,rfl,(held dpuSet).mpr rfl⟩
  obtained := one.sound.obtained
  once := one.sound.released_once
  closed unmanaged := by
    rcases one.owner with ⟨-,-,settled⟩ | ⟨id,dpuSet,alone,-⟩
    · exact one.sound.balanced settled
    · simp [unmanaged] at alone

theorem OneOwner.construct (one : OneOwner s) (unmanaged : s.managers = []) (id nrDpus : Nat) :
    OneOwner (s.construct id nrDpus) := by
  obtain ⟨sound,indexed,owner⟩ := one
  obtain ⟨-,free,settled⟩ : s.managers = [] ∧ s.isAllocated = false ∧
      ∀ dpuSet, ¬ Outstanding s.calls dpuSet := by
    rcases owner with idle | ⟨_,_,alone,-⟩
    · exact idle
    · simp [unmanaged] at alone
  have fresh : (⟨(acquired s.calls).length,nrDpus⟩ : DpuSet) ∉ acquired s.calls :=
    fun listed => Nat.lt_irrefl _ (indexed _ listed)
  rw [DpuGlobals.construct,if_pos free]
  refine ⟨sound.acquire fresh,?_,Or.inr ⟨id,_,by rw [unmanaged]; rfl,rfl,rfl,?_⟩⟩
  · intro dpuSet member
    rw [acquired_acquire,List.mem_append,List.mem_singleton] at member
    rw [acquired_acquire,List.length_append,List.length_singleton]
    rcases member with before | rfl
    · exact Nat.lt_succ_of_lt (indexed dpuSet before)
    · exact Nat.lt_succ_self _
  · intro other
    rw [sound.outstanding_acquire fresh]
    exact or_iff_right (settled other)

theorem OneOwner.destruct (one : OneOwner s) {id : Nat} (stepped : s.step (.destruct id) = some t) :
    OneOwner t := by
  obtain ⟨sound,indexed,owner⟩ := one
  obtain ⟨manager,found,rfl⟩ := Option.map_eq_some_iff.mp stepped
  have member := List.mem_of_find?_eq_some found
  rcases owner with ⟨unmanaged,-,-⟩ | ⟨name,dpuSet,alone,-,kept,held⟩
  · simp [unmanaged] at member
  · rw [alone,List.mem_singleton] at member
    subst member
    rw [DpuGlobals.destruct,if_pos kept]
    refine ⟨sound.release ((held dpuSet).mpr rfl),?_,Or.inl ⟨by simp [alone],rfl,?_⟩⟩
    · rw [acquired_release]
      exact indexed
    · intro other
      rw [outstanding_release,held]
      exact fun both => both.2 both.1

end Owner

theorem Apart.prefix {labels : List Lifetime} {label : Lifetime} (apart : Apart (labels ++ [label])) :
    Apart labels := by
  intro before id nrDpus after s split ran
  exact apart before id nrDpus (after ++ [label]) s (by simp [split]) ran

theorem run_oneOwner {labels : List Lifetime} {s : DpuGlobals} (apart : Apart labels)
    (ran : run DpuGlobals.step {} labels = some s) : OneOwner s := by
  refine run_history (fun labels s => Apart labels → OneOwner s) ?_ ?_ labels s ran apart
  · intro _
    exact ⟨.nil,by simp [acquired],Or.inl ⟨rfl,rfl,by simp [Outstanding,acquired]⟩⟩
  · intro labels s label t ran ih stepped apart
    have one := ih apart.prefix
    cases label with
    | construct id nrDpus =>
      have unmanaged := apart labels id nrDpus [] s rfl ran
      simp only [DpuGlobals.step,unmanaged,List.any_nil,Bool.false_eq_true,if_false] at stepped
      cases Option.some.inj stepped
      exact one.construct unmanaged id nrDpus
    | destruct id => exact one.destruct stepped

/-- A manager constructed beside another one never gets a set. -/
theorem OneOwner.second {s t : DpuGlobals} (one : OneOwner s) (busy : s.managers ≠ []) {id nrDpus : Nat}
    (stepped : s.step (.construct id nrDpus) = some t) : ¬ Owned t := by
  intro owned
  obtain ⟨unmanaged,-⟩ | ⟨_,_,-,allocated,-⟩ := one.owner
  · exact busy unmanaged
  simp only [DpuGlobals.step] at stepped
  split at stepped
  · contradiction
  · cases Option.some.inj stepped
    obtain ⟨dpuSet,obtained,-⟩ := owned.live {id := id} (by simp [DpuGlobals.construct,allocated])
    contradiction

/-- Ownership holds throughout a run exactly when the lifetimes in it do not overlap. -/
theorem owned_throughout_iff (labels : List Lifetime) (s : DpuGlobals)
    (ran : run DpuGlobals.step {} labels = some s) : Throughout Owned labels ↔ Apart labels := by
  constructor
  · intro owned
    refine run_history (fun labels _ => Throughout Owned labels → Apart labels) ?_ ?_ labels s ran owned
    · intro _ before id nrDpus after s split _
      simp at split
    · intro labels s label t ran ih stepped owned
      have earlier : Throughout Owned labels := fun before after s split =>
        owned before (after ++ [label]) s (by simp [split])
      have apart := ih earlier
      intro before id nrDpus after middle split reached
      rcases List.eq_nil_or_concat after with rfl | ⟨rest,last,rfl⟩
      · obtain ⟨rfl,same⟩ := List.append_inj' split rfl
        cases List.cons.inj same |>.1
        cases ran.symm.trans reached
        by_contra busy
        refine (run_oneOwner apart ran).second busy stepped ?_
        exact owned _ [] t (by simp) ((run_snoc _ _ _ _ _).mpr ⟨s,ran,stepped⟩)
      · rw [List.concat_eq_append,← List.cons_append,← List.append_assoc] at split
        obtain ⟨shorter,-⟩ := List.append_inj' split rfl
        exact apart before id nrDpus rest middle shorter reached
  · intro apart before after s split reached
    have sooner : Apart before := by
      intro early id nrDpus rest t inside
      exact apart early id nrDpus (rest ++ after) t (by simp [split,inside])
    exact (run_oneOwner sooner reached).owned

/-- Two managers one after the other. -/
theorem owned_throughout_iff_successive :
    Throughout Owned [.construct 0 1,.destruct 0,.construct 1 2] := by
  apply (owned_throughout_iff _ _ rfl).mpr
  intro before id nrDpus after s split ran
  rcases before with _ | ⟨_,_ | ⟨_,_ | ⟨_,rest⟩⟩⟩
  · cases Option.some.inj ran
    rfl
  · simp at split
  · simp only [List.cons_append,List.nil_append,List.cons.injEq] at split
    obtain ⟨rfl,rfl,-⟩ := split
    cases Option.some.inj ran
    rfl
  · simp at split

/-- Of two managers alive together the second has no set. -/
theorem owned_fails : ¬ ∀ labels, Throughout Owned labels := by
  intro always
  let overlap : List Lifetime := [.construct 0 64,.construct 1 64]
  have owned := always overlap overlap [] _ rfl rfl
  obtain ⟨dpuSet,obtained,-⟩ := owned.live {id := 1} (by decide)
  contradiction

end MetaPB.Operator

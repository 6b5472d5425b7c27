import Mathlib.Data.List.Induction

/-! Partial transition functions and their runs over lists of labels. A refused
label ends a run, so every interleaving is the list of labels it accepts.
Invariants and simulations are shown for one label and lifted to runs here. -/
namespace MetaPB.Lib.Transition

variable {σ τ α β : Type*}

def run (step : σ → α → Option σ) : σ → List α → Option σ
  | s, [] => some s
  | s, label::rest => (step s label).bind fun next => run step next rest

def Reachable (step : σ → α → Option σ) (initial s : σ) : Prop :=
  ∃ labels, run step initial labels = some s

def Stuck (step : σ → α → Option σ) (s : σ) : Prop := ∀ label, step s label = none

theorem run_cons (step : σ → α → Option σ) (s t : σ) (label : α) (rest : List α) :
    run step s (label::rest) = some t ↔
      ∃ next, step s label = some next ∧ run step next rest = some t := by
  simp [run,Option.bind_eq_some_iff]

theorem run_append (step : σ → α → Option σ) (s t : σ) (first second : List α) :
    run step s (first ++ second) = some t ↔
      ∃ middle, run step s first = some middle ∧ run step middle second = some t := by
  induction first generalizing s with
  | nil => simp [run]
  | cons label rest ih =>
    simp only [List.cons_append,run_cons,ih]
    constructor
    · intro found
      obtain ⟨next,stepped,middle,before,after⟩ := found
      exact ⟨middle,⟨next,stepped,before⟩,after⟩
    · intro found
      obtain ⟨middle,⟨next,stepped,before⟩,after⟩ := found
      exact ⟨next,stepped,middle,before,after⟩

theorem run_snoc (step : σ → α → Option σ) (s t : σ) (labels : List α) (label : α) :
    run step s (labels ++ [label]) = some t ↔
      ∃ middle, run step s labels = some middle ∧ step middle label = some t := by
  simp [run_append,run]

theorem Reachable.refl (step : σ → α → Option σ) (s : σ) : Reachable step s s := ⟨[],rfl⟩

theorem Reachable.next {step : σ → α → Option σ} {initial s t : σ} {label : α}
    (reached : Reachable step initial s) (stepped : step s label = some t) :
    Reachable step initial t := by
  obtain ⟨labels,ran⟩ := reached
  exact ⟨labels ++ [label],(run_snoc _ _ _ _ _).mpr ⟨s,ran,stepped⟩⟩

theorem Reachable.trans {step : σ → α → Option σ} {s t u : σ} (first : Reachable step s t)
    (second : Reachable step t u) : Reachable step s u := by
  obtain ⟨before,ran⟩ := first
  obtain ⟨after,rest⟩ := second
  exact ⟨before ++ after,(run_append _ _ _ _ _).mpr ⟨t,ran,rest⟩⟩

/-- A property of the labels so far and the state they lead to holds of every
run when it holds of the empty run and one more label keeps it. -/
theorem run_history {step : σ → α → Option σ} {initial : σ} (holds : List α → σ → Prop)
    (start : holds [] initial)
    (kept : ∀ labels s label t, run step initial labels = some s → holds labels s →
      step s label = some t → holds (labels ++ [label]) t)
    (labels : List α) (s : σ) (ran : run step initial labels = some s) : holds labels s := by
  induction labels using List.reverseRecOn generalizing s with
  | nil =>
    cases Option.some.inj ran
    exact start
  | append_singleton labels label ih =>
    obtain ⟨middle,before,stepped⟩ := (run_snoc _ _ _ _ _).mp ran
    exact kept labels middle label s before (ih middle before) stepped

theorem Reachable.invariant {step : σ → α → Option σ} {initial s : σ}
    (reached : Reachable step initial s) (holds : σ → Prop) (start : holds initial)
    (kept : ∀ s label t, holds s → step s label = some t → holds t) : holds s := by
  obtain ⟨labels,ran⟩ := reached
  exact run_history (fun _ => holds) start (fun _ s label t _ => kept s label t) labels s ran

/-- Where some step of every unfinished state leaves less to do, every run can be completed. -/
theorem exists_completion {step : σ → α → Option σ} {initial s : σ} (finished : σ → Prop) (work : σ → Nat)
    (alive : ∀ s, Reachable step initial s → ¬ finished s →
      ∃ label t, step s label = some t ∧ work t < work s) (reached : Reachable step initial s) :
    ∃ labels t, labels.length ≤ work s ∧ run step s labels = some t ∧ finished t := by
  induction left : work s using Nat.strongRecOn generalizing s with
  | ind left ih =>
    rcases em (finished s) with ends | unfinished
    · exact ⟨[],s,Nat.zero_le _,rfl,ends⟩
    · obtain ⟨label,t,stepped,less⟩ := alive s reached unfinished
      obtain ⟨labels,last,short,ran,ends⟩ := ih (work t) (left ▸ less) (reached.next stepped) rfl
      refine ⟨label::labels,last,?_,(run_cons _ _ _ _ _).mpr ⟨t,stepped,ran⟩,ends⟩
      rw [List.length_cons]
      omega

/-- Two systems that are seen to do the same at every label are seen to do the same in every run. -/
theorem run_agrees {γ : Type*} {step : σ → α → Option σ} {other : τ → α → Option τ} {seen : σ → γ}
    {view : τ → γ}
    (agrees : ∀ s t label, seen s = view t → (step s label).map seen = (other t label).map view)
    (labels : List α) {s : σ} {t : τ} (start : seen s = view t) :
    (run step s labels).map seen = (run other t labels).map view := by
  induction labels generalizing s t with
  | nil => exact congrArg some start
  | cons label rest ih =>
    have one := agrees s t label start
    rw [run,run]
    cases first : step s label with
    | none =>
      rw [first,Option.map_none,eq_comm,Option.map_eq_none_iff] at one
      rw [one]
      rfl
    | some next =>
      rw [first,Option.map_some,eq_comm,Option.map_eq_some_iff] at one
      obtain ⟨following,second,same⟩ := one
      rw [second]
      exact ih same.symm

/-- A functional simulation with stuttering: a label that `shown` hides leaves the
abstract state alone, any other label is the abstract step it shows. -/
theorem run_simulates {step : σ → α → Option σ} {coarse : τ → β → Option τ} {initial : σ}
    (abstract : σ → τ) (shown : α → Option β)
    (matched : ∀ labels s label t, run step initial labels = some s → step s label = some t →
      match shown label with
      | none => abstract t = abstract s
      | some visible => coarse (abstract s) visible = some (abstract t))
    (labels : List α) (s : σ) (ran : run step initial labels = some s) :
    run coarse (abstract initial) (labels.filterMap shown) = some (abstract s) := by
  refine run_history (fun labels s => run coarse (abstract initial) (labels.filterMap shown) =
    some (abstract s)) rfl ?_ labels s ran
  intro labels s label t ran simulated stepped
  have one := matched labels s label t ran stepped
  cases visible : shown label with
  | none =>
    rw [visible] at one
    simpa [visible,one] using simulated
  | some action =>
    rw [visible] at one
    simp only [List.filterMap_append,List.filterMap_cons,visible,List.filterMap_nil]
    exact (run_snoc _ _ _ _ _).mpr ⟨abstract s,simulated,one⟩

/-- Runs of a system whose steps may end in several states. -/
inductive Runs (step : σ → α → σ → Prop) : σ → List α → σ → Prop
  | nil (s) : Runs step s [] s
  | cons {s next last label rest} (stepped : step s label next) (ran : Runs step next rest last) :
    Runs step s (label::rest) last

namespace Runs
variable {γ : Type*} {step : σ → α → σ → Prop} {s last : σ} {labels : List α}

theorem exists_of_live (live : ∀ label ∈ labels, ∀ s, ∃ next, step s label next) (s : σ) :
    ∃ last, Runs step s labels last := by
  induction labels generalizing s with
  | nil => exact ⟨s,.nil s⟩
  | cons label rest ih =>
    obtain ⟨next,stepped⟩ := live label (by simp) s
    obtain ⟨last,ran⟩ := ih (fun other member => live other (by simp [member])) next
    exact ⟨last,.cons stepped ran⟩

theorem of_map {β : Type*} {f : β → α} {labels : List β} (ran : Runs step s (labels.map f) last) :
    Runs (fun s label next => step s (f label) next) s labels last := by
  induction labels generalizing s with
  | nil =>
    cases ran
    exact .nil _
  | cons label rest ih =>
    cases ran with
    | cons stepped others => exact .cons stepped (ih others)

/-- A simulation that depends on what a ghost knows of the labels so far. -/
theorem simulated {coarse : τ → α → Option τ} (ghost : γ → α → γ) (related : γ → τ → σ → Prop)
    (matched : ∀ label ∈ labels, ∀ g t s next, related g t s → step s label next →
      ∃ after, coarse t label = some after ∧ related (ghost g label) after next)
    (ran : Runs step s labels last) {g : γ} {t : τ} (start : related g t s) :
    ∃ after, run coarse t labels = some after ∧ related (labels.foldl ghost g) after last := by
  induction ran generalizing g t with
  | nil s => exact ⟨t,rfl,start⟩
  | cons stepped rest ih =>
    obtain ⟨middle,one,between⟩ := matched _ (by simp) g t _ _ start stepped
    obtain ⟨after,others,final⟩ := ih (fun other member => matched other (by simp [member])) between
    exact ⟨after,(run_cons _ _ _ _ _).mpr ⟨middle,one,others⟩,final⟩

theorem history (holds : List α → σ → Prop) (start : holds [] s)
    (kept : ∀ past label s next, holds past s → step s label next → holds (past ++ [label]) next)
    (ran : Runs step s labels last) : holds labels last := by
  have onward (past : List α) (before : holds past s) : holds (past ++ labels) last := by
    clear start
    induction ran generalizing past with
    | nil s => rwa [List.append_nil]
    | @cons s next last label rest stepped _ ih =>
      have after := ih (past ++ [label]) (kept past label s next before stepped)
      rwa [List.append_assoc] at after
  exact onward [] start

theorem seen {other : τ → α → τ → Prop} (view : σ → τ)
    (steps : ∀ s label next, step s label next → other (view s) label (view next))
    (ran : Runs step s labels last) : Runs other (view s) labels (view last) := by
  induction ran with
  | nil s => exact .nil _
  | cons stepped _ ih => exact .cons (steps _ _ _ stepped) ih

end Runs

/-- Runs that act on a second state, which no step reads. -/
def Carried (step : σ → α → Option σ) (acts : σ → α → τ → τ → Prop) (before : σ × τ) (label : α)
    (after : σ × τ) : Prop :=
  step before.1 label = some after.1 ∧ acts before.1 label before.2 after.2

section Carried
variable {step : σ → α → Option σ} {acts : σ → α → τ → τ → Prop} {initial s : σ} {labels : List α}

theorem exists_carried (live : ∀ s label next, Reachable step initial s → step s label = some next →
      ∀ before, ∃ after, acts s label before after)
    (reached : Reachable step initial s) {last : σ} (ran : run step s labels = some last) (before : τ) :
    ∃ after, Runs (Carried step acts) (s,before) labels (last,after) := by
  induction labels generalizing s before with
  | nil =>
    cases Option.some.inj ran
    exact ⟨before,.nil _⟩
  | cons label rest ih =>
    obtain ⟨next,stepped,others⟩ := (run_cons _ _ _ _ _).mp ran
    obtain ⟨middle,acted⟩ := live s label next reached stepped before
    obtain ⟨after,onward⟩ := ih (reached.next stepped) others middle
    exact ⟨after,.cons ⟨stepped,acted⟩ onward⟩

end Carried
end MetaPB.Lib.Transition

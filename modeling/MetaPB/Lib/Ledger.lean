import Mathlib.Data.List.Count
import Mathlib.Data.List.Nodup

/-! Ledgers of acquired and released handles. A release without a handle is one whose
caller never obtained any. In a sound ledger every handle is new when acquired and
outstanding when released, so no handle is released twice. -/
namespace MetaPB.Lib.Ledger

variable {ρ : Type*}

inductive Entry (ρ : Type*) where
  | acquire (handle : ρ)
  | release (handle : Option ρ)
  deriving DecidableEq

def Entry.acquired : Entry ρ → Option ρ
  | .acquire handle => some handle
  | .release _ => none

def Entry.released : Entry ρ → Option (Option ρ)
  | .acquire _ => none
  | .release handle => some handle

def acquired (log : List (Entry ρ)) : List ρ := log.filterMap Entry.acquired

def released (log : List (Entry ρ)) : List (Option ρ) := log.filterMap Entry.released

def Outstanding (log : List (Entry ρ)) (handle : ρ) : Prop :=
  handle ∈ acquired log ∧ some handle ∉ released log

inductive Sound : List (Entry ρ) → Prop
  | nil : Sound []
  | acquire {log : List (Entry ρ)} {handle : ρ} (sound : Sound log) (fresh : handle ∉ acquired log) :
    Sound (log ++ [.acquire handle])
  | release {log : List (Entry ρ)} {handle : ρ} (sound : Sound log) (held : Outstanding log handle) :
    Sound (log ++ [.release (some handle)])

section Snoc
variable (log : List (Entry ρ)) (handle : ρ)

@[simp] theorem acquired_acquire : acquired (log ++ [.acquire handle]) = acquired log ++ [handle] := by
  simp [acquired,Entry.acquired]

@[simp] theorem acquired_release (given : Option ρ) :
    acquired (log ++ [.release given]) = acquired log := by
  simp [acquired,Entry.acquired]

@[simp] theorem released_acquire : released (log ++ [.acquire handle]) = released log := by
  simp [released,Entry.released]

@[simp] theorem released_release (given : Option ρ) :
    released (log ++ [.release given]) = released log ++ [given] := by
  simp [released,Entry.released]

end Snoc

section Sound
variable {log : List (Entry ρ)} {handle other : ρ}

theorem Sound.obtained (sound : Sound log) :
    ∀ given ∈ released log, ∃ handle ∈ acquired log, given = some handle := by
  induction sound with
  | nil => simp [released]
  | @acquire log handle _ _ ih =>
    intro given member
    rw [released_acquire] at member
    obtain ⟨earlier,listed,same⟩ := ih given member
    exact ⟨earlier,by simp [listed],same⟩
  | @release log handle _ held ih =>
    intro given member
    rw [released_release,List.mem_append,List.mem_singleton] at member
    rw [acquired_release]
    rcases member with before | rfl
    · exact ih given before
    · exact ⟨handle,held.1,rfl⟩

theorem Sound.released_nodup (sound : Sound log) : (released log).Nodup := by
  induction sound with
  | nil => simp [released]
  | acquire _ _ ih => rwa [released_acquire]
  | release _ held ih =>
    rw [released_release]
    exact ih.append (List.nodup_singleton _) (by simpa using held.2)

theorem Sound.outstanding_acquire (sound : Sound log) (fresh : handle ∉ acquired log) :
    Outstanding (log ++ [.acquire handle]) other ↔ Outstanding log other ∨ other = handle := by
  have unseen : some handle ∉ released log := by
    intro listed
    obtain ⟨earlier,member,same⟩ := sound.obtained _ listed
    exact fresh (Option.some.inj same ▸ member)
  unfold Outstanding
  rw [acquired_acquire,released_acquire,List.mem_append,List.mem_singleton]
  constructor
  · intro held
    obtain ⟨before | rfl,kept⟩ := held
    · exact Or.inl ⟨before,kept⟩
    · exact Or.inr rfl
  · intro held
    rcases held with ⟨before,kept⟩ | rfl
    · exact ⟨Or.inl before,kept⟩
    · exact ⟨Or.inr rfl,unseen⟩

theorem outstanding_release :
    Outstanding (log ++ [.release (some handle)]) other ↔ Outstanding log other ∧ other ≠ handle := by
  simp [Outstanding,and_assoc]

variable [DecidableEq ρ]

theorem Sound.released_once (sound : Sound log) (handle : ρ) :
    (released log).count (some handle) ≤ 1 :=
  List.nodup_iff_count_le_one.mp sound.released_nodup _

theorem Sound.balanced (sound : Sound log) (closed : ∀ handle, ¬ Outstanding log handle) :
    ∀ handle ∈ acquired log, (released log).count (some handle) = 1 := by
  intro handle member
  have listed : some handle ∈ released log := by
    by_contra missing
    exact closed handle ⟨member,missing⟩
  exact List.count_eq_one_of_mem sound.released_nodup listed

end Sound
end MetaPB.Lib.Ledger

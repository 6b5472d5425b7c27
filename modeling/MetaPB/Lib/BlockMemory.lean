import Mathlib.Logic.Basic
import Mathlib.Data.List.Basic
import Mathlib.Data.Set.Function

/-! Memory as a function of addresses, read and written in blocks of consecutive cells.
A cell that some step of a loop touches ends at the value every touching step gives
it; a cell no step touches is left alone. -/
namespace MetaPB.Lib.BlockMemory

variable {α κ : Type*}

abbrev Memory (α : Type*) := Nat → α

def window (mem : Memory α) (start : Nat) : Memory α := fun i => mem (start + i)

def Inside (start size address : Nat) : Prop := start ≤ address ∧ address < start + size

instance (start size address : Nat) : Decidable (Inside start size address) :=
  inferInstanceAs (Decidable (_ ∧ _))

def overwrite (mem : Memory α) (start size : Nat) (cells : Memory α) : Memory α := fun address =>
  if Inside start size address then cells (address - start) else mem address

/-- The memory that holds `cells` from `start` on. -/
def splice (mem : Memory α) (start : Nat) (cells : Memory α) : Memory α := fun address =>
  if start ≤ address then cells (address - start) else mem address

@[simp] theorem window_apply (mem : Memory α) (start i : Nat) : window mem start i = mem (start + i) :=
  rfl

theorem overwrite_inside {mem cells : Memory α} {start size address : Nat}
    (inside : Inside start size address) :
    overwrite mem start size cells address = cells (address - start) := if_pos inside

theorem overwrite_outside {mem cells : Memory α} {start size address : Nat}
    (outside : ¬ Inside start size address) :
    overwrite mem start size cells address = mem address := if_neg outside

theorem foldl_untouched {step : Memory α → κ → Memory α} {address : Nat} (keys : List κ)
    (keeps : ∀ key ∈ keys, ∀ mem, step mem key address = mem address) (mem : Memory α) :
    keys.foldl step mem address = mem address := by
  induction keys generalizing mem with
  | nil => rfl
  | cons key rest ih =>
    rw [List.foldl_cons,ih (fun other member => keeps other (by simp [member]))]
    exact keeps key (by simp) mem

theorem foldl_settled {step : Memory α → κ → Memory α} {address : Nat} {value : α}
    (touches : κ → Prop) [DecidablePred touches] (keys : List κ)
    (settles : ∀ key ∈ keys, touches key → ∀ mem, step mem key address = value)
    (keeps : ∀ key ∈ keys, ¬ touches key → ∀ mem, step mem key address = mem address)
    (touched : ∃ key ∈ keys, touches key) (mem : Memory α) :
    keys.foldl step mem address = value := by
  induction keys generalizing mem with
  | nil => simp at touched
  | cons key rest ih =>
    have restSettles : ∀ other ∈ rest, touches other → ∀ mem, step mem other address = value :=
      fun other member => settles other (by simp [member])
    have restKeeps : ∀ other ∈ rest, ¬ touches other → ∀ mem, step mem other address = mem address :=
      fun other member => keeps other (by simp [member])
    rw [List.foldl_cons]
    rcases Decidable.em (∃ other ∈ rest, touches other) with later | last
    · exact ih restSettles restKeeps later _
    · have quiet : ∀ other ∈ rest, ∀ mem, step mem other address = mem address :=
        fun other member => restKeeps other member fun touching => last ⟨other,member,touching⟩
      rw [foldl_untouched rest quiet]
      obtain ⟨other,member,touching⟩ := touched
      rcases List.mem_cons.mp member with rfl | inRest
      · exact settles other (by simp) touching mem
      · exact absurd ⟨other,inRest,touching⟩ last

theorem foldl_overwrite_settled {start : κ → Nat} {size : Nat} {cells : κ → Memory α} {address : Nat}
    {value : α} (keys : List κ)
    (agree : ∀ key ∈ keys, Inside (start key) size address → cells key (address - start key) = value)
    (touched : ∃ key ∈ keys, Inside (start key) size address) (mem : Memory α) :
    keys.foldl (fun mem key => overwrite mem (start key) size (cells key)) mem address = value := by
  apply foldl_settled (fun key => Inside (start key) size address) keys _ _ touched
  · intro key member inside mem
    rw [overwrite_inside inside]
    exact agree key member inside
  · intro key _ outside mem
    exact overwrite_outside outside

theorem splice_eq_overwrite {mem cells : Memory α} {start size : Nat}
    (kept : ∀ x, size ≤ x → cells x = mem (start + x)) :
    splice mem start cells = overwrite mem start size cells := by
  ext1 address
  rw [splice,overwrite]
  split
  next above =>
    split
    next => rfl
    next outside =>
      rw [kept _ (by simp only [Inside] at outside; omega),Nat.add_sub_cancel' above]
  next below => rw [if_neg (by simp only [Inside]; omega)]

theorem overwrite_eqOn {mem other cells others : Memory α} {start size : Nat} {sure inner : Set Nat}
    (outside : Set.EqOn mem other sure) (inside : ∀ x < size, x ∈ inner → cells x = others x) :
    Set.EqOn (overwrite mem start size cells) (overwrite other start size others)
      {address | if Inside start size address then address - start ∈ inner else address ∈ sure} := by
  intro address known
  rw [Set.mem_ofPred_eq] at known
  rcases Decidable.em (Inside start size address) with hit | miss
  · rw [if_pos hit] at known
    rw [overwrite_inside hit,overwrite_inside hit]
    obtain ⟨above,below⟩ := hit
    exact inside _ (by omega) known
  · rw [if_neg miss] at known
    rw [overwrite_outside miss,overwrite_outside miss]
    exact outside known

end MetaPB.Lib.BlockMemory

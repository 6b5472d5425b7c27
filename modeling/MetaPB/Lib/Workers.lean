import MetaPB.Lib.Transition
import MetaPB.Lib.BlockMemory
import Mathlib.Algebra.BigOperators.Group.Finset.Basic
import Mathlib.Algebra.Order.BigOperators.Group.Finset

/-! Workers that run straight-line programs with private state over one memory, in any
interleaving. When instructions read cells that nobody writes, a worker writes the
blocks it would write alone, so a finished run has written exactly these. -/
namespace MetaPB.Lib.Workers
open Transition BlockMemory

variable {α ι π τ : Type*}

structure Block (α : Type*) where
  start : Nat
  size : Nat
  cells : Memory α

def Block.write (mem : Memory α) (block : Block α) : Memory α :=
  overwrite mem block.start block.size block.cells

/-- What an instruction makes of the private state, given the memory, and the blocks
it writes. -/
structure Machine (α ι π : Type*) where
  advance : Memory α → π → ι → π
  emit : π → ι → List (Block α)

structure Worker (ι π : Type*) where
  own : π
  todo : List ι

structure State (α ι π τ : Type*) where
  mem : Memory α
  worker : τ → Worker ι π

def State.Done (s : State α ι π τ) : Prop := ∀ t, (s.worker t).todo = []

namespace Machine

/-- The blocks a worker writes when the memory stays as it is. -/
def emissions (machine : Machine α ι π) (mem : Memory α) : π → List ι → List (Block α)
  | _,[] => []
  | own,instr::rest =>
    machine.emit own instr ++ emissions machine mem (machine.advance mem own instr) rest

/-- An instruction that reads no other cells than the fixed ones. -/
def Steady (machine : Machine α ι π) (fixed : Nat → Prop) (instr : ι) : Prop :=
  ∀ mem other, (∀ address, fixed address → mem address = other address) →
    ∀ own, machine.advance mem own instr = machine.advance other own instr

theorem emissions_append (machine : Machine α ι π) (mem : Memory α) (own : π) (first second : List ι) :
    machine.emissions mem own (first ++ second) = machine.emissions mem own first ++
      machine.emissions mem (first.foldl (machine.advance mem) own) second := by
  induction first generalizing own with
  | nil => rfl
  | cons instr rest ih => simp [emissions,ih]

section Runs
variable [DecidableEq τ] {machine : Machine α ι π}

def step (machine : Machine α ι π) (s : State α ι π τ) (t : τ) : Option (State α ι π τ) :=
  match (s.worker t).todo with
  | [] => none
  | instr::rest => some
    { mem := (machine.emit (s.worker t).own instr).foldl Block.write s.mem
      worker := Function.update s.worker t ⟨machine.advance s.mem (s.worker t).own instr,rest⟩ }

theorem step_eq_some {s next : State α ι π τ} {t : τ} : machine.step s t = some next ↔
    ∃ instr rest, (s.worker t).todo = instr::rest ∧
      next = ⟨(machine.emit (s.worker t).own instr).foldl Block.write s.mem,
        Function.update s.worker t ⟨machine.advance s.mem (s.worker t).own instr,rest⟩⟩ := by
  rw [step]
  cases (s.worker t).todo with
  | nil => simp
  | cons instr rest => simp [eq_comm]

/-- A run so far has written some of the blocks that the workers would write alone,
and the workers have the others left. -/
structure Progressed (machine : Machine α ι π) (initial s : State α ι π τ)
    (blocks : List (Block α)) : Prop where
  mem_eq : s.mem = blocks.foldl Block.write initial.mem
  emitted : ∀ block, (∃ t, block ∈ machine.emissions initial.mem (initial.worker t).own (initial.worker t).todo) ↔
    block ∈ blocks ∨ ∃ t, block ∈ machine.emissions initial.mem (s.worker t).own (s.worker t).todo
  remaining : ∀ t, ∀ instr ∈ (s.worker t).todo, instr ∈ (initial.worker t).todo

structure Separated (machine : Machine α ι π) (fixed : Nat → Prop) (initial : State α ι π τ) : Prop where
  steady : ∀ t, ∀ instr ∈ (initial.worker t).todo, machine.Steady fixed instr
  spared : ∀ t, ∀ block ∈ machine.emissions initial.mem (initial.worker t).own (initial.worker t).todo,
    ∀ address, fixed address → ¬ Inside block.start block.size address

omit [DecidableEq τ] in
theorem Progressed.fixed_eq {fixed : Nat → Prop} {initial s : State α ι π τ} {blocks : List (Block α)}
    (progressed : Progressed machine initial s blocks) (separated : machine.Separated fixed initial)
    (address : Nat) (kept : fixed address) : s.mem address = initial.mem address := by
  rw [progressed.mem_eq]
  apply foldl_untouched
  intro block member mem
  obtain ⟨t,emitted⟩ := (progressed.emitted block).mpr (Or.inl member)
  exact overwrite_outside (separated.spared t block emitted address kept)

theorem Progressed.next {fixed : Nat → Prop} {initial s next : State α ι π τ}
    {blocks : List (Block α)} {t : τ} (progressed : Progressed machine initial s blocks)
    (separated : machine.Separated fixed initial) (stepped : machine.step s t = some next) :
    ∃ more, Progressed machine initial next more := by
  obtain ⟨instr,rest,todo,rfl⟩ := step_eq_some.mp stepped
  have member : instr ∈ (initial.worker t).todo := progressed.remaining t instr (by simp [todo])
  have advanced : machine.advance s.mem (s.worker t).own instr =
      machine.advance initial.mem (s.worker t).own instr :=
    separated.steady t instr member s.mem initial.mem (progressed.fixed_eq separated) _
  refine ⟨blocks ++ machine.emit (s.worker t).own instr,?_,?_,?_⟩
  · rw [List.foldl_append,← progressed.mem_eq]
  · intro block
    rw [progressed.emitted block,List.mem_append,or_assoc]
    apply or_congr_right
    constructor
    · intro found
      obtain ⟨other,emitted⟩ := found
      rcases eq_or_ne other t with rfl | different
      · rw [todo,emissions,List.mem_append] at emitted
        rcases emitted with now | later
        · exact Or.inl now
        · exact Or.inr ⟨other,by simpa [advanced] using later⟩
      · exact Or.inr ⟨other,by simpa [different] using emitted⟩
    · rintro (now | ⟨other,later⟩)
      · exact ⟨t,by rw [todo,emissions]; exact List.mem_append_left _ now⟩
      · rcases eq_or_ne other t with rfl | different
        · refine ⟨other,?_⟩
          rw [todo,emissions]
          exact List.mem_append_right _ (by simpa [advanced] using later)
        · exact ⟨other,by simpa [different] using later⟩
  · intro other instr' member'
    rcases eq_or_ne other t with rfl | different
    · apply progressed.remaining other
      rw [todo]
      exact List.mem_cons_of_mem _ (by simpa using member')
    · exact progressed.remaining other instr' (by simpa [different] using member')

theorem run_progressed {fixed : Nat → Prop} {initial s : State α ι π τ} {labels : List τ}
    (separated : machine.Separated fixed initial) (ran : run machine.step initial labels = some s) :
    ∃ blocks, Progressed machine initial s blocks := by
  have reached : Reachable machine.step initial s := ⟨labels,ran⟩
  apply reached.invariant (fun s => ∃ blocks, Progressed machine initial s blocks)
  · exact ⟨[],rfl,by simp,fun _ _ member => member⟩
  · intro s t next found stepped
    obtain ⟨blocks,progressed⟩ := found
    exact progressed.next separated stepped

theorem run_untouched {initial s : State α ι π τ} {labels : List τ} {address : Nat}
    (spared : ∀ t, ∀ instr ∈ (initial.worker t).todo, ∀ own, ∀ block ∈ machine.emit own instr,
      ¬ Inside block.start block.size address)
    (ran : run machine.step initial labels = some s) : s.mem address = initial.mem address := by
  have reached : Reachable machine.step initial s := ⟨labels,ran⟩
  have kept := reached.invariant (fun s => s.mem address = initial.mem address ∧
    ∀ t, ∀ instr ∈ (s.worker t).todo, instr ∈ (initial.worker t).todo) ⟨rfl,fun _ _ member => member⟩ ?_
  · exact kept.1
  intro s t next holds stepped
  obtain ⟨same,remaining⟩ := holds
  obtain ⟨instr,rest,todo,rfl⟩ := step_eq_some.mp stepped
  have member : instr ∈ (initial.worker t).todo := remaining t instr (by simp [todo])
  constructor
  · rw [← same]
    apply foldl_untouched
    intro block emitted mem
    exact overwrite_outside (spared t instr member _ block emitted)
  · intro other instr' member'
    apply remaining other
    rcases eq_or_ne other t with rfl | different
    · rw [todo]
      exact List.mem_cons_of_mem _ (by simpa using member')
    · simpa [different] using member'

theorem final_settled {fixed : Nat → Prop} {initial s : State α ι π τ} {labels : List τ}
    {address : Nat} {value : α} (separated : machine.Separated fixed initial)
    (ran : run machine.step initial labels = some s) (done : s.Done)
    (agree : ∀ t, ∀ block ∈ machine.emissions initial.mem (initial.worker t).own (initial.worker t).todo,
      Inside block.start block.size address → block.cells (address - block.start) = value)
    (touched : ∃ t, ∃ block ∈ machine.emissions initial.mem (initial.worker t).own (initial.worker t).todo,
      Inside block.start block.size address) :
    s.mem address = value := by
  obtain ⟨blocks,progressed⟩ := run_progressed separated ran
  have written : ∀ block, (∃ t, block ∈ machine.emissions initial.mem (initial.worker t).own
      (initial.worker t).todo) ↔ block ∈ blocks := by
    intro block
    rw [progressed.emitted block]
    simp [done _,emissions]
  rw [progressed.mem_eq]
  apply foldl_settled (fun block : Block α => Inside block.start block.size address)
  · intro block member inside mem
    obtain ⟨t,emitted⟩ := (written block).mpr member
    rw [Block.write,overwrite_inside inside]
    exact agree t block emitted inside
  · intro block _ outside mem
    exact overwrite_outside outside
  · obtain ⟨t,block,emitted,inside⟩ := touched
    exact ⟨block,(written block).mp ⟨t,emitted⟩,inside⟩

section Termination
variable [Fintype τ]

def work (s : State α ι π τ) : Nat := ∑ t, (s.worker t).todo.length

theorem step_work {s next : State α ι π τ} {t : τ} (stepped : machine.step s t = some next) :
    work next + 1 = work s := by
  obtain ⟨instr,rest,todo,rfl⟩ := step_eq_some.mp stepped
  have others : ∀ other ∈ Finset.univ.erase t,
      (Function.update s.worker t ⟨machine.advance s.mem (s.worker t).own instr,rest⟩ other).todo.length =
        (s.worker other).todo.length := by
    intro other member
    rw [Function.update_of_ne (Finset.ne_of_mem_erase member)]
  simp only [work]
  rw [← Finset.add_sum_erase _ _ (Finset.mem_univ t),← Finset.add_sum_erase _ _ (Finset.mem_univ t),
    Finset.sum_congr rfl others,Function.update_self,todo,List.length_cons]
  simp only
  omega

theorem run_finishes (s : State α ι π τ) :
    ∃ labels final, run machine.step s labels = some final ∧ final.Done := by
  induction size : work s generalizing s with
  | zero =>
    refine ⟨[],s,rfl,fun t => ?_⟩
    have unfinished := (Finset.sum_eq_zero_iff.mp size) t (Finset.mem_univ t)
    exact List.length_eq_zero_iff.mp unfinished
  | succ before ih =>
    have left : ∃ t, (s.worker t).todo ≠ [] := by
      by_contra nothing
      push Not at nothing
      simp [work,nothing] at size
    obtain ⟨t,left⟩ := left
    obtain ⟨instr,rest,todo⟩ := List.exists_cons_of_ne_nil left
    obtain ⟨next,stepped⟩ : ∃ next, machine.step s t = some next :=
      ⟨_,step_eq_some.mpr ⟨instr,rest,todo,rfl⟩⟩
    have less := step_work stepped
    obtain ⟨labels,final,ran,done⟩ := ih next (by omega)
    exact ⟨t::labels,final,(run_cons _ _ _ _ _).mpr ⟨next,stepped,ran⟩,done⟩

end Termination
end Runs
end Machine
end MetaPB.Lib.Workers

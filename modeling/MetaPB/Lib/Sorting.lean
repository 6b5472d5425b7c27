import MetaPB.Lib.Sequence
import Mathlib.Data.List.Pairwise

/-! Unstable sorting with a strict weak order, by what the library promises: the output
permutes the input and no element stands behind one it should precede. Any element
can come out before all it ties with. -/
namespace MetaPB.Lib.Sorting

variable {α : Type*}

structure StrictWeak (comp : α → α → Bool) : Prop where
  asymm : ∀ a b, comp a b = true → comp b a = false
  cotrans : ∀ a b c, comp a c = true → comp a b = true ∨ comp b c = true

def Sorted (comp : α → α → Bool) (input output : List α) : Prop :=
  output.Perm input ∧ output.Pairwise fun a b => comp b a = false

/-- The contract of `std::sort`. -/
def StdSort (sort : (α → α → Bool) → List α → List α) : Prop :=
  ∀ comp input, StrictWeak comp → Sorted comp input (sort comp input)

theorem Sorted.perm {comp : α → α → Bool} {input output : List α} (sorted : Sorted comp input output) :
    output.Perm input := sorted.1

theorem Sorted.idxOf_lt [DecidableEq α] {comp : α → α → Bool} {input output : List α} {a b : α}
    (sorted : Sorted comp input output) (ahead : comp a b = true) (aMember : a ∈ input)
    (bMember : b ∈ input) (distinct : a ≠ b) : output.idxOf a < output.idxOf b := by
  have aBound := List.idxOf_lt_length_of_mem (sorted.perm.mem_iff.mpr aMember)
  have bBound := List.idxOf_lt_length_of_mem (sorted.perm.mem_iff.mpr bMember)
  rcases Nat.lt_trichotomy (output.idxOf a) (output.idxOf b) with before | same | after
  · exact before
  · have equal : a = b := by
      rw [← List.getElem_idxOf aBound,← List.getElem_idxOf bBound]
      simp [same]
    exact absurd equal distinct
  · have ordered := List.pairwise_iff_getElem.mp sorted.2 _ _ bBound aBound after
    rw [List.getElem_idxOf,List.getElem_idxOf,ahead] at ordered
    contradiction

theorem Sorted.pair {comp : α → α → Bool} {a b : α} {output : List α}
    (sorted : Sorted comp [a,b] output) (ahead : comp a b = true) : output = [a,b] := by
  obtain ⟨perm,pairwise⟩ := sorted
  obtain ⟨x,y,rfl⟩ := List.length_eq_two.mp perm.length_eq
  have first : x ∈ [a,b] := perm.mem_iff.mp (by simp)
  rcases List.mem_pair.mp first with rfl | rfl
  · rw [List.perm_singleton.mp perm.cons_inv]
  · obtain rfl : y = a := by simpa using (perm.trans (.swap _ _ _)).cons_inv
    simp [ahead] at pairwise

section Favour
variable [DecidableEq α]

/-- Merge sort with one element moved to the front of its input. -/
def favour (first : α) (comp : α → α → Bool) (input : List α) : List α :=
  (if first ∈ input then first::input.erase first else input).mergeSort fun a b => !comp b a

omit [DecidableEq α] in
private theorem le_trans_total {comp : α → α → Bool} (weak : StrictWeak comp) :
    (∀ a b c, (!comp b a) = true → (!comp c b) = true → (!comp c a) = true) ∧
      ∀ a b, (!comp b a || !comp a b) = true := by
  constructor
  · intro a b c one two
    rcases behind : comp c a with _ | _
    · rfl
    · rcases weak.cotrans c b a behind with left | right
      · simp [left] at two
      · simp [right] at one
  · intro a b
    rcases ahead : comp a b with _ | _
    · simp
    · simp [weak.asymm a b ahead]

theorem favour_stdSort (first : α) : StdSort (favour first) := by
  intro comp input weak
  obtain ⟨trans,total⟩ := le_trans_total weak
  constructor
  · apply (List.mergeSort_perm _ _).trans
    split
    next member => exact (List.perm_cons_erase member).symm
    next => exact List.Perm.refl input
  · exact (List.pairwise_mergeSort trans total _).imp (by simp)

theorem favour_idxOf_lt {first other : α} {comp : α → α → Bool} (weak : StrictWeak comp)
    {input : List α} (nodup : input.Nodup) (member : first ∈ input) (otherMember : other ∈ input)
    (distinct : first ≠ other) (tied : comp other first = false) :
    (favour first comp input).idxOf first < (favour first comp input).idxOf other := by
  obtain ⟨trans,total⟩ := le_trans_total weak
  have inside : [first,other].Sublist (first::input.erase first) := by
    apply List.Sublist.cons_cons
    apply List.singleton_sublist.mpr
    exact (List.mem_erase_of_ne distinct.symm).mpr otherMember
  have kept := List.pair_sublist_mergeSort trans total (by simp [tied]) inside
  rw [favour,if_pos member]
  apply Sequence.idxOf_lt_of_sublist _ kept
  apply (List.mergeSort_perm _ _).nodup_iff.mpr
  exact (List.perm_cons_erase member).nodup_iff.mp nodup

end Favour
end MetaPB.Lib.Sorting

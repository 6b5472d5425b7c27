import Mathlib.Data.List.Nodup
import Mathlib.Data.List.Perm.Basic

/-! Positions in a list without duplicates. A queue that is served from the front
keeps its order split into a served prefix and a waiting suffix; being served
is then the same as standing earlier in the order. The second half moves folds
of partly commuting updates between two orders of the same elements. -/
namespace MetaPB.Lib.Sequence

section Position
variable {α : Type*} [DecidableEq α]

theorem idxOf_split {order served rest : List α} {x : α} (nodup : order.Nodup)
    (split : served ++ x::rest = order) : order.idxOf x = served.length := by
  subst split
  have absent : x ∉ served := fun member =>
    (List.disjoint_of_nodup_append nodup) member (by simp)
  simp [List.idxOf_append_of_notMem absent]

theorem mem_served_iff {order served rest : List α} (split : served ++ rest = order) (x : α) :
    x ∈ served ↔ order.idxOf x < served.length :=
  List.IsPrefix.mem_iff_idxOf_lt_length ⟨rest,split⟩ x

/-- With `x` at the front of the waiting suffix, exactly the earlier ones are served. -/
theorem mem_served_head {order served rest : List α} {x : α} (nodup : order.Nodup)
    (split : served ++ x::rest = order) (y : α) :
    y ∈ served ↔ order.idxOf y < order.idxOf x := by
  rw [idxOf_split nodup split]
  exact mem_served_iff split y

omit [DecidableEq α] in
theorem mem_waiting_iff {order served rest : List α} (nodup : order.Nodup)
    (split : served ++ rest = order) {x : α} (member : x ∈ order) :
    x ∈ rest ↔ x ∉ served := by
  subst split
  constructor
  · exact fun waiting served => (List.disjoint_of_nodup_append nodup) served waiting
  · intro absent
    exact (List.mem_append.mp member).resolve_left absent

theorem idxOf_lt_of_sublist {order : List α} (nodup : order.Nodup) {x y : α}
    (inside : [x,y].Sublist order) : order.idxOf x < order.idxOf y := by
  induction order with
  | nil => simp at inside
  | cons z rest ih =>
    obtain ⟨fresh,restNodup⟩ := List.nodup_cons.mp nodup
    cases inside with
    | cons _ later =>
      have members := later.subset
      have xOther : z ≠ x := fun same => fresh (same ▸ members (by simp))
      have yOther : z ≠ y := fun same => fresh (same ▸ members (by simp))
      rw [List.idxOf_cons_ne _ xOther,List.idxOf_cons_ne _ yOther]
      exact Nat.succ_lt_succ (ih restNodup later)
    | cons_cons _ later =>
      have yOther : x ≠ y := fun same => fresh (same ▸ later.subset (by simp))
      rw [List.idxOf_cons_self,List.idxOf_cons_ne _ yOther]
      exact Nat.succ_pos _

end Position

section Commutation
variable {σ α : Type*} {f : σ → α → σ}

theorem foldl_move_front {apart : α → α → Prop}
    (commute : ∀ s x y, apart x y → f (f s x) y = f (f s y) x)
    (x : α) (before : List α) (clear : ∀ y ∈ before, apart y x) (s : σ) :
    (before ++ [x]).foldl f s = (x::before).foldl f s := by
  induction before generalizing s with
  | nil => rfl
  | cons y before ih =>
    have first := commute s y x (clear y (by simp))
    have rest := ih (fun z member => clear z (by simp [member])) (f s y)
    simp only [List.cons_append,List.foldl_cons] at rest ⊢
    rw [rest,first]

/-- Two orders of the same updates give one result when every pair that does not
commute stands the same way round in both. -/
theorem foldl_eq_of_ordered [DecidableEq α] (apart : α → α → Prop)
    (commute : ∀ s x y, apart x y → f (f s x) y = f (f s y) x)
    {first second : List α} (nodup : first.Nodup) (perm : first.Perm second)
    (ordered : second.Pairwise fun x y => ¬ apart x y → first.idxOf x < first.idxOf y) (s : σ) :
    first.foldl f s = second.foldl f s := by
  induction first generalizing second s with
  | nil => rw [perm.nil_eq]
  | cons x rest ih =>
    obtain ⟨before,after,rfl⟩ := List.append_of_mem (perm.mem_iff.mp (List.mem_cons_self))
    have fresh : x ∉ rest := (List.nodup_cons.mp nodup).1
    have restPerm : rest.Perm (before ++ after) :=
      (List.perm_cons x).mp (perm.trans List.perm_middle)
    have clear : ∀ y ∈ before, apart y x := by
      intro y member
      by_contra linked
      have earlier := (List.pairwise_append.mp ordered).2.2 y member x (by simp) linked
      simp at earlier
    have restOrdered : (before ++ after).Pairwise fun y z =>
        ¬ apart y z → rest.idxOf y < rest.idxOf z := by
      have dropped : (before ++ after).Sublist (before ++ x::after) := by simp
      refine (ordered.sublist dropped).imp_of_mem ?_
      intro y z yMember zMember earlier linked
      have shifted := earlier linked
      have yOther : x ≠ y := fun same => fresh (same ▸ restPerm.mem_iff.mpr yMember)
      have zOther : x ≠ z := fun same => fresh (same ▸ restPerm.mem_iff.mpr zMember)
      rw [List.idxOf_cons_ne _ yOther,List.idxOf_cons_ne _ zOther] at shifted
      omega
    have tail := ih (List.nodup_cons.mp nodup).2 restPerm restOrdered (f s x)
    calc
      (x::rest).foldl f s = (before ++ after).foldl f (f s x) := tail
      _ = after.foldl f ((x::before).foldl f s) := by rw [List.foldl_append,List.foldl_cons]
      _ = after.foldl f ((before ++ [x]).foldl f s) := by rw [foldl_move_front commute x before clear]
      _ = (before ++ x::after).foldl f s := by simp [List.foldl_append]

end Commutation

/-- What holds of every entry after the entries before it, one entry at a time. -/
theorem forall_split_snoc (holds : List α → α → Prop) {xs : List α} {last : α} :
    (∀ before x after, xs ++ [last] = before ++ x::after → holds before x) ↔
      (∀ before x after, xs = before ++ x::after → holds before x) ∧ holds xs last := by
  constructor
  · intro all
    refine ⟨?_,all xs last [] rfl⟩
    intro before x after split
    exact all before x (after ++ [last]) (by simp [split])
  · intro both before x after split
    rcases List.eq_nil_or_concat after with rfl | ⟨rest,final,rfl⟩
    · obtain ⟨rfl,same⟩ := List.append_inj' split (by simp)
      cases same
      exact both.2
    · have shorter : xs = before ++ x::rest := by
        have reshape : xs ++ [last] = (before ++ x::rest) ++ [final] := by simpa using split
        exact (List.append_inj' reshape (by simp)).1
      exact both.1 before x rest shorter

end MetaPB.Lib.Sequence

import MetaPB.Lib.Loop
import Mathlib.Order.Bounds.Basic
import Mathlib.Order.MinMax

/-! Minima over a history of frames of values, attained first in frame order and then in
index order. A frame appended to the history either keeps the best entry or replaces it by
the first minimum of its own. Folds of `min` and `max` over one list come first. -/
namespace MetaPB.Lib.Best
open Loop

variable {π ν : Type*}

def entry (history : List (List ν)) (frame index : Nat) : Option ν :=
  history[frame]?.bind (·[index]?)

theorem entry_snoc_left {history : List (List ν)} {j i : Nat} (earlier : j < history.length)
    (last : List ν) : entry (history ++ [last]) j i = entry history j i := by
  simp [entry,List.getElem?_append_left earlier]

theorem entry_snoc_last (history : List (List ν)) (last : List ν) (i : Nat) :
    entry (history ++ [last]) history.length i = last[i]? := by
  simp [entry]

theorem entry_lt {history : List (List ν)} {j i : Nat} {value : ν}
    (listed : entry history j i = some value) : j < history.length := by
  obtain ⟨frame,found,-⟩ := Option.bind_eq_some_iff.mp listed
  exact (List.getElem?_eq_some_iff.mp found).1

theorem entry_snoc {history : List (List ν)} {last : List ν} {j i : Nat} {value : ν}
    (listed : entry (history ++ [last]) j i = some value) :
    j < history.length ∧ entry history j i = some value ∨
      j = history.length ∧ last[i]? = some value := by
  obtain ⟨frame,found,at_⟩ := Option.bind_eq_some_iff.mp listed
  rcases getElem?_snoc found with ⟨earlier,before⟩ | ⟨rfl,rfl⟩
  · exact Or.inl ⟨earlier,Option.bind_eq_some_iff.mpr ⟨frame,before,at_⟩⟩
  · exact Or.inr ⟨rfl,at_⟩

theorem entry_take {history : List (List ν)} {count j i : Nat} {value : ν}
    (listed : entry (history.take count) j i = some value) : entry history j i = some value := by
  obtain ⟨frame,found,at_⟩ := Option.bind_eq_some_iff.mp listed
  rw [List.getElem?_take] at found
  split at found
  next => exact Option.bind_eq_some_iff.mpr ⟨frame,found,at_⟩
  next => contradiction

theorem exists_entry {history : List (List ν)} {value : ν} :
    (∃ frame index, entry history frame index = some value) ↔ ∃ values ∈ history, value ∈ values := by
  constructor
  · intro listed
    obtain ⟨frame,index,listed⟩ := listed
    obtain ⟨values,found,at_⟩ := Option.bind_eq_some_iff.mp listed
    exact ⟨values,List.mem_of_getElem? found,List.mem_of_getElem? at_⟩
  · intro listed
    obtain ⟨values,member,inside⟩ := listed
    obtain ⟨frame,found⟩ := List.mem_iff_getElem?.mp member
    obtain ⟨index,at_⟩ := List.mem_iff_getElem?.mp inside
    exact ⟨frame,index,Option.bind_eq_some_iff.mpr ⟨values,found,at_⟩⟩

section Order
variable [LinearOrder ν]

theorem foldl_min_attained (values : List ν) (bound : ν) :
    values.foldl min bound = bound ∨ values.foldl min bound ∈ values := by
  induction values generalizing bound with
  | nil => exact Or.inl rfl
  | cons value rest ih =>
    rcases ih (min bound value) with same | later
    · rcases min_choice bound value with left | right
      · exact Or.inl (same.trans left)
      · exact Or.inr (by rw [List.foldl_cons,same,right]; exact List.mem_cons_self)
    · exact Or.inr (List.mem_cons_of_mem _ later)

theorem foldl_min_le (values : List ν) (bound : ν) :
    values.foldl min bound ≤ bound ∧ ∀ value ∈ values, values.foldl min bound ≤ value := by
  induction values generalizing bound with
  | nil => exact ⟨le_rfl,by simp⟩
  | cons value rest ih =>
    obtain ⟨below,each⟩ := ih (min bound value)
    refine ⟨below.trans (min_le_left _ _),?_⟩
    intro other member
    rcases List.mem_cons.mp member with rfl | later
    · exact below.trans (min_le_right _ _)
    · exact each other later

theorem foldl_min_isLeast {values : List ν} {bound : ν} (filled : values ≠ [])
    (above : ∀ value ∈ values, value ≤ bound) :
    IsLeast {value | value ∈ values} (values.foldl min bound) := by
  obtain ⟨first,member⟩ := List.exists_mem_of_ne_nil _ filled
  obtain ⟨-,each⟩ := foldl_min_le values bound
  refine ⟨?_,each⟩
  rcases foldl_min_attained values bound with start | attained
  · have same : first = bound := le_antisymm (above first member) (start ▸ each first member)
    rw [start,← same]
    exact member
  · exact attained

theorem foldl_le_max (values : List ν) (bound : ν) :
    bound ≤ values.foldl max bound ∧ ∀ value ∈ values, value ≤ values.foldl max bound :=
  @foldl_min_le νᵒᵈ _ values bound

theorem foldl_max_attained (values : List ν) (bound : ν) :
    values.foldl max bound = bound ∨ values.foldl max bound ∈ values :=
  @foldl_min_attained νᵒᵈ _ values bound

theorem foldl_max_isGreatest {values : List ν} {bound : ν} (filled : values ≠ [])
    (below : ∀ value ∈ values, bound ≤ value) :
    IsGreatest {value | value ∈ values} (values.foldl max bound) :=
  @foldl_min_isLeast νᵒᵈ _ values bound filled below

theorem foldl_place {α ι : Type*} (value : α → ν) (place : Nat → ι) (items : List α) (offset : Nat)
    (start : ι × ν) :
    let final := (items.zipIdx offset).foldl (fun best item =>
      if value item.1 < best.2 then (place item.2,value item.1) else best) start
    final = start ∧ (∀ item ∈ items, start.2 ≤ value item) ∨
      ∃ i item, items[i]? = some item ∧ final = (place (offset + i),value item) ∧ value item < start.2 ∧
        ∀ other ∈ items, value item ≤ value other := by
  induction items generalizing offset start with
  | nil => exact Or.inl ⟨rfl,by simp⟩
  | cons first rest ih =>
    simp only [List.zipIdx_cons,List.foldl_cons,List.mem_cons,forall_eq_or_imp]
    rcases lt_or_ge (value first) start.2 with smaller | larger
    · rw [if_pos smaller]
      rcases ih (offset + 1) (place offset,value first) with ⟨same,least⟩ | ⟨i,item,listed,chosen,below,least⟩
      · exact Or.inr ⟨0,first,rfl,same,smaller,le_rfl,least⟩
      · exact Or.inr ⟨i + 1,item,listed,by rw [chosen,Nat.add_right_comm,Nat.add_assoc],below.trans smaller,
          below.le,least⟩
    · rw [if_neg (not_lt.mpr larger)]
      rcases ih (offset + 1) start with ⟨same,least⟩ | ⟨i,item,listed,chosen,below,least⟩
      · exact Or.inl ⟨same,larger,least⟩
      · exact Or.inr ⟨i + 1,item,listed,by rw [chosen,Nat.add_right_comm,Nat.add_assoc],below,
          below.le.trans larger,least⟩

/-- The index holds the smallest of the first values, and no earlier one does. -/
def FirstMin (values : List ν) (count index : Nat) (best : ν) : Prop :=
  values[index]? = some best ∧ (∀ j < count, ∀ value, values[j]? = some value → best ≤ value) ∧
    ∀ j < index, ∀ value, values[j]? = some value → best < value

/-- The best value of a history of values, with its place in a history of points. -/
def FirstBest (points : List (List π)) (values : List (List ν)) (point : π) (best : ν) : Prop :=
  ∃ frame index, entry points frame index = some point ∧ entry values frame index = some best ∧
    (∀ j i value, entry values j i = some value → best ≤ value) ∧
    ∀ j i value, j < frame ∨ j = frame ∧ i < index → entry values j i = some value → best < value

theorem loop_firstMin {values : List ν} {body : Nat → Nat → Option Nat} {index : Nat}
    (turn : ∀ i kept next, body i kept = some next → ∃ value best, values[i]? = some value ∧
      values[kept]? = some best ∧ next = if value < best then i else kept)
    (nonempty : values ≠ []) (ran : loop values.length body 0 = some index) :
    ∃ best, FirstMin values values.length index best := by
  refine loop_invariant (fun count index => ∃ best, FirstMin values count index best) ?_ ?_ ran
  · refine ⟨values.head nonempty,?_,by simp,by simp⟩
    rw [← List.head?_eq_getElem?,List.head?_eq_some_head]
  · intro i below kept next invariant stepped
    obtain ⟨best,keptAt,least,first⟩ := invariant
    obtain ⟨value,held,found,heldAt,rfl⟩ := turn i kept next stepped
    cases keptAt.symm.trans heldAt
    have own (w : ν) (listed : values[i]? = some w) : value = w :=
      Option.some.inj (found.symm.trans listed)
    rcases lt_or_ge value best with smaller | larger
    · rw [if_pos smaller]
      refine ⟨value,found,?_,fun j earlier w listed => smaller.trans_le (least j earlier w listed)⟩
      intro j inside w listed
      rcases Nat.lt_succ_iff_lt_or_eq.mp inside with earlier | rfl
      · exact (smaller.trans_le (least j earlier w listed)).le
      · exact (own w listed).le
    · rw [if_neg (not_lt.mpr larger)]
      refine ⟨best,keptAt,?_,first⟩
      intro j inside w listed
      rcases Nat.lt_succ_iff_lt_or_eq.mp inside with earlier | rfl
      · exact least j earlier w listed
      · exact larger.trans (own w listed).le

variable {points : List (List π)} {values : List (List ν)} {ptFrm : List π} {valFrm : List ν}

theorem FirstBest.keep {point : π} {best : ν} (first : FirstBest points values point best)
    (least : ∀ (i : Nat) value, valFrm[i]? = some value → best ≤ value) :
    FirstBest (points ++ [ptFrm]) (values ++ [valFrm]) point best := by
  obtain ⟨frame,index,placed,attained,smallest,earliest⟩ := first
  refine ⟨frame,index,?_,?_,?_,?_⟩
  · rwa [entry_snoc_left (entry_lt placed)]
  · rwa [entry_snoc_left (entry_lt attained)]
  · intro j i value listed
    rcases entry_snoc listed with ⟨-,before⟩ | ⟨-,last⟩
    · exact smallest j i value before
    · exact least i value last
  · intro j i value ahead listed
    rcases entry_snoc listed with ⟨-,before⟩ | ⟨rfl,-⟩
    · exact earliest j i value ahead before
    · have bound := entry_lt attained
      omega

theorem FirstMin.firstBest {index : Nat} {point : π} {best : ν}
    (first : FirstMin valFrm valFrm.length index best) (placed : ptFrm[index]? = some point)
    (same : points.length = values.length)
    (smaller : ∀ j i value, entry values j i = some value → best < value) :
    FirstBest (points ++ [ptFrm]) (values ++ [valFrm]) point best := by
  obtain ⟨attained,least,earliest⟩ := first
  refine ⟨values.length,index,?_,?_,?_,?_⟩
  · rwa [← same,entry_snoc_last]
  · rwa [entry_snoc_last]
  · intro j i value listed
    rcases entry_snoc listed with ⟨-,before⟩ | ⟨-,last⟩
    · exact (smaller j i value before).le
    · exact least i (List.getElem?_eq_some_iff.mp last).1 value last
  · intro j i value ahead listed
    rcases entry_snoc listed with ⟨-,before⟩ | ⟨rfl,last⟩
    · exact smaller j i value before
    · exact earliest i (by omega) value last

theorem FirstBest.mem {point : π} {best : ν} (first : FirstBest points values point best) :
    ∃ ptFrm ∈ points, point ∈ ptFrm := by
  obtain ⟨_,_,placed,-⟩ := first
  obtain ⟨frame,found,listed⟩ := Option.bind_eq_some_iff.mp placed
  exact ⟨frame,List.mem_of_getElem? found,List.mem_of_getElem? listed⟩

theorem FirstBest.antitone {more : List (List π)} {later : List (List ν)} {point other : π}
    {best next : ν} (first : FirstBest points values point best)
    (second : FirstBest (points ++ more) (values ++ later) other next) : next ≤ best := by
  obtain ⟨frame,index,-,attained,-,-⟩ := first
  obtain ⟨_,_,-,-,smallest,-⟩ := second
  apply smallest frame index
  have bound := entry_lt attained
  simpa [entry,List.getElem?_append_left bound] using attained

/-- The smallest value of one column of a history, with its earliest point. -/
def ColumnBest (points : List (List π)) (values : List (List ν)) (index : Nat) (point : π) (best : ν) : Prop :=
  ∃ frame, entry points frame index = some point ∧ entry values frame index = some best ∧
    (∀ j value, entry values j index = some value → best ≤ value) ∧
    ∀ j < frame, ∀ value, entry values j index = some value → best < value

theorem ColumnBest.keep {index : Nat} {point : π} {best value : ν} (first : ColumnBest points values index point best)
    (last : valFrm[index]? = some value) (larger : best ≤ value) :
    ColumnBest (points ++ [ptFrm]) (values ++ [valFrm]) index point best := by
  obtain ⟨frame,placed,attained,smallest,earliest⟩ := first
  refine ⟨frame,by rwa [entry_snoc_left (entry_lt placed)],by rwa [entry_snoc_left (entry_lt attained)],?_,?_⟩
  · intro j other listed
    rcases entry_snoc listed with ⟨-,before⟩ | ⟨-,own⟩
    · exact smallest j other before
    · cases last.symm.trans own
      exact larger
  · intro j ahead other listed
    rcases entry_snoc listed with ⟨-,before⟩ | ⟨rfl,-⟩
    · exact earliest j ahead other before
    · have bound := entry_lt attained
      omega

theorem ColumnBest.last {index : Nat} {point : π} {value : ν} (same : points.length = values.length)
    (placed : ptFrm[index]? = some point) (last : valFrm[index]? = some value)
    (smaller : ∀ j other, entry values j index = some other → value < other) :
    ColumnBest (points ++ [ptFrm]) (values ++ [valFrm]) index point value := by
  refine ⟨values.length,by rwa [← same,entry_snoc_last],by rwa [entry_snoc_last],?_,?_⟩
  · intro j other listed
    rcases entry_snoc listed with ⟨-,before⟩ | ⟨-,own⟩
    · exact (smaller j other before).le
    · cases last.symm.trans own
      exact le_rfl
  · intro j ahead other listed
    rcases entry_snoc listed with ⟨-,before⟩ | ⟨rfl,-⟩
    · exact smaller j other before
    · exact absurd ahead (lt_irrefl _)

end Order
end MetaPB.Lib.Best

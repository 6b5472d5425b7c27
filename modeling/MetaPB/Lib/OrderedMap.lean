import Mathlib.Data.List.Basic
import Mathlib.Data.List.Pairwise

/-! Maps as the list of their entries in the order of a comparison. A search ends at the first
key that is not less than the wanted one, and has found it when that is not greater either: so
it is right only where the comparison tells different keys apart, in one way. -/
namespace MetaPB.Lib.OrderedMap

variable {α β : Type*}

section Operations
variable (comp : α → α → Bool)

def lookup (key : α) : List (α × β) → Option β
  | [] => none
  | (other,value)::rest =>
    if comp other key then lookup key rest
    else if comp key other then none
    else some value

/-- A new entry, or a new value for the key that the search ends at. -/
def assign (key : α) (value : β) : List (α × β) → List (α × β)
  | [] => [(key,value)]
  | (other,old)::rest =>
    if comp other key then (other,old)::assign key value rest
    else if comp key other then (key,value)::(other,old)::rest
    else (other,value)::rest

end Operations

/-- What a map asks of its comparison. -/
structure Strict (comp : α → α → Bool) (keys : α → Prop) : Prop where
  irrefl : ∀ a, keys a → comp a a = false
  trans : ∀ a b c, keys a → keys b → keys c → comp a b = true → comp b c = true → comp a c = true

/-- Of two different keys, moreover, one is less. -/
structure Orders (comp : α → α → Bool) (keys : α → Prop) : Prop extends Strict comp keys where
  total : ∀ a b, keys a → keys b → a ≠ b → comp a b = true ∨ comp b a = true

/-- Entries under known keys, in order. -/
structure Sorted (comp : α → α → Bool) (keys : α → Prop) (entries : List (α × β)) : Prop where
  known : ∀ entry ∈ entries, keys entry.1
  ordered : entries.Pairwise fun a b => comp a.1 b.1 = true

theorem sorted_nil (comp : α → α → Bool) (keys : α → Prop) : Sorted comp keys ([] : List (α × β)) :=
  ⟨by simp,List.Pairwise.nil⟩

theorem Sorted.rest {comp : α → α → Bool} {keys : α → Prop} {entry : α × β} {entries : List (α × β)}
    (sorted : Sorted comp keys (entry::entries)) : Sorted comp keys entries :=
  ⟨fun other member => sorted.known other (List.mem_cons_of_mem _ member),(List.pairwise_cons.mp sorted.ordered).2⟩

theorem key_of_mem_assign {comp : α → α → Bool} {key : α} {value : β} {entries : List (α × β)} {entry : α × β}
    (member : entry ∈ assign comp key value entries) : entry.1 = key ∨ ∃ old ∈ entries, old.1 = entry.1 := by
  induction entries with
  | nil =>
    rw [assign,List.mem_singleton] at member
    exact Or.inl (by rw [member])
  | cons head rest ih =>
    obtain ⟨other,old⟩ := head
    rw [assign] at member
    split at member
    next =>
      rcases List.mem_cons.mp member with rfl | later
      · exact Or.inr ⟨_,List.mem_cons_self,rfl⟩
      · refine (ih later).imp_right ?_
        rintro ⟨stored,listed,same⟩
        exact ⟨stored,List.mem_cons_of_mem _ listed,same⟩
    next =>
      split at member
      next =>
        rcases List.mem_cons.mp member with rfl | held
        · exact Or.inl rfl
        · exact Or.inr ⟨entry,held,rfl⟩
      next =>
        rcases List.mem_cons.mp member with rfl | later
        · exact Or.inr ⟨(other,old),List.mem_cons_self,rfl⟩
        · exact Or.inr ⟨entry,List.mem_cons_of_mem _ later,rfl⟩

theorem Sorted.assign {comp : α → α → Bool} {keys : α → Prop} (strict : Strict comp keys) {key : α}
    (keyKnown : keys key) {entries : List (α × β)} (sorted : Sorted comp keys entries) (value : β) :
    Sorted comp keys (assign comp key value entries) := by
  constructor
  · intro entry member
    rcases key_of_mem_assign member with same | ⟨old,listed,same⟩
    · exact same ▸ keyKnown
    · exact same ▸ sorted.known old listed
  · induction entries with
    | nil => simp [OrderedMap.assign]
    | cons head rest ih =>
      obtain ⟨other,old⟩ := head
      have otherKnown : keys other := sorted.known _ List.mem_cons_self
      obtain ⟨first,ordered⟩ := List.pairwise_cons.mp sorted.ordered
      rw [OrderedMap.assign]
      split
      next less =>
        refine List.pairwise_cons.mpr ⟨?_,ih sorted.rest⟩
        intro entry member
        rcases key_of_mem_assign member with same | ⟨later,listed,same⟩
        · rw [same]
          exact less
        · rw [← same]
          exact first later listed
      next notLess =>
        split
        next greater =>
          refine List.pairwise_cons.mpr ⟨?_,sorted.ordered⟩
          intro entry member
          rcases List.mem_cons.mp member with rfl | later
          · exact greater
          · exact strict.trans _ _ _ keyKnown otherKnown (sorted.known _ (List.mem_cons_of_mem _ later))
              greater (first entry later)
        next => exact List.pairwise_cons.mpr ⟨first,ordered⟩

/-- Keys that are stored side by side are told apart. -/
theorem Sorted.compared {comp : α → α → Bool} {keys : α → Prop} {entries : List (α × β)}
    (sorted : Sorted comp keys entries) {a b : α × β} (aStored : a ∈ entries) (bStored : b ∈ entries)
    (apart : a ≠ b) : comp a.1 b.1 = true ∨ comp b.1 a.1 = true := by
  have either : entries.Pairwise fun a b => comp a.1 b.1 = true ∨ comp b.1 a.1 = true :=
    sorted.ordered.imp Or.inl
  have : Std.Symm fun a b : α × β => comp a.1 b.1 = true ∨ comp b.1 a.1 = true := ⟨fun _ _ => Or.symm⟩
  exact either.forall aStored bStored apart

section Rules
variable {comp : α → α → Bool} {keys : α → Prop} (orders : Orders comp keys) {key : α} (keyKnown : keys key)

include orders keyKnown

theorem eq_of_not_less {other : α} (otherKnown : keys other) (less : ¬ comp other key = true)
    (greater : ¬ comp key other = true) : other = key := by
  by_contra apart
  exact (orders.total other key otherKnown keyKnown apart).elim less greater

/-- The search finds an entry exactly when it is there. -/
theorem lookup_eq_some {entries : List (α × β)} (sorted : Sorted comp keys entries) {value : β} :
    lookup comp key entries = some value ↔ (key,value) ∈ entries := by
  induction entries with
  | nil => simp [lookup]
  | cons entry rest ih =>
    obtain ⟨other,old⟩ := entry
    have otherKnown : keys other := sorted.known _ List.mem_cons_self
    obtain ⟨first,-⟩ := List.pairwise_cons.mp sorted.ordered
    rw [lookup,List.mem_cons,Prod.mk.injEq]
    split
    next less =>
      have apart : key ≠ other := by
        rintro rfl
        rw [orders.irrefl key keyKnown] at less
        contradiction
      rw [ih sorted.rest]
      simp [apart]
    next notLess =>
      -- the keys behind are greater than the one the search stops at
      have later (member : (key,value) ∈ rest) : comp other key = true := first _ member
      split
      next greater =>
        have apart : key ≠ other := by
          rintro rfl
          rw [orders.irrefl key keyKnown] at greater
          contradiction
        simp only [reduceCtorEq,apart,false_and,false_or,false_iff]
        exact fun member => notLess (later member)
      next notGreater =>
        obtain rfl := eq_of_not_less orders keyKnown otherKnown notLess notGreater
        rw [Option.some.injEq]
        constructor
        · rintro rfl
          exact Or.inl ⟨rfl,rfl⟩
        · intro found
          rcases found with ⟨-,same⟩ | member
          · exact same.symm
          · exact absurd (later member) notLess

theorem mem_assign {entries : List (α × β)} (sorted : Sorted comp keys entries) {value : β} {entry : α × β} :
    entry ∈ assign comp key value entries ↔ entry = (key,value) ∨ entry.1 ≠ key ∧ entry ∈ entries := by
  induction entries with
  | nil => simp [assign]
  | cons head rest ih =>
    obtain ⟨other,old⟩ := head
    have otherKnown : keys other := sorted.known _ List.mem_cons_self
    obtain ⟨first,-⟩ := List.pairwise_cons.mp sorted.ordered
    rw [assign]
    split
    next less =>
      have apart : other ≠ key := by
        rintro rfl
        rw [orders.irrefl other keyKnown] at less
        contradiction
      rw [List.mem_cons,ih sorted.rest,List.mem_cons]
      constructor
      · rintro (rfl | rfl | ⟨different,member⟩)
        · exact Or.inr ⟨apart,Or.inl rfl⟩
        · exact Or.inl rfl
        · exact Or.inr ⟨different,Or.inr member⟩
      · rintro (rfl | ⟨different,rfl | member⟩)
        · exact Or.inr (Or.inl rfl)
        · exact Or.inl rfl
        · exact Or.inr (Or.inr ⟨different,member⟩)
    next notLess =>
      have behind (found : entry ∈ rest) : entry.1 ≠ key := by
        rintro rfl
        exact notLess (first _ found)
      split
      next greater =>
        have apart : other ≠ key := by
          rintro rfl
          rw [orders.irrefl other keyKnown] at greater
          contradiction
        rw [List.mem_cons]
        refine or_congr_right ⟨fun member => ⟨?_,member⟩,And.right⟩
        rcases List.mem_cons.mp member with rfl | later
        · exact apart
        · exact behind later
      next notGreater =>
        obtain rfl := eq_of_not_less orders keyKnown otherKnown notLess notGreater
        rw [List.mem_cons,List.mem_cons]
        refine or_congr_right ⟨fun later => ⟨behind later,Or.inr later⟩,?_⟩
        rintro ⟨different,rfl | later⟩
        · exact absurd rfl different
        · exact later

end Rules

end MetaPB.Lib.OrderedMap

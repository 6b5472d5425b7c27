import Mathlib.Data.List.Basic

/-! Counting loops whose body can fail, as `for` loops over vectors read and written with
`operator[]`: an access outside a vector is no result. Invariants of a loop are shown for
one turn, either of the turns that return or with the fact that they do. -/
namespace MetaPB.Lib.Loop

variable {σ α : Type*}

def loop (count : Nat) (body : Nat → σ → Option σ) (s : σ) : Option σ :=
  (List.range count).foldlM (fun s i => body i s) s

def write (xs : List α) (i : Nat) (x : α) : Option (List α) :=
  if i < xs.length then some (xs.set i x) else none

theorem mapM_of_forall {β : Type*} {f : α → Option β} {g : α → β} {items : List α}
    (each : ∀ item ∈ items, f item = some (g item)) : items.mapM f = some (items.map g) := by
  induction items with
  | nil => rfl
  | cons item rest ih =>
    rw [List.mapM_cons,each item (by simp),ih fun other member => each other (by simp [member])]
    rfl

theorem loop_succ (count : Nat) (body : Nat → σ → Option σ) (s : σ) :
    loop (count + 1) body s = (loop count body s).bind (body count) := by
  rw [loop,List.range_succ,List.foldlM_append]
  simp [loop]

theorem foldlM_invariant {step : σ → α → Option σ} {holds : σ → Prop} {items : List α} {s t : σ}
    (start : holds s) (kept : ∀ item ∈ items, ∀ s t, holds s → step s item = some t → holds t)
    (ran : items.foldlM step s = some t) : holds t := by
  induction items generalizing s with
  | nil =>
    cases Option.some.inj ran
    exact start
  | cons item rest ih =>
    rw [List.foldlM_cons] at ran
    obtain ⟨middle,first,later⟩ := Option.bind_eq_some_iff.mp ran
    have reached := kept item (List.mem_cons_self) s middle start first
    exact ih reached (fun other member => kept other (List.mem_cons_of_mem item member)) later

theorem foldlM_returns {step : σ → α → Option σ} {items : List α}
    (each : ∀ item ∈ items, ∀ s, ∃ t, step s item = some t) (s : σ) : ∃ t, items.foldlM step s = some t := by
  induction items generalizing s with
  | nil => exact ⟨s,rfl⟩
  | cons item rest ih =>
    obtain ⟨next,first⟩ := each item (by simp) s
    obtain ⟨t,later⟩ := ih (fun other member => each other (by simp [member])) next
    exact ⟨t,by rw [List.foldlM_cons,first]; exact later⟩

/-- Two folds whose steps agree wherever an invariant holds, on what one of them sees of the other. -/
theorem foldlM_agrees {τ : Type*} {step : σ → α → Option σ} {coarse : τ → α → Option τ} {seen : σ → τ}
    {holds : σ → Prop}
    (agrees : ∀ s item, holds s → (step s item).map seen = coarse (seen s) item)
    (kept : ∀ s item t, holds s → step s item = some t → holds t) (items : List α) {s : σ}
    (start : holds s) : (items.foldlM step s).map seen = items.foldlM coarse (seen s) := by
  induction items generalizing s with
  | nil => rfl
  | cons item rest ih =>
    rw [List.foldlM_cons,List.foldlM_cons,← agrees s item start]
    cases stepped : step s item with
    | none => rfl
    | some next => exact ih (kept s item next start stepped)

theorem loop_invariant {body : Nat → σ → Option σ} (holds : Nat → σ → Prop) {count : Nat} {s t : σ}
    (start : holds 0 s)
    (kept : ∀ i < count, ∀ s t, holds i s → body i s = some t → holds (i + 1) t)
    (ran : loop count body s = some t) : holds count t := by
  induction count generalizing t with
  | zero =>
    cases Option.some.inj ran
    exact start
  | succ count ih =>
    rw [loop_succ] at ran
    obtain ⟨middle,before,last⟩ := Option.bind_eq_some_iff.mp ran
    have reached := ih (fun i below => kept i (Nat.lt_succ_of_lt below)) before
    exact kept count (Nat.lt_succ_self count) middle t reached last

theorem loop_returns {body : Nat → σ → Option σ} (holds : Nat → σ → Prop) {count : Nat} {s : σ}
    (start : holds 0 s)
    (kept : ∀ i < count, ∀ s, holds i s → ∃ t, body i s = some t ∧ holds (i + 1) t) :
    ∃ t, loop count body s = some t ∧ holds count t := by
  induction count with
  | zero => exact ⟨s,rfl,start⟩
  | succ count ih =>
    obtain ⟨middle,before,reached⟩ := ih fun i below => kept i (Nat.lt_succ_of_lt below)
    obtain ⟨t,last,done⟩ := kept count (Nat.lt_succ_self count) middle reached
    refine ⟨t,?_,done⟩
    rw [loop_succ,before]
    exact last

/-- A second loop takes every turn of the first, in states related to its own. -/
theorem loop_related {τ : Type*} {body : Nat → σ → Option σ} {other : Nat → τ → Option τ}
    (related : Nat → σ → τ → Prop) {count : Nat} {s t : σ} {u : τ} (start : related 0 s u)
    (kept : ∀ i < count, ∀ s t u, related i s u → body i s = some t →
      ∃ v, other i u = some v ∧ related (i + 1) t v)
    (ran : loop count body s = some t) : ∃ v, loop count other u = some v ∧ related count t v := by
  induction count generalizing t with
  | zero =>
    cases Option.some.inj ran
    exact ⟨u,rfl,start⟩
  | succ count ih =>
    rw [loop_succ] at ran
    obtain ⟨middle,before,last⟩ := Option.bind_eq_some_iff.mp ran
    obtain ⟨v,reached,held⟩ := ih (fun i below => kept i (Nat.lt_succ_of_lt below)) before
    obtain ⟨w,stepped,after⟩ := kept count (Nat.lt_succ_self count) middle t v held last
    refine ⟨w,?_,after⟩
    rw [loop_succ,reached]
    exact stepped

theorem loop_prefix {body : Nat → σ → Option σ} {count n : Nat} {s t : σ} (ran : loop count body s = some t)
    (within : n ≤ count) : ∃ middle, loop n body s = some middle := by
  induction count generalizing t with
  | zero => exact ⟨t,Nat.le_zero.mp within ▸ ran⟩
  | succ count ih =>
    rcases Nat.lt_succ_iff_lt_or_eq.mp (Nat.lt_succ_of_le within) with below | rfl
    · rw [loop_succ] at ran
      obtain ⟨middle,earlier,-⟩ := Option.bind_eq_some_iff.mp ran
      exact ih earlier (Nat.le_of_lt_succ below)
    · exact ⟨t,ran⟩

theorem loop_turn {body : Nat → σ → Option σ} {count : Nat} {s t : σ} (ran : loop count body s = some t)
    {i : Nat} (small : i < count) : ∃ before after, body i before = some after := by
  obtain ⟨after,reached⟩ := loop_prefix ran small
  rw [loop_succ] at reached
  obtain ⟨before,-,turned⟩ := Option.bind_eq_some_iff.mp reached
  exact ⟨before,after,turned⟩

theorem write_eq_some {xs ys : List α} {i : Nat} {x : α} :
    write xs i x = some ys ↔ i < xs.length ∧ ys = xs.set i x := by
  unfold write
  split
  next inside => simp [inside,eq_comm]
  next outside => simp [outside]

theorem write_of_lt {xs : List α} {i : Nat} (inside : i < xs.length) (x : α) :
    write xs i x = some (xs.set i x) := if_pos inside

theorem loop_each {turn : Nat → α → Option α} {xs ys : List α} (same : ys.length = xs.length)
    (each : ∀ i x y, xs[i]? = some x → ys[i]? = some y → turn i x = some y) :
    loop xs.length (fun i out => do
      let x ← out[i]?
      let y ← turn i x
      write out i y) xs = some ys := by
  have looped : ∃ out, loop xs.length (fun i out => do
      let x ← out[i]?
      let y ← turn i x
      write out i y) xs = some out ∧ out.length = xs.length ∧
      (∀ i < xs.length, out[i]? = ys[i]?) ∧ ∀ i, xs.length ≤ i → out[i]? = xs[i]? := by
    apply loop_returns (fun count (out : List α) => out.length = xs.length ∧
      (∀ i < count, out[i]? = ys[i]?) ∧ ∀ i, count ≤ i → out[i]? = xs[i]?)
    · exact ⟨rfl,by simp,by simp⟩
    · intro i small out before
      obtain ⟨size,filled,rest⟩ := before
      have inside : i < ys.length := by omega
      have own : out[i]? = some xs[i] := by rw [rest i (Nat.le_refl i),List.getElem?_eq_getElem small]
      have turned := each i xs[i] ys[i] (List.getElem?_eq_getElem small) (List.getElem?_eq_getElem inside)
      have room : i < out.length := size ▸ small
      refine ⟨out.set i ys[i],by simp [own,turned,write_of_lt room],by simpa using size,?_,?_⟩
      · intro j below
        rcases Nat.lt_succ_iff_lt_or_eq.mp below with earlier | rfl
        · rw [List.getElem?_set_ne (by omega)]
          exact filled j earlier
        · rw [List.getElem?_set_self room,List.getElem?_eq_getElem inside]
      · intro j later
        rw [List.getElem?_set_ne (by omega)]
        exact rest j (by omega)
  obtain ⟨out,ran,size,filled,-⟩ := looped
  rw [ran]
  congr 1
  apply List.ext_getElem?
  intro i
  rcases Nat.lt_or_ge i xs.length with small | large
  · exact filled i small
  · rw [List.getElem?_eq_none (by omega),List.getElem?_eq_none (by omega)]

theorem loop_fill (value : Nat → α) (xs : List α) :
    loop xs.length (fun i out => write out i (value i)) xs = some ((List.range xs.length).map value) := by
  have turn (i : Nat) (out : List α) : write out i (value i) = (do
      let _ ← out[i]?
      let y ← some (value i)
      write out i y) := by
    rcases Nat.lt_or_ge i out.length with inside | outside
    · simp [List.getElem?_eq_getElem inside]
    · simp [write,outside]
  simp only [turn]
  apply loop_each
  · simp
  · intro i x y _ listed
    obtain ⟨inside,rfl⟩ := List.getElem?_eq_some_iff.mp listed
    simp

theorem loop_first {body : Nat → σ → Option σ} {count : Nat} {s t : σ} (ran : loop count body s = some t)
    (counted : 0 < count) : ∃ next, body 0 s = Option.some next := by
  obtain ⟨next,first⟩ := loop_prefix ran (Nat.succ_le_of_lt counted)
  rw [loop_succ] at first
  exact ⟨next,first⟩

theorem set_filled {ok : Nat → α → Prop} {xs : List α} {n : Nat} {x : α}
    (before : ∀ d < n, ∀ y, xs[d]? = some y → ok d y) (settled : ok n x) :
    ∀ d < n + 1, ∀ y, (xs.set n x)[d]? = some y → ok d y := by
  intro d below y listed
  rcases Nat.lt_succ_iff_lt_or_eq.mp below with earlier | rfl
  · rw [List.getElem?_set_ne (by omega)] at listed
    exact before d earlier y listed
  · have bound := (List.getElem?_eq_some_iff.mp listed).1
    rw [List.length_set] at bound
    rw [List.getElem?_set_self bound] at listed
    cases Option.some.inj listed
    exact settled

theorem forall_mem_snoc {holds : α → Prop} {xs : List α} {x : α} (all : ∀ y ∈ xs, holds y)
    (last : holds x) : ∀ y ∈ xs ++ [x], holds y :=
  List.forall_mem_append.mpr ⟨all,List.forall_mem_singleton.mpr last⟩

theorem mem_take_of_getElem? {xs : List α} {x : α} {i n : Nat} (small : i < n)
    (placed : xs[i]? = some x) : x ∈ xs.take n :=
  List.mem_of_getElem? ((List.getElem?_take_of_lt small).trans placed)

theorem getElem?_snoc {xs : List α} {x y : α} {k : Nat} (listed : (xs ++ [x])[k]? = some y) :
    k < xs.length ∧ xs[k]? = some y ∨ k = xs.length ∧ x = y := by
  rcases Nat.lt_trichotomy k xs.length with inside | rfl | outside
  · rw [List.getElem?_append_left inside] at listed
    exact Or.inl ⟨inside,listed⟩
  · rw [List.getElem?_concat_length] at listed
    exact Or.inr ⟨rfl,Option.some.inj listed⟩
  · rw [List.getElem?_eq_none (by simp only [List.length_append,List.length_singleton]; omega)] at listed
    contradiction

theorem forall_singleton {β : Type*} {holds : α → β → Prop} {x : α} {y : β} (held : holds x y) :
    ∀ (k : Nat) a b, [x][k]? = some a → [y][k]? = some b → holds a b := by
  intro k a b left right
  cases k with
  | zero =>
    cases Option.some.inj left
    cases Option.some.inj right
    exact held
  | succ k => simp at left

end MetaPB.Lib.Loop

import MetaPB.Lib.Makespan
import Mathlib.Tactic.Abel

/-! Jobs that ran at recorded times, on resources that do one thing at a time. The busy time of a
resource fits into what it spans, and no record is faster than the replay of its jobs, which starts
every one as early as it can. -/
namespace MetaPB.Lib.Occupancy
open Makespan Sequence

variable {J R K L : Type*}

/-- When a job ran. -/
structure Span (J K : Type*) where
  job : J
  start : K
  stop : K

def Span.map (f : K → L) (span : Span J K) : Span J L := ⟨span.job,f span.start,f span.stop⟩

/-- Spans in the order they end, with their waits and their resources respected. -/
structure Realizes [LE K] (resource : J → R) (waits : J → List J) (spans : List (Span J K)) : Prop where
  forward : ∀ span ∈ spans, span.start ≤ span.stop
  exclusive : spans.Pairwise fun a b => resource a.job = resource b.job → a.stop ≤ b.start
  waited : ∀ before span after, spans = before ++ span::after → ∀ wait ∈ waits span.job,
    ∃ earlier ∈ before, earlier.job = wait ∧ earlier.stop ≤ span.start

section Order
variable [LE K] {resource : J → R} {waits : J → List J} {spans : List (Span J K)}

theorem Realizes.nil : Realizes resource waits ([] : List (Span J K)) :=
  ⟨by simp,List.Pairwise.nil,by simp⟩

theorem Realizes.snoc (realizes : Realizes resource waits spans) {last : Span J K}
    (forward : last.start ≤ last.stop)
    (exclusive : ∀ span ∈ spans, resource span.job = resource last.job → span.stop ≤ last.start)
    (waited : ∀ wait ∈ waits last.job,
      ∃ earlier ∈ spans, earlier.job = wait ∧ earlier.stop ≤ last.start) :
    Realizes resource waits (spans ++ [last]) := by
  constructor
  · intro span member
    rcases List.mem_append.mp member with before | same
    · exact realizes.forward span before
    · cases List.mem_singleton.mp same
      exact forward
  · apply List.pairwise_append.mpr
    refine ⟨realizes.exclusive,List.pairwise_singleton _ _,?_⟩
    intro span member other same
    cases List.mem_singleton.mp same
    exact exclusive span member
  · apply (forall_split_snoc fun (before : List (Span J K)) (span : Span J K) =>
      ∀ wait ∈ waits span.job, ∃ earlier ∈ before, earlier.job = wait ∧ earlier.stop ≤ span.start).mpr
    exact ⟨realizes.waited,waited⟩

theorem Realizes.init {last : Span J K} (realizes : Realizes resource waits (spans ++ [last])) :
    Realizes resource waits spans := by
  constructor
  · exact fun span member => realizes.forward span (List.mem_append_left _ member)
  · exact (List.pairwise_append.mp realizes.exclusive).1
  · intro before span after split
    exact realizes.waited before span (after ++ [last]) (by simp [split])

theorem Realizes.map [LE L] (realizes : Realizes resource waits spans) {f : K → L}
    (mono : ∀ a b, a ≤ b → f a ≤ f b) : Realizes resource waits (spans.map (Span.map f)) := by
  constructor
  · intro span member
    obtain ⟨origin,inside,rfl⟩ := List.mem_map.mp member
    exact mono _ _ (realizes.forward origin inside)
  · rw [List.pairwise_map]
    exact realizes.exclusive.imp fun apart same => mono _ _ (apart same)
  · intro before span after split wait linked
    obtain ⟨front,rest,rfl,rfl,tail⟩ := List.map_eq_append_iff.mp split
    obtain ⟨origin,later,rfl,rfl,rfl⟩ := List.map_eq_cons_iff.mp tail
    obtain ⟨earlier,member,named,before⟩ := realizes.waited front origin later rfl wait linked
    exact ⟨earlier.map f,List.mem_map_of_mem member,named,mono _ _ before⟩

end Order

section Group
variable [AddCommGroup K] [LinearOrder K] [IsOrderedAddMonoid K]

/-- Work that was done one after the other took no longer than it spans. -/
theorem busy_le {spans : List (Span J K)} (forward : ∀ span ∈ spans, span.start ≤ span.stop)
    (ordered : spans.Pairwise fun a b => a.stop ≤ b.start) {low high : K} (room : low ≤ high)
    (inside : ∀ span ∈ spans, low ≤ span.start ∧ span.stop ≤ high) :
    (spans.map fun span => span.stop - span.start).sum ≤ high - low := by
  induction spans generalizing low with
  | nil => simpa using room
  | cons first rest ih =>
    obtain ⟨early,late⟩ := List.pairwise_cons.mp ordered
    obtain ⟨above,below⟩ := inside first List.mem_cons_self
    have later := ih (fun span member => forward span (List.mem_cons_of_mem _ member)) late below
      fun span member => ⟨early span member,(inside span (List.mem_cons_of_mem _ member)).2⟩
    rw [List.map_cons,List.sum_cons]
    calc first.stop - first.start + (rest.map fun span => span.stop - span.start).sum
        ≤ (first.stop - low) + (high - first.stop) := add_le_add (sub_le_sub_left above _) later
      _ = high - low := by abel

variable [DecidableEq J] [DecidableEq R] {jobs : Jobs J R K} {spans : List (Span J K)} {origin : K}

/-- Records in which no job takes less than it costs are never ahead of the replay. -/
theorem Realizes.replay_le (realizes : Realizes jobs.resource jobs.waits spans)
    (nodup : (spans.map (·.job)).Nodup)
    (lasting : ∀ span ∈ spans, jobs.silent span.job = false →
      jobs.cost span.job ≤ span.stop - span.start)
    (begun : ∀ span ∈ spans, origin ≤ span.start) :
    (∀ span ∈ spans, (jobs.replay (spans.map (·.job))).finish span.job ≤ span.stop - origin) ∧
      ∀ r bound, 0 ≤ bound →
        (∀ span ∈ spans, jobs.resource span.job = r → span.stop - origin ≤ bound) →
        (jobs.replay (spans.map (·.job))).clock r ≤ bound := by
  induction spans using List.reverseRecOn with
  | nil => exact ⟨by simp,fun _ _ some _ => some⟩
  | append_singleton spans last ih =>
    rw [List.map_append,List.map_singleton] at nodup ⊢
    obtain ⟨finish,clock⟩ := ih realizes.init (nodup.sublist (by simp))
      (fun span member => lasting span (List.mem_append_left _ member))
      fun span member => begun span (List.mem_append_left _ member)
    have fresh : last.job ∉ spans.map (·.job) := fun inside =>
      (List.disjoint_of_nodup_append nodup) inside (by simp)
    have member : last ∈ spans ++ [last] := by simp
    have positive : 0 ≤ last.start - origin := sub_nonneg.mpr (begun last member)
    have forward : last.start - origin ≤ last.stop - origin :=
      sub_le_sub_right (realizes.forward last member) _
    have apart := (List.pairwise_append.mp realizes.exclusive).2.2
    have woken : wake (jobs.replay (spans.map (·.job))).finish (jobs.waits last.job) ≤
        last.start - origin := by
      apply wake_le positive
      intro wait linked
      obtain ⟨earlier,before,rfl,ended⟩ := realizes.waited spans last [] rfl wait linked
      exact (finish earlier before).trans (sub_le_sub_right ended _)
    have free : (jobs.replay (spans.map (·.job))).clock (jobs.resource last.job) ≤ last.start - origin :=
      clock _ _ positive fun span before own =>
        sub_le_sub_right (apart span before last (List.mem_singleton_self _) own) _
    have ending (loud : jobs.silent last.job = false) :
        jobs.ending (jobs.replay (spans.map (·.job))) last.job ≤ last.stop - origin := by
      calc jobs.ending (jobs.replay (spans.map (·.job))) last.job
          ≤ (last.start - origin) + (last.stop - last.start) :=
            add_le_add (max_le free woken) (lasting last member loud)
        _ = last.stop - origin := by abel
    constructor
    · intro span inside
      rcases List.mem_append.mp inside with before | same
      · have other : span.job ≠ last.job := fun same =>
          fresh (same ▸ List.mem_map_of_mem (f := fun span : Span J K => span.job) before)
        rw [finish_snoc_of_ne other]
        exact finish span before
      · cases List.mem_singleton.mp same
        cases quiet : jobs.silent last.job with
        | true =>
          rw [replay_snoc,Jobs.step,quiet,if_pos rfl,finish_of_notMem fresh]
          exact positive.trans forward
        | false =>
          rw [finish_snoc_self quiet]
          exact ending quiet
    · intro r bound some below
      have before := clock r bound some fun span inside => below span (List.mem_append_left _ inside)
      rw [replay_snoc,Jobs.step]
      split
      · exact before
      next loud =>
        rcases eq_or_ne r (jobs.resource last.job) with rfl | other
        · simpa using (ending (by simpa using loud)).trans (below last member rfl)
        · simpa [other] using before

end Group
end MetaPB.Lib.Occupancy

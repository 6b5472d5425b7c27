import MetaPB.Lib.Word
import Mathlib.Data.Int.GCD
import Mathlib.Logic.Function.Iterate
import Mathlib.Tactic.Ring

/-! When loops over counters end. A loop ends when some iterate of its step leaves it. A
counter that adds a step over and over modulo some number reaches the multiples of their
greatest common divisor and no other value. -/
namespace MetaPB.Lib.Counter
open Word

section Loops
variable {continues : Nat → Bool} {next : Nat → Nat} {start : Nat}

/-- The loop ends, and these are the values its counter takes inside. -/
def Visits (continues : Nat → Bool) (next : Nat → Nat) (start : Nat) (values : List Nat) : Prop :=
  ∃ fuel, counters continues next fuel start = some values

theorem Visits.unique {values others : List Nat} (first : Visits continues next start values)
    (second : Visits continues next start others) : values = others := by
  obtain ⟨fuel,counted⟩ := first
  obtain ⟨other,again⟩ := second
  induction fuel generalizing start values others other with
  | zero => simp [counters] at counted
  | succ fuel ih =>
    rcases Bool.eq_false_or_eq_true (continues start) with more | stop
    · obtain ⟨rest,_,same,rfl,further⟩ := counters_more more counted
      cases same
      obtain ⟨rest',_,rfl,rfl,further'⟩ := counters_more more again
      rw [ih further _ further']
    · cases other with
      | zero => simp [counters] at again
      | succ other =>
        rw [counters,if_neg (by simp [stop])] at counted again
        exact Option.some.inj (counted.symm.trans again)

/-- A loop is counted as soon as the fuel exceeds its turns. -/
theorem counters_eq_some_iff {fuel : Nat} {values : List Nat} :
    counters continues next fuel start = some values ↔
      Visits continues next start values ∧ values.length < fuel := by
  constructor
  · intro counted
    refine ⟨⟨fuel,counted⟩,?_⟩
    induction fuel generalizing start values with
    | zero => simp [counters] at counted
    | succ fuel ih =>
      rcases Bool.eq_false_or_eq_true (continues start) with more | stop
      · obtain ⟨rest,_,same,rfl,further⟩ := counters_more more counted
        cases same
        exact Nat.succ_lt_succ (ih further)
      · rw [counters,if_neg (by simp [stop])] at counted
        cases Option.some.inj counted
        exact Nat.succ_pos fuel
  · intro both
    obtain ⟨⟨other,counted⟩,few⟩ := both
    induction fuel generalizing start values other with
    | zero => exact absurd few (Nat.not_lt_zero _)
    | succ fuel ih =>
      rcases Bool.eq_false_or_eq_true (continues start) with more | stop
      · obtain ⟨rest,_,rfl,rfl,further⟩ := counters_more more counted
        rw [counters,if_pos more,ih (Nat.lt_of_succ_lt_succ few) _ further,Option.map_some]
      · rw [counters,if_neg (by simp [stop])]
        exact congrArg some (Visits.unique ⟨1,by simp [counters,stop]⟩ ⟨other,counted⟩)

theorem visits_iterates {count : Nat} (inside : ∀ k < count, continues (next^[k] start) = true)
    (out : continues (next^[count] start) = false) :
    Visits continues next start ((List.range count).map fun k => next^[k] start) := by
  refine ⟨count + 1,?_⟩
  induction count generalizing start with
  | zero =>
    have stop : continues start = false := out
    simp [counters,stop]
  | succ count ih =>
    have more : continues start = true := inside 0 (Nat.succ_pos count)
    rw [counters,if_pos more,ih (fun k below => inside (k + 1) (Nat.succ_lt_succ below)) out,
      List.range_succ_eq_map]
    simp [Function.comp_def]

theorem ends_iff : (∃ values, Visits continues next start values) ↔
    ∃ k, continues (next^[k] start) = false := by
  constructor
  · intro found
    obtain ⟨values,fuel,counted⟩ := found
    induction fuel generalizing start values with
    | zero => simp [counters] at counted
    | succ fuel ih =>
      rcases Bool.eq_false_or_eq_true (continues start) with more | stop
      · obtain ⟨rest,_,same,-,further⟩ := counters_more more counted
        cases same
        obtain ⟨k,out⟩ := ih rest further
        exact ⟨k + 1,out⟩
      · exact ⟨0,stop⟩
  · intro found
    have least := Nat.find_spec found
    refine ⟨_,visits_iterates (fun k below => ?_) least⟩
    simpa using Nat.find_min found below

end Loops

section Modular
variable {bound step modulus : Nat}

theorem iterate_addMod (step modulus k : Nat) :
    (fun cnt => (cnt + step) % modulus)^[k] 0 = k * step % modulus := by
  induction k with
  | zero => simp
  | succ k ih => rw [Function.iterate_succ_apply',ih,Nat.mod_add_mod,Nat.succ_mul]

theorem exists_multiple_above_iff (positive : 0 < modulus) :
    (∃ k, bound < k * step % modulus) ↔ bound + Nat.gcd step modulus < modulus := by
  constructor
  · intro found
    obtain ⟨k,above⟩ := found
    -- the value and the modulus are multiples of the divisor, so at least one lies between
    have word : k * step % modulus < modulus := Nat.mod_lt _ positive
    have divides : Nat.gcd step modulus ∣ modulus - k * step % modulus := by
      apply Nat.dvd_sub (Nat.gcd_dvd_right step modulus)
      apply (Nat.dvd_mod_iff (Nat.gcd_dvd_right step modulus)).mpr
      exact (Nat.gcd_dvd_left step modulus).mul_left k
    have gap := Nat.le_of_dvd (Nat.sub_pos_of_lt word) divides
    omega
  · intro room
    have small : Nat.gcd step modulus < modulus := (Nat.le_add_left _ bound).trans_lt room
    obtain ⟨k,-,reached⟩ := Nat.exists_mul_mod_eq_gcd small
    obtain ⟨turns,whole⟩ := Nat.gcd_dvd_right step modulus
    generalize Nat.gcd step modulus = divisor at room small reached whole
    have nonzero : 0 < divisor := Nat.pos_of_ne_zero (by rintro rfl; omega)
    refine ⟨(turns - 1) * k,?_⟩
    have last : (turns - 1) * k * step % modulus = modulus - divisor := by
      calc (turns - 1) * k * step % modulus
          = (turns - 1) * (step * k) % modulus := by rw [Nat.mul_assoc,Nat.mul_comm k]
        _ = (turns - 1) * divisor % modulus := by rw [← Nat.mul_mod_mod,reached]
        _ = (modulus - divisor) % modulus := by
          rw [Nat.sub_mul,Nat.one_mul,Nat.mul_comm turns,← whole]
        _ = modulus - divisor := Nat.mod_eq_of_lt (Nat.sub_lt positive nonzero)
    rw [last]
    omega

/-- A loop over such a counter ends when the largest of these multiples is past its bound. -/
theorem addMod_ends_iff (positive : 0 < modulus) :
    (∃ values, Visits (· ≤ bound) (fun cnt => (cnt + step) % modulus) 0 values) ↔
      bound + Nat.gcd step modulus < modulus := by
  rw [ends_iff,← exists_multiple_above_iff positive]
  simp [iterate_addMod]

theorem visits_multiples (positive : 0 < step) (fits : (bound / step + 1) * step < modulus) :
    Visits (· ≤ bound) (fun cnt => (cnt + step) % modulus) 0
      ((List.range (bound / step + 1)).map (· * step)) := by
  have exact (k : Nat) (few : k ≤ bound / step + 1) : k * step % modulus = k * step :=
    Nat.mod_eq_of_lt ((Nat.mul_le_mul_right step few).trans_lt fits)
  have iterates : (List.range (bound / step + 1)).map (· * step) =
      (List.range (bound / step + 1)).map fun k => (fun cnt => (cnt + step) % modulus)^[k] 0 := by
    apply List.map_congr_left
    intro k member
    rw [iterate_addMod,exact k (List.mem_range.mp member).le]
  rw [iterates]
  apply visits_iterates
  · intro k below
    rw [iterate_addMod,exact k below.le,decide_eq_true_eq]
    exact (Nat.mul_le_mul_right step (Nat.le_of_lt_succ below)).trans (Nat.div_mul_le_self bound step)
  · rw [iterate_addMod,exact _ le_rfl,decide_eq_false_iff_not,not_le,Nat.mul_comm]
    exact Nat.lt_mul_div_succ bound positive

end Modular
end MetaPB.Lib.Counter

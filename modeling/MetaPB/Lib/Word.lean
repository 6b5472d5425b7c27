import Mathlib.Data.Rat.Floor
import Mathlib.Algebra.Order.Floor.Semiring
import Mathlib.Data.Nat.Cast.Order.Field

/-! Fixed-width machine arithmetic on natural numbers: wrap-around, conversion of
floating values, and the counters of `for` loops whose bodies leave them alone. -/
namespace MetaPB.Lib.Word

def wrap32 (n : Nat) : Nat := n % 2^32

def wrap64 (n : Nat) : Nat := n % 2^64

/-- Conversion of a non-negative floating value to a 32-bit unsigned integer. -/
def truncate32 (q : ℚ) : Nat := wrap32 ⌊q⌋₊

def truncate64 (q : ℚ) : Nat := wrap64 ⌊q⌋₊

/-- The values a loop counter takes from `start` while `continues` holds, or `none`
when the fuel runs out first. -/
def counters (continues : Nat → Bool) (next : Nat → Nat) : Nat → Nat → Option (List Nat)
  | 0, _ => none
  | fuel + 1, start =>
    if continues start then (counters continues next fuel (next start)).map (start :: ·)
    else some []

theorem wrap32_of_lt {n : Nat} (small : n < 2^32) : wrap32 n = n := Nat.mod_eq_of_lt small

theorem wrap64_of_lt {n : Nat} (small : n < 2^64) : wrap64 n = n := Nat.mod_eq_of_lt small

theorem wrap32_le (n : Nat) : wrap32 n ≤ n := Nat.mod_le _ _

theorem wrap32_lt (n : Nat) : wrap32 n < 2^32 := Nat.mod_lt _ (by decide)

theorem wrap32_eq_self {n : Nat} : wrap32 n = n ↔ n < 2^32 := Nat.mod_eq_iff_lt (by norm_num)

theorem wrap32_div_le (n d : Nat) : ((wrap32 n / d : Nat) : ℚ) ≤ n / d := by
  have word : (wrap32 n : ℚ) ≤ n := by exact_mod_cast wrap32_le n
  exact le_trans Nat.cast_div_le (div_le_div_of_nonneg_right word (Nat.cast_nonneg d))

theorem wrap32_div_eq_iff {n d : Nat} (positive : 0 < d) :
    ((wrap32 n / d : Nat) : ℚ) = n / d ↔ n < 2^32 ∧ d ∣ n := by
  have nonzero : (d : ℚ) ≠ 0 := by exact_mod_cast positive.ne'
  rw [eq_div_iff nonzero,← Nat.cast_mul,Nat.cast_inj]
  constructor
  · intro same
    have whole : wrap32 n = n :=
      (wrap32_le n).antisymm (same.symm.trans_le (Nat.div_mul_le_self (wrap32 n) d))
    rw [whole] at same
    exact ⟨wrap32_eq_self.mp whole,Dvd.intro_left (n / d) same⟩
  · intro both
    rw [wrap32_of_lt both.1,Nat.div_mul_cancel both.2]

theorem le_mod_iff {count n modulus : Nat} (positive : 0 < modulus) :
    count ≤ n % modulus ↔ ∃ turns, count + turns * modulus ≤ n ∧ n < (turns + 1) * modulus := by
  have whole := Nat.div_add_mod' n modulus
  have small := Nat.mod_lt n positive
  constructor
  · intro below
    refine ⟨n / modulus,by omega,?_⟩
    rw [Nat.succ_mul]
    omega
  · intro found
    obtain ⟨turns,least,most⟩ := found
    have quotient : n / modulus = turns :=
      Nat.div_eq_of_lt_le ((Nat.le_add_left _ _).trans least) most
    rw [quotient] at whole
    omega

theorem le_roundUp_iff {count n d : Nat} (positive : 0 < d) (counted : 0 < count) :
    count ≤ (n + d - 1) / d ↔ (count - 1) * d < n := by
  rw [Nat.le_div_iff_mul_le positive,Nat.sub_mul,Nat.one_mul]
  have one : d ≤ count * d := Nat.le_mul_of_pos_left d counted
  omega

theorem counters_more {continues : Nat → Bool} {next : Nat → Nat} {fuel start : Nat}
    {values : List Nat} (more : continues start = true)
    (counted : counters continues next fuel start = some values) :
    ∃ rest before, fuel = before + 1 ∧ values = start::rest ∧
      counters continues next before (next start) = some rest := by
  cases fuel with
  | zero => simp [counters] at counted
  | succ before =>
    rw [counters,if_pos more] at counted
    obtain ⟨rest,further,rfl⟩ := Option.map_eq_some_iff.mp counted
    exact ⟨rest,before,rfl,rfl,further⟩

/-- A loop that adds a fixed step below its bound takes every multiple of the step
from its start to the bound. -/
theorem counters_add {bound step : Nat} {next : Nat → Nat} (adds : ∀ cnt < bound, next cnt = cnt + step)
    (positive : 0 < step) (fuel start : Nat) (enough : bound ≤ fuel + start) :
    counters (· < bound) next (fuel + 1) start =
      some ((List.range ((bound - start + step - 1) / step)).map fun k => start + k * step) := by
  induction fuel generalizing start with
  | zero =>
    have turns : (bound - start + step - 1) / step = 0 := Nat.div_eq_of_lt (by omega)
    rw [counters,if_neg (by simp only [decide_eq_true_eq]; omega),turns]
    rfl
  | succ fuel ih =>
    rcases Nat.lt_or_ge start bound with below | above
    · have grown : (bound - start + step - 1) / step = (bound - (start + step) + step - 1) / step + 1 := by
        rcases Nat.lt_or_ge bound (start + step) with short | long
        · have one : bound - (start + step) + step - 1 < step := by omega
          have shape : bound - start + step - 1 = (bound - start - 1) + step := by omega
          rw [Nat.div_eq_of_lt one,shape,Nat.add_div_right _ positive,Nat.div_eq_of_lt (by omega)]
        · have shape : bound - start + step - 1 = (bound - (start + step) + step - 1) + step := by omega
          rw [shape,Nat.add_div_right _ positive]
      rw [counters,if_pos (by simpa using below),adds start below,ih (start + step) (by omega),grown,
        List.range_succ_eq_map]
      simp [Function.comp_def,Nat.succ_mul,Nat.add_assoc,Nat.add_comm step]
    · have turns : (bound - start + step - 1) / step = 0 := Nat.div_eq_of_lt (by omega)
      rw [counters,if_neg (by simpa using above),turns]
      rfl

theorem counters_range (bound : Nat) :
    counters (· < bound) (· + 1) (bound + 1) 0 = some (List.range bound) := by
  rw [counters_add (fun _ _ => rfl) Nat.one_pos bound 0 (Nat.le_add_right bound 0)]
  simp

end MetaPB.Lib.Word

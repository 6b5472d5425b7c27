import Mathlib.Data.List.TakeWhile
import Mathlib.Data.Rat.Floor
import Mathlib.Algebra.Order.Floor.Semiring
import Mathlib.Tactic.FieldSimp
import Mathlib.Tactic.Linarith

/-! Decimal numbers in text, written with a fixed number of places and read with a sign, a
fraction and an exponent. Values are exact, and what was written is read back as the value
rounded to these places. Hexadecimal, infinite and NaN texts are left out. -/
namespace MetaPB.Lib.Decimal

/-- The nearest natural number, and of two the even one. -/
def roundHalfEven (q : ℚ) : Nat :=
  let whole := ⌊q⌋₊
  if q - whole < 1/2 then whole
  else if 1/2 < q - whole then whole + 1
  else whole + whole % 2

/-- The digits of a number with leading zeros. -/
def padded (places n : Nat) : List Char :=
  List.replicate (places - (Nat.toDigits 10 n).length) '0' ++ Nat.toDigits 10 n

/-- `printf` with `%f`, for some number of places. -/
def fixed (places : Nat) (q : ℚ) : List Char :=
  let scaled := roundHalfEven (|q| * 10^places)
  let unsigned := Nat.toDigits 10 (scaled / 10^places) ++ '.'::padded places (scaled % 10^places)
  if q < 0 then '-'::unsigned else unsigned

def isSpace (c : Char) : Bool := c = ' ' ∨ 9 ≤ c.toNat ∧ c.toNat ≤ 13

/-- Whether a sign says negative, and the text after it. -/
def takeSign : List Char → Bool × List Char
  | '-'::rest => (true,rest)
  | '+'::rest => (false,rest)
  | text => (false,text)

/-- The digits after a point, and what follows them. -/
def takeFraction : List Char → List Char × List Char
  | '.'::rest => (rest.takeWhile Char.isDigit,rest.dropWhile Char.isDigit)
  | text => ([],text)

def exponent : List Char → ℤ
  | [] => 0
  | mark::rest =>
    if mark = 'e' ∨ mark = 'E' then
      let (negative,digits) := takeSign rest
      let size := Nat.ofDigitChars 10 (digits.takeWhile Char.isDigit) 0
      if negative then -size else size
    else 0

/-- `strtod` on decimal notation: the longest number the text begins with. -/
def strtod (text : List Char) : Option ℚ :=
  let (negative,unsigned) := takeSign (text.dropWhile isSpace)
  let whole := unsigned.takeWhile Char.isDigit
  let (fraction,rest) := takeFraction (unsigned.dropWhile Char.isDigit)
  if whole ++ fraction = [] then none
  else
    let size : ℚ := Nat.ofDigitChars 10 (whole ++ fraction) 0 / 10^fraction.length * 10^exponent rest
    some (if negative then -size else size)

/-- The value rounded to a number of decimal places. -/
def rounded (places : Nat) (q : ℚ) : ℚ :=
  let size : ℚ := roundHalfEven (|q| * 10^places) / 10^places
  if q < 0 then -size else size

section Rounding

theorem roundHalfEven_natCast (n : Nat) : roundHalfEven n = n := by
  simp [roundHalfEven]

theorem rounded_nonneg (places : Nat) {q : ℚ} (nonneg : 0 ≤ q) : 0 ≤ rounded places q := by
  rw [rounded,if_neg nonneg.not_gt]
  positivity

theorem fixed_rounded (places : Nat) {q : ℚ} (nonneg : 0 ≤ q) :
    fixed places (rounded places q) = fixed places q := by
  have still := rounded_nonneg places nonneg
  have scaled : rounded places q * 10^places = (roundHalfEven (q * 10^places) : ℚ) := by
    rw [rounded,if_neg nonneg.not_gt,abs_of_nonneg nonneg]
    field_simp
  simp only [fixed]
  rw [abs_of_nonneg still,scaled,roundHalfEven_natCast,abs_of_nonneg nonneg,if_neg still.not_gt,
    if_neg nonneg.not_gt]

theorem abs_roundHalfEven_sub_le {q : ℚ} (nonneg : 0 ≤ q) : |(roundHalfEven q : ℚ) - q| ≤ 1/2 := by
  have below := Nat.floor_le nonneg
  have above := Nat.lt_floor_add_one q
  simp only [roundHalfEven]
  rw [abs_le]
  split
  next early => constructor <;> linarith
  next late =>
    split
    next high =>
      push_cast
      constructor <;> linarith
    next tie =>
      have parity : ((⌊q⌋₊ % 2 : Nat) : ℚ) ≤ 1 := by exact_mod_cast Nat.le_of_lt_succ (Nat.mod_lt _ two_pos)
      have counted : (0 : ℚ) ≤ (⌊q⌋₊ % 2 : Nat) := Nat.cast_nonneg _
      push_cast at parity counted ⊢
      constructor <;> linarith

theorem abs_rounded_sub_le (places : Nat) (q : ℚ) : |rounded places q - q| ≤ 1/2 / 10^places := by
  set size : ℚ := roundHalfEven (|q| * 10^places) / 10^places with written
  have unit : (0 : ℚ) < 10^places := by positivity
  have shape : size - |q| = (roundHalfEven (|q| * 10^places) - |q| * 10^places) / 10^places := by
    rw [written]
    field_simp
  have near : abs (size - |q|) ≤ 1/2 / 10^places := by
    rw [shape,abs_div,abs_of_pos unit]
    exact div_le_div_of_nonneg_right (abs_roundHalfEven_sub_le (by positivity)) unit.le
  rcases lt_or_ge q 0 with negative | nonneg
  · have same : rounded places q - q = -(size - |q|) := by
      rw [rounded,if_pos negative,← written,abs_of_neg negative]
      ring
    rw [same,abs_neg]
    exact near
  · have same : rounded places q - q = size - |q| := by
      rw [rounded,if_neg nonneg.not_gt,← written,abs_of_nonneg nonneg]
    rw [same]
    exact near

end Rounding

section Digits
variable {places n : Nat}

theorem toDigits_isDigit {c : Char} (member : c ∈ Nat.toDigits 10 n) : c.isDigit = true :=
  Nat.isDigit_of_mem_toDigits (by decide) (by decide) member

theorem padded_isDigit {c : Char} (member : c ∈ padded places n) : c.isDigit = true := by
  rcases List.mem_append.mp member with zero | digit
  · rw [(List.mem_replicate.mp zero).2]
    rfl
  · exact toDigits_isDigit digit

theorem padded_length (positive : 0 < places) (few : n < 10^places) : (padded places n).length = places := by
  have short := (Nat.length_toDigits_le_iff (by decide) positive).mpr few
  rw [padded,List.length_append,List.length_replicate]
  omega

theorem ofDigitChars_padded (positive : 0 < places) (few : n < 10^places) (whole : Nat) :
    Nat.ofDigitChars 10 (Nat.toDigits 10 whole ++ padded places n) 0 = whole * 10^places + n := by
  have alone : Nat.ofDigitChars 10 (padded places n) 0 = n := by
    rw [padded,Nat.ofDigitChars_append,Nat.ofDigitChars_replicate_zero,Nat.mul_zero,
      Nat.ofDigitChars_ten_toDigits]
  rw [Nat.ofDigitChars_append,Nat.ofDigitChars_ten_toDigits,Nat.ofDigitChars_eq_ofDigitChars_zero,alone,
    padded_length positive few,Nat.mul_comm]

end Digits

section Reading

theorem isDigit_bounds {c : Char} (digit : c.isDigit = true) : 48 ≤ c.toNat ∧ c.toNat ≤ 57 :=
  Char.isDigit_iff_toNat.mp digit

theorem takeSign_unsigned {unsigned : List Char} {c : Char} (head : unsigned.head? = some c)
    (digit : c.isDigit = true) (negative : Bool) :
    takeSign ((if negative then '-'::unsigned else unsigned).dropWhile isSpace) = (negative,unsigned) := by
  obtain ⟨low,high⟩ := isDigit_bounds digit
  obtain ⟨rest,rfl⟩ : ∃ rest, unsigned = c::rest := List.head?_eq_some_iff.mp head
  cases negative with
  | true => rfl
  | false =>
    have printed : isSpace c = false := by
      have blank : c ≠ ' ' := by
        rintro rfl
        exact absurd low (by decide)
      simp only [isSpace,blank,false_or,decide_eq_false_iff_not]
      omega
    rw [if_neg Bool.false_ne_true,List.dropWhile_cons_of_neg (by simp [printed])]
    unfold takeSign
    split
    next same => exact absurd digit (by simp [(List.cons.inj same).1])
    next same => exact absurd digit (by simp [(List.cons.inj same).1])
    next => rfl

/-- Digits around a point are read as one number over a power of ten. -/
theorem strtod_point {whole fraction : List Char} (filled : whole ≠ [])
    (wholeDigits : ∀ c ∈ whole, c.isDigit = true) (fractionDigits : ∀ c ∈ fraction, c.isDigit = true)
    (negative : Bool) :
    let size : ℚ := Nat.ofDigitChars 10 (whole ++ fraction) 0 / 10^fraction.length
    strtod (if negative then '-'::(whole ++ '.'::fraction) else whole ++ '.'::fraction) =
      Option.some (if negative then -size else size) := by
  intro size
  obtain ⟨c,rest,rfl⟩ := List.exists_cons_of_ne_nil filled
  have unsigned : takeSign ((if negative then '-'::(c::rest ++ '.'::fraction)
      else c::rest ++ '.'::fraction).dropWhile isSpace) = (negative,c::rest ++ '.'::fraction) :=
    takeSign_unsigned rfl (wholeDigits c (by simp)) negative
  have taken : ((c::rest) ++ '.'::fraction).takeWhile Char.isDigit = c::rest := by
    rw [List.takeWhile_append_of_pos wholeDigits,List.takeWhile_cons_of_neg (by decide),List.append_nil]
  have dropped : ((c::rest) ++ '.'::fraction).dropWhile Char.isDigit = '.'::fraction := by
    rw [List.dropWhile_append_of_pos wholeDigits,List.dropWhile_cons_of_neg (by decide)]
  have parts : takeFraction ('.'::fraction) = (fraction,[]) := by
    rw [takeFraction,List.takeWhile_eq_self_iff.mpr fractionDigits,List.dropWhile_eq_nil_iff.mpr fractionDigits]
  simp only [strtod]
  rw [unsigned,taken,dropped,parts,if_neg (by simp)]
  simp [exponent,size]

theorem strtod_fixed {places : Nat} (positive : 0 < places) (q : ℚ) :
    strtod (fixed places q) = Option.some (rounded places q) := by
  have few : roundHalfEven (|q| * 10^places) % 10^places < 10^places := Nat.mod_lt _ (by positivity)
  have wholeDigits : ∀ c ∈ Nat.toDigits 10 (roundHalfEven (|q| * 10^places) / 10^places),
      c.isDigit = true := fun _ => toDigits_isDigit
  have fractionDigits : ∀ c ∈ padded places (roundHalfEven (|q| * 10^places) % 10^places),
      c.isDigit = true := fun _ => padded_isDigit
  have read := strtod_point Nat.toDigits_ne_nil wholeDigits fractionDigits (decide (q < 0))
  rw [ofDigitChars_padded positive few,padded_length positive few,Nat.div_add_mod'] at read
  simpa [fixed,rounded] using read

example : fixed 6 (-5/2) = "-2.500000".toList ∧ strtod "-2.500000".toList = some (-5/2) := by decide +kernel

theorem not_mem_fixed {places : Nat} {q : ℚ} {c : Char} (sign : c ≠ '-') (point : c ≠ '.')
    (digit : c.isDigit = false) : c ∉ fixed places q := by
  have whole (n : Nat) : c ∉ Nat.toDigits 10 n := fun member => by simp [toDigits_isDigit member] at digit
  have fraction (n : Nat) : c ∉ padded places n := fun member => by simp [padded_isDigit member] at digit
  simp only [fixed]
  split <;> simp [sign,point,whole,fraction]

end Reading
end MetaPB.Lib.Decimal

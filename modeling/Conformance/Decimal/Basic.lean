import Conformance.Binary64.Rounding
import Conformance.Text.Integer

/-!
# Decimals

A `Decimal` is a natural number times a power of ten. It is the bridge between a
magnitude and its text: it has an exact value, hence a nearest magnitude
(`Decimal.nearest?`), and two layouts, `positional` and `scientific`, which differ
in where the power of ten is shown.

Main statements:

> `Decimal.nearest?_expansion`: every magnitude has an exact decimal expansion,
> and that expansion reads back to it.
>
> `Decimal.nearest?_trim`: dropping trailing zeros does not change what is read back.
-/

namespace Conformance

/-- The value `digits * 10^exponent`. -/
structure Decimal where
  digits : Nat
  exponent : Int
deriving DecidableEq

namespace Decimal

/-- The numerator of the value, as a ratio of two natural numbers. -/
def numerator (d : Decimal) : Nat := d.digits * 10 ^ d.exponent.toNat

/-- The denominator of the value, a power of ten. -/
def denominator (d : Decimal) : Nat := 10 ^ (-d.exponent).toNat

/-- The magnitude that the decimal is read as: the nearest one. -/
def nearest? (d : Decimal) : Option Magnitude :=
  Magnitude.nearest? d.numerator d.denominator

theorem denominator_pos (d : Decimal) : 0 < d.denominator := Nat.pow_pos (by omega)

/-! ## Exact expansion -/

/-- All the decimal digits of a magnitude: a power of two is a power of five over
the same power of ten. -/
def expansion (m : Magnitude) : Decimal := ⟨m.units * 5 ^ unitPlaces, -(unitPlaces : Int)⟩

/-- The exact expansion of a magnitude reads back to it. -/
theorem nearest?_expansion (m : Magnitude) : (expansion m).nearest? = some m := by
  refine Magnitude.nearest?_units m (denominator_pos _) ?_
  simp only [numerator, denominator, expansion, unitsPerOne, Int.neg_neg, Int.toNat_natCast,
    Int.toNat_neg_natCast, Nat.pow_zero, Nat.mul_one]
  rw [Nat.mul_assoc, ← Nat.mul_pow]

/-! ## Trailing zeros -/

/-- The same value without trailing zeros among its digits. -/
def trim (d : Decimal) : Decimal :=
  if h : d.digits ≠ 0 ∧ d.digits % 10 = 0 then trim ⟨d.digits / 10, d.exponent + 1⟩ else d
termination_by d.digits
decreasing_by exact Nat.div_lt_self (by omega) (by omega)

/-- One trailing zero fewer is the same ratio. -/
theorem nearest?_div_ten {d : Decimal} (h : d.digits % 10 = 0) :
    nearest? ⟨d.digits / 10, d.exponent + 1⟩ = d.nearest? := by
  have hdigits : d.digits = d.digits / 10 * 10 := by omega
  rcases Int.lt_or_le d.exponent 0 with hneg | hnonneg
  · have hplaces : (-d.exponent).toNat = (-(d.exponent + 1)).toNat + 1 := by omega
    have hnum : d.exponent.toNat = 0 ∧ (d.exponent + 1).toNat = 0 := by omega
    unfold nearest? numerator denominator
    simp only [hnum, hplaces, Nat.pow_zero, Nat.mul_one, Nat.pow_succ]
    conv => rhs; rw [hdigits]
    rw [Magnitude.nearest?_mul_mul_right _ _ (by omega)]
  · have hplaces : (-d.exponent).toNat = 0 ∧ (-(d.exponent + 1)).toNat = 0 := by omega
    have hnum : (d.exponent + 1).toNat = d.exponent.toNat + 1 := by omega
    unfold nearest? numerator denominator
    simp only [hplaces, hnum, Nat.pow_zero, Nat.pow_succ]
    conv => rhs; rw [hdigits]
    rw [Nat.mul_assoc, Nat.mul_comm 10]

/-- Dropping trailing zeros does not change what is read back. -/
theorem nearest?_trim (d : Decimal) : d.trim.nearest? = d.nearest? := by
  fun_induction trim d with
  | case1 d h ih => rw [ih, nearest?_div_ten h.2]
  | case2 d h => rfl

/-- Trimmed digits do not end with a zero, unless there is nothing else. -/
theorem trim_digits (d : Decimal) : d.trim.digits = 0 ∨ d.trim.digits % 10 ≠ 0 := by
  fun_induction trim d with
  | case1 d h ih => exact ih
  | case2 d h => omega

/-! ## Layouts -/

/-- The digits with a point among or before them, or with zeros after them: `0.00001`,
`123456.789`, `1200`. -/
def positional (d : Decimal) : List Char :=
  let digits := Nat.toDigits 10 d.digits
  let places := (-d.exponent).toNat
  if places = 0 then digits ++ List.replicate d.exponent.toNat '0'
  else
    let padded := List.replicate (places + 1 - digits.length) '0' ++ digits
    padded.take (padded.length - places) ++ '.' :: padded.drop (padded.length - places)

/-- The first digit, the others after a point if there are any, and the power of ten
that the first digit stands for: `1e20`, `2.5e18`, `5e-324`. -/
def scientific (d : Decimal) : List Char :=
  match Nat.toDigits 10 d.digits with
  | [] => []
  | first :: others =>
    let fraction := if others.isEmpty then [] else '.' :: others
    first :: fraction ++ 'e' :: integerChars (d.exponent + others.length)

end Decimal

end Conformance

/-!
# Integers as text

Decimal digits without padding, with a minus sign in front of a negative integer
and no sign in front of any other.

Main statement:

> `integerChars_injective`: different integers have different texts.
-/

namespace Conformance

/-- A text with a minus sign in front, when asked for. -/
def withSign (negative : Bool) (text : List Char) : List Char :=
  if negative then '-' :: text else text

/-- The decimal digits of an integer, after a minus sign if it is negative. -/
def integerChars (i : Int) : List Char :=
  withSign (i < 0) (Nat.toDigits 10 i.natAbs)

/-- Digits are digits. -/
theorem isDigit_of_mem_digits {n : Nat} {c : Char} (h : c ∈ Nat.toDigits 10 n) :
    c.isDigit = true :=
  Nat.isDigit_of_mem_toDigits (by decide) (by decide) h

/-- Digits tell the number. -/
theorem digits_injective {m n : Nat} (h : Nat.toDigits 10 m = Nat.toDigits 10 n) : m = n := by
  rw [← Nat.ofDigitChars_ten_toDigits (n := m), h, Nat.ofDigitChars_ten_toDigits]

theorem minus_not_mem_digits (n : Nat) : '-' ∉ Nat.toDigits 10 n := fun h =>
  absurd (isDigit_of_mem_digits h) (by decide)

/-- Different integers have different texts. -/
theorem integerChars_injective {i j : Int} (h : integerChars i = integerChars j) : i = j := by
  unfold integerChars withSign at h
  by_cases hi : i < 0 <;> by_cases hj : j < 0 <;> simp only [hi, hj, decide_true, decide_false,
    if_true, if_false, Bool.false_eq_true] at h
  · have := digits_injective (List.cons.inj h).2
    omega
  · exact absurd (h ▸ List.mem_cons_self) (minus_not_mem_digits j.natAbs)
  · exact absurd (h ▸ List.mem_cons_self) (minus_not_mem_digits i.natAbs)
  · have := digits_injective h
    omega

end Conformance

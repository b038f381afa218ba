import Conformance.Proofs.KeyText
import Conformance.Proofs.NumberKeys

/-!
# Number keys are canonical

A number is taken in as a key of one of two sorts, and nothing is lost by it:

> `Key.number_canonical`: two numbers are one key exactly if they are equal, or both not-a-number,
> and as a value the key of a number is that number again, up to the sign of zero.

The integer of a whole number is what the number is cut off to (`Binary64.toInt64`), which takes
away what is behind the point and holds the rest within 64 bits. A number that is taken in as an
integer has nothing to lose either way, and it is below 2^53, so that it comes back unrounded. The
two sorts of keys do not meet, as whether a number is whole, and how large it is, does not depend on
which of two equal numbers is looked at (`Binary64.toInt?_eq_of_beq`).
-/

namespace Conformance

namespace Binary64

/-- The 64-bit integer that a number is cut off to. What is behind the point is dropped; what is too
large or too small becomes the largest or the smallest integer, and not-a-number becomes zero. -/
def toInt64 : Binary64 → Int64
  | .nan => 0
  | .infinite negative => if negative then Int64.minValue else Int64.maxValue
  | .finite negative m => Int64.ofIntClamp (signed negative (m.units / unitsPerOne))

/-- A whole number of 63 bits is cut off to the integer that it is. -/
theorem toInt64_of_toInt? {x : Binary64} {i : Int} (h : x.toInt? = some i)
    (hi : i.natAbs < 2 ^ 63) : x.toInt64.toInt = i := by
  cases x with
  | nan => exact nomatch h
  | infinite negative => exact nomatch h
  | finite negative m =>
    rw [toInt?_finite, Option.ite_none_right_eq_some] at h
    rw [toInt64, Option.some.inj h.2]
    have hmin : Int64.minValue.toInt = -2 ^ 63 := rfl
    have hmax : Int64.maxValue.toInt = 2 ^ 63 - 1 := rfl
    exact Int64.toInt_ofIntClamp (by omega) (by omega)

/-- Of equal numbers both are whole or neither is, and then they are the same integer. -/
theorem toInt?_eq_of_beq {x y : Binary64} (h : (x == y) = true) : x.toInt? = y.toInt? := by
  rcases eq_or_zero_of_beq h with rfl | ⟨a, b, m, rfl, rfl, hzero⟩
  · rfl
  · rw [toInt?_finite, toInt?_finite, hzero, Nat.zero_div, signed_zero, signed_zero]

end Binary64

namespace Key

/-- The sort of a number's key, and the integer if it is one, are those of any equal number. -/
theorem number_beq_of_same {x y : Binary64} (h : x.same y = true) :
    (number x == number y) = true := by
  rcases Binary64.same_iff.mp h with hbeq | ⟨rfl, rfl⟩
  · unfold number
    rw [Binary64.toInt?_eq_of_beq hbeq]
    cases y.toInt? with
    | none => exact h
    | some i =>
      dsimp only
      split
      · exact BEq.rfl
      · exact h
  · rfl

/-- Numbers that are the same key are the same number. -/
theorem same_of_number_beq {x y : Binary64} (h : (number x == number y) = true) :
    x.same y = true := by
  rcases number_eq_int_or_float x with ⟨i, hx⟩ | hx
  · rcases number_eq_int_or_float y with ⟨j, hy⟩ | hy
    · rw [hx, hy] at h
      have hij : i = j := beq_iff_eq.mp h
      rw [hij] at hx
      exact Binary64.same_iff.mpr (.inl (Binary64.beq_of_toInt?_eq
        (number_eq_int_iff.mp hx).1 (number_eq_int_iff.mp hy).1))
    · rw [hx, hy] at h
      exact absurd h Bool.false_ne_true
  · rcases number_eq_int_or_float y with ⟨j, hy⟩ | hy
    · rw [hx, hy] at h
      exact absurd h Bool.false_ne_true
    · rw [hx, hy] at h
      exact h

/-- What a number is cut off to when it is taken in as an integer is the number. -/
theorem ofInt_toInt64_beq {x : Binary64} {i : Int} (h : number x = .int i) :
    x.toInt64.toInt = i ∧ (Binary64.ofInt i == x) = true := by
  obtain ⟨hint, hsmall⟩ := number_eq_int_iff.mp h
  have hlimit : wholeLimit < 2 ^ 53 := by decide
  have hbits : i.natAbs < 2 ^ 63 := by omega
  exact ⟨Binary64.toInt64_of_toInt? hint hbits,
    Binary64.beq_of_toInt?_eq (Binary64.toInt?_ofInt (Nat.lt_trans hsmall hlimit)) hint⟩

/-- Numbers are one key exactly if they are equal, or both not-a-number. As a value, the key of a
number is a number equal to it, or not-a-number if it was that. Where the number is cut off to an
integer, the integer is the number, and it is so exactly where the number is whole and below the
limit for whole keys. -/
theorem number_canonical (x y : Binary64) :
    ((number x == number y) = true ↔ (x == y) = true ∨ (x = .nan ∧ y = .nan)) ∧
    (∃ z, (number x).toValue = .number z ∧ ((z == x) = true ∨ (z = .nan ∧ x = .nan))) ∧
    (number x = .float x ∨
      number x = .int x.toInt64.toInt ∧ (Binary64.ofInt x.toInt64.toInt == x) = true) ∧
    ∀ i, number x = .int i ↔ x.toInt? = some i ∧ i.natAbs < wholeLimit := by
  refine ⟨?_, ?_, ?_, fun _ => number_eq_int_iff⟩
  · rw [← Binary64.same_iff]
    exact ⟨same_of_number_beq, number_beq_of_same⟩
  · rcases number_eq_int_or_float x with ⟨i, hx⟩ | hx
    · exact ⟨.ofInt i, by rw [hx, toValue], .inl (ofInt_toInt64_beq hx).2⟩
    · exact ⟨x, by rw [hx, toValue], Binary64.same_iff.mp x.same_refl⟩
  · rcases number_eq_int_or_float x with ⟨i, hx⟩ | hx
    · obtain ⟨hcut, hbeq⟩ := ofInt_toInt64_beq hx
      rw [hcut]
      exact .inr ⟨hx, hbeq⟩
    · exact .inl hx

/-- The number `2` and the negative zero, which become integers, and what comes back of them. -/
theorem number_canonical_two :
    number (.ofBits 0x4000000000000000) = .int 2 ∧
      (Binary64.ofInt 2 == .ofBits 0x4000000000000000) = true ∧
      number (.ofBits 0x8000000000000000) = .int 0 ∧
      (number (.ofBits 0x8000000000000000) == number (.ofBits 0)) = true := by
  have htwo : (Binary64.ofBits 0x4000000000000000).toInt? = some 2 := by decide +kernel
  have hzero : (Binary64.ofBits 0x8000000000000000).toInt? = some 0 := by decide +kernel
  have hzeros : (Binary64.ofBits 0x8000000000000000 == .ofBits 0) = true := by decide +kernel
  obtain ⟨-, -, hcut, hint⟩ := number_canonical (.ofBits 0x4000000000000000) .nan
  obtain ⟨hsame, -, -, hint'⟩ := number_canonical (.ofBits 0x8000000000000000) (.ofBits 0)
  have hkey := (hint 2).mpr ⟨htwo, by decide⟩
  refine ⟨hkey, ?_, (hint' 0).mpr ⟨hzero, by decide⟩, hsame.mpr (.inl hzeros)⟩
  rcases hcut with hfloat | ⟨hcut, hbeq⟩
  · rw [hkey] at hfloat
    cases hfloat
  · rwa [← int.inj (hkey.symm.trans hcut)] at hbeq

end Key

end Conformance

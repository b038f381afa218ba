/-!
# Binary64: the numbers of a host

A number is a 64-bit binary floating-point number. It is held as the thing it
means: not-a-number, a signed infinity, or a sign and a `Magnitude`. A magnitude
is a whole count of *units*, the unit being the smallest positive number,
`2^-1074`; every question about numbers (equal, less, whole) is then a question
about natural numbers, and nothing is ever rounded to answer it.

Main statements:

> `Magnitude.units_injective`: a magnitude is determined by its value, since the
> significand is normalized.
>
> `Binary64.same_refl`, `Binary64.same_symm`, `Binary64.same_trans`: the equality
> of numbers as table keys is an equivalence, which `==` is not (`nan == nan` fails).
-/

namespace Conformance

-- A power of naturals is the core one wherever it is written; beside a monoid
-- power it would otherwise be elaborated as that.
attribute [instance (high), default_instance high] instPowNat

/-- The smallest positive number, the unit, is two to the minus this. -/
def unitPlaces : Nat := 1074

/-- The number one, in units. -/
def unitsPerOne : Nat := 2 ^ unitPlaces

theorem unitsPerOne_pos : 0 < unitsPerOne := Nat.two_pow_pos unitPlaces

/-- The size of a finite number: `significand * 2^shift` units. A significand has
at most 53 bits, and has exactly 53 unless the shift is zero. -/
structure Magnitude where
  significand : Nat
  shift : Nat
  significand_lt : significand < 2 ^ 53
  normalized : shift = 0 ∨ 2 ^ 52 ≤ significand
  shift_lt : shift < 2046
deriving DecidableEq

namespace Magnitude

/-- The value in units. -/
def units (m : Magnitude) : Nat := m.significand * 2 ^ m.shift

/-- Nothing. -/
def zero : Magnitude := ⟨0, 0, by omega, .inl rfl, by omega⟩

/-- The place of the magnitude among all magnitudes, smallest first. These are the
low 63 bits of a finite number's encoding. -/
def ordinal (m : Magnitude) : Nat := m.shift * 2 ^ 52 + m.significand

/-- A larger shift makes a larger value, whatever the significands are. -/
theorem units_lt_of_shift_lt {m n : Magnitude} (h : m.shift < n.shift) : m.units < n.units := by
  have hn : 2 ^ 52 ≤ n.significand := n.normalized.resolve_left (by omega)
  have hm := m.significand_lt
  calc m.units < 2 ^ 53 * 2 ^ m.shift :=
        Nat.mul_lt_mul_of_pos_right hm (Nat.pow_pos (by omega))
    _ = 2 ^ 52 * 2 ^ (m.shift + 1) := by rw [Nat.pow_succ 2 m.shift]; omega
    _ ≤ 2 ^ 52 * 2 ^ n.shift :=
        Nat.mul_le_mul_left _ (Nat.pow_le_pow_right (by omega) h)
    _ ≤ n.units := Nat.mul_le_mul_right _ hn

/-- A magnitude is determined by its value. -/
theorem units_injective {m n : Magnitude} (h : m.units = n.units) : m = n := by
  have hs : m.shift = n.shift := by
    rcases Nat.lt_trichotomy m.shift n.shift with hlt | heq | hgt
    · exact absurd h (Nat.ne_of_lt (units_lt_of_shift_lt hlt))
    · exact heq
    · exact absurd h.symm (Nat.ne_of_lt (units_lt_of_shift_lt hgt))
  have hc : m.significand = n.significand := by
    unfold units at h
    rw [hs] at h
    exact Nat.eq_of_mul_eq_mul_right (Nat.pow_pos (by omega)) h
  cases m
  cases n
  cases hs
  cases hc
  rfl

end Magnitude

/-- A number of the host. Zero has two signs; not-a-number has one form, since
nothing observable depends on its payload. -/
inductive Binary64 where
  | nan
  | infinite (negative : Bool)
  | finite (negative : Bool) (magnitude : Magnitude)

namespace Binary64

/-- A count with a sign. Zero loses it. -/
def signed (negative : Bool) (n : Nat) : Int :=
  if negative then -(n : Int) else n

/-! ## Encoding -/

/-- Reads the 64 bits of a number: a sign, eleven bits of exponent and 52 of fraction. -/
def ofBits (bits : UInt64) : Binary64 :=
  let fraction := bits.toNat % 2 ^ 52
  let exponent := bits.toNat / 2 ^ 52 % 2 ^ 11
  let negative := decide (2 ^ 63 ≤ bits.toNat)
  if h : exponent = 2047 then
    if fraction = 0 then .infinite negative else .nan
  else if h0 : exponent = 0 then
    .finite negative ⟨fraction, 0, by omega, .inl rfl, by omega⟩
  else
    .finite negative ⟨2 ^ 52 + fraction, exponent - 1, by omega, .inr (by omega), by omega⟩

/-- The bits of a number. Not-a-number gets its usual pattern. -/
def toBits : Binary64 → UInt64
  | .nan => 0x7ff8000000000000
  | .infinite negative => UInt64.ofNat ((if negative then 2 ^ 63 else 0) + 2047 * 2 ^ 52)
  | .finite negative m => UInt64.ofNat ((if negative then 2 ^ 63 else 0) + m.ordinal)

/-! ## Equality and order -/

/-- Numeric equality: not-a-number differs from everything, and zero equals zero
whatever the signs. -/
protected def beq : Binary64 → Binary64 → Bool
  | .infinite a, .infinite b => a == b
  | .finite a m, .finite b n => signed a m.units == signed b n.units
  | _, _ => false

instance : BEq Binary64 := ⟨Binary64.beq⟩

/-- Finite numbers are equal when they have the same units with the same sign, so that both zeros
are. -/
theorem finite_beq_iff {a b : Bool} {m n : Magnitude} :
    (finite a m == finite b n) = true ↔ signed a m.units = signed b n.units := by
  show (signed a m.units == signed b n.units) = true ↔ _
  exact beq_iff_eq

/-- Equality of numbers as table keys: numeric equality, except that not-a-number
is the same as itself. -/
def same : Binary64 → Binary64 → Bool
  | .nan, .nan => true
  | a, b => a == b

/-- The order of numbers as table keys: not-a-number stands above everything, and
the two zeros are level. -/
protected def compare : Binary64 → Binary64 → Ordering
  | .nan, .nan => .eq
  | .nan, _ => .gt
  | _, .nan => .lt
  | .infinite a, .infinite b => Ord.compare b a
  | .infinite a, .finite _ _ => if a then .lt else .gt
  | .finite _ _, .infinite b => if b then .gt else .lt
  | .finite a m, .finite b n => Ord.compare (signed a m.units) (signed b n.units)

/-- As a key every number is the same as itself, not-a-number too. -/
theorem same_refl (x : Binary64) : x.same x = true := by
  cases x <;> simp [same, BEq.beq, Binary64.beq]

theorem same_symm {x y : Binary64} (h : x.same y = true) : y.same x = true := by
  cases x <;> cases y <;> simp_all [same, BEq.beq, Binary64.beq]

theorem same_trans {x y z : Binary64} (hxy : x.same y = true) (hyz : y.same z = true) :
    x.same z = true := by
  cases x <;> cases y <;> cases z <;> simp_all [same, BEq.beq, Binary64.beq]

/-- Numeric equality lacks only that not-a-number is equal to itself. -/
instance : PartialEquivBEq Binary64 where
  symm := by
    intro x y h
    cases x <;> cases y <;> simp_all [BEq.beq, Binary64.beq]
  trans := by
    intro x y z hxy hyz
    cases x <;> cases y <;> cases z <;> simp_all [BEq.beq, Binary64.beq]

/-- Numbers are the same key when they are equal, or both not-a-number. -/
theorem same_iff {x y : Binary64} :
    x.same y = true ↔ (x == y) = true ∨ (x = .nan ∧ y = .nan) := by
  cases x with
  | nan => cases y <;> simp [same, BEq.beq, Binary64.beq]
  | _ => simp [same]

/-! ## Whole numbers -/

/-- The integer that a finite whole number is; both zeros are `0`. -/
def toInt? : Binary64 → Option Int
  | .finite negative m =>
    if m.units % unitsPerOne = 0 then some (signed negative (m.units / unitsPerOne)) else none
  | _ => none

end Binary64

end Conformance

import Conformance.Binary64.Basic

/-!
# Rounding to the nearest number

Every number that is computed and not given (an integer taken in from a document,
a decimal read back) is an exact ratio rounded once, to the nearest number, a half
going to the even neighbour.

Main statements:

> `roundHalfEven_nearest`: the rounded quotient is within half a unit.
>
> `Magnitude.nearest?_units`: a magnitude is its own nearest magnitude.
>
> `Magnitude.units_mod_of_nearest?_one`: what is nearest to a natural number is whole.
>
> `Binary64.toInt?_ofInt`: an integer of 53 bits is not rounded.
-/

namespace Conformance

/-- The natural number nearest to `num / den`; a half goes to the even neighbour. -/
def roundHalfEven (num den : Nat) : Nat :=
  let quotient := num / den
  let rest := num % den
  if 2 * rest < den ∨ (2 * rest = den ∧ quotient % 2 = 0) then quotient else quotient + 1

/-- Rounding gives the whole part at least. -/
theorem le_roundHalfEven (num den : Nat) : num / den ≤ roundHalfEven num den := by
  unfold roundHalfEven
  dsimp only
  split <;> omega

/-- Rounding gives one more than the whole part at most. -/
theorem roundHalfEven_le (num den : Nat) : roundHalfEven num den ≤ num / den + 1 := by
  unfold roundHalfEven
  dsimp only
  split <;> omega

/-- The rounded quotient is within half a unit. -/
theorem roundHalfEven_nearest {num den : Nat} (h : 0 < den) :
    2 * (roundHalfEven num den * den) ≤ 2 * num + den ∧
      2 * num ≤ 2 * (roundHalfEven num den * den) + den := by
  have hdiv := Nat.div_add_mod num den
  have hmod := Nat.mod_lt num h
  have hcomm : num / den * den = den * (num / den) := Nat.mul_comm _ _
  unfold roundHalfEven
  dsimp only
  split
  · omega
  · rw [Nat.add_mul]
    omega

/-- A whole quotient is left as it is. -/
theorem roundHalfEven_mul {den : Nat} (n : Nat) (h : 0 < den) : roundHalfEven (n * den) den = n := by
  unfold roundHalfEven
  dsimp only
  rw [Nat.mul_div_cancel _ h, Nat.mul_mod_left]
  simp [h]

/-- Only the ratio matters, not how it is written. -/
theorem roundHalfEven_mul_mul_right {k : Nat} (num den : Nat) (hk : 0 < k) :
    roundHalfEven (num * k) (den * k) = roundHalfEven num den := by
  unfold roundHalfEven
  dsimp only
  rw [Nat.mul_div_mul_right _ _ hk, Nat.mul_mod_mul_right, ← Nat.mul_assoc]
  simp only [Nat.mul_lt_mul_right hk, Nat.mul_right_cancel_iff hk]

namespace Magnitude

/-- How many of the low bits of `n` units have to go for 53 to be left. -/
def excess (n : Nat) : Nat := Nat.log2 n - 52

/-- What is left when the excess bits are dropped has at most 53 bits. -/
theorem div_excess_lt (n : Nat) : n / 2 ^ excess n < 2 ^ 53 := by
  rw [Nat.div_lt_iff_lt_mul (Nat.pow_pos (by omega)), ← Nat.pow_add]
  have hn : n < 2 ^ (Nat.log2 n + 1) := Nat.lt_log2_self
  exact Nat.lt_of_lt_of_le hn (Nat.pow_le_pow_right (by omega) (by unfold excess; omega))

/-- Bits are dropped only as long as 53 bits are left. -/
theorem excess_normalized (n : Nat) : excess n = 0 ∨ 2 ^ 52 ≤ n / 2 ^ excess n := by
  by_cases h : excess n = 0
  · exact .inl h
  · refine .inr ?_
    have hlog : 52 < Nat.log2 n := by unfold excess at h; omega
    have hn : n ≠ 0 := by
      rintro rfl
      simp at hlog
    rw [Nat.le_div_iff_mul_le (Nat.pow_pos (by omega)), ← Nat.pow_add]
    have : 52 + excess n = Nat.log2 n := by unfold excess; omega
    rw [this]
    exact Nat.log2_self_le hn

/-- `significand * 2^shift` units, where rounding up may just have carried the
significand to 54 bits. There is no such magnitude when it is too large. -/
def ofRounded? (significand shift : Nat) (hle : significand ≤ 2 ^ 53)
    (hnorm : shift = 0 ∨ 2 ^ 52 ≤ significand) : Option Magnitude :=
  if h : significand = 2 ^ 53 then
    if hs : shift + 1 < 2046 then
      some ⟨2 ^ 52, shift + 1, by omega, .inr (Nat.le_refl _), hs⟩
    else none
  else if hs : shift < 2046 then
    some ⟨significand, shift, by omega, hnorm, hs⟩
  else none

/-- The magnitude nearest to the ratio `num / den`; a half goes to the one with the
even significand. There is none when the ratio is nearer to `2^1024` than to the
largest magnitude. -/
def nearest? (num den : Nat) : Option Magnitude :=
  let scaled := num * unitsPerOne
  let shift := excess (scaled / den)
  ofRounded? (roundHalfEven scaled (den * 2 ^ shift)) shift
    (by
      have hup := roundHalfEven_le scaled (den * 2 ^ shift)
      rw [← Nat.div_div_eq_div_mul] at hup
      have hlt : scaled / den / 2 ^ shift < 2 ^ 53 := div_excess_lt (scaled / den)
      omega)
    (by
      refine (excess_normalized (scaled / den)).imp_right fun h => ?_
      have hdown := le_roundHalfEven scaled (den * 2 ^ shift)
      rw [← Nat.div_div_eq_div_mul] at hdown
      exact Nat.le_trans h hdown)

/-- Only the ratio matters, not how it is written. -/
theorem nearest?_mul_mul_right {k : Nat} (num den : Nat) (hk : 0 < k) :
    nearest? (num * k) (den * k) = nearest? num den := by
  have hscaled : num * k * unitsPerOne = num * unitsPerOne * k := Nat.mul_right_comm _ _ _
  have hround (s : Nat) : roundHalfEven (num * unitsPerOne * k) (den * k * 2 ^ s) =
      roundHalfEven (num * unitsPerOne) (den * 2 ^ s) := by
    rw [Nat.mul_right_comm den k, roundHalfEven_mul_mul_right _ _ hk]
  unfold nearest?
  simp only [hscaled, Nat.mul_div_mul_right _ _ hk, hround]

theorem log2_units {m : Magnitude} (h : 2 ^ 52 ≤ m.significand) :
    Nat.log2 m.units = 52 + m.shift := by
  have hlt := m.significand_lt
  have hpos : 0 < 2 ^ m.shift := Nat.pow_pos (by omega)
  have hne : m.units ≠ 0 := by
    unfold units
    exact Nat.mul_ne_zero (by omega) (by omega)
  apply Nat.le_antisymm
  · rw [← Nat.lt_succ_iff, Nat.log2_lt hne]
    calc m.units < 2 ^ 53 * 2 ^ m.shift := Nat.mul_lt_mul_of_pos_right hlt hpos
      _ = 2 ^ (52 + m.shift + 1) := by rw [← Nat.pow_add]; congr 1; omega
  · rw [Nat.le_log2 hne, Nat.pow_add]
    exact Nat.mul_le_mul_right _ h

/-- A magnitude has as many bits too many as its shift says. -/
theorem excess_units (m : Magnitude) : excess m.units = m.shift := by
  rcases m.normalized with h | h
  · have hlt : m.units < 2 ^ 53 := by simpa [units, h] using m.significand_lt
    unfold excess
    by_cases h0 : m.units = 0
    · simp [h0, h]
    · have := (Nat.log2_lt h0).mpr hlt
      omega
  · simp [excess, log2_units h]

/-- A magnitude is its own nearest magnitude, however its value is written as a ratio. -/
theorem nearest?_units (m : Magnitude) {num den : Nat} (hden : 0 < den)
    (h : num * unitsPerOne = m.units * den) : nearest? num den = some m := by
  have hdiv : num * unitsPerOne / den = m.units := by rw [h, Nat.mul_div_cancel _ hden]
  have hround : roundHalfEven (num * unitsPerOne) (den * 2 ^ m.shift) = m.significand := by
    have : num * unitsPerOne = m.significand * (den * 2 ^ m.shift) := by
      rw [h, units, Nat.mul_assoc, Nat.mul_comm (2 ^ m.shift) den]
    rw [this, roundHalfEven_mul _ (Nat.mul_pos hden (Nat.pow_pos (by omega)))]
  have hsig := m.significand_lt
  have hshift := m.shift_lt
  unfold nearest?
  simp only [hdiv, excess_units, hround]
  unfold ofRounded?
  rw [dif_neg (by omega), dif_pos hshift]

/-- Rounding up may carry, but then the value is written with a larger shift. -/
theorem units_of_ofRounded? {significand shift : Nat} {hle : significand ≤ 2 ^ 53}
    {hnorm : shift = 0 ∨ 2 ^ 52 ≤ significand} {m : Magnitude}
    (h : ofRounded? significand shift hle hnorm = some m) :
    m.units = significand * 2 ^ shift := by
  unfold ofRounded? at h
  split at h
  · next hcarry =>
    split at h
    · rw [← Option.some.inj h, hcarry]
      show 2 ^ 52 * 2 ^ (shift + 1) = 2 ^ 53 * 2 ^ shift
      rw [Nat.pow_succ]
      omega
    · exact absurd h (by simp)
  · split at h
    · rw [← Option.some.inj h, units]
    · exact absurd h (by simp)

/-- What is nearest to a natural number is whole. -/
theorem units_mod_of_nearest?_one {n : Nat} {m : Magnitude} (h : nearest? n 1 = some m) :
    m.units % unitsPerOne = 0 := by
  unfold nearest? at h
  rw [units_of_ofRounded? h, Nat.div_one, Nat.one_mul]
  generalize excess (n * unitsPerOne) = shift
  rcases Nat.le_total unitPlaces shift with hle | hle
  · -- the value is so large that the unit it is rounded to is itself whole
    rw [← Nat.add_sub_of_le hle, Nat.pow_add, Nat.mul_left_comm]
    exact Nat.mul_mod_right _ _
  · -- the value is a multiple of the unit it is rounded to
    have hexact : n * unitsPerOne = n * 2 ^ (unitPlaces - shift) * 2 ^ shift := by
      rw [Nat.mul_assoc, ← Nat.pow_add, Nat.sub_add_cancel hle, unitsPerOne]
    rw [hexact, roundHalfEven_mul _ (Nat.pow_pos (by omega)), ← hexact]
    exact Nat.mul_mod_left _ _

/-- A natural number of 53 bits is a magnitude. -/
theorem exists_units_eq {n : Nat} (h : n < 2 ^ 53) : ∃ m : Magnitude, m.units = n * unitsPerOne := by
  have hlog : Nat.log2 (n * unitsPerOne) < 53 + unitPlaces := by
    rcases Nat.eq_zero_or_pos n with rfl | hpos
    · rw [Nat.zero_mul, Nat.log2_zero]
      omega
    · have hne : n * unitsPerOne ≠ 0 := Nat.ne_of_gt (Nat.mul_pos hpos unitsPerOne_pos)
      have hpow : 2 ^ (53 + unitPlaces) = 2 ^ 53 * unitsPerOne := by rw [Nat.pow_add, unitsPerOne]
      rw [Nat.log2_lt hne, hpow]
      exact Nat.mul_lt_mul_of_pos_right h unitsPerOne_pos
  have hshift : excess (n * unitsPerOne) ≤ unitPlaces := by
    unfold excess
    omega
  have hlt := div_excess_lt (n * unitsPerOne)
  have hnorm := excess_normalized (n * unitsPerOne)
  generalize excess (n * unitsPerOne) = shift at hshift hlt hnorm
  have hdvd : 2 ^ shift ∣ unitsPerOne := by
    rw [unitsPerOne]
    exact Nat.pow_dvd_pow 2 hshift
  have hexact : n * unitsPerOne / 2 ^ shift * 2 ^ shift = n * unitsPerOne :=
    Nat.div_mul_cancel (Nat.dvd_mul_left_of_dvd hdvd n)
  have hlimit : shift < 2046 := Nat.lt_of_le_of_lt hshift (by decide)
  exact ⟨⟨n * unitsPerOne / 2 ^ shift, shift, hlt, hnorm, hlimit⟩, hexact⟩

end Magnitude

namespace Binary64

/-- The number nearest to an integer. -/
def ofInt (i : Int) : Binary64 :=
  match Magnitude.nearest? i.natAbs 1 with
  | some m => .finite (i < 0) m
  | none => .infinite (i < 0)

theorem ofInt_eq : ofInt = fun i => match Magnitude.nearest? i.natAbs 1 with
    | some m => .finite (i < 0) m
    | none => .infinite (i < 0) := by
  delta ofInt
  rfl

/-- An integer becomes the number nearest to it. -/
theorem ofInt_of_nearest? {i : Int} {m : Magnitude} (h : Magnitude.nearest? i.natAbs 1 = some m) :
    ofInt i = .finite (i < 0) m := by
  -- unfolded at an integer, the match would be reduced, and with it a product with `unitsPerOne`
  rw [ofInt_eq]
  dsimp only
  rw [h]

/-- An integer of 53 bits is taken in as it is. -/
theorem toInt?_ofInt {i : Int} (h : i.natAbs < 2 ^ 53) : (ofInt i).toInt? = some i := by
  obtain ⟨m, hm⟩ := Magnitude.exists_units_eq h
  have hnearest : Magnitude.nearest? i.natAbs 1 = some m :=
    Magnitude.nearest?_units m Nat.one_pos (by rw [hm, Nat.mul_one])
  have hsigned : signed (i < 0) i.natAbs = i := by
    unfold signed
    by_cases hneg : i < 0
    · rw [decide_eq_true hneg, if_pos rfl]
      omega
    · rw [decide_eq_false hneg, if_neg Bool.false_ne_true]
      omega
  rw [ofInt_of_nearest? hnearest, toInt?, hm, Nat.mul_mod_left, if_pos rfl,
    Nat.mul_div_cancel _ unitsPerOne_pos, hsigned]

end Binary64

end Conformance

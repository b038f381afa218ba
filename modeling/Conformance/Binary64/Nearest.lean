import Mathlib.Data.Nat.Dist
import Conformance.Binary64.Rounding

/-!
# What rounding gives is the nearest number

`Magnitude.nearest?` drops the low bits of a ratio and looks at what it drops. This file says what
comes of it without looking at bits:

> `Magnitude.nearest?_eq_some_iff`: a ratio is rounded to the one magnitude that it is nearest to
> (`Magnitude.IsNearest`). Of two that are equally near it is the one whose significand is even, and
> there is none when the ratio is as near to `2^1024`, which would be the next magnitude.

Distances are taken in units and multiplied by the denominator of the ratio, so that they are
natural numbers. The argument goes over the grid that the ratio is rounded on: no other point of it
is nearer (`roundHalfEven_closest`), and a magnitude that is not on it lies below all that the ratio
can be rounded to (`Magnitude.onGrid_or_below`).
-/

namespace Conformance

/-! ## On a grid -/

/-- A half is rounded to an even number. -/
theorem even_roundHalfEven_of_half {num den : Nat} (hden : 0 < den)
    (h : 2 * Nat.dist num (roundHalfEven num den * den) = den) : roundHalfEven num den % 2 = 0 := by
  have hdiv := Nat.div_add_mod num den
  have hmod := Nat.mod_lt num hden
  have hcomm : num / den * den = den * (num / den) := Nat.mul_comm _ _
  unfold roundHalfEven Nat.dist at *
  dsimp only at *
  split at h
  · next hdown =>
    rw [if_pos hdown]
    omega
  · next hup =>
    rw [if_neg hup]
    rw [Nat.add_mul] at h
    omega

/-- Any other multiple is further away than the one that is rounded to, unless it is as far, and
then that one is even and the other is odd. -/
theorem roundHalfEven_closest {num den k : Nat} (hden : 0 < den) (hk : k ≠ roundHalfEven num den) :
    num.dist (roundHalfEven num den * den) < num.dist (k * den) ∨
      num.dist (roundHalfEven num den * den) = num.dist (k * den) ∧
        roundHalfEven num den % 2 = 0 ∧ k % 2 = 1 := by
  have hhalf : 2 * num.dist (roundHalfEven num den * den) ≤ den := by
    have hnearest := @roundHalfEven_nearest num den hden
    unfold Nat.dist
    omega
  have heven := @even_roundHalfEven_of_half num den hden
  generalize roundHalfEven num den = r at *
  -- the two multiples lie at least one step apart, and the ratio is within half a step of one
  have hapart : Nat.dist k r * den ≤ num.dist (k * den) + num.dist (r * den) := by
    rw [← Nat.dist_mul_right, Nat.dist_comm num (k * den)]
    exact Nat.dist.triangle_inequality _ _ _
  by_cases hstep : Nat.dist k r = 1
  · rw [hstep, Nat.one_mul] at hapart
    unfold Nat.dist at hstep
    omega
  · have htwo : 2 ≤ Nat.dist k r := by
      unfold Nat.dist at hstep ⊢
      omega
    have hsteps := Nat.mul_le_mul_right den htwo
    left
    omega

namespace Magnitude

/-- Two to the power of 1024, in units: what would be the next magnitude after the largest. -/
def beyond : Nat := 2 ^ (1024 + unitPlaces)

/-- What has 53 bits on a grid that there are magnitudes on is below `2^1024`. -/
theorem pow_le_beyond {shift : Nat} (h : shift < 2046) : 2 ^ 53 * 2 ^ shift ≤ beyond := by
  have hplaces : 53 + shift ≤ 1024 + unitPlaces := by
    unfold unitPlaces
    omega
  rw [beyond, ← Nat.pow_add]
  exact Nat.pow_le_pow_right Nat.two_pos hplaces

/-- On the next grid already the smallest number of 53 bits is `2^1024` or more. -/
theorem beyond_le_pow {shift : Nat} (h : 2046 ≤ shift) : beyond ≤ 2 ^ 52 * 2 ^ shift := by
  have hplaces : 1024 + unitPlaces ≤ 52 + shift := by
    unfold unitPlaces
    omega
  rw [beyond, ← Nat.pow_add]
  exact Nat.pow_le_pow_right Nat.two_pos hplaces

/-- It is an even point of every grid that there are magnitudes on. -/
theorem beyond_eq_mul {shift : Nat} (h : shift < 2046) :
    beyond = 2 * 2 ^ (2097 - shift) * 2 ^ shift := by
  have hplaces : 1024 + unitPlaces = 2097 - shift + 1 + shift := by
    unfold unitPlaces
    omega
  rw [beyond, hplaces, Nat.pow_add, Nat.pow_succ']

theorem units_lt_beyond (m : Magnitude) : m.units < beyond :=
  Nat.lt_of_lt_of_le (Nat.mul_lt_mul_of_pos_right m.significand_lt (Nat.two_pow_pos _))
    (pow_le_beyond m.shift_lt)

/-- The magnitude that the ratio `num / den` is nearest to. Of two that are equally near it is the
one with the even significand. No magnitude is nearest to a ratio that is as near to `2^1024`. -/
structure IsNearest (m : Magnitude) (num den : Nat) : Prop where
  dist_le : ∀ n : Magnitude,
    (num * unitsPerOne).dist (m.units * den) ≤ (num * unitsPerOne).dist (n.units * den)
  even_of_tie : ∀ n : Magnitude, n ≠ m →
    (num * unitsPerOne).dist (m.units * den) = (num * unitsPerOne).dist (n.units * den) →
    m.significand % 2 = 0
  dist_lt_beyond :
    (num * unitsPerOne).dist (m.units * den) < (num * unitsPerOne).dist (beyond * den)

/-- A magnitude is on the grid of a shift, as an odd point only if its significand is odd, or it is
below all numbers of 53 bits on that grid. -/
theorem onGrid_or_below (m : Magnitude) (shift : Nat) :
    (∃ k, m.units = k * 2 ^ shift ∧ (k % 2 = 1 → m.significand % 2 = 1)) ∨
      shift ≠ 0 ∧ m.units < 2 ^ 52 * 2 ^ shift := by
  rcases Nat.lt_or_ge m.shift shift with hlt | hge
  · refine .inr ⟨by omega, ?_⟩
    calc m.units < 2 ^ 53 * 2 ^ m.shift :=
          Nat.mul_lt_mul_of_pos_right m.significand_lt (Nat.two_pow_pos _)
      _ = 2 ^ 52 * 2 ^ (m.shift + 1) := by rw [Nat.pow_succ 2 m.shift]; omega
      _ ≤ 2 ^ 52 * 2 ^ shift := Nat.mul_le_mul_left _ (Nat.pow_le_pow_right (by omega) hlt)
  · refine .inl ⟨m.significand * 2 ^ (m.shift - shift), ?_, ?_⟩
    · rw [units, Nat.mul_assoc, ← Nat.pow_add, Nat.sub_add_cancel hge]
    · intro hodd
      by_contra heven
      have hzero : m.significand % 2 = 0 := by omega
      rw [Nat.mul_mod, hzero, Nat.zero_mul] at hodd
      exact absurd hodd (by decide)

/-! ## Rounding -/

/-- A point of the grid, against the ratio: a multiple of what the ratio is divided by. -/
theorem gridPoint_mul (k shift den : Nat) : k * 2 ^ shift * den = k * (den * 2 ^ shift) := by
  rw [Nat.mul_assoc, Nat.mul_comm (2 ^ shift)]

section

variable {num den : Nat} (hden : 0 < den)

include hden

/-- Where bits are dropped, the ratio is at least the smallest number of 53 bits on the grid. -/
theorem le_scaled_of_excess_ne_zero (scaled : Nat) (h : excess (scaled / den) ≠ 0) :
    2 ^ 52 * 2 ^ excess (scaled / den) * den ≤ scaled := by
  have hnorm := (excess_normalized (scaled / den)).resolve_left h
  rw [Nat.div_div_eq_div_mul,
    Nat.le_div_iff_mul_le (Nat.mul_pos hden (Nat.two_pow_pos _))] at hnorm
  rwa [Nat.mul_assoc, Nat.mul_comm _ den]

/-- Another magnitude is further from a ratio than what the ratio is rounded to, unless it is as
far, and then it is the odd one of the two. -/
theorem rounded_closest {scaled r : Nat}
    (hr : r = roundHalfEven scaled (den * 2 ^ excess (scaled / den))) {n : Magnitude}
    (hn : n.units ≠ r * 2 ^ excess (scaled / den)) :
    scaled.dist (r * 2 ^ excess (scaled / den) * den) < scaled.dist (n.units * den) ∨
      scaled.dist (r * 2 ^ excess (scaled / den) * den) = scaled.dist (n.units * den) ∧
        r % 2 = 0 ∧ n.significand % 2 = 1 := by
  have hlow := le_scaled_of_excess_ne_zero hden scaled
  generalize excess (scaled / den) = shift at *
  have hpos : 0 < den * 2 ^ shift := Nat.mul_pos hden (Nat.two_pow_pos _)
  rcases n.onGrid_or_below shift with ⟨k, hk, hodd⟩ | ⟨hshift, hbelow⟩
  · have hkr : k ≠ roundHalfEven scaled (den * 2 ^ shift) := by
      rintro rfl
      exact hn (by rw [hk, hr])
    rw [hk, gridPoint_mul, gridPoint_mul, hr]
    exact (roundHalfEven_closest hpos hkr).imp_right fun ⟨heq, heven, hkodd⟩ =>
      ⟨heq, heven, hodd hkodd⟩
  · left
    -- the smallest number of 53 bits on the grid lies in between
    have hsmallest :
        scaled.dist (r * 2 ^ shift * den) ≤ scaled.dist (2 ^ 52 * 2 ^ shift * den) := by
      by_cases heq : 2 ^ 52 = r
      · rw [heq]
      · rw [gridPoint_mul, gridPoint_mul, hr]
        rcases roundHalfEven_closest hpos (hr ▸ heq) with hlt | ⟨htie, -⟩
        · exact Nat.le_of_lt hlt
        · exact Nat.le_of_eq htie
    have hn := Nat.mul_lt_mul_of_pos_right hbelow hden
    have hle := hlow hshift
    generalize r * 2 ^ shift * den = x at *
    generalize 2 ^ 52 * 2 ^ shift * den = y at *
    unfold Nat.dist at *
    omega

end

/-- An even significand stays even when rounding up has carried it to 54 bits. -/
theorem of_ofRounded?_eq_some {significand shift : Nat} {hle : significand ≤ 2 ^ 53}
    {hnorm : shift = 0 ∨ 2 ^ 52 ≤ significand} {m : Magnitude}
    (h : ofRounded? significand shift hle hnorm = some m) :
    shift < 2046 ∧ (significand % 2 = 0 → m.significand % 2 = 0) := by
  unfold ofRounded? at h
  split at h
  · split at h
    · rw [← Option.some.inj h]
      have heven : 2 ^ 52 % 2 = 0 := by decide
      exact ⟨by omega, fun _ => heven⟩
    · exact absurd h (by simp)
  · split at h
    · next hshift =>
      rw [← Option.some.inj h]
      exact ⟨hshift, id⟩
    · exact absurd h (by simp)

/-- Where there is no magnitude, the value is too large for all of them. -/
theorem of_ofRounded?_eq_none {significand shift : Nat} {hle : significand ≤ 2 ^ 53}
    {hnorm : shift = 0 ∨ 2 ^ 52 ≤ significand}
    (h : ofRounded? significand shift hle hnorm = none) :
    2046 ≤ shift ∨ significand * 2 ^ shift = beyond := by
  unfold ofRounded? at h
  split at h
  · next hcarry =>
    split at h
    · exact absurd h (by simp)
    · rcases Nat.lt_or_ge shift 2046 with hlt | hge
      · right
        have hplaces : 53 + shift = 1024 + unitPlaces := by
          unfold unitPlaces
          omega
        rw [hcarry, ← Nat.pow_add, hplaces, beyond]
      · exact .inl hge
  · split at h
    · exact absurd h (by simp)
    · left
      omega

/-- What a ratio is rounded to is nearest to it. -/
theorem isNearest_of_nearest? {num den : Nat} (hden : 0 < den) {m : Magnitude}
    (h : nearest? num den = some m) : m.IsNearest num den := by
  unfold nearest? at h
  have hunits := units_of_ofRounded? h
  obtain ⟨hshift, heven⟩ := of_ofRounded?_eq_some h
  have hclosest {n : Magnitude} (hn : n ≠ m) := rounded_closest hden rfl (n := n)
    (fun heq => hn (units_injective (heq.trans hunits.symm)))
  rw [← hunits] at hclosest
  refine ⟨?_, ?_, ?_⟩
  · intro n
    by_cases hn : n = m
    · rw [hn]
    · rcases hclosest hn with hlt | ⟨htie, -⟩
      · exact Nat.le_of_lt hlt
      · exact Nat.le_of_eq htie
  · intro n hn heq
    rcases hclosest hn with hlt | ⟨-, hr, -⟩
    · exact absurd heq (Nat.ne_of_lt hlt)
    · exact heven hr
  · -- `2^1024` is an even point of the grid, so that it is further away even than a tie
    have hbeyond := beyond_eq_mul hshift
    have hlt := units_lt_beyond m
    generalize excess (num * unitsPerOne / den) = shift at *
    have hpos : 0 < den * 2 ^ shift := Nat.mul_pos hden (Nat.two_pow_pos _)
    rw [hbeyond, hunits] at hlt
    rw [hbeyond, hunits, gridPoint_mul, gridPoint_mul]
    have hne := Nat.ne_of_gt (Nat.lt_of_mul_lt_mul_right hlt)
    rcases roundHalfEven_closest hpos hne with hlt | ⟨-, -, hodd⟩
    · exact hlt
    · omega

/-- Rounding gives a magnitude exactly if the ratio is nearest to it, so that there is no other that
the ratio is nearest to. -/
theorem nearest?_eq_some_iff {num den : Nat} (hden : 0 < den) {m : Magnitude} :
    nearest? num den = some m ↔ m.IsNearest num den := by
  refine ⟨isNearest_of_nearest? hden, fun hm => ?_⟩
  cases h : nearest? num den with
  | some n =>
    by_contra hne
    have hmn : m ≠ n := fun heq => hne (congrArg some heq.symm)
    have hn := isNearest_of_nearest? hden h
    -- both are nearest, so they are equally far and both even; but of two one is odd
    have htie := Nat.le_antisymm (hn.dist_le m) (hm.dist_le n)
    have heven := hm.even_of_tie n hmn.symm htie.symm
    unfold nearest? at h
    have hunits := units_of_ofRounded? h
    rcases rounded_closest hden rfl (n := m)
      (fun heq => hmn (units_injective (heq.trans hunits.symm))) with hlt | ⟨-, -, hodd⟩
    · rw [← hunits] at hlt
      exact absurd htie (Nat.ne_of_lt hlt)
    · omega
  | none =>
    -- then `2^1024` is at least as near as any magnitude
    exfalso
    have hlt := hm.dist_lt_beyond
    have hunits := Nat.mul_lt_mul_of_pos_right (units_lt_beyond m) hden
    unfold nearest? at h
    rcases of_ofRounded?_eq_none h with hshift | hvalue
    · have hle := le_scaled_of_excess_ne_zero hden (num * unitsPerOne) (by omega)
      have hscaled := Nat.le_trans (Nat.mul_le_mul_right den (beyond_le_pow hshift)) hle
      unfold Nat.dist at hlt
      omega
    · have hne : m.units ≠ beyond := Nat.ne_of_lt (units_lt_beyond m)
      rw [← hvalue] at hne hlt
      rcases rounded_closest hden rfl hne with hfar | ⟨htie, -⟩
      · omega
      · omega

/-- Nothing is rounded down past a magnitude. -/
theorem units_le_of_nearest? {num den : Nat} (hden : 0 < den) {m n : Magnitude}
    (h : nearest? num den = some m) (hn : n.units * den ≤ num * unitsPerOne) :
    n.units ≤ m.units := by
  have hdist := (isNearest_of_nearest? hden h).dist_le n
  by_contra hlt
  have hbelow := Nat.mul_lt_mul_of_pos_right (Nat.not_le.mp hlt) hden
  unfold Nat.dist at hdist
  omega

end Magnitude

end Conformance

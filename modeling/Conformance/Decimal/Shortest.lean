import Conformance.Decimal.Basic

/-!
# The shortest decimal that reads back

A magnitude is written with the fewest digits that still read back to it, and
among those with the decimal nearest to it. The search goes over decimal grids,
coarsest first: on each, only the two neighbours of the magnitude can be nearest.

Main statement:

> `Magnitude.nearest?_shortest`: the shortest decimal of a magnitude reads back to it.
-/

namespace Conformance

namespace Magnitude

/-- The place of the first digit: the `p` with `10^(p-1) ≤ m < 10^p`, for any
magnitude other than zero. The smallest of them is above `10^-324`. -/
def leadingPlace (m : Magnitude) : Int :=
  (Nat.toDigits 10 (m.units * 10 ^ 324 / unitsPerOne)).length - 324

/-- The multiple of `10^exponent` nearest to the magnitude, among the two
neighbours that read back to it; the upper one when both do and are equally near. -/
def onGrid? (m : Magnitude) (exponent : Int) : Option Decimal :=
  let num := m.units * 10 ^ (-exponent).toNat
  let den := unitsPerOne * 10 ^ exponent.toNat
  let below : Decimal := ⟨num / den, exponent⟩
  let above : Decimal := ⟨num / den + 1, exponent⟩
  if below.nearest? = some m then
    if above.nearest? = some m ∧ den ≤ 2 * (num % den) then some above else some below
  else if above.nearest? = some m then some above
  else none

/-- The decimal with the fewest digits that reads back to the magnitude. Seventeen
digits always do; the exact expansion stands behind them so that nothing rests on it. -/
def shortest (m : Magnitude) : Decimal :=
  let found := (List.range 17).findSome? fun n => m.onGrid? (m.leadingPlace - (n + 1 : Nat))
  (found.getD (Decimal.expansion m)).trim

/-- A decimal that is found on a grid reads back to the magnitude. -/
theorem nearest?_of_onGrid? {m : Magnitude} {exponent : Int} {d : Decimal}
    (h : m.onGrid? exponent = some d) : d.nearest? = some m := by
  unfold onGrid? at h
  dsimp only at h
  split at h
  · next hbelow =>
    split at h
    · next habove => exact Option.some.inj h ▸ habove.1
    · exact Option.some.inj h ▸ hbelow
  · split at h
    · next habove => exact Option.some.inj h ▸ habove
    · exact absurd h (by simp)

/-- The shortest decimal of a magnitude reads back to it. -/
theorem nearest?_shortest (m : Magnitude) : m.shortest.nearest? = some m := by
  unfold shortest
  rw [Decimal.nearest?_trim]
  generalize hfound : List.findSome? _ (List.range 17) = found
  cases found with
  | none => exact Decimal.nearest?_expansion m
  | some d =>
    obtain ⟨n, -, hn⟩ := List.exists_of_findSome?_eq_some hfound
    exact nearest?_of_onGrid? hn

end Magnitude

end Conformance

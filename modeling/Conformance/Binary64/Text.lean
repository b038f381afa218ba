import Conformance.Decimal.Shortest

/-!
# Numbers as text

A whole number below `10^15` is written as an integer. Any other number is written
with the fewest digits that read back to it: in scientific layout when it is at
least `10^15` or below `10^-5`, and positionally in between.
-/

namespace Conformance

/-- A number with more places than this before the point is in scientific layout. -/
def wholePlaces : Nat := 15

/-- A number whose first digit is further than this behind the point is in scientific
layout. -/
def fractionPlaces : Nat := 5

namespace Magnitude

/-- Too large or too small to be written out digit by digit. -/
def isExtreme (m : Magnitude) : Bool :=
  10 ^ wholePlaces * unitsPerOne ≤ m.units || m.units * 10 ^ fractionPlaces < unitsPerOne

/-- The characters of a magnitude that is not a small whole number. -/
def chars (m : Magnitude) : List Char :=
  if m.isExtreme then m.shortest.scientific else m.shortest.positional

end Magnitude

namespace Binary64

/-- The characters of a number. -/
def chars (x : Binary64) : List Char :=
  match x with
  | .nan => ['N', 'a', 'N']
  | .infinite negative => withSign negative ['i', 'n', 'f']
  | .finite negative m =>
    match toInt? x with
    | some i =>
      if i.natAbs < 10 ^ wholePlaces then integerChars i else withSign negative m.chars
    | none => withSign negative m.chars

/-- The text of a number. -/
def text (x : Binary64) : String := String.ofList x.chars

end Binary64

end Conformance

import Conformance.Check.Basic

/-!
# Diagnostics

A mismatch is told in one line: where it is, if there is anything to say of that, what
was found there, and what was expected.
-/

namespace Conformance

/-- A mismatch in words. -/
def Mismatch.line (m : Mismatch) : String :=
  let location := match m.path.location? with
    | some words => " in " ++ words
    | none => ""
  "Unexpected value" ++ location ++ ". Found: " ++ m.value.spelling ++
    " Expected: value of type " ++ m.expected.description

/-- The refusal of a value: a line for each mismatch. -/
structure Rejection where
  messages : List String
deriving DecidableEq

/-- The lines of a refusal, one under the other. -/
def Rejection.text (r : Rejection) : String := String.intercalate "\n" r.messages

end Conformance

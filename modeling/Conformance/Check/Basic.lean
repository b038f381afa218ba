import Conformance.Spec.Basic
import Conformance.Path

/-!
# What a check finds

A check compares a value with a spec. Each failure is a `Mismatch`: the part that is
wrong, what it should be, and the path to it. How far a check looks is its `Budget`.

Before a value is looked into it must *fit* its spec (`Spec.fits`), which looks at kinds
and literals only and never into a container.
-/

namespace Conformance

/-- A part of a value that is not what it should be. -/
structure Mismatch where
  value : Value
  expected : Spec
  path : Path

/-- How many containers deep a check looks; without a number it looks all the way. -/
abbrev Budget := Option Nat

/-- Whether a container that lies `depth` containers deep is still looked into. -/
def Budget.reaches (budget : Budget) (depth : Nat) : Bool := budget.all (depth < ·)

namespace Spec

mutual

/-- Whether a value fits a spec, as far as can be told without looking into a
container. A literal is compared in full. -/
def fits (s : Spec) (value : Value) : Bool :=
  match s with
  | .any => true
  | .never => false
  | .kind k => value.kind == k
  | .literal v => value == v
  | .optional inner => value.isNil || fits inner value
  | .union options => fitsSome options value
  | .keyed _ _ => value.kind == .table
  | .record _ => value.kind == .table
  | .array _ => value.kind == .table
termination_by structural s

/-- Whether a value fits one of the options. -/
def fitsSome (options : List Spec) (value : Value) : Bool :=
  match options with
  | [] => false
  | s :: rest => fits s value || fitsSome rest value
termination_by structural options

end

/-- A value fits some option when it fits one of the list. -/
theorem fitsSome_eq_any (options : List Spec) (value : Value) :
    fitsSome options value = options.any (fits · value) := by
  induction options with
  | nil => rfl
  | cons s rest ih => rw [fitsSome, ih, List.any_cons]

end Spec

end Conformance

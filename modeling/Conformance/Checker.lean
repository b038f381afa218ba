import Conformance.Check.Walk
import Conformance.Diagnostic
import Conformance.Settings

/-!
# Checkers

A checker is a spec with the settings to check by, for use on many values. It gives
its findings in three forms: as mismatches, as lines, and as a refusal or none.
-/

namespace Conformance

/-- A spec with settings. -/
structure Checker where
  spec : Spec
  settings : Settings

namespace Checker

/-- A checker with the default settings. -/
def ofSpec (spec : Spec) : Checker := ⟨spec, .default⟩

/-- The same checker, bounded in depth. -/
def withMaxDepth (c : Checker) (depth : Nat) : Checker :=
  { c with settings := { c.settings with maxDepth := some depth } }

/-- The same checker, with a name for the root. -/
def withName (c : Checker) (name : String) : Checker :=
  { c with settings := { c.settings with name := some name } }

/-- All that is wrong with a value: what the walk reports that starts at the root. -/
def mismatches (c : Checker) (value : Value) : List Mismatch :=
  ((c.spec.walk c.settings.maxDepth (.part value) 0).run c.settings.rootPath).1

/-- All that is wrong with a value, a line for each mismatch. -/
def lines (c : Checker) (value : Value) : List String :=
  (c.mismatches value).map Mismatch.line

/-- All that is wrong with the value that a document is loaded as. -/
def documentLines (c : Checker) (d : Document) : List String := c.lines d.toValue

/-- Refuses a value that anything is wrong with. -/
def require (c : Checker) (value : Value) : Except Rejection Unit :=
  match c.lines value with
  | [] => .ok ()
  | messages => .error ⟨messages⟩

end Checker

/-- Whether nothing at all is wrong with a value, however deep. -/
def Spec.accepts (s : Spec) (value : Value) : Bool := ((Checker.ofSpec s).mismatches value).isEmpty

end Conformance

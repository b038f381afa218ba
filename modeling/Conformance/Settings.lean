import Conformance.Check.Basic
import Conformance.Document
import Conformance.Text.Json

/-!
# Settings of a check

A check can be bounded in depth and its root can be given a name. Settings are kept in
a document, as an object with the members `max_depth` and `name` or as an array of the
two in that order; what is left out is not set.
-/

namespace Conformance

/-- How a check is made. -/
structure Settings where
  /-- How many containers deep the check looks; without a number it looks all the way. -/
  maxDepth : Budget
  /-- The name of the root in diagnostics. -/
  name : Option String
deriving DecidableEq

namespace Settings

/-- No bound and no name. -/
def default : Settings := ⟨none, none⟩

instance : Inhabited Settings := ⟨default⟩

/-- The bounds that can be asked for are the 64-bit counts. -/
def depthLimit : Nat := 2 ^ 64

/-! ## Documents -/

/-- The settings as a document. -/
def toDocument (s : Settings) : Document :=
  .object [("max_depth", s.maxDepth.elim .null fun n => .integer n),
    ("name", s.name.elim .null .string)]

/-- Why a document is not read as settings. Reading stops at the first fault that it comes to. -/
inductive Fault where
  /-- A document that is neither an object nor an array. -/
  | shape (d : Document)
  /-- Something that the setting of this name cannot be. -/
  | setting (name : String) (d : Document)
  /-- A second member of this name. -/
  | repeated (name : String)
  /-- An array of this many items, which go on behind the two settings. -/
  | excess (count : Nat)

/-- Reads a bound: an integer, not negative and not too large. Null sets none. -/
def depthOf : Document → Except Fault Budget
  | .null => .ok none
  | .integer i =>
    if 0 ≤ i ∧ i < depthLimit then .ok (some i.toNat)
    else .error (.setting "max_depth" (.integer i))
  | d => .error (.setting "max_depth" d)

/-- Reads a name: a string. Null sets none. -/
def nameOf : Document → Except Fault (Option String)
  | .null => .ok none
  | .string s => .ok (some s)
  | d => .error (.setting "name" d)

/-- Reads the two settings, the bound first. -/
def ofPair (depth name : Document) : Except Fault Settings := do
  let maxDepth ← depthOf depth
  let name ← nameOf name
  return ⟨maxDepth, name⟩

/-- Reads the settings of an array. Items that are too many are seen when the two were read. -/
def ofItems : List Document → Except Fault Settings
  | [] => .ok default
  | [depth] => ofPair depth .null
  | [depth, name] => ofPair depth name
  | depth :: name :: rest => do
    let _ ← ofPair depth name
    throw (.excess (rest.length + 2))

/-- What the members that were read so far say. Nothing is in a place whose member has not
come yet, which is not the same as a null there. -/
structure Draft where
  maxDepth : Option Budget
  name : Option (Option String)

/-- Reads the document of a member into its place, which must be empty. -/
def readOnce {α : Type} (name : String) (read : Document → Except Fault α) :
    Option α → Document → Except Fault (Option α)
  | none, d => (read d).map some
  | some _, _ => .error (.repeated name)

namespace Draft

/-- Nothing was read yet. -/
def empty : Draft := ⟨none, none⟩

/-- Reads the next member. One of another name than the two is passed over, whatever it
holds. -/
def read (r : Draft) (m : String × Document) : Except Fault Draft :=
  if m.1 = "max_depth" then
    (readOnce "max_depth" depthOf r.maxDepth m.2).map fun maxDepth => { r with maxDepth }
  else if m.1 = "name" then
    (readOnce "name" nameOf r.name m.2).map fun name => { r with name }
  else
    .ok r

/-- The settings once all members were read: a place that is still empty has the default. -/
def toSettings (r : Draft) : Settings :=
  ⟨r.maxDepth.getD default.maxDepth, r.name.getD default.name⟩

end Draft

/-- Reads settings: an object member by member, in document order, or an array. -/
def ofDocument : Document → Except Fault Settings
  | .object members => (members.foldlM Draft.read Draft.empty).map Draft.toSettings
  | .array items => ofItems items
  | d => .error (.shape d)

/-- The settings as a JSON text without blanks. -/
def json (s : Settings) : String :=
  let depth := match s.maxDepth with
    | some n => String.ofList (integerChars n)
    | none => "null"
  let name := match s.name with
    | some name => jsonString name
    | none => "null"
  "\x7b\"max_depth\":" ++ depth ++ ",\"name\":" ++ name ++ "\x7d"

/-- The path to the root: its name, if it has one. -/
def rootPath (s : Settings) : Path := s.name.toList.map .root

end Settings

end Conformance

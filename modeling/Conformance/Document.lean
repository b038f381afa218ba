import Conformance.Value.Table

/-!
# Documents

A document is what a host loads from a JSON text. Its arrays become tables indexed
from 1 and its objects become tables keyed by member name, in document order; a null
leaves no entry.
-/

namespace Conformance

/-- A JSON document. Integers are kept apart from other numbers, and the members of
an object are in document order, with different names. -/
inductive Document where
  | null
  | bool (b : Bool)
  | integer (i : Int)
  | float (x : Binary64)
  | string (s : String)
  | array (items : List Document)
  | object (members : List (String × Document))

namespace Document

mutual

/-- The value that a host has once the document is loaded. -/
def toValue (d : Document) : Value :=
  match d with
  | .null => .nil
  | .bool b => .boolean b
  | .integer i => .ofInt i
  | .float x => .number x
  | .string s => .string s
  | .array items => .table (Table.ofList (toValues items))
  | .object members => .table (Table.setAll ∅ (toEntries members))
termination_by structural d

/-- The values of the items of an array. -/
def toValues (items : List Document) : List Value :=
  match items with
  | [] => []
  | d :: rest => toValue d :: toValues rest
termination_by structural items

/-- The entries that the members of an object set. -/
def toEntries (members : List (String × Document)) : List (Key × Value) :=
  match members with
  | [] => []
  | (name, d) :: rest => (.str name, toValue d) :: toEntries rest
termination_by structural members

end

/-- Items are loaded one by one. -/
theorem toValues_eq_map (items : List Document) : toValues items = items.map toValue := by
  induction items with
  | nil => rfl
  | cons d rest ih => rw [toValues, ih, List.map_cons]

/-- Members are loaded one by one, each at its name. -/
theorem toEntries_eq_map (members : List (String × Document)) :
    toEntries members = members.map fun m => (.str m.1, m.2.toValue) := by
  induction members with
  | nil => rfl
  | cons m rest ih => rw [toEntries, ih, List.map_cons]

end Document

end Conformance

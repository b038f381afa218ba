import Conformance.Spec.Basic

/-!
# Building specs

Specs are built from these, which keep them small: an optional spec is not made
optional twice, and a table of anything by anything is just a table. A union of
literals and a record can be extended after the fact.
-/

namespace Conformance

namespace Spec

/-- Nil, or what the spec says. A spec that is optional already is left as it is. -/
def orNil : Spec → Spec
  | .optional inner => .optional inner
  | s => .optional s

/-- One of the values. -/
def oneOf (values : List Value) : Spec := .union (values.map .literal)

/-- The options that a spec stands for: those of a union, or the spec alone. -/
def options : Spec → List Spec
  | .union options => options
  | s => [s]

/-- What the spec says, or one of the values: a union with more options at its end. -/
def orOneOf (s : Spec) (values : List Value) : Spec :=
  .union (s.options ++ values.map .literal)

/-- The fields of a record; no other spec has any. -/
def fields : Spec → OrderedMap String Spec
  | .record fields => fields
  | _ => ∅

/-- A record of the fields. A name given again keeps its place and takes the later spec. -/
def recordOf (fields : List (String × Spec)) : Spec := .record (OrderedMap.ofList fields)

/-- A record of the fields that the spec has and then of more, under the same rule. -/
def withFields (s : Spec) (more : List (String × Spec)) : Spec :=
  .record (s.fields.insertAll more)

/-- A table with keys and values as said. -/
def tableOf (key value : Spec) : Spec :=
  if key.isAny && value.isAny then .kind .table else .keyed key value

/-- An optional spec is not made optional twice. -/
@[simp] theorem orNil_orNil (s : Spec) : s.orNil.orNil = s.orNil := by
  cases s <;> rfl

@[simp] theorem options_orOneOf (s : Spec) (values : List Value) :
    (s.orOneOf values).options = s.options ++ values.map .literal := rfl

/-- Building a record is extending the record without fields. -/
theorem recordOf_eq_withFields (fields : List (String × Spec)) :
    recordOf fields = (recordOf []).withFields fields := rfl

end Spec

end Conformance

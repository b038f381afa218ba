import Conformance.Check.Basic

/-!
# The walk

A check walks a spec and a value together. At each node the value must first fit; only
then does the walk go into the container, if the limit on the depth allows it.

What is reported at a node that fits:

* an optional spec reports what its inner spec does, unless the value is nil;
* a union reports nothing if some option reports nothing, else what its last option does;
* a keyed table and an array report their first failing entry only;
* a record reports on all its fields, in their order.

The walk knows where it is: it keeps one path, which it extends on the way into a part
and shortens on the way out, and it counts the containers that it is in. An optional
spec and a union lie at the depth of what they are about.
-/

namespace Conformance

/-- What a node of the walk is about: a part of the checked value, or the key of an
entry, which is turned into a value for the purpose. -/
inductive Subject where
  | part (value : Value)
  | key (k : Key)

namespace Subject

/-- The value that is held against the spec. -/
def value : Subject → Value
  | .part v => v
  | .key k => k.toValue

/-- The table that a part is. A key is never a table, so nothing is lost by not asking. -/
def table? : Subject → Option Table
  | .part (.table t) => some t
  | _ => none

end Subject

/-- A step of a check, which reads the current path and may change it. -/
abbrev Walk := StateM Path

namespace Walk

/-- Takes a step with the path extended by a segment, and takes the segment off again. -/
def within {α : Type} (segment : Segment) (step : Walk α) : Walk α := do
  modify (· ++ [segment])
  let a ← step
  modify List.dropLast
  return a

/-- Reports a value at the current path. -/
def report (value : Value) (expected : Spec) : Walk (List Mismatch) := do
  return [⟨value, expected, ← get⟩]

/-- Takes one step after the other, up to the first that reports something. -/
def untilReport {α : Type} (step : α → Walk (List Mismatch)) : List α → Walk (List Mismatch)
  | [] => return []
  | a :: rest => do
    let found ← step a
    if found.isEmpty then untilReport step rest else return found

/-- Goes into a table, if the subject is one and the limit allows it. -/
def into (limit : Budget) (depth : Nat) (subject : Subject)
    (step : Table → Walk (List Mismatch)) : Walk (List Mismatch) :=
  if limit.reaches depth then
    match subject.table? with
    | some t => step t
    | none => return []
  else return []

end Walk

namespace Spec

open Walk

mutual

/-- Walks a spec and a subject that lies `depth` containers deep, and reports all that
is wrong with it. -/
def walk (limit : Budget) (s : Spec) (subject : Subject) (depth : Nat) : Walk (List Mismatch) :=
  if fits s subject.value then
    match s with
    | .optional inner =>
      if subject.value.isNil then return [] else walk limit inner subject depth
    | .union options => walkOptions limit options subject depth []
    | .keyed key val => into limit depth subject fun t =>
      untilReport (fun e => do
        let ofKey ← within (.key e.1) (walk limit key (.key e.1) (depth + 1))
        let ofValue ← within (.entry e.1) (walk limit val (.part e.2) (depth + 1))
        return ofKey ++ ofValue) t.entries
    | .record ⟨fields⟩ => into limit depth subject fun t => walkFields limit fields t (depth + 1)
    | .array element => into limit depth subject fun t =>
      untilReport (fun e =>
        within (.entry (.int e.1)) (walk limit element (.part e.2) (depth + 1))) (Table.run t)
    | _ => return []
  else report subject.value s
termination_by structural s

/-- Walks options up to the first that reports nothing. When there is none, `last` is
what the option before these reported. -/
def walkOptions (limit : Budget) (options : List Spec) (subject : Subject) (depth : Nat)
    (last : List Mismatch) : Walk (List Mismatch) :=
  match options with
  | [] => return last
  | s :: rest => do
    let found ← walk limit s subject depth
    if found.isEmpty then return found else walkOptions limit rest subject depth found
termination_by structural options

/-- Walks the declared fields of a table. An absent field is walked as nil. -/
def walkFields (limit : Budget) (fields : List (String × Spec)) (t : Table) (depth : Nat) :
    Walk (List Mismatch) :=
  match fields with
  | [] => return []
  | (name, s) :: rest => do
    let ofField ← within (.entry (.str name)) (walk limit s (.part (Table.get t (.str name))) depth)
    let ofRest ← walkFields limit rest t depth
    return ofField ++ ofRest
termination_by structural fields

end

end Spec

end Conformance

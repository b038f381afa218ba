import Conformance.OrderedMap.Merging
import Conformance.Proofs.Acceptance
import Conformance.Spec.Build

/-!
# Extending specs

A spec can be extended after it was built: by more values that may stand in its place
(`Spec.orOneOf`), or by more fields (`Spec.withFields`). In both cases it does not matter how often
a spec is extended, only by what:

> `Checker.mismatches_orOneOf`: what passes an extended spec is what passed before and the values
> that were added, and extending by some values and then by others is extending by all of them;
>
> `Spec.withFields_merges`: a record that is built and then extended is the record of all the fields
> at once, each name in the place where it first came and with the spec that it last came with.

A union is extended by options of its own, while any other spec becomes an option of a new union.
That this makes no difference to what passes is one fact, `Spec.satisfies_iff_options`: a spec asks
for what one of the options asks that it stands for.
-/

namespace Conformance

namespace Spec

variable {s : Spec} {budget : Budget} {v : Value}

/-! ## More values -/

/-- A spec asks for what one of the options asks that it stands for. -/
theorem satisfies_iff_options : s.Satisfies budget v ↔ ∃ t ∈ s.options, t.Satisfies budget v := by
  cases s with
  | union options => exact satisfiesSome_iff
  | _ => simp [options]

/-- A spec with values added is met by what met it and by what is equal to one of them. -/
theorem satisfies_orOneOf_iff {values : List Value} :
    (s.orOneOf values).Satisfies budget v ↔
      s.Satisfies budget v ∨ ∃ l ∈ values, (v == l) = true := by
  have hvalues : (∃ t ∈ values.map literal, t.Satisfies budget v) ↔
      ∃ l ∈ values, (v == l) = true := by simp [Satisfies]
  rw [satisfies_iff_options, options_orOneOf, satisfies_iff_options (s := s), ← hvalues]
  simp only [List.mem_append, or_and_right, exists_or]

/-- Values can be added to a spec at once or in turn. -/
theorem orOneOf_orOneOf (s : Spec) (values more : List Value) :
    (s.orOneOf values).orOneOf more = s.orOneOf (values ++ more) := by
  rw [orOneOf, options_orOneOf, orOneOf, List.map_append, List.append_assoc]

end Spec

/-- What passes a check against an extended spec is what passes against the spec, and what is equal
to one of the values. Extended twice, a spec has the options, in their order, that it has when it
is extended by all the values at once. -/
theorem Checker.mismatches_orOneOf (s : Spec) (values more : List Value) :
    (∀ settings v, (Checker.mk (s.orOneOf values) settings).mismatches v = [] ↔
        (Checker.mk s settings).mismatches v = [] ∨ ∃ l ∈ values, (v == l) = true) ∧
      (s.orOneOf values).orOneOf more = s.orOneOf (values ++ more) := by
  refine ⟨?_, s.orOneOf_orOneOf values more⟩
  intro settings v
  rw [mismatches_eq_nil_iff, mismatches_eq_nil_iff, Spec.mismatches_eq_nil_iff,
    Spec.mismatches_eq_nil_iff]
  exact Spec.satisfies_orOneOf_iff

namespace Spec

/-! ## More fields -/

/-- Fields can be given to a record at once or in turn. -/
theorem withFields_withFields (s : Spec) (given more : List (String × Spec)) :
    (s.withFields given).withFields more = s.withFields (given ++ more) := by
  show record ((s.fields.insertAll given).insertAll more) = _
  rw [← OrderedMap.insertAll_append]
  rfl

/-- A spec that is no record has no fields to begin with. -/
theorem withFields_of_not_record {s : Spec} (given : List (String × Spec))
    (h : ∀ fields, s ≠ .record fields) : s.withFields given = recordOf given := by
  cases s with
  | record fields => exact absurd rfl (h fields)
  | _ => rfl

/-- A record that is extended is the record of the fields it was built from and of those that it
is extended by. It has the names in the order in which they first came, each with the spec that it
last came with. So extending twice is extending once by all the fields, whatever spec that starts
from; what is no record starts without fields. -/
theorem withFields_merges (given more : List (String × Spec)) :
    (recordOf given).withFields more = recordOf (given ++ more) ∧
      (recordOf (given ++ more)).fields.Merges (given ++ more) ∧
      (∀ s : Spec, (s.withFields given).withFields more = s.withFields (given ++ more)) ∧
      ∀ s : Spec, (∀ fields, s ≠ .record fields) → s.withFields given = recordOf given := by
  refine ⟨?_, OrderedMap.merges_ofList (given ++ more), ?_, ?_⟩
  · rw [recordOf_eq_withFields, withFields_withFields, ← recordOf_eq_withFields]
  · intro s
    exact s.withFields_withFields given more
  · intro s h
    exact withFields_of_not_record given h

/-- The place is that of the first of the fields with the name, the spec that of the last. -/
example : (recordOf [("id", .kind .number), ("name", .kind .string)]).withFields
      [("tag", .any), ("id", .kind .string), ("tag", .kind .boolean)] =
    .record ⟨[("id", .kind .string), ("name", .kind .string), ("tag", .kind .boolean)]⟩ := rfl

/-- An id and a name, of which the id is given once more. -/
def idTwice : List (String × Spec) :=
  [("id", .kind .number), ("name", .kind .string), ("id", .kind .string)]

/-- A tag, and the id again. -/
def tagAndId : List (String × Spec) := [("tag", .kind .boolean), ("id", .any)]

/-- A record can be extended, and so can a spec that is none. -/
theorem withFields_merges_idTwice :
    (recordOf idTwice).withFields tagAndId = recordOf (idTwice ++ tagAndId) ∧
      (recordOf (idTwice ++ tagAndId)).fields.Merges (idTwice ++ tagAndId) ∧
      (∀ fields, kind .table ≠ .record fields) ∧
      (kind .table).withFields idTwice = recordOf idTwice := by
  have hnone : ∀ fields, kind .table ≠ .record fields := fun _ h => nomatch h
  obtain ⟨hextended, hmerges, -, hother⟩ := withFields_merges idTwice tagAndId
  exact ⟨hextended, hmerges, hnone, hother (.kind .table) hnone⟩

end Spec

end Conformance

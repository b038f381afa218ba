import Conformance.Spec.Build
import Conformance.Value.WellFormed

/-!
# Well-formed specs

A record is meant to have different names, and a literal to be a value that can be built.
As with values, the type alone does not say so; this file says it once and shows that the
builders keep to it:

> `Spec.wellFormed_withFields`: a record that is extended by fields, in any number and under
> any names, has different names;
>
> `Spec.wellFormed_orNil`, `Spec.wellFormed_orOneOf`, `Spec.wellFormed_tableOf`: so do the
> other builders keep specs well-formed.
-/

namespace Conformance

namespace Spec

/-- A spec whose records, at every level, have different names, and whose literals are
well-formed values. -/
inductive WellFormed : Spec → Prop where
  | any : WellFormed .any
  | never : WellFormed .never
  | kind (k : Kind) : WellFormed (.kind k)
  | literal {v : Value} (h : v.WellFormed) : WellFormed (.literal v)
  | optional {inner : Spec} (h : WellFormed inner) : WellFormed (.optional inner)
  | union {options : List Spec} (h : ∀ s ∈ options, WellFormed s) : WellFormed (.union options)
  | keyed {key val : Spec} (hkey : WellFormed key) (hval : WellFormed val) :
      WellFormed (.keyed key val)
  | record {fields : OrderedMap String Spec} (distinct : fields.Distinct)
      (h : ∀ f ∈ fields.entries, WellFormed f.2) : WellFormed (.record fields)
  | array {element : Spec} (h : WellFormed element) : WellFormed (.array element)

/-! ## Builders -/

/-- A well-formed spec can be made optional. -/
theorem wellFormed_orNil {s : Spec} (h : s.WellFormed) : s.orNil.WellFormed := by
  cases s with
  | optional inner => exact h
  | _ => exact .optional h

/-- The options of a well-formed spec are well-formed. -/
theorem WellFormed.of_mem_options {s t : Spec} (h : s.WellFormed) (ht : t ∈ s.options) :
    t.WellFormed := by
  cases s with
  | union options =>
    cases h with
    | union hoptions => exact hoptions t ht
  | _ => exact List.mem_singleton.mp ht ▸ h

/-- Literals of well-formed values are well-formed. -/
theorem wellFormed_of_mem_literals {values : List Value} (h : ∀ v ∈ values, v.WellFormed) :
    ∀ s ∈ values.map Spec.literal, s.WellFormed := by
  intro s hs
  obtain ⟨v, hv, rfl⟩ := List.mem_map.mp hs
  exact .literal (h v hv)

theorem wellFormed_oneOf {values : List Value} (h : ∀ v ∈ values, v.WellFormed) :
    (oneOf values).WellFormed :=
  .union (wellFormed_of_mem_literals h)

/-- A well-formed spec can be extended by literals. -/
theorem wellFormed_orOneOf {s : Spec} {values : List Value} (hs : s.WellFormed)
    (h : ∀ v ∈ values, v.WellFormed) : (s.orOneOf values).WellFormed := by
  refine .union ?_
  intro t ht
  rcases List.mem_append.mp ht with hold | hnew
  · exact hs.of_mem_options hold
  · exact wellFormed_of_mem_literals h t hnew

/-- Fields that are inserted one after the other never give a name twice. -/
theorem wellFormed_insertAll {fields : OrderedMap String Spec} {more : List (String × Spec)}
    (hfields : (record fields).WellFormed) (hmore : ∀ f ∈ more, f.2.WellFormed) :
    (record (fields.insertAll more)).WellFormed := by
  induction more generalizing fields with
  | nil => exact hfields
  | cons f rest ih =>
    obtain ⟨hf, hrest⟩ := List.forall_mem_cons.mp hmore
    cases hfields with
    | record distinct hold =>
      refine ih (.record (OrderedMap.distinct_insert distinct f.1 f.2) ?_) hrest
      intro g hg
      rcases OrderedMap.mem_of_mem_entries_insert hg with heq | hmem
      · exact heq ▸ hf
      · exact hold g hmem

theorem wellFormed_record_empty : (record ∅).WellFormed :=
  .record OrderedMap.distinct_empty fun _ hf => absurd hf List.not_mem_nil

/-- Fields can be added to a well-formed spec: a name that is there is not added again. -/
theorem wellFormed_withFields {s : Spec} {more : List (String × Spec)} (hs : s.WellFormed)
    (hmore : ∀ f ∈ more, f.2.WellFormed) : (s.withFields more).WellFormed := by
  refine wellFormed_insertAll ?_ hmore
  cases s with
  | record fields => exact hs
  | _ => exact wellFormed_record_empty

/-- A record of any list of fields is well-formed, also if a name comes twice. -/
theorem wellFormed_recordOf {fields : List (String × Spec)} (h : ∀ f ∈ fields, f.2.WellFormed) :
    (recordOf fields).WellFormed :=
  wellFormed_insertAll wellFormed_record_empty h

/-- A table of well-formed keys and values is well-formed, keyed or plain. -/
theorem wellFormed_tableOf {key val : Spec} (hkey : key.WellFormed) (hval : val.WellFormed) :
    (tableOf key val).WellFormed := by
  rw [tableOf]
  split
  · exact .kind .table
  · exact .keyed hkey hval

end Spec

end Conformance

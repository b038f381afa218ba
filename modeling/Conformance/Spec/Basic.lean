import Conformance.Value.Table

/-!
# Specs

A `Spec` says what a value should be. It is plain data, built once (see
`Conformance.Spec.Build`) and then only read, so one spec serves any number of checks.

Specs are compared by `==`: literals by value, options of a union in order, and the
fields of a record without regard to order.
-/

namespace Conformance

/-- What a value should be. -/
inductive Spec where
  /-- Anything. -/
  | any
  /-- Nothing. -/
  | never
  /-- A value of the kind. -/
  | kind (k : Kind)
  /-- A value equal to this one. -/
  | literal (v : Value)
  /-- Nil, or what the inner spec says. -/
  | optional (inner : Spec)
  /-- What one of the options says; the first that is met in full wins. -/
  | union (options : List Spec)
  /-- A table whose keys and values are all as said. -/
  | keyed (key value : Spec)
  /-- A table whose values at the declared names are as said; others are free. -/
  | record (fields : OrderedMap String Spec)
  /-- A table whose array part has elements as said; the rest is free. -/
  | array (element : Spec)

instance : Inhabited Spec := ⟨.any⟩

namespace Spec

/-- An option is smaller than its union. -/
theorem sizeOf_option_lt {options : List Spec} {s : Spec} (h : s ∈ options) :
    sizeOf s < sizeOf (union options) := by
  have := List.sizeOf_lt_of_mem h
  rw [union.sizeOf_spec]
  omega

/-- The spec of a field is smaller than its record. -/
theorem sizeOf_field_lt {fields : OrderedMap String Spec} {f : String × Spec}
    (h : f ∈ fields.entries) : sizeOf f.2 < sizeOf (record fields) := by
  obtain ⟨entries⟩ := fields
  obtain ⟨name, s⟩ := f
  have := List.sizeOf_lt_of_mem h
  simp only [record.sizeOf_spec, OrderedMap.mk.sizeOf_spec, Prod.mk.sizeOf_spec] at this ⊢
  omega

/-- Induction over specs. The options of a union and the fields of a record are parts of it. -/
@[elab_as_elim, induction_eliminator]
theorem induction {motive : Spec → Prop} (any : motive .any) (never : motive .never)
    (kind : ∀ k, motive (.kind k)) (literal : ∀ v, motive (.literal v))
    (optional : ∀ inner, motive inner → motive (.optional inner))
    (union : ∀ options, (∀ s ∈ options, motive s) → motive (.union options))
    (keyed : ∀ key value, motive key → motive value → motive (.keyed key value))
    (record : ∀ fields, (∀ f ∈ OrderedMap.entries fields, motive f.2) → motive (.record fields))
    (array : ∀ element, motive element → motive (.array element)) (s : Spec) : motive s :=
  have parts (t : Spec) (_ : sizeOf t < sizeOf s) : motive t :=
    induction any never kind literal optional union keyed record array t
  match s with
  | .any => any
  | .never => never
  | .kind k => kind k
  | .literal v => literal v
  | .optional inner => optional inner (parts inner (by simp))
  | .union options => union options fun t ht => parts t (sizeOf_option_lt ht)
  | .keyed k v =>
    keyed k v (parts k (by rw [Spec.keyed.sizeOf_spec]; omega))
      (parts v (by rw [Spec.keyed.sizeOf_spec]; omega))
  | .record fields => record fields fun f hf => parts f.2 (sizeOf_field_lt hf)
  | .array element => array element (parts element (by simp))
termination_by sizeOf s

/-- Whether a spec is `any`. -/
def isAny : Spec → Bool
  | .any => true
  | _ => false

mutual

/-- Structural equality. -/
protected def beq (a b : Spec) : Bool :=
  match a, b with
  | .any, .any => true
  | .never, .never => true
  | .kind k, .kind l => k == l
  | .literal v, .literal w => v == w
  | .optional s, .optional t => Spec.beq s t
  | .union ss, .union ts => beqOptions ss ts
  | .keyed k v, .keyed l w => Spec.beq k l && Spec.beq v w
  | .record ⟨fields⟩, .record gs => fields.length == gs.size && allIn fields gs
  | .array s, .array t => Spec.beq s t
  | _, _ => false
termination_by structural a

/-- Equality option by option. -/
def beqOptions (ss ts : List Spec) : Bool :=
  match ss, ts with
  | [], [] => true
  | s :: ss, t :: ts => Spec.beq s t && beqOptions ss ts
  | _, _ => false
termination_by structural ss

/-- Whether each of the fields is found, with an equal spec, among others. -/
def allIn (fields : List (String × Spec)) (gs : OrderedMap String Spec) : Bool :=
  match fields with
  | [] => true
  | (name, s) :: rest =>
    (match gs.get? name with
      | some t => Spec.beq s t
      | none => false) && allIn rest gs
termination_by structural fields

end

instance : BEq Spec := ⟨Spec.beq⟩

/-- Fields are compared one by one, each with the one of its name. -/
theorem allIn_eq_all (fields : List (String × Spec)) (gs : OrderedMap String Spec) :
    allIn fields gs = fields.all fun f => (gs.get? f.1).any (f.2 == ·) := by
  induction fields with
  | nil => rfl
  | cons f rest ih =>
    rw [allIn, ih, List.all_cons]
    cases gs.get? f.1 <;> rfl

mutual

/-- What a spec asks for, in words. Containers are not spelled out. -/
def description (s : Spec) : String :=
  match s with
  | .any => "any"
  | .never => "never"
  | .kind k => k.name
  | .literal v => v.spelling
  | .optional inner => "optional " ++ description inner
  | .union options => String.intercalate " or " (descriptions options)
  | .keyed _ _ => "table"
  | .record _ => "structural table"
  | .array _ => "array table"
termination_by structural s

/-- The options of a union, each in words. -/
def descriptions (options : List Spec) : List String :=
  match options with
  | [] => []
  | s :: rest => description s :: descriptions rest
termination_by structural options

end

/-- Options are described one by one. -/
theorem descriptions_eq_map (options : List Spec) : descriptions options = options.map description := by
  induction options with
  | nil => rfl
  | cons s rest ih => rw [descriptions, ih, List.map_cons]

end Spec

end Conformance

import Mathlib.Logic.Relation
import Conformance.Spec.Build
import Conformance.Spec.Context

/-!
# Redundant wrappers

An optional spec need not be made optional once more, and a union of one option may as well be
the option. `Spec.Unwraps` takes off one such wrapper, anywhere in a spec, and `Spec.normalize`
takes off all of them, from the inside out. It does not matter in which order they are taken off:

> `Spec.unwrapsTo_isNormal_iff`: what is reached by taking off wrappers until none is left is
> `Spec.normalize`, and nothing else is.
-/

namespace Conformance

namespace Spec

/-! ## Taking off one wrapper -/

/-- Somewhere in the first spec there is a redundant wrapper, which the second is without. -/
inductive Unwraps : Spec → Spec → Prop where
  | twice (inner : Spec) : Unwraps (.optional (.optional inner)) (.optional inner)
  | alone (s : Spec) : Unwraps (.union [s]) s
  | inside {s t : Spec} (frame : Frame) (h : Unwraps s t) :
      Unwraps (frame.around s) (frame.around t)

/-- Any number of wrappers are taken off, one after the other. -/
abbrev UnwrapsTo : Spec → Spec → Prop := Relation.ReflTransGen Unwraps

/-- There is no redundant wrapper left. -/
def IsNormal (s : Spec) : Prop := ∀ t, ¬ s.Unwraps t

/-- Wrappers that are taken off inside a spec are taken off the spec around it. -/
theorem UnwrapsTo.around {s t : Spec} (h : s.UnwrapsTo t) (frame : Frame) :
    (frame.around s).UnwrapsTo (frame.around t) :=
  Relation.ReflTransGen.lift frame.around (fun _ _ hst => Unwraps.inside frame hst) _ _ h

/-- Where wrappers can be taken off one element of a list in a spec, they can be taken off all
of them. -/
theorem unwrapsTo_map {α : Type} {f : List α → Spec} {g : α → α} {as : List α}
    (h : ∀ a ∈ as, ∀ before after,
      UnwrapsTo (f (before ++ a :: after)) (f (before ++ g a :: after))) (before : List α) :
    UnwrapsTo (f (before ++ as)) (f (before ++ as.map g)) := by
  induction as generalizing before with
  | nil => exact .refl
  | cons a rest ih =>
    have hfirst := h a List.mem_cons_self before rest
    have hrest := ih (fun b hb => h b (List.mem_cons_of_mem a hb)) (before ++ [g a])
    rw [List.append_assoc, List.append_assoc] at hrest
    exact hfirst.trans hrest

/-! ## Taking off all of them -/

/-- One of the options, of which a single one stands for itself. -/
def anyOf : List Spec → Spec
  | [s] => s
  | options => .union options

mutual

/-- The spec without redundant wrappers. -/
def normalize (s : Spec) : Spec :=
  match s with
  | .optional inner => (normalize inner).orNil
  | .union options => anyOf (normalizeOptions options)
  | .keyed key val => .keyed (normalize key) (normalize val)
  | .record ⟨fields⟩ => .record ⟨normalizeFields fields⟩
  | .array element => .array (normalize element)
  | s => s
termination_by structural s

/-- The options, each without redundant wrappers. -/
def normalizeOptions (options : List Spec) : List Spec :=
  match options with
  | [] => []
  | s :: rest => normalize s :: normalizeOptions rest
termination_by structural options

/-- The fields, each with its spec without redundant wrappers. -/
def normalizeFields (fields : List (String × Spec)) : List (String × Spec) :=
  match fields with
  | [] => []
  | (name, s) :: rest => (name, normalize s) :: normalizeFields rest
termination_by structural fields

end

/-- Wrappers of both kinds can be in the way of each other. -/
example : (Spec.optional (.union [.union [.optional (.kind .number)]])).normalize =
    .optional (.kind .number) := rfl

theorem normalizeOptions_eq_map (options : List Spec) :
    normalizeOptions options = options.map normalize := by
  induction options with
  | nil => rfl
  | cons s rest ih => rw [normalizeOptions, ih, List.map_cons]

theorem normalizeFields_eq_map (fields : List (String × Spec)) :
    normalizeFields fields = fields.map fun f => (f.1, f.2.normalize) := by
  induction fields with
  | nil => rfl
  | cons f rest ih => rw [normalizeFields, ih, List.map_cons]

/-- An optional spec unwraps to one that is made optional only if it was not yet. -/
theorem unwrapsTo_orNil (s : Spec) : UnwrapsTo (.optional s) s.orNil := by
  cases s with
  | optional inner => exact .single (.twice inner)
  | _ => exact .refl

/-- A union of one option is that option. -/
theorem unwrapsTo_anyOf (options : List Spec) : UnwrapsTo (.union options) (anyOf options) := by
  unfold anyOf
  split
  · next s => exact .single (.alone s)
  · exact .refl

/-- All wrappers can be taken off, from the inside out. -/
theorem unwrapsTo_normalize (s : Spec) : s.UnwrapsTo s.normalize := by
  induction s with
  | optional inner ih => exact (ih.around .optional).trans (unwrapsTo_orNil inner.normalize)
  | union options ih =>
    rw [normalize, normalizeOptions_eq_map]
    have hoptions := unwrapsTo_map (f := .union) (fun s hs before after =>
      (ih s hs).around (.option before after)) []
    exact hoptions.trans (unwrapsTo_anyOf (options.map normalize))
  | keyed key val ihKey ihVal =>
    exact (ihKey.around (.keySide val)).trans (ihVal.around (.valueSide key.normalize))
  | record fields ih =>
    obtain ⟨entries⟩ := fields
    rw [normalize, normalizeFields_eq_map]
    exact unwrapsTo_map (f := fun entries => .record ⟨entries⟩) (fun f hf before after =>
      (ih f hf).around (.field before f.1 after)) []
  | array element ih => exact ih.around .element
  | _ => exact .refl

/-! ## No wrapper is left -/

/-- Whether the outermost wrapper of a spec is redundant. -/
def isWrapped : Spec → Bool
  | .optional (.optional _) => true
  | .union [_] => true
  | _ => false

/-- The wrapper that is taken off is the outermost one, or it is in a part. -/
theorem Unwraps.isWrapped_or_part {s t : Spec} (h : s.Unwraps t) :
    s.isWrapped = true ∨ ∃ p ∈ s.parts, ∃ q, p.Unwraps q := by
  cases h with
  | twice inner => exact .inl rfl
  | alone s => exact .inl rfl
  | @inside p q frame h => exact .inr ⟨p, frame.mem_parts_around p, q, h⟩

/-- A spec that is not wrapped twice is normal when its parts are. -/
theorem isNormal_of_parts {s : Spec} (hs : s.isWrapped = false)
    (hparts : ∀ p ∈ s.parts, p.IsNormal) : s.IsNormal := by
  intro t h
  rcases h.isWrapped_or_part with hwrapped | ⟨p, hp, q, hpq⟩
  · rw [hs] at hwrapped
    exact Bool.false_ne_true hwrapped
  · exact hparts p hp q hpq

/-- The optional form of a normal spec is normal. -/
theorem isNormal_orNil {s : Spec} (h : s.IsNormal) : s.orNil.IsNormal := by
  cases s with
  | optional inner => exact h
  | _ => exact isNormal_of_parts rfl (List.forall_mem_singleton.mpr h)

/-- The union of normal options is normal. -/
theorem isNormal_anyOf {options : List Spec} (h : ∀ s ∈ options, s.IsNormal) :
    (anyOf options).IsNormal := by
  match options with
  | [] => exact isNormal_of_parts rfl h
  | [s] => exact h s (List.mem_singleton_self s)
  | _ :: _ :: _ => exact isNormal_of_parts rfl h

/-- What is normalized is normal. -/
theorem isNormal_normalize (s : Spec) : s.normalize.IsNormal := by
  induction s with
  | optional inner ih => exact isNormal_orNil ih
  | union options ih =>
    rw [normalize, normalizeOptions_eq_map]
    exact isNormal_anyOf (List.forall_mem_map.mpr ih)
  | keyed key val ihKey ihVal =>
    exact isNormal_of_parts rfl
      (List.forall_mem_cons.mpr ⟨ihKey, List.forall_mem_singleton.mpr ihVal⟩)
  | record fields ih =>
    obtain ⟨entries⟩ := fields
    rw [normalize, normalizeFields_eq_map]
    apply isNormal_of_parts rfl
    rw [parts, List.map_map]
    exact List.forall_mem_map.mpr ih
  | array element ih => exact isNormal_of_parts rfl (List.forall_mem_singleton.mpr ih)
  | _ => exact isNormal_of_parts rfl fun _ hp => absurd hp List.not_mem_nil

/-- It does not matter which wrapper is taken off first. -/
theorem Unwraps.normalize_eq {s t : Spec} (h : s.Unwraps t) : s.normalize = t.normalize := by
  induction h with
  | twice inner => exact orNil_orNil inner.normalize
  | alone s => rfl
  | @inside s t frame _ ih =>
    cases frame with
    | option before after =>
      rw [Frame.around, Frame.around, normalize, normalize, normalizeOptions_eq_map,
        normalizeOptions_eq_map, List.map_append, List.map_append, List.map_cons, List.map_cons, ih]
    | field before name after =>
      rw [Frame.around, Frame.around, normalize, normalize, normalizeFields_eq_map,
        normalizeFields_eq_map, List.map_append, List.map_append, List.map_cons, List.map_cons, ih]
    | _ => rw [Frame.around, Frame.around, normalize, normalize, ih]

/-- A wrapping that is taken off makes no difference to the normal form. -/
theorem UnwrapsTo.normalize_eq {s t : Spec} (h : s.UnwrapsTo t) : s.normalize = t.normalize := by
  induction h with
  | refl => rfl
  | tail _ hstep ih => exact ih.trans hstep.normalize_eq

/-- A normal spec is its own normal form. -/
theorem IsNormal.normalize_eq {s : Spec} (h : s.IsNormal) : s.normalize = s := by
  rcases Relation.ReflTransGen.cases_head (unwrapsTo_normalize s) with heq | ⟨t, hstep, -⟩
  · exact heq.symm
  · exact absurd hstep (h t)

/-- Taking off wrappers until none is left leads to one spec, whatever is taken off first. -/
theorem unwrapsTo_isNormal_iff {s t : Spec} : s.UnwrapsTo t ∧ t.IsNormal ↔ t = s.normalize := by
  constructor
  · rintro ⟨hst, ht⟩
    rw [hst.normalize_eq, ht.normalize_eq]
  · rintro rfl
    exact ⟨unwrapsTo_normalize s, isNormal_normalize s⟩

end Spec

end Conformance

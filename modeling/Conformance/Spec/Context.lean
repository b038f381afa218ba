import Conformance.Spec.Basic

/-!
# Specs around a part

A spec may stand in another spec in six ways: in an optional spec, among the options of a union,
on either side of a keyed table, as a field of a record, as the element of an array. Each of them
is a `Spec.Frame`, which is the other spec without the part. A `Spec.Context` is a spec with one
place left open, any number of frames deep.

> `Spec.Frame.mem_parts_around`: what is put into a frame is a part of the spec that comes out.
-/

namespace Conformance

namespace Spec

/-- A spec with one of its parts left out. -/
inductive Frame where
  /-- What an optional spec is about. -/
  | optional
  /-- An option of a union, with the options before and after it. -/
  | option (before after : List Spec)
  /-- The key side of a keyed table, with the value side. -/
  | keySide (val : Spec)
  /-- The value side of a keyed table, with the key side. -/
  | valueSide (key : Spec)
  /-- A field of a record, with the fields before and after it. -/
  | field (before : List (String × Spec)) (name : String) (after : List (String × Spec))
  /-- The element of an array. -/
  | element

/-- The spec that a frame and a part make. -/
def Frame.around : Frame → Spec → Spec
  | .optional, s => .optional s
  | .option before after, s => .union (before ++ s :: after)
  | .keySide val, s => .keyed s val
  | .valueSide key, s => .keyed key s
  | .field before name after, s => .record ⟨before ++ (name, s) :: after⟩
  | .element, s => .array s

/-- A spec with one place left open, as the frames around the place, the outermost first. -/
abbrev Context := List Frame

/-- The spec that has another in the open place. -/
def Context.fill (context : Context) (s : Spec) : Spec := context.foldr Frame.around s

/-- A place can be in any spec that stands in another. -/
example (s t : Spec) : Context.fill [.field [("id", t)] "tags" [], .optional, .element] s =
    .record ⟨[("id", t), ("tags", .optional (.array s))]⟩ := rfl

/-- The specs that stand in a spec, not those that stand in these. -/
def parts : Spec → List Spec
  | .optional inner => [inner]
  | .union options => options
  | .keyed key val => [key, val]
  | .record fields => fields.entries.map Prod.snd
  | .array element => [element]
  | _ => []

/-- What is put into a frame is a part of the spec that comes out. -/
theorem Frame.mem_parts_around (frame : Frame) (s : Spec) : s ∈ (frame.around s).parts := by
  cases frame with
  | optional => exact List.mem_singleton_self s
  | option before after => exact List.mem_append_right before List.mem_cons_self
  | keySide val => exact List.mem_cons_self
  | valueSide key => exact List.mem_cons_of_mem key (List.mem_singleton_self s)
  | field before name after =>
    have hmem : (name, s) ∈ before ++ (name, s) :: after :=
      List.mem_append_right before List.mem_cons_self
    exact List.mem_map.mpr ⟨(name, s), hmem, rfl⟩
  | element => exact List.mem_singleton_self s

end Spec

end Conformance

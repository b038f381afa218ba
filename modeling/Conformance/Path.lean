import Conformance.Key

/-!
# Paths

A path leads from a checked value to a part of it: through the value side of entries,
and last perhaps to the key side of one. It may start with a name for the root.

`Path.location?` puts a path into words. The words grow from left to right; a root name
starts them afresh, and an empty root name says nothing.
-/

namespace Conformance

/-- A step of a path. -/
inductive Segment where
  /-- The root, by a name. -/
  | root (name : String)
  /-- The key of the entry with this key. -/
  | key (k : Key)
  /-- The value of the entry with this key. -/
  | entry (k : Key)

/-- Whether two steps are the same, however their keys are spelled. -/
protected def Segment.beq : Segment → Segment → Bool
  | .root a, .root b => a == b
  | .key k, .key l => k == l
  | .entry k, .entry l => k == l
  | _, _ => false

instance : BEq Segment := ⟨Segment.beq⟩

instance : EquivBEq Segment where
  rfl := by
    intro a
    change a.beq a = true
    cases a <;> simp only [Segment.beq, BEq.rfl]
  symm := by
    intro a b h
    change a.beq b = true at h
    change b.beq a = true
    cases a <;> cases b <;> simp_all only [Segment.beq, Bool.false_eq_true]
    all_goals exact BEq.symm h
  trans := by
    intro a b c hab hbc
    change a.beq b = true at hab
    change b.beq c = true at hbc
    change a.beq c = true
    cases a <;> cases b <;> cases c <;> simp_all only [Segment.beq, Bool.false_eq_true]
    all_goals exact BEq.trans hab hbc

/-- The steps from a root to a part of it. -/
abbrev Path := List Segment

/-- Whether a string can follow a dot: letters, digits and underscores of ASCII, and
at least one of them. -/
def isIdentifier (s : String) : Bool :=
  !s.toList.isEmpty && s.toList.all fun c => c.isAlphanum || c == '_'

namespace Segment

/-- A location that is described so far, one step on. Nothing described yet is the
empty text. -/
def extend (described : String) : Segment → String
  | .root name => name
  | .key k =>
    if described.isEmpty then "key " ++ k.spelling
    else "key " ++ k.spelling ++ " of " ++ described
  | .entry k =>
    if described.isEmpty then "table entry " ++ k.spelling
    else
      match k with
      | .str s =>
        if isIdentifier s then described ++ "." ++ s
        else described ++ "[" ++ k.spelling ++ "]"
      | _ => described ++ "[" ++ k.spelling ++ "]"

end Segment

namespace Path

/-- The words for a location, empty when there are none. -/
def describe (path : Path) : String := path.foldl Segment.extend ""

/-- The words for a location, if there are any. -/
def location? (path : Path) : Option String :=
  let words := describe path
  if words.isEmpty then none else some words

end Path

end Conformance

import Conformance.Proofs.Replacement
import Conformance.Spec.Normal

/-!
# Redundant wrappers are not felt

A spec that is optional twice, or a union of one option, asks for what it would ask for without
the wrapper, and a check against it goes the same way but for one more look from outside:

> `Checker.mismatches_normalize`: a check against a spec and a check against the same spec without
> redundant wrappers find the same parts at the same places, one by one.

Only what is expected of a part may be worded otherwise. Taking off one wrapper changes nothing
(`Spec.Unwraps.interchangeable`): at the wrapper because the value fits with it or without it, and
further up because a part may be replaced by one that finds the same. So does taking off all of
them, in whatever order.
-/

namespace Conformance

/-- The mismatches are about the same part, at the same place. -/
structure Mismatch.SamePlace (m n : Mismatch) : Prop where
  value_eq : m.value = n.value
  path_eq : m.path = n.path

namespace Mismatch.SamePlace

theorem here (v : Value) (s t : Spec) : SamePlace ⟨v, s, []⟩ ⟨v, t, []⟩ := ⟨rfl, rfl⟩

theorem trans (m n o : Mismatch) (hmn : SamePlace m n) (hno : SamePlace n o) : SamePlace m o :=
  ⟨hmn.value_eq.trans hno.value_eq, hmn.path_eq.trans hno.path_eq⟩

theorem stable : Stable SamePlace where
  refl _ := ⟨rfl, rfl⟩
  under h segment := ⟨h.value_eq, congrArg (segment :: ·) h.path_eq⟩

end Mismatch.SamePlace

namespace Spec

open Mismatch (SamePlace)

variable {s t : Spec}

/-- What is optional twice is optional. -/
theorem interchangeable_twice (inner : Spec) :
    Interchangeable SamePlace (.optional (.optional inner)) (.optional inner) := by
  apply Interchangeable.of_fits SamePlace.stable fun v => SamePlace.here v _ _
  · intro v
    show (v.isNil || (v.isNil || inner.fits v)) = (v.isNil || inner.fits v)
    rw [← Bool.or_assoc, Bool.or_self]
  · intro budget v _ hfits
    cases hnil : v.isNil with
    | true =>
      rw [mismatches_optional_of_isNil _ _ hnil, mismatches_optional_of_isNil _ _ hnil]
    | false => exact mismatches_optional budget hnil hfits

/-- A union of one spec is that spec. -/
theorem interchangeable_alone (s : Spec) : Interchangeable SamePlace (.union [s]) s := by
  apply Interchangeable.of_fits SamePlace.stable fun v => SamePlace.here v _ _
  · intro v
    show (s.fits v || false) = s.fits v
    exact Bool.or_false _
  · intro budget v hfits _
    -- of one option, the first that is met and the last are the same
    exact mismatches_union budget hfits

/-- Taking off one wrapper, wherever it is, changes nothing. -/
theorem Unwraps.interchangeable (h : s.Unwraps t) : Interchangeable SamePlace s t := by
  induction h with
  | twice inner => exact interchangeable_twice inner
  | alone s => exact interchangeable_alone s
  | inside frame _ ih => exact ih.around SamePlace.stable frame fun v => SamePlace.here v _ _

/-- Nor does taking off any number of them. -/
theorem UnwrapsTo.interchangeable (h : s.UnwrapsTo t) : Interchangeable SamePlace s t :=
  .of_steps SamePlace.stable SamePlace.trans Unwraps.interchangeable h

end Spec

/-- A check against a spec finds the same parts at the same places, one by one and in the same
order, as a check against the spec that is left when redundant wrappers are taken off anywhere in
it until there are none. -/
theorem Checker.mismatches_normalize (s : Spec) :
    (∀ t, s.UnwrapsTo t ∧ t.IsNormal ↔ t = s.normalize) ∧
      ∀ settings v, List.Forall₂ Mismatch.SamePlace ((Checker.mk s settings).mismatches v)
        ((Checker.mk s.normalize settings).mismatches v) := by
  refine ⟨fun t => Spec.unwrapsTo_isNormal_iff, ?_⟩
  intro settings v
  exact s.unwrapsTo_normalize.interchangeable.checker Mismatch.SamePlace.stable settings v

end Conformance

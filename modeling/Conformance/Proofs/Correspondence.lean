import Mathlib.Data.List.Forall2
import Conformance.Check.Mismatches

/-!
# Corresponding mismatches

Two checks often find the same things up to some relation. How a check goes on depends on
what it has found only by whether that is nothing; so a relation that tells nothing from
something (`RespectsNil`) is carried from the parts to the whole by all the ways in which a
check puts lists of mismatches together:

> `RespectsNil.firstFailure`: the first failure, because the same parts fail;
>
> `RespectsNil.unionMismatches`: a union, because the same options are met;
>
> `Spec.rel_leaf`, `Spec.rel_optional`, `Spec.rel_union`, `Spec.rel_container`: a spec of
> each kind, from its parts, when both values fit or neither does.

The closest such relation is `List.Forall₂ R found found'`: the same findings, one by one
and in the same order, up to a relation between single mismatches. When `R` holds of mismatches
that are the same, and still holds when they are seen from further up, it is `Mismatch.Stable`.
-/

namespace Conformance

/-- A relation between what two checks find that tells nothing from something. -/
structure RespectsNil {γ δ : Type} (P : List γ → List δ → Prop) : Prop where
  nil : P [] []
  eq_nil_iff : ∀ {found found'}, P found found' → (found = [] ↔ found' = [])

namespace RespectsNil

variable {α β γ δ : Type}

/-- Where the same parts fail, the first failures correspond. -/
theorem firstFailure {P : List γ → List δ → Prop} (hP : RespectsNil P) {f : α → List γ}
    {g : β → List δ} {as : List α} {bs : List β}
    (h : List.Forall₂ (fun a b => P (f a) (g b)) as bs) :
    P (firstFailure f as) (firstFailure g bs) := by
  induction h with
  | nil => exact hP.nil
  | @cons a b as bs hab _ ih =>
    by_cases ha : f a = []
    · have hb := (hP.eq_nil_iff hab).mp ha
      rwa [firstFailure_cons_of_eq_nil as ha, firstFailure_cons_of_eq_nil bs hb]
    · have hb := fun hb => ha ((hP.eq_nil_iff hab).mpr hb)
      rwa [firstFailure_cons_of_ne_nil as ha, firstFailure_cons_of_ne_nil bs hb]

/-- Containers that both checks leave alone, or both look into. -/
theorem unlessSpent {P : List γ → List δ → Prop} (hP : RespectsNil P) (budget : Budget)
    {found : List γ} {found' : List δ} (h : P found found') :
    P (if budget.isSpent then [] else found) (if budget.isSpent then [] else found') := by
  split
  · exact hP.nil
  · exact h

/-- Where the same options are met, what the unions report corresponds. -/
theorem unionMismatches {P : List Mismatch → List Mismatch → Prop} (hP : RespectsNil P)
    {options options' : List Spec} {budget budget' : Budget} {v v' : Value}
    (h : List.Forall₂ (fun s t => P (s.mismatches budget v) (t.mismatches budget' v'))
      options options') :
    P (Spec.unionMismatches options budget v) (Spec.unionMismatches options' budget' v') := by
  induction h with
  | nil => exact hP.nil
  | @cons s t rest rest' hst hrest ih =>
    by_cases hs : s.mismatches budget v = []
    · have ht := (hP.eq_nil_iff hst).mp hs
      rw [Spec.unionMismatches_cons_of_eq_nil rest hs, Spec.unionMismatches_cons_of_eq_nil rest' ht]
      exact hP.nil
    · have ht := fun ht => hs ((hP.eq_nil_iff hst).mpr ht)
      cases hrest with
      | nil => exact hst
      | cons _ _ =>
        rwa [Spec.unionMismatches_cons_of_ne_nil _ _ hs, Spec.unionMismatches_cons_of_ne_nil _ _ ht]

end RespectsNil

/-! ## One by one -/

section

variable {α β γ δ : Type} {R : γ → δ → Prop}

/-- Where the one finds nothing the other finds nothing. -/
theorem eq_nil_iff_of_forall₂ {found : List γ} {found' : List δ} (h : List.Forall₂ R found found') :
    found = [] ↔ found' = [] := by
  cases h with
  | nil => simp
  | cons _ _ => simp

theorem respectsNil_forall₂ : RespectsNil (List.Forall₂ R) := ⟨.nil, eq_nil_iff_of_forall₂⟩

theorem firstFailure_forall₂ {f : α → List γ} {g : β → List δ} {as : List α} {bs : List β}
    (h : List.Forall₂ (fun a b => List.Forall₂ R (f a) (g b)) as bs) :
    List.Forall₂ R (firstFailure f as) (firstFailure g bs) :=
  respectsNil_forall₂.firstFailure h

theorem flatMap_forall₂ {f : α → List γ} {g : β → List δ} {as : List α} {bs : List β}
    (h : List.Forall₂ (fun a b => List.Forall₂ R (f a) (g b)) as bs) :
    List.Forall₂ R (as.flatMap f) (bs.flatMap g) := by
  induction h with
  | nil => exact .nil
  | cons hab _ ih =>
    rw [List.flatMap_cons, List.flatMap_cons]
    exact List.rel_append hab ih

end

/-- A relation between mismatches that holds of the same ones, and of two as well when they are
seen from further up. -/
structure Mismatch.Stable (R : Mismatch → Mismatch → Prop) : Prop where
  refl : ∀ m, R m m
  under : ∀ {m n : Mismatch}, R m n → ∀ segment, R (m.under segment) (n.under segment)

namespace Mismatch.Stable

variable {R : Mismatch → Mismatch → Prop}

theorem forall₂_refl (hR : Stable R) (ms : List Mismatch) : List.Forall₂ R ms ms :=
  List.forall₂_same.mpr fun m _ => hR.refl m

theorem forall₂_under (hR : Stable R) {ms ns : List Mismatch} (h : List.Forall₂ R ms ns)
    (segment : Segment) :
    List.Forall₂ R (ms.map (Mismatch.under segment)) (ns.map (Mismatch.under segment)) :=
  List.rel_map (fun m n (hmn : R m n) => hR.under hmn segment) h

/-- What is related stays so when it is seen from further up, whatever the path in between. -/
theorem below (hR : Stable R) {m n : Mismatch} (h : R m n) (path : Path) :
    R (m.below path) (n.below path) := by
  induction path with
  | nil => exact h
  | cons segment rest ih => exact hR.under ih segment

end Mismatch.Stable

/-! ## One law for each kind of spec -/

namespace Spec

variable {P : List Mismatch → List Mismatch → Prop} {budget budget' : Budget} {v v' : Value}

/-- Unions are fitted alike when their options are, one by one. -/
theorem fits_union_of_forall₂ {options options' : List Spec}
    (h : List.Forall₂ (fun s t => s.fits v = t.fits v') options options') :
    (union options).fits v = (union options').fits v' := by
  rw [fits, fits, fitsSome_eq_any, fitsSome_eq_any]
  induction h with
  | nil => rfl
  | cons hst _ ih => rw [List.any_cons, List.any_cons, hst, ih]

/-- A value that does not fit is reported by itself, so only values that fit are to be looked
at. -/
theorem rel_of_fits {s t : Spec} (hhere : P [⟨v, s, []⟩] [⟨v', t, []⟩])
    (hfits : s.fits v = t.fits v')
    (h : s.fits v = true → t.fits v' = true → P (s.mismatches budget v) (t.mismatches budget' v')) :
    P (s.mismatches budget v) (t.mismatches budget' v') := by
  cases hs : s.fits v with
  | true => exact h hs (hfits ▸ hs)
  | false =>
    have ht : t.fits v' = false := hfits ▸ hs
    rw [mismatches_of_not_fits budget hs, mismatches_of_not_fits budget' ht]
    exact hhere

/-- A spec without parts has nothing more to say of a value that fits. -/
theorem rel_leaf {s t : Spec} (hP : RespectsNil P) (hhere : P [⟨v, s, []⟩] [⟨v', t, []⟩])
    (hfits : s.fits v = t.fits v') (hs : s.fits v = true → s.mismatches budget v = [])
    (ht : t.fits v' = true → t.mismatches budget' v' = []) :
    P (s.mismatches budget v) (t.mismatches budget' v') := by
  refine rel_of_fits hhere hfits ?_
  intro hsv htv
  rw [hs hsv, ht htv]
  exact hP.nil

/-- Two optional specs, from the specs inside. -/
theorem rel_optional {inner inner' : Spec} (hP : RespectsNil P)
    (hhere : P [⟨v, .optional inner, []⟩] [⟨v', .optional inner', []⟩])
    (hnil : v.isNil = v'.isNil) (hfits : inner.fits v = inner'.fits v')
    (h : P (inner.mismatches budget v) (inner'.mismatches budget' v')) :
    P ((optional inner).mismatches budget v) ((optional inner').mismatches budget' v') := by
  have hboth : (optional inner).fits v = (optional inner').fits v' := by
    rw [fits, fits, hnil, hfits]
  refine rel_of_fits hhere hboth ?_
  intro hs ht
  cases hv : v.isNil with
  | true =>
    rw [mismatches_optional_of_isNil _ _ hv, mismatches_optional_of_isNil _ _ (hnil ▸ hv)]
    exact hP.nil
  | false =>
    have hv' : v'.isNil = false := hnil ▸ hv
    rw [fits, hv, Bool.false_or] at hs
    rw [fits, hv', Bool.false_or] at ht
    rw [mismatches_optional _ hv hs, mismatches_optional _ hv' ht]
    exact h

/-- Two unions, from their options. -/
theorem rel_union {options options' : List Spec} (hP : RespectsNil P)
    (hhere : P [⟨v, .union options, []⟩] [⟨v', .union options', []⟩])
    (hfits : (union options).fits v = (union options').fits v')
    (h : List.Forall₂ (fun s t => P (s.mismatches budget v) (t.mismatches budget' v'))
      options options') :
    P ((union options).mismatches budget v) ((union options').mismatches budget' v') := by
  refine rel_of_fits hhere hfits ?_
  intro hs ht
  rw [mismatches_union _ hs, mismatches_union _ ht]
  exact hP.unionMismatches h

/-- Specs of containers need only be followed on tables. -/
theorem rel_container {s t : Spec} (hhere : P [⟨v, s, []⟩] [⟨v', t, []⟩])
    (hs : ∀ x, s.fits x = (x.kind == .table)) (ht : ∀ x, t.fits x = (x.kind == .table))
    (hkind : v.kind = v'.kind)
    (h : ∀ u u', v = .table u → v' = .table u' →
      P (s.mismatches budget v) (t.mismatches budget' v')) :
    P (s.mismatches budget v) (t.mismatches budget' v') := by
  have hfits : s.fits v = t.fits v' := by rw [hs, ht, hkind]
  refine rel_of_fits hhere hfits ?_
  intro hsv htv
  rw [hs, beq_iff_eq] at hsv
  rw [ht, beq_iff_eq] at htv
  obtain ⟨u, rfl⟩ := Value.exists_table_of_kind hsv
  obtain ⟨u', rfl⟩ := Value.exists_table_of_kind htv
  exact h u u' rfl rfl

end Spec

end Conformance

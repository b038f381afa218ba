import Mathlib.Logic.Relation
import Conformance.Proofs.Acceptance
import Conformance.Proofs.Correspondence
import Conformance.Spec.Context
import Conformance.Value.WellFormed

/-!
# Replacing a part of a spec

A part of a spec can be replaced by another spec without regard to where it stands. If the other
asks for less, then so does the whole:

> `Checker.mismatches_fill_eq_nil`: when what passes a check against one spec passes it against
> another, then what passes a check against any spec around the one passes it against the same
> spec around the other.

This is not clear from how a check goes. It holds a value against the whole spec before it goes
into the parts, and replacing a part changes that first look too. But what passes is what
satisfies the spec (`Spec.Satisfies`), and there a part is spoken of only as something that is
satisfied, never as something that is not. One frame is one case (`Spec.Entails.around`), and a
context is as many frames as it has.

What is found is carried further up in the same way, if the parts are also fitted by the same
values (`Spec.Interchangeable.around`): then the same options are met and the same entries fail.
-/

namespace Conformance

namespace Spec

/-- A value that satisfies the first spec, however deep it is looked at, satisfies the second. -/
def Entails (s t : Spec) : Prop :=
  ∀ budget v, v.WellFormed → s.Satisfies budget v → t.Satisfies budget v

variable {s t : Spec}

/-- What is in a list with one element taken out is in it with another put in its place. -/
theorem forall_mem_replace {α : Type} {P : α → Prop} {before after : List α} {a b : α}
    (hab : P a → P b) (h : ∀ x ∈ before ++ a :: after, P x) : ∀ x ∈ before ++ b :: after, P x := by
  rw [List.forall_mem_append, List.forall_mem_cons] at h ⊢
  exact ⟨h.1, hab h.2.1, h.2.2⟩

theorem exists_mem_replace {α : Type} {P : α → Prop} {before after : List α} {a b : α}
    (hab : P a → P b) (h : ∃ x ∈ before ++ a :: after, P x) : ∃ x ∈ before ++ b :: after, P x := by
  obtain ⟨x, hx, hP⟩ := h
  rw [List.mem_append, List.mem_cons] at hx
  rcases hx with hbefore | rfl | hafter
  · exact ⟨x, List.mem_append_left _ hbefore, hP⟩
  · exact ⟨b, List.mem_append_right _ List.mem_cons_self, hab hP⟩
  · exact ⟨x, List.mem_append_right _ (List.mem_cons_of_mem _ hafter), hP⟩

/-- Around a part that asks for less there is a spec that asks for less. -/
theorem Entails.around (h : s.Entails t) (frame : Frame) :
    (frame.around s).Entails (frame.around t) := by
  intro budget v hv hs
  cases frame with
  | optional =>
    rw [Frame.around, Satisfies] at hs ⊢
    exact hs.imp_right (h budget v hv)
  | option before after =>
    rw [Frame.around, Satisfies, satisfiesSome_iff] at hs ⊢
    exact exists_mem_replace (h budget v hv) hs
  | keySide val =>
    rw [Frame.around, Satisfies] at hs ⊢
    obtain ⟨u, rfl, hall⟩ := hs
    refine ⟨u, rfl, hall.imp_right ?_⟩
    intro hall e he
    obtain ⟨hkey, hval⟩ := hall e he
    exact ⟨h _ _ e.1.wellFormed_toValue hkey, hval⟩
  | valueSide key =>
    rw [Frame.around, Satisfies] at hs ⊢
    obtain ⟨u, rfl, hall⟩ := hs
    refine ⟨u, rfl, hall.imp_right ?_⟩
    intro hall e he
    obtain ⟨hkey, hval⟩ := hall e he
    exact ⟨hkey, h _ _ (Table.WellFormed.entries hv e he) hval⟩
  | field before name after =>
    rw [Frame.around, Satisfies] at hs ⊢
    obtain ⟨u, rfl, hall⟩ := hs
    refine ⟨u, rfl, hall.imp_right ?_⟩
    rw [satisfiesFields_iff, satisfiesFields_iff]
    -- the value at the name may be nil, which is well-formed too
    exact forall_mem_replace (h _ _ (Table.wellFormed_get hv (.str name)))
  | element =>
    rw [Frame.around, Satisfies] at hs ⊢
    obtain ⟨u, rfl, hall⟩ := hs
    refine ⟨u, rfl, hall.imp_right ?_⟩
    intro hall i hi
    exact h _ _ (Table.wellFormed_get hv (.int i)) (hall i hi)

/-- So there is any number of frames around the part. -/
theorem Entails.fill (h : s.Entails t) (context : Context) :
    (context.fill s).Entails (context.fill t) := by
  induction context with
  | nil => exact h
  | cons frame rest ih => exact ih.around frame

end Spec

namespace Checker

/-- A part of a spec may be replaced by one that what passes the part passes too: what passes
the whole spec then passes the changed one. -/
theorem mismatches_fill_eq_nil {s t : Spec}
    (h : ∀ maxDepth v, v.WellFormed → (Checker.mk s ⟨maxDepth, none⟩).mismatches v = [] →
      (Checker.mk t ⟨maxDepth, none⟩).mismatches v = [])
    (context : Spec.Context) (settings : Settings) {v : Value} (hv : v.WellFormed)
    (hpass : (Checker.mk (context.fill s) settings).mismatches v = []) :
    (Checker.mk (context.fill t) settings).mismatches v = [] := by
  have hentails : s.Entails t := by
    intro budget w hw hs
    have hboth := h budget w hw
    rw [mismatches_eq_nil_iff, mismatches_eq_nil_iff, Spec.mismatches_eq_nil_iff,
      Spec.mismatches_eq_nil_iff] at hboth
    exact hboth hs
  rw [mismatches_eq_nil_iff, Spec.mismatches_eq_nil_iff] at hpass ⊢
  exact hentails.fill context settings.maxDepth v hv hpass

/-- A table without entries, because none may have a value. -/
def withoutValues : Spec := .keyed .any (.kind .nil)

/-- A table without entries, because none may have a key. -/
def withoutKeys : Spec := .keyed .never .any

/-- No entry of a table is nil, so both specs mean the same; of tables that store nil they would
not. -/
theorem mismatches_withoutKeys (maxDepth : Budget) (v : Value) (hv : v.WellFormed)
    (h : (Checker.mk withoutValues ⟨maxDepth, none⟩).mismatches v = []) :
    (Checker.mk withoutKeys ⟨maxDepth, none⟩).mismatches v = [] := by
  rw [mismatches_eq_nil_iff, Spec.mismatches_eq_nil_iff] at h ⊢
  obtain ⟨u, rfl, hall⟩ := h
  refine ⟨u, rfl, hall.imp_right ?_⟩
  intro hall e he
  have hkind : e.2.kind = .nil := Kind.name_injective (hall e he).2
  have hstored := Table.WellFormed.stored hv e he
  cases hvalue : e.2 with
  | nil =>
    rw [hvalue] at hstored
    exact absurd hstored.symm Bool.false_ne_true
  | _ =>
    rw [hvalue] at hkind
    exact nomatch hkind

/-- A number, and under `more` a word or what is put here. -/
def moreOrWord : Spec.Context := [.field [("id", .kind .number)] "more" [], .option [.kind .string] []]

/-- A table of a number and a table without entries. -/
def plainItem : Value :=
  .table (Table.setAll ∅ [(.str "id", .ofInt 1), (.str "more", .table ∅)])

theorem wellFormed_plainItem : plainItem.WellFormed := by
  have hempty : (Value.table ∅).WellFormed := Table.wellFormed_empty
  exact Table.wellFormed_setAll (List.forall_mem_cons.mpr ⟨.scalar (by decide),
    List.forall_mem_singleton.mpr hempty⟩) hempty

/-- An option of a union that is a field of a record may be replaced. -/
theorem mismatches_fill_eq_nil_plainItem :
    (∀ maxDepth v, v.WellFormed → (Checker.mk withoutValues ⟨maxDepth, none⟩).mismatches v = [] →
        (Checker.mk withoutKeys ⟨maxDepth, none⟩).mismatches v = []) ∧
      plainItem.WellFormed ∧
      (Checker.mk (moreOrWord.fill withoutValues) ⟨some 2, some "item"⟩).mismatches plainItem = [] ∧
      (Checker.mk (moreOrWord.fill withoutKeys) ⟨some 2, some "item"⟩).mismatches plainItem = [] := by
  have hpass : (Checker.mk (moreOrWord.fill withoutValues) ⟨some 2, some "item"⟩).mismatches
      plainItem = [] := rfl
  exact ⟨mismatches_withoutKeys, wellFormed_plainItem, hpass,
    mismatches_fill_eq_nil mismatches_withoutKeys moreOrWord ⟨some 2, some "item"⟩
      wellFormed_plainItem hpass⟩

end Checker

/-! ## What is found -/

/-- Lists are related element by element when they differ in one element, and the two there are
related. -/
theorem forall₂_replace {α : Type} {Q : α → α → Prop} (hrefl : ∀ a, Q a a) {a b : α} (h : Q a b)
    (before after : List α) : List.Forall₂ Q (before ++ a :: after) (before ++ b :: after) :=
  List.rel_append (List.forall₂_same.mpr fun x _ => hrefl x)
    (.cons h (List.forall₂_same.mpr fun x _ => hrefl x))

theorem forall₂_trans {α : Type} {Q : α → α → Prop} (htrans : ∀ a b c, Q a b → Q b c → Q a c)
    {as bs cs : List α} (h : List.Forall₂ Q as bs) (h' : List.Forall₂ Q bs cs) :
    List.Forall₂ Q as cs := by
  induction h generalizing cs with
  | nil => exact h'
  | cons hab _ ih =>
    cases h' with
    | cons hbc hrest => exact .cons (htrans _ _ _ hab hbc) (ih hrest)

namespace Spec

/-- The specs are fitted by the same values, and checks against them find the same up to a
relation between single mismatches. -/
structure Interchangeable (R : Mismatch → Mismatch → Prop) (s t : Spec) : Prop where
  fits_eq : ∀ v, s.fits v = t.fits v
  found : ∀ budget v, List.Forall₂ R (s.mismatches budget v) (t.mismatches budget v)

variable {R : Mismatch → Mismatch → Prop} {s t : Spec}

theorem Interchangeable.refl (hR : Mismatch.Stable R) (s : Spec) : Interchangeable R s s :=
  ⟨fun _ => rfl, fun _ _ => hR.forall₂_refl _⟩

/-- Interchangeable specs can be exchanged in turn. -/
theorem Interchangeable.trans (htrans : ∀ m n o, R m n → R n o → R m o) {u : Spec}
    (hst : Interchangeable R s t) (htu : Interchangeable R t u) : Interchangeable R s u where
  fits_eq v := (hst.fits_eq v).trans (htu.fits_eq v)
  found budget v := forall₂_trans htrans (hst.found budget v) (htu.found budget v)

/-- What every step keeps interchangeable, any number of steps keep so. -/
theorem Interchangeable.of_steps (hR : Mismatch.Stable R)
    (htrans : ∀ m n o, R m n → R n o → R m o) {step : Spec → Spec → Prop}
    (hstep : ∀ {s t}, step s t → Interchangeable R s t) (h : Relation.ReflTransGen step s t) :
    Interchangeable R s t := by
  induction h with
  | refl => exact .refl hR s
  | tail _ hlast ih => exact ih.trans htrans (hstep hlast)

/-- Specs are interchangeable that are fitted by the same values and find the same of these, if
what is reported of the others is related. -/
theorem Interchangeable.of_fits (hR : Mismatch.Stable R) (hhere : ∀ v, R ⟨v, s, []⟩ ⟨v, t, []⟩)
    (hfits : ∀ v, s.fits v = t.fits v)
    (h : ∀ budget v, s.fits v = true → t.fits v = true →
      s.mismatches budget v = t.mismatches budget v) : Interchangeable R s t := by
  refine ⟨hfits, ?_⟩
  intro budget v
  refine rel_of_fits (.cons (hhere v) .nil) (hfits v) ?_
  intro hs ht
  rw [h budget v hs ht]
  exact hR.forall₂_refl _

/-- In any frame they are fit by the same values. -/
theorem Interchangeable.fits_around (h : Interchangeable R s t) (frame : Frame) (v : Value) :
    (frame.around s).fits v = (frame.around t).fits v := by
  cases frame with
  | optional =>
    show (v.isNil || s.fits v) = (v.isNil || t.fits v)
    rw [h.fits_eq]
  | option before after =>
    apply fits_union_of_forall₂
    exact forall₂_replace (Q := fun x y => x.fits v = y.fits v) (fun _ => rfl) (h.fits_eq v)
      before after
  | _ => rfl

/-- Around interchangeable parts there are interchangeable specs, if what is reported of them as
a whole is related. -/
theorem Interchangeable.around (hR : Mismatch.Stable R) (h : Interchangeable R s t) (frame : Frame)
    (hhere : ∀ v, R ⟨v, frame.around s, []⟩ ⟨v, frame.around t, []⟩) :
    Interchangeable R (frame.around s) (frame.around t) := by
  have hP : RespectsNil (List.Forall₂ R) := respectsNil_forall₂
  refine ⟨h.fits_around frame, ?_⟩
  intro budget v
  have hreport := List.Forall₂.cons (hhere v) .nil
  have hfits := h.fits_around frame v
  cases frame with
  | optional => exact rel_optional hP hreport rfl (h.fits_eq v) (h.found budget v)
  | option before after =>
    refine rel_union hP hreport hfits ?_
    exact forall₂_replace
      (Q := fun x y => List.Forall₂ R (x.mismatches budget v) (y.mismatches budget v))
      (fun _ => hR.forall₂_refl _) (h.found budget v) before after
  | keySide val =>
    refine rel_container hreport (fun _ => rfl) (fun _ => rfl) rfl ?_
    rintro u _ rfl -
    rw [Frame.around, Frame.around, mismatches_keyed_table, mismatches_keyed_table]
    refine hP.unlessSpent budget (hP.firstFailure ?_)
    rw [List.forall₂_same]
    intro e _
    have hkey := hR.forall₂_under (h.found budget.spend e.1.toValue) (.key e.1)
    exact List.rel_append hkey (hR.forall₂_refl _)
  | valueSide key =>
    refine rel_container hreport (fun _ => rfl) (fun _ => rfl) rfl ?_
    rintro u _ rfl -
    rw [Frame.around, Frame.around, mismatches_keyed_table, mismatches_keyed_table]
    refine hP.unlessSpent budget (hP.firstFailure ?_)
    rw [List.forall₂_same]
    intro e _
    have hval := hR.forall₂_under (h.found budget.spend e.2) (.entry e.1)
    exact List.rel_append (hR.forall₂_refl _) hval
  | field before name after =>
    refine rel_container hreport (fun _ => rfl) (fun _ => rfl) rfl ?_
    rintro u _ rfl -
    rw [Frame.around, Frame.around, mismatches_record_table, mismatches_record_table]
    refine hP.unlessSpent budget (flatMap_forall₂ ?_)
    -- the value that is looked up is the same, because the name is
    have hfield : List.Forall₂ R (fieldMismatches budget.spend u (name, s))
        (fieldMismatches budget.spend u (name, t)) :=
      hR.forall₂_under (h.found budget.spend (Table.get u (.str name))) (.entry (.str name))
    exact forall₂_replace
      (Q := fun f g => List.Forall₂ R (fieldMismatches budget.spend u f)
        (fieldMismatches budget.spend u g))
      (fun _ => hR.forall₂_refl _) hfield before after
  | element =>
    refine rel_container hreport (fun _ => rfl) (fun _ => rfl) rfl ?_
    rintro u _ rfl -
    rw [Frame.around, Frame.around, mismatches_array_table, mismatches_array_table]
    refine hP.unlessSpent budget (hP.firstFailure ?_)
    rw [List.forall₂_same]
    intro e _
    exact hR.forall₂_under (h.found budget.spend e.2) (.entry (.int e.1))

/-- Checkers of interchangeable specs find the same from the root on. -/
theorem Interchangeable.checker (hR : Mismatch.Stable R) (h : Interchangeable R s t)
    (settings : Settings) (v : Value) :
    List.Forall₂ R ((Checker.mk s settings).mismatches v) ((Checker.mk t settings).mismatches v) := by
  rw [Checker.mismatches_eq, Checker.mismatches_eq]
  exact List.rel_map (fun m n (hmn : R m n) => hR.below hmn settings.rootPath)
    (h.found settings.maxDepth v)

end Spec

end Conformance

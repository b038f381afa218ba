import Conformance.Proofs.Unwrapping

/-!
# Tables of anything

A keyed table with any keys and any values is a table, and nothing more is asked of it. The builder
says so at once (`Spec.tableOf`), but a spec may still hold such keyed tables. It makes no
difference whether they are written as what they are:

> `Checker.lines_of_collapsesTo`: when some of the keyed tables of anything in a spec, wherever they
> stand, are replaced by plain tables, every check gives the same lines.

The two are handled apart everywhere: each is held against a value in a way of its own, only the
keyed table is gone into and has its entries looked at, and each is put into words by itself. But no
entry is ever found wrong, and the words come out alike. Both facts carry over to all specs around
the two (`Spec.Interchangeable.around`, `Spec.description_around`).
-/

namespace Conformance

namespace Spec

variable {s t : Spec}

/-! ## Collapsing keyed tables -/

/-- Somewhere in the first spec there is a keyed table of anything, which in the second is a plain
table. -/
inductive Collapses : Spec → Spec → Prop where
  | here : Collapses (.keyed .any .any) (.kind .table)
  | inside {s t : Spec} (frame : Frame) (h : Collapses s t) :
      Collapses (frame.around s) (frame.around t)

/-- Any number of keyed tables of anything are replaced by plain tables. -/
abbrev CollapsesTo : Spec → Spec → Prop := Relation.ReflTransGen Collapses

/-- What is replaced inside a spec is replaced in the spec around it. -/
theorem CollapsesTo.around (h : s.CollapsesTo t) (frame : Frame) :
    (frame.around s).CollapsesTo (frame.around t) :=
  Relation.ReflTransGen.lift frame.around (fun _ _ hst => Collapses.inside frame hst) _ _ h

theorem eq_any_of_isAny (h : s.isAny = true) : s = .any := by
  cases s with
  | any => rfl
  | _ => exact absurd h Bool.false_ne_true

/-- The builder makes what a keyed table collapses to. -/
theorem collapsesTo_tableOf (key val : Spec) : CollapsesTo (.keyed key val) (tableOf key val) := by
  unfold tableOf
  split
  · next h =>
    obtain ⟨hkey, hval⟩ := (Bool.and_eq_true _ _).mp h
    rw [eq_any_of_isAny hkey, eq_any_of_isAny hval]
    exact .single .here
  · exact .refl

/-! ## The words -/

/-- The words for a spec depend on a part of it only through the words for the part. -/
theorem description_around (h : s.description = t.description) (frame : Frame) :
    (frame.around s).description = (frame.around t).description := by
  cases frame with
  | optional =>
    show "optional " ++ s.description = "optional " ++ t.description
    rw [h]
  | option before after =>
    have hwords : descriptions (before ++ s :: after) = descriptions (before ++ t :: after) := by
      simp only [descriptions_eq_map, List.map_append, List.map_cons, h]
    show String.intercalate " or " _ = String.intercalate " or " _
    rw [hwords]
  | _ => rfl

/-- A spec is described the same after it has collapsed. -/
theorem Collapses.description_eq (h : s.Collapses t) : s.description = t.description := by
  induction h with
  | here => rfl
  | inside frame _ ih => exact description_around ih frame

end Spec

/-! ## The checks -/

/-- The mismatches are about the same part, at the same place, and what is expected of it is the
same in words. -/
structure Mismatch.SameWords (m n : Mismatch) : Prop extends SamePlace m n where
  description_eq : m.expected.description = n.expected.description

namespace Mismatch.SameWords

theorem trans (m n o : Mismatch) (hmn : SameWords m n) (hno : SameWords n o) : SameWords m o :=
  ⟨SamePlace.trans m n o hmn.toSamePlace hno.toSamePlace,
    hmn.description_eq.trans hno.description_eq⟩

theorem stable : Stable SameWords where
  refl m := ⟨SamePlace.stable.refl m, rfl⟩
  under h segment := ⟨SamePlace.stable.under h.toSamePlace segment, h.description_eq⟩

/-- Mismatches with the same words make the same line. -/
theorem line_eq {m n : Mismatch} (h : SameWords m n) : m.line = n.line := by
  unfold line
  rw [h.value_eq, h.path_eq, h.description_eq]

end Mismatch.SameWords

namespace Spec

open Mismatch (SamePlace SameWords)

variable {s t : Spec}

/-- No entry of a table is wrong when its key and its value may be anything. -/
theorem mismatches_keyed_any (budget : Budget) (t : Table) :
    (keyed .any .any).mismatches budget (.table t) = [] := by
  rw [mismatches_keyed_table, Budget.ite_isSpent_eq_nil_iff, firstFailure_eq_nil_iff]
  exact .inr fun e _ => rfl

/-- Any keys and any values ask for nothing but a table. -/
theorem interchangeable_keyed_any : Interchangeable SameWords (.keyed .any .any) (.kind .table) := by
  refine .of_fits SameWords.stable (fun v => ⟨SamePlace.here v _ _, rfl⟩) (fun _ => rfl) ?_
  intro budget v _ hfits
  obtain ⟨t, rfl⟩ := Value.exists_table_of_kind (beq_iff_eq.mp hfits)
  exact mismatches_keyed_any budget t

/-- Replacing one keyed table of anything, wherever it is, changes no line. -/
theorem Collapses.interchangeable (h : s.Collapses t) : Interchangeable SameWords s t := by
  induction h with
  | here => exact interchangeable_keyed_any
  | inside frame h ih =>
    have hwords := description_around h.description_eq frame
    exact ih.around SameWords.stable frame fun v => ⟨SamePlace.here v _ _, hwords⟩

/-- Nor does replacing any number of them. -/
theorem CollapsesTo.interchangeable (h : s.CollapsesTo t) : Interchangeable SameWords s t :=
  .of_steps SameWords.stable SameWords.trans Collapses.interchangeable h

end Spec

namespace Checker

/-- When keyed tables of anything are replaced by plain tables anywhere in a spec, a check gives the
same lines, what is accepted in full is the same, and so is what fits from outside. -/
theorem lines_of_collapsesTo {s t : Spec} (h : s.CollapsesTo t) (settings : Settings) (v : Value) :
    (Checker.mk s settings).lines v = (Checker.mk t settings).lines v ∧
      s.accepts v = t.accepts v ∧ s.fits v = t.fits v := by
  have hsame := h.interchangeable
  have hfound := hsame.checker Mismatch.SameWords.stable
  refine ⟨?_, ?_, hsame.fits_eq v⟩
  · unfold lines
    rw [← List.forall₂_eq_eq_eq, List.forall₂_map_left_iff, List.forall₂_map_right_iff]
    apply (hfound settings v).imp
    intro m n hmn
    exact hmn.line_eq
  · unfold Spec.accepts ofSpec
    rw [Bool.eq_iff_iff, List.isEmpty_iff, List.isEmpty_iff]
    exact eq_nil_iff_of_forall₂ (hfound .default v)

/-- A list of rows, and beside it an extra, or a word, or nothing. -/
def sheet (row extra : Spec) : Spec :=
  .record ⟨[("rows", .array row), ("extra", .union [.optional extra, .kind .string])]⟩

/-- A sheet collapses as its rows and its extra do. -/
theorem collapsesTo_sheet {row row' extra extra' : Spec} (hrow : row.CollapsesTo row')
    (hextra : extra.CollapsesTo extra') : (sheet row extra).CollapsesTo (sheet row' extra') := by
  have hrows := (hrow.around .element).around
    (.field [] "rows" [("extra", .union [.optional extra, .kind .string])])
  have hrest := ((hextra.around .optional).around (.option [] [.kind .string])).around
    (.field [("rows", .array row')] "extra" [])
  exact hrows.trans hrest

/-- Two rows, of which the second is a number, and a number for the extra. -/
def numbersForTables : Value :=
  .table (Table.setAll ∅ [(.str "rows", .table (Table.ofList [.table ∅, .ofInt 5])),
    (.str "extra", .ofInt 7)])

/-- The second row and the extra are told of in the same words, whether the tables that should be
there are keyed or plain. -/
theorem lines_of_collapsesTo_sheet :
    (sheet (.keyed .any .any) (.keyed .any .any)).CollapsesTo
        (sheet (.tableOf .any .any) (.tableOf .any .any)) ∧
      (Checker.mk (sheet (.keyed .any .any) (.keyed .any .any)) ⟨some 2, some "sheet"⟩).lines
          numbersForTables =
        ["Unexpected value in sheet.rows[2]. Found: 5 Expected: value of type table",
          "Unexpected value in sheet.extra. Found: 7 Expected: value of type optional table or string"]
        ∧
      (Checker.mk (sheet (.keyed .any .any) (.keyed .any .any)) ⟨some 2, some "sheet"⟩).lines
          numbersForTables =
        (Checker.mk (sheet (.tableOf .any .any) (.tableOf .any .any)) ⟨some 2, some "sheet"⟩).lines
          numbersForTables ∧
      (sheet (.keyed .any .any) (.keyed .any .any)).accepts numbersForTables =
        (sheet (.tableOf .any .any) (.tableOf .any .any)).accepts numbersForTables ∧
      (sheet (.keyed .any .any) (.keyed .any .any)).fits numbersForTables =
        (sheet (.tableOf .any .any) (.tableOf .any .any)).fits numbersForTables := by
  have hbuilt := Spec.collapsesTo_tableOf .any .any
  have hsheet := collapsesTo_sheet hbuilt hbuilt
  exact ⟨hsheet, by decide +kernel, lines_of_collapsesTo hsheet ⟨some 2, some "sheet"⟩ numbersForTables⟩

end Checker

end Conformance

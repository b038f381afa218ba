import Conformance.Proofs.Correspondence
import Conformance.Proofs.Walk
import Conformance.Spec.Equality
import Conformance.Spec.WellFormed
import Conformance.Value.Equality

/-!
# Equal specs find the same

Equal specs may list the fields of a record in other orders, at any depth. A check then
reports in another order, and nothing else changes:

> `Checker.mismatches_upToOrder_of_beq`: checks against equal specs find the same parts at the
> same places, up to order, and expect equal things of them.

The order of what is reported never decides what is reported. Whether an option is met and
whether an entry fails depends on what is found only by whether that is nothing, and lists
that agree up to order are empty together (`respectsNil_upToOrder`).
-/

namespace Conformance

/-- Lists that are the same up to order are empty together. -/
theorem respectsNil_upToOrder {γ δ : Type} {R : γ → δ → Prop} : RespectsNil (UpToOrder R) :=
  ⟨.of_forall₂ .nil, UpToOrder.eq_nil_iff⟩

/-- The mismatches are about the same part, at the same place, and expect equal things of it. -/
structure Mismatch.Alike (m n : Mismatch) : Prop where
  value_eq : m.value = n.value
  path_eq : m.path = n.path
  expected_beq : (m.expected == n.expected) = true

namespace Mismatch.Alike

/-- The same value with equal specs, at the root. -/
theorem here (v : Value) {s t : Spec} (h : (s == t) = true) : Alike ⟨v, s, []⟩ ⟨v, t, []⟩ where
  value_eq := rfl
  path_eq := rfl
  expected_beq := h

/-- Alike mismatches stay alike under a longer path. -/
theorem below {m n : Mismatch} (h : Alike m n) (path : Path) :
    Alike (m.below path) (n.below path) where
  value_eq := h.value_eq
  path_eq := congrArg (path ++ ·) h.path_eq
  expected_beq := h.expected_beq

/-- Alike mismatches stay alike behind one more step. -/
theorem under {m n : Mismatch} (h : Alike m n) (segment : Segment) :
    Alike (m.under segment) (n.under segment) where
  value_eq := h.value_eq
  path_eq := congrArg (segment :: ·) h.path_eq
  expected_beq := h.expected_beq

theorem upToOrder_here (v : Value) {s t : Spec} (h : (s == t) = true) :
    UpToOrder Alike [⟨v, s, []⟩] [⟨v, t, []⟩] :=
  .of_forall₂ (.cons (here v h) .nil)

/-- Findings that are alike up to their order stay so when they are seen from further up. -/
theorem upToOrder_under {ms ns : List Mismatch} (h : UpToOrder Alike ms ns) (segment : Segment) :
    UpToOrder Alike (ms.map (Mismatch.under segment)) (ns.map (Mismatch.under segment)) := by
  apply h.map
  intro m n hmn
  exact hmn.under segment

end Mismatch.Alike

namespace Spec

open Mismatch (Alike)

/-- Equal specs are fitted by the same values. -/
theorem fits_of_beq {s t : Spec} (hs : s.WellFormed) (h : (s == t) = true) (v : Value) :
    s.fits v = t.fits v := by
  induction hs generalizing t with
  | any =>
    obtain rfl := eq_any_of_beq h
    rfl
  | never =>
    obtain rfl := eq_never_of_beq h
    rfl
  | kind k =>
    obtain rfl := eq_kind_of_beq h
    rfl
  | @literal l hl =>
    obtain ⟨l', rfl, hll'⟩ := exists_literal_of_beq h
    have hl'l := Value.beq_symm hl hll'
    show (v == l) = (v == l')
    rw [Bool.eq_iff_iff]
    exact ⟨fun hvl => Value.beq_trans hvl hll', fun hvl' => Value.beq_trans hvl' hl'l⟩
  | optional _ ih =>
    obtain ⟨inner', rfl, hinner⟩ := exists_optional_of_beq h
    rw [fits, fits, ih hinner]
  | union _ ih =>
    obtain ⟨options', rfl, hoptions⟩ := exists_union_of_beq h
    apply fits_union_of_forall₂
    apply forall₂_imp_of_mem hoptions
    intro s hs t hst
    exact ih s hs hst
  | keyed =>
    obtain ⟨key', val', rfl, -⟩ := exists_keyed_of_beq h
    rfl
  | record distinct =>
    obtain ⟨fields', rfl, -⟩ := exists_record_of_beq distinct h
    rfl
  | array =>
    obtain ⟨element', rfl, -⟩ := exists_array_of_beq h
    rfl

/-- What is found against equal specs agrees up to order. -/
theorem mismatches_of_beq {s t : Spec} (hs : s.WellFormed) (h : (s == t) = true) (budget : Budget)
    (v : Value) : UpToOrder Alike (s.mismatches budget v) (t.mismatches budget v) := by
  have hP : RespectsNil (UpToOrder Alike) := respectsNil_upToOrder
  induction hs generalizing t budget v with
  | any =>
    obtain rfl := eq_any_of_beq h
    exact hP.nil
  | never =>
    obtain rfl := eq_never_of_beq h
    exact Alike.upToOrder_here v h
  | kind k =>
    obtain rfl := eq_kind_of_beq h
    exact rel_leaf hP (Alike.upToOrder_here v h) rfl mismatches_kind_of_fits mismatches_kind_of_fits
  | literal hl =>
    have hfits := fits_of_beq (.literal hl) h v
    obtain ⟨l', rfl, -⟩ := exists_literal_of_beq h
    exact rel_leaf hP (Alike.upToOrder_here v h) hfits mismatches_literal_of_fits
      mismatches_literal_of_fits
  | optional hs ih =>
    obtain ⟨inner', rfl, hinner⟩ := exists_optional_of_beq h
    have hfits := fits_of_beq hs hinner v
    exact rel_optional hP (Alike.upToOrder_here v h) rfl hfits (ih hinner budget v)
  | union hs ih =>
    have hfits := fits_of_beq (.union hs) h v
    obtain ⟨options', rfl, hoptions⟩ := exists_union_of_beq h
    refine rel_union hP (Alike.upToOrder_here v h) hfits ?_
    apply forall₂_imp_of_mem hoptions
    intro s hs t hst
    exact ih s hs hst budget v
  | keyed _ _ ihKey ihVal =>
    obtain ⟨key', val', rfl, hkey, hval⟩ := exists_keyed_of_beq h
    refine rel_container (Alike.upToOrder_here v h) (fun _ => rfl) (fun _ => rfl) rfl ?_
    rintro t _ rfl -
    rw [mismatches_keyed_table, mismatches_keyed_table]
    refine hP.unlessSpent budget (hP.firstFailure ?_)
    rw [List.forall₂_same]
    intro e _
    have hofKey := Alike.upToOrder_under (ihKey hkey budget.spend e.1.toValue) (.key e.1)
    have hofVal := Alike.upToOrder_under (ihVal hval budget.spend e.2) (.entry e.1)
    exact hofKey.append hofVal
  | record distinct _ ih =>
    obtain ⟨fields', rfl, hfields⟩ := exists_record_of_beq distinct h
    refine rel_container (Alike.upToOrder_here v h) (fun _ => rfl) (fun _ => rfl) rfl ?_
    rintro t _ rfl -
    rw [mismatches_record_table, mismatches_record_table]
    refine hP.unlessSpent budget (UpToOrder.flatMap ?_)
    apply hfields.imp_of_mem
    intro f hf g hfg
    -- fields that are paired have one name, so the same value is held against both
    have hname : f.1 = g.1 := beq_iff_eq.mp hfg.1
    have hfound := ih f hf hfg.2 budget.spend (Table.get t (.str f.1))
    rw [fieldMismatches, fieldMismatches, ← hname]
    exact Alike.upToOrder_under hfound (.entry (.str f.1))
  | array _ ih =>
    obtain ⟨element', rfl, helement⟩ := exists_array_of_beq h
    refine rel_container (Alike.upToOrder_here v h) (fun _ => rfl) (fun _ => rfl) rfl ?_
    rintro t _ rfl -
    rw [mismatches_array_table, mismatches_array_table]
    refine hP.unlessSpent budget (hP.firstFailure ?_)
    rw [List.forall₂_same]
    intro e _
    exact Alike.upToOrder_under (ih helement budget.spend e.2) (.entry (.int e.1))

end Spec

namespace Checker

/-- Checkers with equal specs and the same settings find the same up to order, and so either
both find something or neither does. -/
theorem mismatches_upToOrder_of_beq {s t : Spec} (hs : s.WellFormed) (h : (s == t) = true)
    (settings : Settings) (v : Value) :
    UpToOrder Mismatch.Alike ((Checker.mk s settings).mismatches v)
        ((Checker.mk t settings).mismatches v) ∧
      ((Checker.mk s settings).mismatches v = [] ↔ (Checker.mk t settings).mismatches v = []) := by
  have hfound : UpToOrder Mismatch.Alike ((Checker.mk s settings).mismatches v)
      ((Checker.mk t settings).mismatches v) := by
    rw [mismatches_eq, mismatches_eq]
    apply (Spec.mismatches_of_beq hs h settings.maxDepth v).map
    intro m n hmn
    exact hmn.below settings.rootPath
  exact ⟨hfound, hfound.eq_nil_iff⟩

/-- A string, or a record of the fields. -/
def stringOr (fields : List (String × Spec)) : Spec := .union [.kind .string, .recordOf fields]

/-- The fields of a point, one of them required to be a number. -/
def pointFields : List (String × Spec) := [("x", .kind .number), ("y", .literal (.boolean true))]

theorem wellFormed_stringOr_pointFields : (stringOr pointFields).WellFormed := by
  refine .union (List.forall_mem_cons.mpr ⟨.kind .string, List.forall_mem_singleton.mpr ?_⟩)
  apply Spec.wellFormed_recordOf
  exact List.forall_mem_cons.mpr ⟨.kind .number,
    List.forall_mem_singleton.mpr (.literal (.scalar (by decide)))⟩

/-- A table without the fields fails in both under either order of them, and the records come in
that order. -/
theorem mismatches_upToOrder_stringOr :
    (stringOr pointFields).WellFormed ∧
      (Checker.ofSpec (stringOr pointFields)).mismatches (.table ∅) =
        [⟨.nil, .kind .number, [.entry (.str "x")]⟩,
          ⟨.nil, .literal (.boolean true), [.entry (.str "y")]⟩] ∧
      (Checker.ofSpec (stringOr pointFields.reverse)).mismatches (.table ∅) =
        [⟨.nil, .literal (.boolean true), [.entry (.str "y")]⟩,
          ⟨.nil, .kind .number, [.entry (.str "x")]⟩] ∧
      (stringOr pointFields == stringOr pointFields.reverse) = true ∧
      UpToOrder Mismatch.Alike ((Checker.ofSpec (stringOr pointFields)).mismatches (.table ∅))
        ((Checker.ofSpec (stringOr pointFields.reverse)).mismatches (.table ∅)) ∧
      ((Checker.ofSpec (stringOr pointFields)).mismatches (.table ∅) = [] ↔
        (Checker.ofSpec (stringOr pointFields.reverse)).mismatches (.table ∅) = []) :=
  ⟨wellFormed_stringOr_pointFields, rfl, rfl, by decide,
    mismatches_upToOrder_of_beq wellFormed_stringOr_pointFields (by decide) .default (.table ∅)⟩

end Checker

end Conformance

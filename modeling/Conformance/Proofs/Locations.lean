import Conformance.Proofs.Walk
import Conformance.Spec.WellFormed

/-!
# No location is reported twice

Two mismatches are apart when neither is at the location of the other or below it. Main
statement:

> `Checker.mismatches_pairwise_apart`: all that a checker finds is apart from each other.

A node that does not fit is reported alone, and one that fits reports what is wrong with
its parts. Parts that are reported on together lie behind different segments: the key and
the value of one entry, and the fields of a record, which have different names. Of a union
only one option is reported on, and it is about the same part as the others.
-/

namespace Conformance

/-- Neither path leads to a part on the way of the other, however the keys are spelled. -/
def Path.Incomparable (p q : Path) : Prop := p.isPrefixOf q = false ∧ q.isPrefixOf p = false

namespace Path

theorem incomparable_cons {p q : Path} (h : p.Incomparable q) (segment : Segment) :
    Incomparable (segment :: p) (segment :: q) := by
  rw [Incomparable, List.isPrefixOf_cons_cons, List.isPrefixOf_cons_cons, h.1, h.2, Bool.and_false]
  exact ⟨rfl, rfl⟩

/-- Paths that go apart do so below any other path. -/
theorem incomparable_append {p q : Path} (h : p.Incomparable q) (path : Path) :
    Incomparable (path ++ p) (path ++ q) := by
  induction path with
  | nil => exact h
  | cons segment rest ih => exact incomparable_cons ih segment

/-- Paths that start with different steps part at once. -/
theorem incomparable_of_head {a b : Segment} (h : (a == b) = false) (p q : Path) :
    Incomparable (a :: p) (b :: q) := by
  have hsymm : (b == a) = false := by rw [BEq.comm, h]
  rw [Incomparable, List.isPrefixOf_cons_cons, List.isPrefixOf_cons_cons, h, hsymm]
  exact ⟨rfl, rfl⟩

theorem isPrefixOf_append (p rest : Path) : p.isPrefixOf (p ++ rest) = true := by
  induction p with
  | nil => rfl
  | cons segment p ih =>
    rw [List.cons_append, List.isPrefixOf_cons_cons, ih, BEq.rfl, Bool.and_true]

/-- Neither path is the other one, with or without more steps. -/
theorem Incomparable.ne_append {p q : Path} (h : p.Incomparable q) (rest : Path) :
    q ≠ p ++ rest ∧ p ≠ q ++ rest := by
  constructor
  · rintro rfl
    exact absurd h.1 (ne_false_of_eq_true (isPrefixOf_append p rest))
  · rintro rfl
    exact absurd h.2 (ne_false_of_eq_true (isPrefixOf_append q rest))

end Path

/-- Neither mismatch is at the location of the other or below it. -/
def Mismatch.Apart (m n : Mismatch) : Prop := m.path.Incomparable n.path

namespace Mismatch

theorem pairwise_apart_under {ms : List Mismatch} (h : ms.Pairwise Apart) (segment : Segment) :
    (ms.map (under segment)).Pairwise Apart := by
  rw [List.pairwise_map]
  apply h.imp
  intro m n hmn
  exact Path.incomparable_cons hmn segment

/-- What lies behind different segments is apart. -/
theorem apart_of_mem_under {a b : Segment} (hab : (a == b) = false) {ms ns : List Mismatch}
    {m n : Mismatch} (hm : m ∈ ms.map (under a)) (hn : n ∈ ns.map (under b)) : Apart m n := by
  obtain ⟨m', -, rfl⟩ := List.mem_map.mp hm
  obtain ⟨n', -, rfl⟩ := List.mem_map.mp hn
  exact Path.incomparable_of_head hab m'.path n'.path

end Mismatch

/-- The findings of a first failure are all of one part, and so related as those are. -/
theorem pairwise_firstFailure {α β : Type} {R : β → β → Prop} {f : α → List β} {as : List α}
    (h : ∀ a ∈ as, (f a).Pairwise R) : (firstFailure f as).Pairwise R := by
  rcases firstFailure_cases f as with hall | ⟨before, a, after, rfl, hbefore, ha⟩
  · rw [firstFailure_eq_nil_iff.mpr hall]
    exact .nil
  · rw [firstFailure_append hbefore ha]
    exact h a (List.mem_append_right _ List.mem_cons_self)

theorem Budget.pairwise_ite_isSpent {budget : Budget} {found : List Mismatch}
    (h : found.Pairwise Mismatch.Apart) :
    (if budget.isSpent then [] else found).Pairwise Mismatch.Apart := by
  split
  · exact .nil
  · exact h

namespace Spec

open Mismatch (Apart)

/-- A value that does not fit is one mismatch, so only one that fits is to be looked at. -/
theorem pairwise_apart_of_fits {s : Spec} {budget : Budget} {v : Value}
    (h : s.fits v = true → (s.mismatches budget v).Pairwise Apart) :
    (s.mismatches budget v).Pairwise Apart := by
  cases hfits : s.fits v with
  | true => exact h hfits
  | false =>
    rw [mismatches_of_not_fits budget hfits]
    exact List.pairwise_singleton _ _

/-- A spec that only tables fit finds parts that lie apart if it does so in tables. -/
theorem pairwise_apart_of_tables {s : Spec} {budget : Budget}
    (hs : ∀ v, s.fits v = (v.kind == .table))
    (h : ∀ t, (s.mismatches budget (.table t)).Pairwise Apart) (v : Value) :
    (s.mismatches budget v).Pairwise Apart := by
  refine pairwise_apart_of_fits ?_
  intro hfits
  rw [hs, beq_iff_eq] at hfits
  obtain ⟨t, rfl⟩ := Value.exists_table_of_kind hfits
  exact h t

/-- All that is wrong with a value is apart from each other. -/
theorem mismatches_pairwise {s : Spec} (hs : s.WellFormed) (budget : Budget) (v : Value) :
    (s.mismatches budget v).Pairwise Apart := by
  induction hs generalizing budget v with
  | any => exact .nil
  | never => exact List.pairwise_singleton _ _
  | kind k =>
    refine pairwise_apart_of_fits ?_
    intro hfits
    rw [mismatches_kind_of_fits hfits]
    exact .nil
  | literal =>
    refine pairwise_apart_of_fits ?_
    intro hfits
    rw [mismatches_literal_of_fits hfits]
    exact .nil
  | optional _ ih =>
    refine pairwise_apart_of_fits ?_
    intro hfits
    cases hnil : v.isNil with
    | true =>
      rw [mismatches_optional_of_isNil _ _ hnil]
      exact .nil
    | false =>
      rw [fits, hnil, Bool.false_or] at hfits
      rw [mismatches_optional _ hnil hfits]
      exact ih budget v
  | @union options _ ih =>
    refine pairwise_apart_of_fits ?_
    intro hfits
    rw [mismatches_union _ hfits]
    rcases unionMismatches_eq_nil_or_last options budget v with hnil | ⟨s, hlast, heq⟩
    · rw [hnil]
      exact .nil
    · rw [heq]
      exact ih s (List.mem_of_getLast? hlast) budget v
  | keyed _ _ ihKey ihVal =>
    refine pairwise_apart_of_tables (fun _ => rfl) ?_ v
    intro t
    rw [mismatches_keyed_table]
    refine Budget.pairwise_ite_isSpent (pairwise_firstFailure ?_)
    intro e _
    have hofKey := Mismatch.pairwise_apart_under (ihKey budget.spend e.1.toValue) (.key e.1)
    have hofVal := Mismatch.pairwise_apart_under (ihVal budget.spend e.2) (.entry e.1)
    refine List.pairwise_append.mpr ⟨hofKey, hofVal, ?_⟩
    intro m hm n hn
    exact Mismatch.apart_of_mem_under rfl hm hn
  | record distinct _ ih =>
    refine pairwise_apart_of_tables (fun _ => rfl) ?_ v
    intro t
    rw [mismatches_record_table]
    refine Budget.pairwise_ite_isSpent (List.pairwise_flatMap.mpr ⟨?_, ?_⟩)
    · intro f hf
      exact Mismatch.pairwise_apart_under (ih f hf budget.spend _) (.entry (.str f.1))
    · apply distinct.imp
      intro f g hfg m hm n hn
      exact Mismatch.apart_of_mem_under hfg hm hn
  | array _ ih =>
    refine pairwise_apart_of_tables (fun _ => rfl) ?_ v
    intro t
    rw [mismatches_array_table]
    refine Budget.pairwise_ite_isSpent (pairwise_firstFailure ?_)
    intro e _
    exact Mismatch.pairwise_apart_under (ih budget.spend e.2) (.entry (.int e.1))

end Spec

namespace Checker

/-- Of any two mismatches that a checker finds, neither is at the location of the other or
below it. -/
theorem mismatches_pairwise_apart (c : Checker) (hs : c.spec.WellFormed) (v : Value) :
    (c.mismatches v).Pairwise fun m n => m.path.Incomparable n.path := by
  rw [mismatches_eq, List.pairwise_map]
  apply (Spec.mismatches_pairwise hs c.settings.maxDepth v).imp
  intro m n hmn
  exact Path.incomparable_append hmn c.settings.rootPath

/-- A record of a table of numbers by strings, and of a field that may not be. -/
def tableAndNothing : Checker :=
  .ofSpec (.recordOf [("sizes", .keyed (.kind .string) (.kind .number)), ("gone", .never)])

theorem wellFormed_tableAndNothing : tableAndNothing.spec.WellFormed :=
  Spec.wellFormed_recordOf (List.forall_mem_cons.mpr
    ⟨.keyed (.kind .string) (.kind .number), List.forall_mem_singleton.mpr .never⟩)

/-- A table whose one entry is wrong in its key and in its value. -/
def flaggedSizes : Value :=
  .table (Table.set ∅ (.str "sizes") (.table (Table.set ∅ (.bool true) (.boolean true))))

/-- The key, the value and the other field are reported, each at a location of its own. -/
theorem mismatches_pairwise_apart_flaggedSizes :
    tableAndNothing.spec.WellFormed ∧ (tableAndNothing.mismatches flaggedSizes).length = 3 ∧
      (tableAndNothing.mismatches flaggedSizes).Pairwise fun m n => m.path.Incomparable n.path :=
  ⟨wellFormed_tableAndNothing, rfl,
    mismatches_pairwise_apart tableAndNothing wellFormed_tableAndNothing flaggedSizes⟩

end Checker

end Conformance

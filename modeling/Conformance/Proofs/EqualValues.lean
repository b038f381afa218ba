import Conformance.Proofs.Acceptance
import Conformance.Value.Equality

/-!
# Equal values pass the same checks

A check looks into a table in three ways: it goes through the entries in their order, it
looks up declared names, and it counts up from 1. None of them tells equal tables apart,
and so a verdict depends on a value only up to equality:

> `Checker.mismatches_eq_nil_iff_of_beq`: nothing is wrong with a value exactly when nothing
> is wrong with a value equal to it.

What is reported may well differ, as the first failing entry depends on the order. So the
argument goes through what it means to pass, `Spec.Satisfies`, which knows no order.

One case is odd. The key of an entry is checked as a value; where two tables have a key in
common that is not-a-number, the two values are not equal. They are then the same value
(`Key.toValue_eq_or_beq`), which does as well.
-/

namespace Conformance

/-- The array parts of equal tables reach equally far. -/
theorem Table.inRun_of_beq {t u : Table} (ht : Table.WellFormed t)
    (h : (Value.table t == Value.table u) = true) {i : Int} (hi : t.InRun i) : u.InRun i := by
  refine ⟨hi.1, ?_⟩
  intro j hj hji
  rw [← isSome_get?_of_beq ht h]
  exact hi.2 j hj hji

namespace Spec

/-- A value equal to one that satisfies a spec satisfies it too. -/
theorem Satisfies.of_beq {s : Spec} {budget : Budget} {v w : Value} (hv : v.WellFormed)
    (hw : w.WellFormed) (h : (v == w) = true) (hs : s.Satisfies budget v) :
    s.Satisfies budget w := by
  induction s generalizing budget v w with
  | any => exact hs
  | never => exact hs
  | kind k =>
    rw [Satisfies] at hs ⊢
    rw [← Value.kind_eq_of_beq h]
    exact hs
  | literal l =>
    rw [Satisfies] at hs ⊢
    exact Value.beq_trans (Value.beq_symm hv h) hs
  | optional inner ih =>
    rw [Satisfies] at hs ⊢
    rcases hs with rfl | hinner
    · exact .inl (Value.eq_nil_of_beq h)
    · exact .inr (ih hv hw h hinner)
  | union options ih =>
    rw [Satisfies, satisfiesSome_iff] at hs ⊢
    obtain ⟨s, hs, hoption⟩ := hs
    exact ⟨s, hs, ih s hs hv hw h hoption⟩
  | keyed key val ihKey ihVal =>
    rw [Satisfies] at hs ⊢
    obtain ⟨t, rfl, hall⟩ := hs
    obtain ⟨u, rfl⟩ := Value.exists_table_of_beq h
    refine ⟨u, rfl, hall.imp_right ?_⟩
    intro hall f hf
    -- each entry of the second table is there for one of the first
    obtain ⟨e, he, hkey, hval⟩ := (Table.upToOrder_of_beq hv h).symm.exists_of_mem hf
    obtain ⟨hsKey, hsVal⟩ := hall e he
    constructor
    · rcases Key.toValue_eq_or_beq hkey with heq | hbeq
      · exact heq ▸ hsKey
      · exact ihKey e.1.wellFormed_toValue f.1.wellFormed_toValue hbeq hsKey
    · exact ihVal (Table.WellFormed.entries hv e he) (Table.WellFormed.entries hw f hf) hval hsVal
  | record fields ih =>
    rw [Satisfies] at hs ⊢
    obtain ⟨t, rfl, hall⟩ := hs
    obtain ⟨u, rfl⟩ := Value.exists_table_of_beq h
    refine ⟨u, rfl, hall.imp_right ?_⟩
    rw [satisfiesFields_iff, satisfiesFields_iff]
    intro hall f hf
    exact ih f hf (Table.wellFormed_get hv _) (Table.wellFormed_get hw _) (Table.get_beq hv h _)
      (hall f hf)
  | array element ih =>
    rw [Satisfies] at hs ⊢
    obtain ⟨t, rfl, hall⟩ := hs
    obtain ⟨u, rfl⟩ := Value.exists_table_of_beq h
    refine ⟨u, rfl, hall.imp_right ?_⟩
    intro hall i hi
    have hback := Value.beq_symm hv h
    exact ih (Table.wellFormed_get hv _) (Table.wellFormed_get hw _) (Table.get_beq hv h _)
      (hall i (Table.inRun_of_beq hw hback hi))

/-- Equal values meet the same specs. -/
theorem satisfies_iff_of_beq {s : Spec} {budget : Budget} {v w : Value} (hv : v.WellFormed)
    (hw : w.WellFormed) (h : (v == w) = true) :
    s.Satisfies budget v ↔ s.Satisfies budget w :=
  ⟨.of_beq hv hw h, .of_beq hw hv (Value.beq_symm hv h)⟩

end Spec

namespace Checker

/-- A checker cannot tell equal values apart by whether anything is wrong with them. -/
theorem mismatches_eq_nil_iff_of_beq (c : Checker) {v w : Value} (hv : v.WellFormed)
    (hw : w.WellFormed) (h : (v == w) = true) : c.mismatches v = [] ↔ c.mismatches w = [] := by
  rw [mismatches_eq, mismatches_eq, List.map_eq_nil_iff, List.map_eq_nil_iff,
    Spec.mismatches_eq_nil_iff, Spec.mismatches_eq_nil_iff]
  exact Spec.satisfies_iff_of_beq hv hw h

/-- A zero, of either sign. -/
def zero (negative : Bool) : Value := .number (.finite negative .zero)

/-- A table with an entry at not-a-number, and then a zero. -/
def zeroLast : Value :=
  .table (Table.setAll ∅ [(.float .nan, .boolean true), (.str "x", zero false)])

/-- The same entries the other way round, with the zero negative. -/
def zeroFirst : Value :=
  .table (Table.setAll ∅ [(.str "x", zero true), (.float .nan, .boolean true)])

theorem wellFormed_zeroLast : zeroLast.WellFormed :=
  Table.wellFormed_setAll (List.forall_mem_cons.mpr ⟨.scalar (by decide),
    List.forall_mem_singleton.mpr (.scalar (by decide))⟩) Table.wellFormed_empty

theorem wellFormed_zeroFirst : zeroFirst.WellFormed :=
  Table.wellFormed_setAll (List.forall_mem_cons.mpr ⟨.scalar (by decide),
    List.forall_mem_singleton.mpr (.scalar (by decide))⟩) Table.wellFormed_empty

/-- Numbers or strings for keys, and a zero or a truth value at each. -/
def zeroOrFlag : Checker :=
  .ofSpec (.keyed (.union [.kind .number, .kind .string])
    (.union [.literal (zero false), .kind .boolean]))

/-- Neither the order of the entries nor the sign of a zero is seen, and a key that is
not-a-number is no obstacle. -/
theorem mismatches_eq_nil_iff_zero : zeroLast.WellFormed ∧ zeroFirst.WellFormed ∧
    (zeroLast == zeroFirst) = true ∧
      (zeroOrFlag.mismatches zeroLast = [] ↔ zeroOrFlag.mismatches zeroFirst = []) :=
  ⟨wellFormed_zeroLast, wellFormed_zeroFirst, by decide,
    mismatches_eq_nil_iff_of_beq zeroOrFlag wellFormed_zeroLast wellFormed_zeroFirst (by decide)⟩

end Checker

end Conformance

import Conformance.Proofs.ArrayPart
import Conformance.Proofs.Walk

/-!
# What it means to pass a check

`Spec.Satisfies` is the meaning of a spec: it says of a value whether it is as the spec
says, with no order of checking, no shallow test before a deep one and no early end. A
check passes when this holds, and only then:

> `Checker.mismatches_eq_nil_iff_satisfies`: a checker finds nothing wrong with a value
> exactly when the value satisfies the spec as far as the limit reaches.

The shallow test never stands in the way of a value that satisfies the spec, because what
has no mismatch fits (`Spec.fits_of_mismatches_eq_nil`).
-/

namespace Conformance

/-- Different kinds have different names. -/
theorem Kind.name_injective {k l : Kind} (h : k.name = l.name) : k = l := by
  cases k <;> cases l <;> simp_all [name]

namespace Spec

/-! ## Meaning -/

mutual

/-- A value is as a spec says, looked at as deep as the budget allows. -/
def Satisfies (s : Spec) (budget : Budget) (value : Value) : Prop :=
  match s with
  | .any => True
  | .never => False
  | .kind k => value.kind.name = k.name
  | .literal v => (value == v) = true
  | .optional inner => value = .nil ∨ Satisfies inner budget value
  | .union options => SatisfiesSome options budget value
  | .keyed key val => ∃ t, value = .table t ∧ (budget = some 0 ∨ ∀ e ∈ OrderedMap.entries t,
      Satisfies key budget.spend e.1.toValue ∧ Satisfies val budget.spend e.2)
  | .record ⟨fields⟩ => ∃ t, value = .table t ∧ (budget = some 0 ∨
      SatisfiesFields fields budget.spend t)
  | .array element => ∃ t, value = .table t ∧ (budget = some 0 ∨ ∀ i, Table.InRun t i →
      Satisfies element budget.spend (Table.get t (.int i)))
termination_by structural s

/-- A value is as one of the options says. -/
def SatisfiesSome (options : List Spec) (budget : Budget) (value : Value) : Prop :=
  match options with
  | [] => False
  | s :: rest => Satisfies s budget value ∨ SatisfiesSome rest budget value
termination_by structural options

/-- The values at the declared names, nil where there is none, are as the fields say. -/
def SatisfiesFields (fields : List (String × Spec)) (budget : Budget) (t : Table) : Prop :=
  match fields with
  | [] => True
  | (name, s) :: rest =>
    Satisfies s budget (Table.get t (.str name)) ∧ SatisfiesFields rest budget t
termination_by structural fields

end

theorem satisfiesSome_iff {options : List Spec} {budget : Budget} {value : Value} :
    SatisfiesSome options budget value ↔ ∃ s ∈ options, s.Satisfies budget value := by
  induction options with
  | nil => simp [SatisfiesSome]
  | cons s rest ih => simp [SatisfiesSome, ih]

/-- The declared fields are in order when what is at each name, nil if nothing is, meets its
spec. -/
theorem satisfiesFields_iff {fields : List (String × Spec)} {budget : Budget} {t : Table} :
    SatisfiesFields fields budget t ↔
      ∀ f ∈ fields, f.2.Satisfies budget (Table.get t (.str f.1)) := by
  induction fields with
  | nil => simp [SatisfiesFields]
  | cons f rest ih => rw [SatisfiesFields, ih, List.forall_mem_cons]

/-! ## What has no mismatch -/

/-- Nothing is wrong with a value exactly when it satisfies the spec. -/
theorem mismatches_eq_nil_iff {s : Spec} {budget : Budget} {value : Value} :
    s.mismatches budget value = [] ↔ s.Satisfies budget value := by
  induction s generalizing budget value with
  | any => simp [mismatches_any, Satisfies]
  | never => simp [mismatches_never, Satisfies]
  | kind k =>
    rw [mismatches_kind, Satisfies]
    by_cases h : value.kind = k
    · simp [h]
    · -- different kinds have different names
      have hname : value.kind.name ≠ k.name := fun hname => h (Kind.name_injective hname)
      simp [h, hname]
  | literal v =>
    rw [mismatches_literal, Satisfies]
    split
    · next h => simp [h]
    · next h => simp [h]
  | optional inner ih => rw [mismatches_optional_eq_nil_iff, ih, Satisfies]
  | union options ih =>
    rw [mismatches_union_eq_nil_iff, Satisfies, satisfiesSome_iff]
    apply exists_congr
    intro s
    apply and_congr_right
    intro hs
    exact ih s hs
  | keyed key val ihKey ihVal =>
    rw [Satisfies]
    refine mismatches_container_eq_nil_iff (fun _ => rfl) ?_
    intro t
    rw [mismatches_keyed_table, Budget.ite_isSpent_eq_nil_iff, firstFailure_eq_nil_iff]
    simp only [entryMismatches_eq_nil_iff, ihKey, ihVal]
  | record fields ih =>
    rw [Satisfies]
    refine mismatches_container_eq_nil_iff (fun _ => rfl) ?_
    intro t
    rw [mismatches_record_table, Budget.ite_isSpent_eq_nil_iff, List.flatMap_eq_nil_iff,
      satisfiesFields_iff]
    apply or_congr_right
    apply forall₂_congr
    intro f hf
    rw [fieldMismatches_eq_nil_iff, ih f hf]
  | array element ih =>
    rw [Satisfies]
    refine mismatches_container_eq_nil_iff (fun _ => rfl) ?_
    intro t
    rw [mismatches_array_table, Budget.ite_isSpent_eq_nil_iff, firstFailure_eq_nil_iff]
    apply or_congr_right
    simp only [elementMismatches_eq_nil_iff, ih]
    -- the elements that the check goes through are those at the indices in reach
    exact Table.forall_mem_run_iff

end Spec

/-- A checker finds nothing wrong with a value exactly when the value satisfies the spec as
far as the limit reaches. -/
theorem Checker.mismatches_eq_nil_iff_satisfies (c : Checker) (value : Value) :
    c.mismatches value = [] ↔ c.spec.Satisfies c.settings.maxDepth value := by
  rw [Checker.mismatches_eq, List.map_eq_nil_iff, Spec.mismatches_eq_nil_iff]

end Conformance

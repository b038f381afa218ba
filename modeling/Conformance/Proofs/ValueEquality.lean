import Conformance.Proofs.History
import Conformance.Proofs.Walk
import Conformance.Value.Equality

/-!
# Equality of tables and of values

A comparison of tables counts the entries and looks up those of the first in the second. It knows
nothing of how the tables came about, and neither does its outcome depend on it:

> `Table.beq_setAll_iff`: whatever their histories are, tables are equal when look-ups find equal
> values in them at every key, or nothing in both.

So the order of the entries does not matter, nor which spelling of a key came first. As a relation
between values, equality lacks one thing only to be an equivalence:

> `Value.beq_partialEquivalence`: it is symmetric and transitive, and a value is equal to itself
> unless it holds not-a-number. A literal is the spec where this shows: the values that pass as
> themselves are the ones that hold none.

Only values count here. As a key not-a-number is the same as itself (`Binary64.same`), so that a
table that has it for a key can be equal to itself.
-/

namespace Conformance

namespace Table

/-- No key is listed twice in a table that was built by setting entries. -/
theorem distinct_setAll (h : History) : (setAll ∅ h).Distinct := (leaves_setAll h).distinct

/-- Tables are equal exactly when at every key nothing is found in both or equal values are, however
they were built. That is also to say that their entries can be paired off, in some order, each with
one of the same key and an equal value; the key may be spelled in another way. -/
theorem beq_setAll_iff (h h' : History) :
    ((Value.table (setAll ∅ h) == Value.table (setAll ∅ h')) = true ↔
        ∀ k, Option.Rel (fun v w : Value => (v == w) = true)
          ((setAll ∅ h).get? k) ((setAll ∅ h').get? k)) ∧
      ((Value.table (setAll ∅ h) == Value.table (setAll ∅ h')) = true ↔
        UpToOrder (OrderedMap.EntryRel fun v w : Value => (v == w) = true)
          (setAll ∅ h).entries (setAll ∅ h').entries) := by
  have hdistinct := distinct_setAll h
  have hdistinct' := distinct_setAll h'
  constructor
  · exact beq_iff_rel_get? hdistinct hdistinct'
  · rw [Value.beq_table_iff]
    exact OrderedMap.foundIn_iff_upToOrder hdistinct hdistinct'

/-- What is cleared or written over does not matter, nor which came first. -/
example :
    (Value.table (setAll ∅ [(.str "id", .string "a"), (.bool true, .nil), (.int 1, .string "b")]) ==
      Value.table (setAll ∅ [(.int 1, .nil), (.int 1, .string "c"), (.str "id", .string "a"),
        (.int 1, .string "b")])) = true := by decide

end Table

/-- A literal accepts what is equal to it. -/
theorem Spec.accepts_literal (l v : Value) : (Spec.literal l).accepts v = (v == l) := by
  rw [Bool.eq_iff_iff, accepts, List.isEmpty_iff, Checker.mismatches_eq_nil_iff]
  show (literal l).mismatches none v = [] ↔ _
  rw [mismatches_literal]
  simp

namespace Value

/-- Equality is symmetric and transitive, and a value is equal to itself exactly if not-a-number is
not in it, at any depth. So these are the values that a check accepts against themselves. -/
theorem beq_partialEquivalence {a : Value} (ha : a.WellFormed) :
    (∀ b : Value, (a == b) = true → (b == a) = true) ∧
      (∀ b c : Value, (a == b) = true → (b == c) = true → (a == c) = true) ∧
      ((a == a) = true ↔ ¬ a.HoldsNan) ∧
      ((Spec.literal a).accepts a = true ↔ ¬ a.HoldsNan) := by
  refine ⟨?_, ?_, beq_self_iff ha, ?_⟩
  · intro b hab
    exact beq_symm ha hab
  · intro b c hab hbc
    exact beq_trans hab hbc
  · rw [Spec.accepts_literal]
    exact beq_self_iff ha

/-- A table with a list at not-a-number. -/
def listAtNan : Value :=
  .table (Table.setAll ∅ [(.float .nan, .table (Table.ofList [.boolean true, .string "x"]))])

/-- A table with a list that has not-a-number in it, behind a gap. -/
def nanInList : Value :=
  .table (Table.setAll ∅ [(.str "sizes", .table (Table.ofList [.nil, .number .nan]))])

theorem wellFormed_listAtNan : listAtNan.WellFormed := by
  have hscalars : ∀ v ∈ [boolean true, string "x"], v.kind ≠ .table := by simp [kind]
  have hlist := Table.wellFormed_ofList fun v hv => .scalar (hscalars v hv)
  exact Table.wellFormed_set Table.wellFormed_empty hlist (.float .nan)

theorem wellFormed_nanInList : nanInList.WellFormed := by
  have hscalars : ∀ v ∈ [nil, number .nan], v.kind ≠ .table := by simp [kind]
  have hlist := Table.wellFormed_ofList fun v hv => .scalar (hscalars v hv)
  exact Table.wellFormed_set Table.wellFormed_empty hlist (.str "sizes")

/-- The first of these is equal to itself, and passes as a literal; the second is not. -/
theorem beq_partialEquivalence_nan :
    (listAtNan.WellFormed ∧ ¬ listAtNan.HoldsNan ∧
        (Spec.literal listAtNan).accepts listAtNan = true) ∧
      nanInList.WellFormed ∧ nanInList.HoldsNan ∧ (nanInList == nanInList) = false := by
  obtain ⟨-, -, hself, hliteral⟩ := beq_partialEquivalence wellFormed_listAtNan
  obtain ⟨-, -, hself', -⟩ := beq_partialEquivalence wellFormed_nanInList
  have hnone : ¬ listAtNan.HoldsNan := hself.mp (by decide)
  have hnan : nanInList.HoldsNan :=
    .entry (List.mem_singleton_self _) (.entry (List.mem_singleton_self _) .here)
  refine ⟨⟨wellFormed_listAtNan, hnone, hliteral.mpr hnone⟩, wellFormed_nanInList, hnan, ?_⟩
  rw [Bool.eq_false_iff]
  intro heq
  exact hself'.mp heq hnan

end Value

end Conformance

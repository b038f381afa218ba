import Mathlib.Data.List.Sort
import Conformance.Proofs.ArrayPart
import Conformance.Proofs.Walk
import Conformance.Value.WellFormed

/-!
# What a check of a table does not look at

A record asks for the values at its names and an array for the array part. The rest of a table is
free, and it is not only accepted but not seen at all:

> `Checker.mismatches_unread`: tables with the same values at the names of a record are found to
> fail it in the same ways, and so are tables with the same array part. What is set at a key that
> a record does not declare changes nothing, be it nil.

For records this is a matter of look-ups, which do not depend on where an entry stands. The array
part is read by counting up, and how far that may go is bounded by the size of the table, which the
other entries do change. What it finds depends only on the indices in reach and on what is there
(`Table.run_eq_run_iff`).
-/

namespace Conformance

namespace Table

variable {t u : Table}

/-! ## Declared names -/

/-- The tables have the same values at the names of the fields, nil where there is none. -/
def SameFields (fields : OrderedMap String Spec) (t u : Table) : Prop :=
  ∀ f ∈ fields.entries, get t (.str f.1) = get u (.str f.1)

/-- What is set at a key that is no name of a field is not at the name of one. -/
theorem sameFields_set {fields : OrderedMap String Spec} {k : Key}
    (h : ∀ f ∈ fields.entries, k ≠ .str f.1) (t : Table) (v : Value) :
    SameFields fields (set t k v) t := by
  intro f hf
  apply get_set_of_not_beq
  rw [Bool.eq_false_iff]
  intro hkey
  exact h f hf (Key.eq_str_of_beq hkey)

/-! ## The array part -/

/-- The tables have the same indices in reach, and the same values there. -/
structure SameRun (t u : Table) : Prop where
  inRun_iff : ∀ i, t.InRun i ↔ u.InRun i
  get_eq : ∀ i, t.InRun i → get t (.int i) = get u (.int i)

/-- Tables with the same values in reach have the same array part, up to its order. -/
theorem SameRun.mem_run_iff (h : t.SameRun u) (e : Int × Value) : e ∈ run t ↔ e ∈ run u := by
  rw [Table.mem_run_iff, Table.mem_run_iff, ← h.inRun_iff]
  apply and_congr_right
  intro hi
  rw [h.get_eq e.1 hi]

theorem inRun_of_run_eq (h : run t = run u) {i : Int} (hi : t.InRun i) :
    u.InRun i ∧ get u (.int i) = get t (.int i) := by
  have hmem := mem_run_of_inRun hi
  rw [h] at hmem
  exact get_of_mem_run hmem

/-- The array part is what is at the indices in reach, whatever else there is in the table. -/
theorem run_eq_run_iff : run t = run u ↔ t.SameRun u := by
  constructor
  · intro h
    refine ⟨?_, fun i hi => (inRun_of_run_eq h hi).2.symm⟩
    intro i
    exact ⟨fun hi => (inRun_of_run_eq h hi).1, fun hi => (inRun_of_run_eq h.symm hi).1⟩
  · intro h
    -- the indices ascend in both, so there is only one order in which they can come
    have : Std.Irrefl fun a b : Int × Value => a.1 < b.1 := ⟨fun a => Int.lt_irrefl a.1⟩
    have : Std.Antisymm fun a b : Int × Value => a.1 < b.1 :=
      ⟨fun a b hab hba => absurd hba (Int.lt_asymm hab)⟩
    exact (run_ascending t).eq_of_mem_iff (run_ascending u) h.mem_run_iff

end Table

namespace Spec

variable {t u : Table}

/-- A record reads a table at the declared names only. -/
theorem mismatches_eq_of_sameFields {fields : OrderedMap String Spec}
    (h : Table.SameFields fields t u) (budget : Budget) :
    (record fields).mismatches budget (.table t) = (record fields).mismatches budget (.table u) := by
  have hfound : fields.entries.flatMap (fieldMismatches budget.spend t) =
      fields.entries.flatMap (fieldMismatches budget.spend u) := by
    apply List.flatMap_congr
    intro f hf
    unfold fieldMismatches
    rw [h f hf]
  rw [mismatches_record_table, mismatches_record_table, hfound]

/-- An array reads a table in its array part only. -/
theorem mismatches_eq_of_sameRun (element : Spec) (h : t.SameRun u) (budget : Budget) :
    (array element).mismatches budget (.table t) = (array element).mismatches budget (.table u) := by
  rw [mismatches_array_table, mismatches_array_table, Table.run_eq_run_iff.mpr h]

end Spec

namespace Checker

/-- Tables with the same values at the declared names are found to fail a record in the same ways,
each the same part against the same spec at the same place. So what is set in a table at any other
key makes no difference. Likewise tables with the same array part are found to fail an array in the
same ways. -/
theorem mismatches_unread (settings : Settings) :
    (∀ (fields : OrderedMap String Spec) (t u : Table), Table.SameFields fields t u →
        (Checker.mk (.record fields) settings).mismatches (.table t) =
          (Checker.mk (.record fields) settings).mismatches (.table u)) ∧
      (∀ (fields : OrderedMap String Spec) (t : Table) (k : Key) (v : Value),
        (∀ f ∈ fields.entries, k ≠ .str f.1) →
          (Checker.mk (.record fields) settings).mismatches (.table (Table.set t k v)) =
            (Checker.mk (.record fields) settings).mismatches (.table t)) ∧
      ∀ (element : Spec) (t u : Table), Table.SameRun t u →
        (Checker.mk (.array element) settings).mismatches (.table t) =
          (Checker.mk (.array element) settings).mismatches (.table u) := by
  simp only [mismatches_eq]
  refine ⟨?_, ?_, ?_⟩
  · intro fields t u h
    rw [Spec.mismatches_eq_of_sameFields h]
  · intro fields t k v h
    rw [Spec.mismatches_eq_of_sameFields (Table.sameFields_set h t v)]
  · intro element t u h
    rw [Spec.mismatches_eq_of_sameRun element h]

/-- A size and a name, which may be left out. -/
def sizeAndName : OrderedMap String Spec :=
  ⟨[("size", .kind .number), ("name", .optional (.kind .string))]⟩

/-- A list of a number and a truth value, with a size that is a truth value too. -/
def sizedList : Table :=
  Table.setAll ∅ [(.int 1, .ofInt 7), (.int 2, .boolean true), (.str "size", .boolean true)]

/-- The same in another order, with a gap after the list, a number key and an unknown name. -/
def sizedListAndMore : Table :=
  Table.setAll ∅ [(.str "color", .string "red"), (.int 4, .ofInt 4), (.str "size", .boolean true),
    (.int 2, .boolean true), (.float .nan, .table ∅), (.int 1, .ofInt 7)]

theorem sameFields_sizedList : Table.SameFields sizeAndName sizedList sizedListAndMore :=
  List.forall_mem_cons.mpr ⟨rfl, List.forall_mem_singleton.mpr rfl⟩

theorem sameRun_sizedList : Table.SameRun sizedList sizedListAndMore :=
  Table.run_eq_run_iff.mp rfl

/-- Neither the entries that one table has more, nor their order, nor the loss of the color is seen,
while the size and the second element are found wrong each time. -/
theorem mismatches_unread_sizedList :
    Table.SameFields sizeAndName sizedList sizedListAndMore ∧
      (Checker.mk (.record sizeAndName) ⟨none, some "item"⟩).mismatches (.table sizedList) =
        (Checker.mk (.record sizeAndName) ⟨none, some "item"⟩).mismatches
          (.table sizedListAndMore) ∧
      (Checker.mk (.record sizeAndName) ⟨none, some "item"⟩).mismatches (.table sizedList) =
        [⟨.boolean true, .kind .number, [.root "item", .entry (.str "size")]⟩] ∧
      (∀ f ∈ sizeAndName.entries, Key.str "color" ≠ .str f.1) ∧
      (Checker.mk (.record sizeAndName) ⟨none, some "item"⟩).mismatches
          (.table (Table.set sizedListAndMore (.str "color") .nil)) =
        (Checker.mk (.record sizeAndName) ⟨none, some "item"⟩).mismatches
          (.table sizedListAndMore) ∧
      Table.SameRun sizedList sizedListAndMore ∧
      (Checker.mk (.array (.kind .number)) ⟨none, some "item"⟩).mismatches (.table sizedList) =
        (Checker.mk (.array (.kind .number)) ⟨none, some "item"⟩).mismatches
          (.table sizedListAndMore) ∧
      (Checker.mk (.array (.kind .number)) ⟨none, some "item"⟩).mismatches (.table sizedList) =
        [⟨.boolean true, .kind .number, [.root "item", .entry (.int 2)]⟩] := by
  have hfree : ∀ f ∈ sizeAndName.entries, Key.str "color" ≠ .str f.1 :=
    List.forall_mem_cons.mpr ⟨by simp, List.forall_mem_singleton.mpr (by simp)⟩
  obtain ⟨hfields, hset, hrun⟩ := mismatches_unread ⟨none, some "item"⟩
  exact ⟨sameFields_sizedList, hfields sizeAndName sizedList sizedListAndMore sameFields_sizedList,
    rfl, hfree, hset sizeAndName sizedListAndMore (.str "color") .nil hfree,
    sameRun_sizedList, hrun (.kind .number) sizedList sizedListAndMore sameRun_sizedList,
    rfl⟩

end Checker

end Conformance

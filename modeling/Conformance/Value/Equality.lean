import Conformance.OrderedMap.Matching
import Conformance.Value.WellFormed

/-!
# Equality of values

Equality is symmetric and transitive, at every level, but not reflexive: not-a-number is
not equal to itself, and so neither is a value that holds it. Main statements:

> `Value.beq_symm`, `Value.beq_trans`: equality is symmetric and transitive.
>
> `Value.beq_self_iff`: a value is equal to itself if it does not hold not-a-number.
>
> `Table.beq_iff_rel_get?`: tables are equal when they have equal values at every key.

That it is symmetric is not plain from the definition, which looks up the entries of the
first table in the second only. It takes the keys of the first table to be different
(`OrderedMap.FoundIn.symm`).
-/

namespace Conformance

namespace Value

/-- Equal values are the same scalar, or equal numbers, or tables. -/
theorem beq_cases {v w : Value} (h : (v == w) = true) :
    (v = w ∧ v.kind ≠ .table) ∨ (∃ x y, v = .number x ∧ w = .number y ∧ (x == y) = true) ∨
      ∃ t u, v = .table t ∧ w = .table u := by
  cases v with
  | nil =>
    cases w with
    | nil => exact .inl ⟨rfl, by simp [kind]⟩
    | _ => exact absurd h Bool.false_ne_true
  | boolean p =>
    cases w with
    | boolean q =>
      have hpq : p = q := beq_iff_eq.mp h
      exact .inl ⟨congrArg boolean hpq, by simp [kind]⟩
    | _ => exact absurd h Bool.false_ne_true
  | number x =>
    cases w with
    | number y => exact .inr (.inl ⟨x, y, rfl, rfl, h⟩)
    | _ => exact absurd h Bool.false_ne_true
  | string s =>
    cases w with
    | string s' =>
      have hs : s = s' := beq_iff_eq.mp h
      exact .inl ⟨congrArg string hs, by simp [kind]⟩
    | _ => exact absurd h Bool.false_ne_true
  | function name =>
    cases w with
    | function name' =>
      have hname : name = name' := beq_iff_eq.mp h
      exact .inl ⟨congrArg function hname, by simp [kind]⟩
    | _ => exact absurd h Bool.false_ne_true
  | table t =>
    cases w with
    | table u => exact .inr (.inr ⟨t, u, rfl, rfl⟩)
    | _ => exact absurd h Bool.false_ne_true

/-- Equal values are of one kind. -/
theorem kind_eq_of_beq {v w : Value} (h : (v == w) = true) : v.kind = w.kind := by
  rcases beq_cases h with ⟨rfl, -⟩ | ⟨x, y, rfl, rfl, -⟩ | ⟨t, u, rfl, rfl⟩
  · rfl
  · rfl
  · rfl

/-- Of equal values both are nil or neither is. -/
theorem isNil_eq_of_beq {v w : Value} (h : (v == w) = true) : v.isNil = w.isNil := by
  rcases beq_cases h with ⟨rfl, -⟩ | ⟨x, y, rfl, rfl, -⟩ | ⟨t, u, rfl, rfl⟩
  · rfl
  · rfl
  · rfl

theorem eq_nil_of_beq {v : Value} (h : (Value.nil == v) = true) : v = .nil := by
  cases v with
  | nil => rfl
  | _ => exact absurd h Bool.false_ne_true

/-- Only a table is equal to a table. -/
theorem exists_table_of_beq {t : Table} {v : Value} (h : (Value.table t == v) = true) :
    ∃ u, v = .table u :=
  exists_table_of_kind (kind_eq_of_beq h).symm

/-- Tables are equal when they are of one size and each entry of the one is found, with an
equal value, in the other. -/
theorem beq_table_iff {t u : Table} : (Value.table t == Value.table u) = true ↔
    t.size = u.size ∧ t.FoundIn (fun a b : Value => (a == b) = true) u := by
  rw [beq_table, allIn_eq_all, Bool.and_eq_true, beq_iff_eq, OrderedMap.all_get?_iff (· == ·)]

/-- Equality goes both ways. -/
theorem beq_symm {v w : Value} (hv : v.WellFormed) (h : (v == w) = true) : (w == v) = true := by
  induction hv generalizing w with
  | scalar hkind =>
    rcases beq_cases h with ⟨rfl, -⟩ | ⟨x, y, rfl, rfl, hxy⟩ | ⟨t, u, rfl, rfl⟩
    · exact h
    · show (y == x) = true
      exact BEq.symm hxy
    · exact absurd rfl hkind
  | @table t distinct _ _ ih =>
    obtain ⟨u, rfl⟩ := exists_table_of_beq h
    obtain ⟨hsize, hfound⟩ := beq_table_iff.mp h
    have hflip : t.FoundIn (fun a b : Value => (b == a) = true) u := by
      intro e he
      obtain ⟨b, hb, heb⟩ := hfound e he
      exact ⟨b, hb, ih e he heb⟩
    exact beq_table_iff.mpr ⟨hsize.symm, hflip.symm distinct hsize⟩

/-- Equality is transitive. -/
theorem beq_trans {a b c : Value} (hab : (a == b) = true) (hbc : (b == c) = true) :
    (a == c) = true := by
  induction a using Value.induction generalizing b c with
  | scalar a hkind =>
    rcases beq_cases hab with ⟨rfl, -⟩ | ⟨x, y, rfl, rfl, hxy⟩ | ⟨t, u, rfl, rfl⟩
    · exact hbc
    · rcases beq_cases hbc with ⟨rfl, -⟩ | ⟨y, z, heq, rfl, hyz⟩ | ⟨t, u, heq, -⟩
      · exact hab
      · cases heq
        show (x == z) = true
        exact BEq.trans hxy hyz
      · cases heq
    · exact absurd rfl hkind
  | table t ih =>
    obtain ⟨u, rfl⟩ := exists_table_of_beq hab
    obtain ⟨w, rfl⟩ := exists_table_of_beq hbc
    obtain ⟨hsize, hfound⟩ := beq_table_iff.mp hab
    obtain ⟨hsize', hfound'⟩ := beq_table_iff.mp hbc
    refine beq_table_iff.mpr ⟨hsize.trans hsize', ?_⟩
    intro e he
    obtain ⟨b, hb, heb⟩ := hfound e he
    obtain ⟨c, hc, hbc⟩ := hfound'.exists_get? hb
    exact ⟨c, hc, ih e he heb hbc⟩

/-! ## Equality with itself -/

/-- Not-a-number is the value, or it is the value of an entry, at any depth. As a key it does
not count. -/
inductive HoldsNan : Value → Prop where
  | here : HoldsNan (.number .nan)
  | entry {t : Table} {e : Key × Value} (mem : e ∈ t.entries) (inside : HoldsNan e.2) :
      HoldsNan (.table t)

/-- A scalar holds not-a-number only if it is that. -/
theorem holdsNan_scalar_iff {v : Value} (hkind : v.kind ≠ .table) :
    v.HoldsNan ↔ v = .number .nan := by
  constructor
  · intro h
    cases h with
    | here => rfl
    | entry mem inside => exact absurd rfl hkind
  · intro h
    rw [h]
    exact .here

/-- A table holds not-a-number if one of its values does. Its keys do not count. -/
theorem holdsNan_table_iff {t : Table} :
    (Value.table t).HoldsNan ↔ ∃ e ∈ t.entries, e.2.HoldsNan := by
  constructor
  · intro h
    cases h with
    | entry mem inside => exact ⟨_, mem, inside⟩
  · intro ⟨e, he, hinside⟩
    exact .entry he hinside

/-- Of the scalars only not-a-number is not equal to itself. -/
theorem beq_self_iff_of_scalar {v : Value} (hkind : v.kind ≠ .table) :
    (v == v) = true ↔ v ≠ .number .nan := by
  cases v with
  | number x => cases x <;> simp [BEq.beq, Value.beq, Binary64.beq]
  | table t => exact absurd rfl hkind
  | _ => simp [BEq.beq, Value.beq]

/-- A value is equal to itself if it does not hold not-a-number, and only then. -/
theorem beq_self_iff {v : Value} (hv : v.WellFormed) : (v == v) = true ↔ ¬ v.HoldsNan := by
  induction hv with
  | scalar hkind => rw [beq_self_iff_of_scalar hkind, holdsNan_scalar_iff hkind]
  | table distinct _ _ ih =>
    rw [beq_table_iff, OrderedMap.foundIn_self_iff distinct, holdsNan_table_iff]
    simp only [true_and, not_exists, not_and]
    exact forall₂_congr ih

end Value

/-- Keys that address one entry are equal as values, or are both not-a-number and then the
same value. -/
theorem Key.toValue_eq_or_beq {k l : Key} (h : (k == l) = true) :
    k.toValue = l.toValue ∨ (k.toValue == l.toValue) = true := by
  cases k with
  | int i =>
    cases l with
    | int j =>
      have hij : i = j := beq_iff_eq.mp h
      exact .inl (congrArg (toValue ∘ int) hij)
    | _ => exact absurd h Bool.false_ne_true
  | float x =>
    cases l with
    | float y =>
      have hxy : x.same y = true := h
      rcases Binary64.same_iff.mp hxy with hbeq | ⟨rfl, rfl⟩
      · exact .inr hbeq
      · exact .inl rfl
    | _ => exact absurd h Bool.false_ne_true
  | str s =>
    cases l with
    | str s' => exact .inr h
    | _ => exact absurd h Bool.false_ne_true
  | bool b =>
    cases l with
    | bool b' => exact .inr h
    | _ => exact absurd h Bool.false_ne_true

namespace Table

variable {t u : Table}

/-- Tables are equal when they have equal values at every key, and the same keys. -/
theorem beq_iff_rel_get? (ht : t.Distinct) (hu : u.Distinct) :
    (Value.table t == Value.table u) = true ↔
      ∀ k, Option.Rel (fun a b : Value => (a == b) = true) (t.get? k) (u.get? k) := by
  rw [Value.beq_table_iff, OrderedMap.foundIn_iff_rel_get? ht hu]

/-- The entries of equal tables agree up to order. -/
theorem upToOrder_of_beq (ht : Table.WellFormed t) (h : (Value.table t == Value.table u) = true) :
    UpToOrder (OrderedMap.EntryRel fun a b : Value => (a == b) = true) t.entries u.entries := by
  obtain ⟨hsize, hfound⟩ := Value.beq_table_iff.mp h
  exact hfound.upToOrder ht.distinct hsize

/-- In equal tables a look-up finds equal values, or nothing in either. -/
theorem rel_get?_of_beq (ht : Table.WellFormed t) (h : (Value.table t == Value.table u) = true)
    (k : Key) : Option.Rel (fun a b : Value => (a == b) = true) (t.get? k) (u.get? k) := by
  obtain ⟨hsize, hfound⟩ := Value.beq_table_iff.mp h
  exact hfound.rel_get? ht.distinct hsize k

/-- Equal tables have the same keys. -/
theorem isSome_get?_of_beq (ht : Table.WellFormed t)
    (h : (Value.table t == Value.table u) = true) (k : Key) :
    (t.get? k).isSome = (u.get? k).isSome :=
  OrderedMap.isSome_eq_of_rel (rel_get?_of_beq ht h k)

/-- Equal tables have equal values at every key, nil where there is none. -/
theorem get_beq (ht : Table.WellFormed t) (h : (Value.table t == Value.table u) = true) (k : Key) :
    (get t k == get u k) = true := by
  have hrel := rel_get?_of_beq ht h k
  rw [get, get]
  generalize t.get? k = a at hrel ⊢
  generalize u.get? k = b at hrel ⊢
  cases hrel with
  | some hab => exact hab
  | none => rfl

/-- Tables are equal when they have equal values at every key, nil where there is none. -/
theorem beq_iff_get_beq (ht : Table.WellFormed t) (hu : Table.WellFormed u) :
    (Value.table t == Value.table u) = true ↔ ∀ k, (get t k == get u k) = true := by
  constructor
  · exact get_beq ht
  · intro h
    rw [beq_iff_rel_get? ht.distinct hu.distinct]
    intro k
    have hnil := Value.isNil_eq_of_beq (h k)
    rw [get?_eq_filter_get ht.stored, get?_eq_filter_get hu.stored, Option.filter_some,
      Option.filter_some, ← hnil]
    cases (get t k).isNil with
    | true => exact .none
    | false => exact .some (h k)

end Table

end Conformance

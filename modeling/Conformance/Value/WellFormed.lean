import Conformance.Document
import Conformance.OrderedMap.Lemmas

/-!
# Well-formed values

A table is meant to have different keys and to store no nil, and so are the tables
inside it. The type alone does not say so, because a table is a list of entries; this
file says it once and shows that every way to build a value keeps to it:

> `Table.wellFormed_set`: setting an entry keeps a table well-formed;
>
> `Table.wellFormed_ofList`: a table made from a list of values is well-formed;
>
> `Document.wellFormed_toValue`: so is whatever a document is loaded as.

What a table is *for* is then one law, `Table.get?_set`: a look-up sees the last value
set, and nil is the same as absent.
-/

namespace Conformance

/-- A value whose tables, at every level, have different keys and store no nil. -/
inductive Value.WellFormed : Value → Prop where
  | scalar {v : Value} (kind_ne : v.kind ≠ .table) : WellFormed v
  | table {t : Table} (distinct : t.Distinct)
      (stored : ∀ e ∈ t.entries, e.2.isNil = false)
      (entries : ∀ e ∈ t.entries, WellFormed e.2) : WellFormed (.table t)

/-- A table that is well-formed as a value. -/
def Table.WellFormed (t : Table) : Prop := (Value.table t).WellFormed

namespace Table

/-- A well-formed table has each key once. -/
theorem WellFormed.distinct {t : Table} (h : Table.WellFormed t) : t.Distinct := by
  cases h with
  | scalar kind_ne => exact absurd rfl kind_ne
  | table distinct _ _ => exact distinct

/-- A well-formed table stores no nil. -/
theorem WellFormed.stored {t : Table} (h : Table.WellFormed t) :
    ∀ e ∈ t.entries, e.2.isNil = false := by
  cases h with
  | scalar kind_ne => exact absurd rfl kind_ne
  | table _ stored _ => exact stored

/-- The values of a well-formed table are well-formed. -/
theorem WellFormed.entries {t : Table} (h : Table.WellFormed t) :
    ∀ e ∈ t.entries, e.2.WellFormed := by
  cases h with
  | scalar kind_ne => exact absurd rfl kind_ne
  | table _ _ entries => exact entries

theorem wellFormed_empty : Table.WellFormed ∅ :=
  .table OrderedMap.distinct_empty (fun _ he => absurd he List.not_mem_nil)
    (fun _ he => absurd he List.not_mem_nil)

/-! ## Looking up an entry -/

/-- Each entry is what is found at its key. -/
theorem get_of_mem {t : Table} (ht : Table.WellFormed t) {e : Key × Value} (h : e ∈ t.entries) :
    get t e.1 = e.2 := by
  rw [get, OrderedMap.get?_of_mem ht.distinct h]
  rfl

/-- A look-up finds what is at the key, unless that is nil. -/
theorem get?_eq_filter_get {t : Table} (h : ∀ e ∈ t.entries, e.2.isNil = false) (k : Key) :
    t.get? k = (some (get t k)).filter fun v => !v.isNil := by
  unfold get
  cases hk : t.get? k with
  | none => rfl
  | some v =>
    obtain ⟨e, he, -, rfl⟩ := OrderedMap.mem_of_get?_eq_some hk
    simp [Option.filter, h e he]

/-- What is found in a well-formed table is well-formed, and so is the nil of an absent key. -/
theorem wellFormed_get {t : Table} (ht : Table.WellFormed t) (k : Key) :
    (get t k).WellFormed := by
  rw [get]
  cases h : t.get? k with
  | none => exact .scalar (by simp [Value.kind])
  | some v =>
    obtain ⟨e, he, -, hv⟩ := OrderedMap.mem_of_get?_eq_some h
    exact hv ▸ ht.entries e he

/-! ## Setting an entry -/

theorem set_nil (t : Table) (k : Key) : set t k .nil = t.erase k := rfl

/-- Setting an entry to anything but nil writes it. -/
theorem set_of_isNil_eq_false (t : Table) (k : Key) {v : Value} (h : v.isNil = false) :
    set t k v = t.insert k v := by
  cases v with
  | nil => exact absurd h (by simp [Value.isNil])
  | _ => rfl

/-- Setting an entry keeps keys different, whether it writes or removes. -/
theorem distinct_set {t : Table} (h : t.Distinct) (k : Key) (v : Value) :
    (set t k v).Distinct := by
  cases hv : v.isNil with
  | false => exact set_of_isNil_eq_false t k hv ▸ OrderedMap.distinct_insert h k v
  | true =>
    cases v with
    | nil => exact OrderedMap.distinct_erase h k
    | _ => exact absurd hv (by simp [Value.isNil])

/-- A look-up sees the last value set, and nil is the same as absent. -/
theorem get?_set {t : Table} (h : t.Distinct) (k k' : Key) (v : Value) :
    (set t k v).get? k' = if k' == k then (if v.isNil then none else some v) else t.get? k' := by
  cases hv : v.isNil with
  | false => rw [set_of_isNil_eq_false t k hv, OrderedMap.get?_insert]; rfl
  | true =>
    cases v with
    | nil => exact OrderedMap.get?_erase h k k'
    | _ => exact absurd hv (by simp [Value.isNil])

/-- What is at one key is not changed by setting the entry at another. -/
theorem get_set_of_not_beq (t : Table) {k k' : Key} (h : (k' == k) = false) (v : Value) :
    get (set t k v) k' = get t k' := by
  unfold get
  cases hv : v.isNil with
  | false => rw [set_of_isNil_eq_false t k hv, OrderedMap.get?_insert_of_not_beq h]
  | true => rw [Value.eq_nil_of_isNil hv, set_nil, OrderedMap.get?_erase_of_not_beq t h]

/-- Setting an entry keeps a table well-formed. -/
theorem wellFormed_set {t : Table} {v : Value} (ht : Table.WellFormed t) (hv : v.WellFormed)
    (k : Key) : Table.WellFormed (set t k v) := by
  cases hnil : v.isNil with
  | false =>
    rw [set_of_isNil_eq_false t k hnil]
    refine .table (OrderedMap.distinct_insert ht.distinct k v) (fun e he => ?_) (fun e he => ?_)
    · rcases OrderedMap.mem_of_mem_entries_insert he with heq | hold
      · exact heq ▸ hnil
      · exact ht.stored e hold
    · rcases OrderedMap.mem_of_mem_entries_insert he with heq | hold
      · exact heq ▸ hv
      · exact ht.entries e hold
  | true =>
    cases v with
    | nil =>
      exact .table (OrderedMap.distinct_erase ht.distinct k)
        (fun e he => ht.stored e (OrderedMap.mem_of_mem_entries_erase he))
        (fun e he => ht.entries e (OrderedMap.mem_of_mem_entries_erase he))
    | _ => exact absurd hnil (by simp [Value.isNil])

/-- A list of well-formed values can be set in a well-formed table. -/
theorem wellFormed_setFrom {values : List Value} (hvs : ∀ v ∈ values, v.WellFormed) :
    ∀ {t : Table} (i : Int), Table.WellFormed t → Table.WellFormed (setFrom t i values) := by
  induction values with
  | nil => intro t i ht; exact ht
  | cons v rest ih =>
    intro t i ht
    exact ih (fun w hw => hvs w (List.mem_cons_of_mem _ hw)) (i + 1)
      (wellFormed_set ht (hvs v List.mem_cons_self) (.int i))

/-- A table made from a list of values is well-formed. -/
theorem wellFormed_ofList {values : List Value} (h : ∀ v ∈ values, v.WellFormed) :
    Table.WellFormed (ofList values) :=
  wellFormed_setFrom h 1 wellFormed_empty

/-- Well-formed values can be set in a well-formed table, at any keys. -/
theorem wellFormed_setAll {entries : List (Key × Value)} (hes : ∀ e ∈ entries, e.2.WellFormed) :
    ∀ {t : Table}, Table.WellFormed t → Table.WellFormed (setAll t entries) := by
  induction entries with
  | nil => intro t ht; exact ht
  | cons e rest ih =>
    intro t ht
    exact ih (fun x hx => hes x (List.mem_cons_of_mem _ hx))
      (wellFormed_set ht (hes e List.mem_cons_self) e.1)

end Table

/-! ## Keys and documents -/

/-- A key is a well-formed value. -/
theorem Key.wellFormed_toValue (k : Key) : k.toValue.WellFormed :=
  .scalar k.kind_toValue_ne_table

namespace Document

mutual

/-- Whatever a document is loaded as is well-formed. -/
theorem wellFormed_toValue (d : Document) : d.toValue.WellFormed := by
  cases d with
  | array items => exact Table.wellFormed_ofList (wellFormed_of_mem_toValues items)
  | object members =>
    exact Table.wellFormed_setAll (wellFormed_of_mem_toEntries members) Table.wellFormed_empty
  | _ => exact .scalar (by simp [toValue, Value.ofInt, Value.kind])

theorem wellFormed_of_mem_toValues (items : List Document) :
    ∀ v ∈ toValues items, v.WellFormed := by
  intro v hv
  cases items with
  | nil => exact absurd hv List.not_mem_nil
  | cons d rest =>
    rcases List.mem_cons.mp hv with rfl | hrest
    · exact wellFormed_toValue d
    · exact wellFormed_of_mem_toValues rest v hrest

theorem wellFormed_of_mem_toEntries (members : List (String × Document)) :
    ∀ e ∈ toEntries members, e.2.WellFormed := by
  intro e he
  match members with
  | [] => exact absurd he List.not_mem_nil
  | (_, d) :: rest =>
    rcases List.mem_cons.mp he with rfl | hrest
    · exact wellFormed_toValue d
    · exact wellFormed_of_mem_toEntries rest e hrest

end

end Document

end Conformance

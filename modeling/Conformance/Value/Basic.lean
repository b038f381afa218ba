import Conformance.Key
import Conformance.OrderedMap.Basic

/-!
# Host values

Everything that is checked is a `Value`. There is one kind of container, the table,
an insertion-ordered map from keys to values; its entries at 1, 2, 3, … are its array
part and the others its record part. Absent and nil are the same thing, so a table
never stores nil.

Equality of values is numeric on numbers, by name on functions, and on tables without
regard to the order of entries.
-/

namespace Conformance

/-- The kind of a value, as the host tells it at run time. -/
inductive Kind where
  | nil
  | boolean
  | number
  | string
  | function
  | table
deriving DecidableEq

/-- The name of a kind. -/
def Kind.name : Kind → String
  | .nil => "nil"
  | .boolean => "boolean"
  | .number => "number"
  | .string => "string"
  | .function => "function"
  | .table => "table"

/-- A value of the host. A function is known by its name alone. -/
inductive Value where
  | nil
  | boolean (b : Bool)
  | number (x : Binary64)
  | string (s : String)
  | function (name : String)
  | table (entries : OrderedMap Key Value)

/-- The container of values. -/
abbrev Table := OrderedMap Key Value

instance : Inhabited Value := ⟨.nil⟩

/-- A key as a value that can be checked. -/
def Key.toValue : Key → Value
  | .int i => .number (Binary64.ofInt i)
  | .float x => .number x
  | .str s => .string s
  | .bool b => .boolean b

namespace Value

/-- The kind of a value. -/
def kind : Value → Kind
  | .nil => .nil
  | .boolean _ => .boolean
  | .number _ => .number
  | .string _ => .string
  | .function _ => .function
  | .table _ => .table

/-- Whether a value is nil. -/
def isNil : Value → Bool
  | .nil => true
  | _ => false

/-- There is one nil. -/
theorem eq_nil_of_isNil {v : Value} (h : v.isNil = true) : v = .nil := by
  cases v with
  | nil => rfl
  | _ => exact absurd h Bool.false_ne_true

/-- What is of the kind of tables is a table. -/
theorem exists_table_of_kind {v : Value} (h : v.kind = .table) : ∃ t, v = .table t := by
  cases v with
  | table t => exact ⟨t, rfl⟩
  | _ => exact absurd h (by simp [kind])

/-- A value in a table is smaller than the table. -/
theorem sizeOf_entry_lt {t : Table} {e : Key × Value} (h : e ∈ t.entries) :
    sizeOf e.2 < sizeOf (table t) := by
  obtain ⟨entries⟩ := t
  obtain ⟨k, v⟩ := e
  have := List.sizeOf_lt_of_mem h
  simp only [table.sizeOf_spec, OrderedMap.mk.sizeOf_spec, Prod.mk.sizeOf_spec] at this ⊢
  omega

/-- Induction over values. The values of a table's entries are parts of it. -/
@[elab_as_elim]
theorem induction {motive : Value → Prop} (scalar : ∀ v, v.kind ≠ .table → motive v)
    (table : ∀ t, (∀ e ∈ OrderedMap.entries t, motive e.2) → motive (.table t)) (v : Value) :
    motive v := by
  by_cases h : v.kind = .table
  · obtain ⟨t, ht⟩ := exists_table_of_kind h
    rw [ht]
    exact table t fun e he => induction scalar table e.2
  · exact scalar v h
termination_by sizeOf v
decreasing_by
  rw [ht]
  exact sizeOf_entry_lt he

/-- The number nearest to an integer, as a value. -/
def ofInt (i : Int) : Value := .number (Binary64.ofInt i)

/-- The number of entries of a table. -/
def size? : Value → Option Nat
  | .table t => some t.size
  | _ => none

/-! ## Equality -/

mutual

/-- Structural equality. Tables are equal when they have equally many entries and
each entry of the one is found, with an equal value, in the other. -/
protected def beq (a b : Value) : Bool :=
  match a, b with
  | .nil, .nil => true
  | .boolean p, .boolean q => p == q
  | .number x, .number y => x == y
  | .string s, .string t => s == t
  | .function f, .function g => f == g
  | .table ⟨entries⟩, .table t => entries.length == t.size && allIn entries t
  | _, _ => false
termination_by structural a

/-- Whether each of the entries is found, with an equal value, in a table. -/
def allIn (entries : List (Key × Value)) (t : OrderedMap Key Value) : Bool :=
  match entries with
  | [] => true
  | (k, v) :: rest =>
    (match t.get? k with
      | some w => Value.beq v w
      | none => false) && allIn rest t
termination_by structural entries

end

instance : BEq Value := ⟨Value.beq⟩

/-- Entries are compared one by one, each with what is at its key. -/
theorem allIn_eq_all (entries : List (Key × Value)) (t : OrderedMap Key Value) :
    allIn entries t = entries.all fun e => (t.get? e.1).any (e.2 == ·) := by
  induction entries with
  | nil => rfl
  | cons e rest ih =>
    rw [allIn, ih, List.all_cons]
    cases t.get? e.1 <;> rfl

/-- Tables are equal when they are of one size and the entries of the one are in the other. -/
theorem beq_table (t u : Table) :
    (Value.table t == Value.table u) = (t.size == u.size && allIn t.entries u) := rfl

/-! ## Text -/

/-- The plain text of a value. A table shows its size only. -/
def text : Value → String
  | .nil => "nil"
  | .boolean b => if b then "true" else "false"
  | .number x => x.text
  | .string s => s
  | .function name => "function: " ++ name
  | .table t => "table: " ++ String.ofList (integerChars t.size) ++ " entries"

/-- The text of a value as it stands in diagnostics: strings are quoted. -/
def spelling : Value → String
  | .string s => quoted s
  | v => v.text

end Value

/-- A key is a scalar. -/
theorem Key.kind_toValue_ne_table (k : Key) : k.toValue.kind ≠ .table := by
  cases k <;> simp [toValue, Value.kind]

end Conformance

import Conformance.Value.Building

/-!
# Integer keys and number keys

An integer can be a key in its own right, and it can come as a number. The number is taken in as
the integer when it is below a limit, and stays a number from there on. So the two forms are one
key or two, and then a table has one entry for both or one for each:

> `Key.reaches_number_ofInt_iff`: what is set under the one form is found, written over and removed
> through the other, in every table, exactly for the integers below the limit. From the limit on
> neither form is seen through the other.

The limit is near 2^53, but it is smaller, and numbers hold integers far beyond both. There is
nothing special about the integers that fall on the other side (`Key.number_ofInt_limit`).
-/

namespace Conformance

namespace Table

/-- Of two values set at a key, however it is spelled, the second is what remains, also if it is
nil. -/
theorem set_set_of_beq (t : Table) {k l : Key} (h : (k == l) = true) {v : Value}
    (hv : v.isNil = false) (w : Value) : set (set t k v) l w = set t k w := by
  rw [set_of_isNil_eq_false t k hv]
  cases hw : w.isNil with
  | false =>
    rw [set_of_isNil_eq_false _ l hw, set_of_isNil_eq_false t k hw]
    exact OrderedMap.insert_insert_of_beq t h v w
  | true =>
    rw [Value.eq_nil_of_isNil hw, set_nil, set_nil]
    exact OrderedMap.erase_insert_of_beq t h v

end Table

namespace Key

/-- What is set at the one key, in whatever table, is found at the other; and to set the other
after it is to set the one, be it to a value or to nil. -/
structure Reaches (k l : Key) : Prop where
  found : ∀ (t : Table) (v : Value), t.Distinct → Table.get (Table.set t k v) l = v
  replaced : ∀ (t : Table) (v w : Value), v.isNil = false →
    Table.set (Table.set t k v) l w = Table.set t k w

/-- A key reaches the entries of those keys that are the same. -/
theorem reaches_iff {k l : Key} : k.Reaches l ↔ (k == l) = true := by
  constructor
  · intro h
    have hfound := h.found ∅ (.boolean true) OrderedMap.distinct_empty
    rw [Table.get_set OrderedMap.distinct_empty, BEq.comm] at hfound
    by_cases hkey : (k == l) = true
    · exact hkey
    · rw [if_neg hkey] at hfound
      exact nomatch hfound
  · intro h
    refine ⟨?_, fun t v w hv => Table.set_set_of_beq t h hv w⟩
    intro t v ht
    rw [Table.get_set ht, if_pos (BEq.symm h)]

/-! ## The two forms of an integer -/

/-- The numbers that are taken in as an integer. -/
theorem number_eq_int_iff {x : Binary64} {i : Int} :
    number x = .int i ↔ x.toInt? = some i ∧ i.natAbs < wholeLimit := by
  unfold number
  cases hx : x.toInt? with
  | none => simp
  | some j =>
    dsimp only
    by_cases hj : j.natAbs < wholeLimit
    · rw [if_pos hj, int.injEq, Option.some.injEq]
      constructor
      · intro hji
        exact ⟨hji, hji ▸ hj⟩
      · intro h
        exact h.1
    · rw [if_neg hj, Option.some.injEq]
      constructor
      · intro h
        exact nomatch h
      · intro h
        exact absurd (h.1 ▸ h.2) hj

/-- The number of an integer is taken in as the integer if that is below the limit. -/
theorem number_ofInt_eq_iff (i : Int) : number (.ofInt i) = .int i ↔ i.natAbs < wholeLimit := by
  rw [number_eq_int_iff]
  constructor
  · intro h
    exact h.2
  · intro h
    have hlimit : wholeLimit < 2 ^ 53 := by decide
    exact ⟨Binary64.toInt?_ofInt (Nat.lt_trans h hlimit), h⟩

/-- A whole number is the same key as an integer and as a float as long as it is below the limit. -/
theorem number_ofInt_beq_iff (i : Int) :
    (number (.ofInt i) == int i) = true ↔ i.natAbs < wholeLimit := by
  rw [← number_ofInt_eq_iff]
  constructor
  · intro h
    exact eq_int_of_beq (BEq.symm h)
  · intro h
    rw [h]
    exact BEq.rfl

/-- An integer and its number are one key exactly if the integer is below the limit. Then, in every
table, each reaches the entry of the other; and otherwise neither does, so that a table can have
an entry for both. -/
theorem reaches_number_ofInt_iff (i : Int) :
    ((number (.ofInt i) == int i) = true ↔ i.natAbs < wholeLimit) ∧
    ((number (.ofInt i)).Reaches (int i) ∧ (int i).Reaches (number (.ofInt i)) ↔
      i.natAbs < wholeLimit) ∧
    (wholeLimit ≤ i.natAbs → ∀ (t : Table) (v : Value),
      Table.get (Table.set t (number (.ofInt i)) v) (int i) = Table.get t (int i) ∧
        Table.get (Table.set t (int i) v) (number (.ofInt i)) =
          Table.get t (number (.ofInt i))) := by
  have hsame := number_ofInt_beq_iff i
  refine ⟨hsame, ?_, ?_⟩
  · rw [reaches_iff, reaches_iff, BEq.comm (a := int i), and_self, hsame]
  · intro hlarge t v
    have hapart : (number (.ofInt i) == int i) = false := by
      rw [Bool.eq_false_iff, Ne, hsame]
      omega
    constructor
    · apply Table.get_set_of_not_beq
      rw [BEq.comm, hapart]
    · exact Table.get_set_of_not_beq t hapart v

/-- The limit itself is an integer that a number holds, and it is two keys: what is set under the
one is not found under the other. -/
theorem number_ofInt_limit :
    (Binary64.ofInt wholeLimit).toInt? = some (wholeLimit : Int) ∧
    (number (.ofInt wholeLimit) == int wholeLimit) = false ∧
    Table.get (Table.set ∅ (int wholeLimit) (.boolean true)) (number (.ofInt wholeLimit)) = .nil := by
  have hbits : (wholeLimit : Int).natAbs < 2 ^ 53 := by decide
  have hapart : (number (.ofInt wholeLimit) == int wholeLimit) = false := by
    rw [Bool.eq_false_iff, Ne, number_ofInt_beq_iff]
    exact Nat.lt_irrefl wholeLimit
  exact ⟨Binary64.toInt?_ofInt hbits, hapart, Table.get_set_of_not_beq ∅ hapart _⟩

end Key

end Conformance

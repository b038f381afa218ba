import Conformance.Proofs.Scanning
import Conformance.Value.Building

/-!
# Tables made from a list

A list of values is put into a table at 1, 2, 3, …. A nil in the list uses up its index and leaves
nothing there, so that the list comes back only in part:

> `Table.ofList_readsBack`: the entries are the values that are not nil, each at its place in the
> list, and in the order of the list. Of these, the array part is what is before the first nil.
-/

namespace Conformance

namespace Table

variable (values : List Value)

/-- A list becomes the entries at 1, 2, …, less those with nil. -/
theorem entries_ofList :
    (ofList values).entries = (Key.indexed values).filter fun e => !e.2.isNil := by
  rw [ofList_eq_setAll]
  exact entries_setAll (Key.indexedFrom_pairwise 1 values) OrderedMap.distinct_empty fun _ _ => rfl

theorem get_ofList (k : Key) :
    get (ofList values) k = ((Key.indexed values).lookup k).getD .nil := by
  rw [ofList_eq_setAll]
  exact get_setAll (Key.indexedFrom_pairwise 1 values) OrderedMap.distinct_empty k

theorem get?_ofList (k : Key) : (ofList values).get? k =
    ((Key.indexed values).lookup k).filter fun v => !v.isNil := by
  have hstored : ∀ e ∈ (ofList values).entries, e.2.isNil = false := by
    intro e he
    rw [entries_ofList] at he
    simpa using (List.mem_filter.mp he).2
  rw [get?_eq_filter_get hstored, get_ofList]
  cases (Key.indexed values).lookup k <;> rfl

/-- There are as many of them as there are values that are not nil. -/
theorem size_ofList : (ofList values).size = values.countP fun v => !v.isNil := by
  have hcount : (Key.indexed values).countP ((fun v => !v.isNil) ∘ Prod.snd) =
      values.countP fun v => !v.isNil := by
    rw [← List.countP_map, Key.map_snd_indexed]
  rw [← hcount, List.countP_eq_length_filter, OrderedMap.size, entries_ofList]
  rfl

/-- The array part ends where the first nil is, or with the list. -/
theorem endsAfter_ofList : (ofList values).EndsAfter (values.findIdx Value.isNil) where
  present := by
    intro i hi
    have hlength : i < values.length := Nat.lt_of_lt_of_le hi List.findIdx_le_length
    have hnil : values[i].isNil = false := List.not_of_lt_findIdx hi
    rw [get?_ofList, Key.lookup_indexed, List.getElem?_eq_getElem hlength]
    simp [Option.filter, hnil]
  absent := by
    rw [get?_ofList, Key.lookup_indexed]
    rcases Nat.lt_or_ge (values.findIdx Value.isNil) values.length with hlt | hge
    · have hnil : values[values.findIdx Value.isNil].isNil = true := List.findIdx_getElem
      rw [List.getElem?_eq_getElem hlt]
      simp [Option.filter, hnil]
    · rw [List.getElem?_eq_none hge]
      rfl

/-- The array part is what the list has before its first nil, counted from 1. -/
theorem run_ofList : run (ofList values) =
    (values.takeWhile fun v => !v.isNil).mapIdx fun i v => ((i + 1 : Int), v) := by
  have hbefore : (values.takeWhile fun v => !v.isNil) = values.take (values.findIdx Value.isNil) := by
    rw [List.takeWhile_eq_take_findIdx_not]
    simp only [Bool.not_not]
  rw [(endsAfter_ofList values).run_eq, hbefore]
  apply List.ext_getElem
  · rw [List.length_map, List.length_range, List.length_mapIdx,
      List.length_take_of_le List.findIdx_le_length]
  · intro i hi _
    rw [List.length_map, List.length_range] at hi
    have hlength : i < values.length := Nat.lt_of_lt_of_le hi List.findIdx_le_length
    rw [List.getElem_map, List.getElem_range, List.getElem_mapIdx, List.getElem_take]
    unfold element
    rw [get_ofList, Key.lookup_indexed, List.getElem?_eq_getElem hlength]
    rfl

/-- A table made from a list has the values of the list that are not nil, each at its place
counted from 1, and nothing else. Its entries are in ascending order of these places, and they are
as many as there are such values. Its array part is what the list has before its first nil. -/
theorem ofList_readsBack :
    (∀ i : Nat, (ofList values).get? (.int (i + 1)) = values[i]?.filter fun v => !v.isNil) ∧
    (∀ k, (∀ i : Nat, i < values.length → k ≠ .int (i + 1)) → (ofList values).get? k = none) ∧
    (ofList values).entries.Pairwise (fun a b => a.1.IndexLt b.1) ∧
    (ofList values).size = values.countP (fun v => !v.isNil) ∧
    run (ofList values) =
      (values.takeWhile fun v => !v.isNil).mapIdx fun i v => ((i + 1 : Int), v) := by
  refine ⟨?_, ?_, ?_, size_ofList values, run_ofList values⟩
  · intro i
    rw [get?_ofList, Key.lookup_indexed]
  · intro k hk
    rw [get?_ofList, Key.lookup_indexed_eq_none hk]
    rfl
  · rw [entries_ofList]
    exact (Key.indexedFrom_ascending 1 values).filter _

/-- A nil at the end of a list leaves nothing behind, and one before it cuts the array part. -/
example : (ofList [.string "a", .nil, .string "c", .nil]).entries =
    [(.int 1, .string "a"), (.int 3, .string "c")] := rfl

end Table

end Conformance

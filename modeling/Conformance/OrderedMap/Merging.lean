import Conformance.OrderedMap.Lemmas

/-!
# Maps made from lists

A list of entries may have a key any number of times. When the entries are inserted first to last,
the map depends on the list only by where each key first comes and by what it last comes with:

> `OrderedMap.keys_insertAll`: the keys that were there keep their places, and the others follow
> in the order in which they first come;
>
> `OrderedMap.get?_insertAll`: a look-up finds what the key last comes with, and if it does not
> come, what was there.

So a map that is made from the list alone merges it (`OrderedMap.merges_ofList`).
-/

namespace Conformance

universe u v

/-- The list without some elements and without one more. -/
theorem removeAll_append_singleton {α : Type u} [BEq α] [LawfulBEq α] (as bs : List α) (b : α) :
    as.removeAll (bs ++ [b]) = (as.removeAll bs).filter fun a => !a == b := by
  unfold List.removeAll
  rw [List.filter_filter]
  apply List.filter_congr
  intro a _
  rw [List.elem_eq_contains, List.elem_eq_contains, List.contains_append, Bool.not_or, Bool.and_comm]
  simp

namespace OrderedMap

variable {κ : Type u} {ν : Type v} [BEq κ]

/-- A run of writes can be made in two parts. -/
theorem insertAll_append (m : OrderedMap κ ν) (as bs : List (κ × ν)) :
    m.insertAll (as ++ bs) = (m.insertAll as).insertAll bs := List.foldl_append

/-- After a run of writes a look-up finds the last at its key, or else what was there before. -/
theorem get?_insertAll [EquivBEq κ] (m : OrderedMap κ ν) (entries : List (κ × ν)) (k : κ) :
    (m.insertAll entries).get? k = (entries.reverse.lookup k).or (m.get? k) := by
  induction entries generalizing m with
  | nil => rfl
  | cons e rest ih =>
    have hfirst : (m.insert e.1 e.2).get? k = ([e].lookup k).or (m.get? k) := by
      rw [get?_insert, List.lookup_cons]
      cases k == e.1 <;> rfl
    rw [insertAll_cons, ih, hfirst, List.reverse_cons, List.lookup_append, Option.or_assoc]

variable [LawfulBEq κ]

/-- Where keys are compared in full, the keys that are found are the ones listed. -/
theorem isSome_get?_iff_mem {m : OrderedMap κ ν} {k : κ} :
    (m.get? k).isSome = true ↔ k ∈ m.keys := by
  simp only [isSome_get?_iff, beq_iff_eq, exists_eq_right']

/-- After a run of writes the keys that were there come first, then the new ones as they first
came. -/
theorem keys_insertAll (m : OrderedMap κ ν) (entries : List (κ × ν)) :
    (m.insertAll entries).keys =
      m.keys ++ ((entries.map Prod.fst).removeAll m.keys).eraseDups := by
  induction entries generalizing m with
  | nil =>
    show m.keys = m.keys ++ []
    rw [List.append_nil]
  | cons e rest ih =>
    rw [insertAll_cons, ih, keys_insert, List.map_cons, List.cons_removeAll]
    by_cases h : e.1 ∈ m.keys
    · rw [if_pos (isSome_get?_iff_mem.mpr h), if_neg (by simp [h])]
    · -- the key is new: it comes first among those that follow, and is not taken again
      rw [if_neg (mt isSome_get?_iff_mem.mp h), if_pos (by simp [h]), removeAll_append_singleton,
        List.eraseDups_cons, List.append_assoc]
      rfl

/-- The keys of a map of a list come in the order in which they first come in the list. -/
theorem keys_ofList (entries : List (κ × ν)) :
    (ofList entries).keys = (entries.map Prod.fst).eraseDups := by
  have hempty : (∅ : OrderedMap κ ν).keys = [] := rfl
  rw [ofList, keys_insertAll, hempty, List.removeAll_nil, List.nil_append]

/-- The entry comes in the list, and its key does not come again after it. -/
def IsLastIn (e : κ × ν) (entries : List (κ × ν)) : Prop :=
  ∃ before after, entries = before ++ e :: after ∧ ∀ f ∈ after, f.1 ≠ e.1

/-- The last entry of a key is the one that a search from the end finds. -/
theorem isLastIn_iff {e : κ × ν} {entries : List (κ × ν)} :
    IsLastIn e entries ↔ entries.reverse.lookup e.1 = some e.2 := by
  rw [List.lookup_eq_some_iff]
  constructor
  · intro h
    obtain ⟨before, after, heq, hafter⟩ := h
    refine ⟨after.reverse, before.reverse, by simp [heq], ?_⟩
    intro f hf
    exact bne_iff_ne.mpr (hafter f (List.mem_reverse.mp hf)).symm
  · intro h
    obtain ⟨after, before, heq, hafter⟩ := h
    refine ⟨before.reverse, after.reverse, ?_, ?_⟩
    · rw [← List.reverse_reverse entries, heq]
      simp
    · intro f hf
      exact (bne_iff_ne.mp (hafter f (List.mem_reverse.mp hf))).symm

/-- A map has the keys of a list of entries in the order in which they first come, each with the
value that it last comes with. -/
structure Merges (m : OrderedMap κ ν) (entries : List (κ × ν)) : Prop where
  keys_eq : m.keys = (entries.map Prod.fst).eraseDups
  mem_iff : ∀ e, e ∈ m.entries ↔ IsLastIn e entries

/-- The map of a list merges the list. -/
theorem merges_ofList (entries : List (κ × ν)) : (ofList entries).Merges entries := by
  refine ⟨keys_ofList entries, ?_⟩
  intro e
  have hget : (ofList entries).get? e.1 = entries.reverse.lookup e.1 := by
    rw [ofList, get?_insertAll, get?_empty, Option.or_none]
  rw [isLastIn_iff, ← hget]
  constructor
  · exact get?_of_mem (distinct_ofList entries)
  · intro hsome
    obtain ⟨f, hf, hkey, hvalue⟩ := mem_of_get?_eq_some hsome
    have heq : f = e := Prod.ext (beq_iff_eq.mp hkey).symm hvalue
    exact heq ▸ hf

end OrderedMap

end Conformance

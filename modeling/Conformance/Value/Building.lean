import Conformance.Value.WellFormed

/-!
# Tables built from lists

What is in a table once the entries of a list were set in it, when no key comes twice in
the list:

> `Table.get_setAll`: at each key the value that the list has there;
>
> `Table.entries_setAll`: the entries of the list, in its order, without those that are nil.

A table made from a list of values is one of these (`Table.ofList_eq_setAll`): its keys are
the places in the list, counted from 1 (`Key.indexed`).
-/

namespace Conformance

/-- The elements of a list, each with its index as key. -/
def Key.indexedFrom {α : Type} (start : Nat) (xs : List α) : List (Key × α) :=
  (xs.zipIdx start).map fun e => (.int e.2, e.1)

/-- The elements of a list at 1, 2, 3, …. -/
def Key.indexed {α : Type} (xs : List α) : List (Key × α) := indexedFrom 1 xs

namespace Key

variable {α : Type}

theorem indexedFrom_cons (start : Nat) (x : α) (xs : List α) :
    indexedFrom start (x :: xs) = (.int start, x) :: indexedFrom (start + 1) xs := rfl

/-- The second of two lists is numbered on from where the first ends. -/
theorem indexedFrom_append (start : Nat) (xs ys : List α) :
    indexedFrom start (xs ++ ys) = indexedFrom start xs ++ indexedFrom (start + xs.length) ys := by
  rw [indexedFrom, List.zipIdx_append, List.map_append]
  rfl

/-- Both keys are indices, and the first is smaller. -/
def IndexLt (k l : Key) : Prop := ∃ i j : Int, k = .int i ∧ l = .int j ∧ i < j

/-- An index before another is another key. -/
theorem IndexLt.not_beq {k l : Key} (h : k.IndexLt l) : (k == l) = false := by
  obtain ⟨i, j, rfl, rfl, hlt⟩ := h
  show (i == j) = false
  rw [beq_eq_false_iff_ne]
  omega

/-- The indices ascend. -/
theorem indexedFrom_ascending (start : Nat) (xs : List α) :
    (indexedFrom start xs).Pairwise fun a b => a.1.IndexLt b.1 := by
  have hascending : ((xs.zipIdx start).map Prod.snd).Pairwise (· < ·) := by
    rw [List.zipIdx_map_snd]
    exact List.pairwise_lt_range'
  rw [indexedFrom, List.pairwise_map]
  apply (List.pairwise_map.mp hascending).imp
  intro a b hab
  exact ⟨a.2, b.2, rfl, rfl, by omega⟩

/-- No index is given twice. -/
theorem indexedFrom_pairwise (start : Nat) (xs : List α) :
    (indexedFrom start xs).Pairwise fun a b => (a.1 == b.1) = false := by
  apply (indexedFrom_ascending start xs).imp
  intro a b hab
  exact hab.not_beq

/-- At the index of a place there is what stands at the place. -/
theorem lookup_indexedFrom (start : Nat) (xs : List α) (i : Nat) :
    (indexedFrom start xs).lookup (.int (start + i)) = xs[i]? := by
  induction xs generalizing start i with
  | nil => rfl
  | cons x xs ih =>
    rw [indexedFrom_cons, List.lookup_cons]
    have hkey : (Key.int (start + i) == Key.int start) = decide (i = 0) := by
      show ((start + i : Int) == start) = decide (i = 0)
      rw [Bool.eq_iff_iff, beq_iff_eq, decide_eq_true_iff]
      omega
    rw [hkey]
    cases i with
    | zero => rfl
    | succ i =>
      have hindex : (start : Int) + (i + 1 : Nat) = (start + 1 : Nat) + i := by omega
      rw [List.getElem?_cons_succ, hindex]
      exact ih (start + 1) i

/-- At an index is the item of that place. -/
theorem lookup_indexed (xs : List α) (i : Nat) :
    (indexed xs).lookup (.int (i + 1)) = xs[i]? := by
  have h := lookup_indexedFrom 1 xs i
  rw [Int.add_comm] at h
  exact h

/-- At a key that is no place in the list there is nothing. -/
theorem lookup_indexed_eq_none {xs : List α} {k : Key}
    (h : ∀ i : Nat, i < xs.length → k ≠ .int (i + 1)) : (indexed xs).lookup k = none := by
  rw [List.lookup_eq_none_iff]
  intro e he
  obtain ⟨p, hp, rfl⟩ := List.mem_map.mp he
  obtain ⟨hle, hlt, -⟩ := List.mem_zipIdx hp
  rw [bne, Bool.not_eq_true', Bool.eq_false_iff]
  intro hkey
  have hk : k = .int p.2 := eq_int_of_beq (BEq.symm hkey)
  apply h (p.2 - 1) (by omega)
  rw [hk]
  congr 1
  omega

/-- A list has nothing at a name. -/
theorem lookup_indexed_str (xs : List α) (s : String) : (indexed xs).lookup (.str s) = none :=
  lookup_indexed_eq_none fun _ _ h => nomatch h

/-- The elements are those of the list. -/
theorem map_snd_indexed (xs : List α) : (indexed xs).map Prod.snd = xs := by
  rw [indexed, indexedFrom, List.map_map]
  exact List.zipIdx_map_fst 1 xs

/-- Elements are indexed alike before and after a change of each. -/
theorem indexed_map {β : Type} (f : α → β) (xs : List α) :
    indexed (xs.map f) = (indexed xs).map fun e => (e.1, f e.2) := by
  rw [indexed, indexedFrom, List.zipIdx_map, List.map_map, indexed, indexedFrom, List.map_map]
  rfl

end Key

namespace Table

/-- A look-up sees the last value set. -/
theorem get_set {t : Table} (ht : t.Distinct) (k k' : Key) (v : Value) :
    get (set t k v) k' = if k' == k then v else get t k' := by
  rw [get, get?_set ht]
  cases hk : k' == k with
  | false => rfl
  | true =>
    cases hv : v.isNil with
    | false => rfl
    | true => exact (Value.eq_nil_of_isNil hv).symm

/-- A look-up sees what was set at its key, and past that what was there. -/
theorem get_setAll {entries : List (Key × Value)}
    (h : entries.Pairwise fun a b => (a.1 == b.1) = false) {t : Table} (ht : t.Distinct) (k : Key) :
    get (setAll t entries) k = (entries.lookup k).getD (get t k) := by
  induction entries generalizing t with
  | nil => rfl
  | cons e rest ih =>
    obtain ⟨hhead, hrest⟩ := List.pairwise_cons.mp h
    have hset := ih hrest (distinct_set ht e.1 e.2)
    rw [get_set ht] at hset
    rw [List.lookup_cons]
    refine hset.trans ?_
    cases hk : k == e.1 with
    | false => rfl
    | true =>
      -- the key does not come again
      have hnone : rest.lookup k = none := by
        rw [List.lookup_eq_none_iff]
        intro f hf
        rw [bne, BEq.congr_left hk, hhead f hf]
        rfl
      rw [hnone]
      rfl

/-- Setting entries at new keys puts those that are not nil at the end. -/
theorem entries_setAll {entries : List (Key × Value)}
    (h : entries.Pairwise fun a b => (a.1 == b.1) = false) {t : Table} (ht : t.Distinct)
    (hnew : ∀ e ∈ entries, t.get? e.1 = none) :
    (setAll t entries).entries = t.entries ++ entries.filter fun e => !e.2.isNil := by
  induction entries generalizing t with
  | nil => rw [List.filter_nil, List.append_nil]; rfl
  | cons e rest ih =>
    obtain ⟨hhead, hrest⟩ := List.pairwise_cons.mp h
    have hfirst : t.get? e.1 = none := hnew e List.mem_cons_self
    have hnew' : ∀ f ∈ rest, (set t e.1 e.2).get? f.1 = none := by
      intro f hf
      rw [get?_set ht, BEq.comm, hhead f hf, if_neg Bool.false_ne_true]
      exact hnew f (List.mem_cons_of_mem _ hf)
    refine (ih hrest (distinct_set ht e.1 e.2) hnew').trans ?_
    cases hv : e.2.isNil with
    | true =>
      rw [List.filter_cons_of_neg (by simp [hv]), Value.eq_nil_of_isNil hv, set_nil,
        OrderedMap.erase_of_get?_eq_none hfirst]
    | false =>
      rw [List.filter_cons_of_pos (by simp [hv]), set_of_isNil_eq_false t e.1 hv,
        OrderedMap.entries_insert_of_get?_eq_none e.2 hfirst, List.append_assoc]
      rfl

/-- Setting values one after the other is setting them at their indices. -/
theorem setFrom_eq_setAll (t : Table) (start : Nat) (values : List Value) :
    setFrom t start values = setAll t (Key.indexedFrom start values) := by
  induction values generalizing t start with
  | nil => rfl
  | cons v rest ih => exact ih (set t (.int start) v) (start + 1)

/-- The table of a list has the values of the list at their indices. -/
theorem ofList_eq_setAll (values : List Value) :
    ofList values = setAll ∅ (Key.indexed values) := setFrom_eq_setAll ∅ 1 values

end Table

end Conformance

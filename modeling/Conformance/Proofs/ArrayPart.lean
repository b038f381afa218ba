import Mathlib.Data.List.Perm.Subperm
import Mathlib.Data.List.Nodup
import Conformance.Value.Table
import Conformance.OrderedMap.Lemmas

/-!
# The array part of a table

`Table.run` looks up 1, 2, 3, … and gives up after as many look-ups as there are entries.
This file shows that it never gives up early, so that the run is what it is meant to be:

> `Table.mem_run`: the run holds the elements at the indices in reach, and no others. An
> index is in reach (`Table.InRun`) when all indices from 1 up to it are present.
>
> `Table.run_ascending`: it holds them in ascending order.

That the bound is enough is a matter of counting (`Table.le_size_of_inRun`): different
indices are different keys, and there are only so many of them.
-/

namespace Conformance

namespace Table

/-- The index is in reach: it is at least 1, and no index from 1 up to it is absent. -/
def InRun (t : Table) (i : Int) : Prop :=
  1 ≤ i ∧ ∀ j, 1 ≤ j → j ≤ i → (t.get? (.int j)).isSome = true

theorem mem_keys_of_isSome {t : Table} {i : Int} (h : (t.get? (.int i)).isSome = true) :
    .int i ∈ t.keys := by
  obtain ⟨v, hv⟩ := Option.isSome_iff_exists.mp h
  obtain ⟨e, he, hkey, -⟩ := OrderedMap.mem_of_get?_eq_some hv
  exact List.mem_map.mpr ⟨e, he, Key.eq_int_of_beq hkey⟩

/-- The first so many indices, as keys. -/
def indexKeys (count : Nat) : List Key := (List.range count).map fun n : Nat => .int (n + 1)

theorem nodup_indexKeys (count : Nat) : (indexKeys count).Nodup := by
  apply List.Nodup.map _ List.nodup_range
  intro a b hab
  have := Key.int.inj hab
  omega

/-- There are no more indices in reach than there are entries. -/
theorem le_size_of_inRun {t : Table} {i : Int} (h : t.InRun i) : i ≤ t.size := by
  have hsub : indexKeys i.toNat ⊆ t.keys := by
    intro k hk
    obtain ⟨n, hn, rfl⟩ := List.mem_map.mp hk
    have hlt := List.mem_range.mp hn
    exact mem_keys_of_isSome (h.2 _ (by omega) (by omega))
  -- different keys, all of them keys of the table: there are no more of them than entries
  have hlength := ((nodup_indexKeys i.toNat).subperm hsub).length_le
  rw [indexKeys, List.length_map, List.length_range, OrderedMap.keys, List.length_map] at hlength
  show i ≤ (t.entries.length : Int)
  omega

/-- The run from an index on: what is in reach from there, as far as the count goes. -/
theorem mem_runFrom {t : Table} {start : Int} {count : Nat} {i : Int} {v : Value} :
    (i, v) ∈ runFrom t start count ↔ start ≤ i ∧ i < start + count ∧
      (∀ j, start ≤ j → j ≤ i → (t.get? (.int j)).isSome = true) ∧ t.get? (.int i) = some v := by
  induction count generalizing start with
  | zero =>
    rw [runFrom]
    refine ⟨fun h => absurd h List.not_mem_nil, fun h => ?_⟩
    have := h.1
    have := h.2.1
    omega
  | succ count ih =>
    rw [runFrom]
    split
    · next w hw =>
      -- the index looked up first is present; what is in reach from the next one is in reach
      rw [List.mem_cons, ih, Prod.mk.injEq]
      constructor
      · rintro (⟨rfl, rfl⟩ | ⟨hle, hlt, hall, hv⟩)
        · refine ⟨by omega, by omega, ?_, hw⟩
          intro j hj hji
          rw [show j = i by omega, hw]
          rfl
        · refine ⟨by omega, by omega, ?_, hv⟩
          intro j hj hji
          by_cases hjs : j = start
          · rw [hjs, hw]
            rfl
          · exact hall j (by omega) hji
      · rintro ⟨hle, hlt, hall, hv⟩
        by_cases his : i = start
        · subst his
          exact .inl ⟨rfl, Option.some.inj (hv.symm.trans hw)⟩
        · refine .inr ⟨by omega, by omega, ?_, hv⟩
          intro j hj hji
          exact hall j (by omega) hji
    · next hnone =>
      -- nothing is in reach past an absent index
      refine ⟨fun h => absurd h List.not_mem_nil, fun h => ?_⟩
      have hstart := h.2.2.1 start (by omega) h.1
      rw [hnone] at hstart
      exact absurd hstart Bool.false_ne_true

/-- The run holds the elements at the indices in reach. -/
theorem mem_run {t : Table} {i : Int} {v : Value} :
    (i, v) ∈ run t ↔ t.InRun i ∧ t.get? (.int i) = some v := by
  rw [run, mem_runFrom]
  constructor
  · rintro ⟨hle, -, hall, hv⟩
    exact ⟨⟨hle, hall⟩, hv⟩
  · rintro ⟨hrun, hv⟩
    have := le_size_of_inRun hrun
    exact ⟨hrun.1, by omega, hrun.2, hv⟩

/-- Every index in reach has an element in the run. -/
theorem mem_run_of_inRun {t : Table} {i : Int} (h : t.InRun i) :
    (i, t.get (.int i)) ∈ run t := by
  obtain ⟨v, hv⟩ := Option.isSome_iff_exists.mp (h.2 i h.1 (Int.le_refl i))
  rw [mem_run, get, hv]
  exact ⟨h, rfl⟩

/-- An element of the run is what is at its index. -/
theorem get_of_mem_run {t : Table} {e : Int × Value} (he : e ∈ run t) :
    t.InRun e.1 ∧ t.get (.int e.1) = e.2 := by
  obtain ⟨hi, hv⟩ := mem_run.mp he
  rw [get, hv]
  exact ⟨hi, rfl⟩

/-- The array part has the indices in reach, each with what is at it. -/
theorem mem_run_iff {t : Table} {e : Int × Value} :
    e ∈ run t ↔ t.InRun e.1 ∧ get t (.int e.1) = e.2 := by
  constructor
  · exact get_of_mem_run
  · intro h
    obtain ⟨hi, hget⟩ := h
    have hmem := mem_run_of_inRun hi
    rw [hget] at hmem
    exact hmem

/-- What holds of all elements of the run holds at all indices in reach. -/
theorem forall_mem_run_iff {t : Table} {P : Value → Prop} :
    (∀ e ∈ run t, P e.2) ↔ ∀ i, t.InRun i → P (t.get (.int i)) := by
  constructor
  · intro h i hi
    exact h _ (mem_run_of_inRun hi)
  · intro h e he
    obtain ⟨hi, hget⟩ := get_of_mem_run he
    exact hget ▸ h e.1 hi

/-- Counting up, indices ascend. -/
theorem runFrom_ascending (t : Table) (start : Int) (count : Nat) :
    (runFrom t start count).Pairwise fun a b => a.1 < b.1 := by
  induction count generalizing start with
  | zero => exact List.Pairwise.nil
  | succ count ih =>
    rw [runFrom]
    split
    · refine List.pairwise_cons.mpr ⟨?_, ih (start + 1)⟩
      intro e he
      have := (mem_runFrom.mp he).1
      omega
    · exact List.Pairwise.nil

/-- The run goes through its indices in ascending order. -/
theorem run_ascending (t : Table) : (run t).Pairwise fun a b => a.1 < b.1 :=
  runFrom_ascending t 1 t.size

/-- What comes at a smaller index comes earlier in the run. -/
theorem mem_before_of_lt {t : Table} {before after : List (Int × Value)} {e x : Int × Value}
    (heq : run t = before ++ e :: after) (hx : x ∈ run t) (hlt : x.1 < e.1) : x ∈ before := by
  have hascending := heq ▸ run_ascending t
  have hafter := (List.pairwise_cons.mp (List.pairwise_append.mp hascending).2.1).1
  rw [heq, List.mem_append, List.mem_cons] at hx
  rcases hx with hbefore | rfl | hmem
  · exact hbefore
  · omega
  · have := hafter x hmem
    omega

end Table

end Conformance

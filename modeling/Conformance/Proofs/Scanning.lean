import Mathlib.Computability.StateTransition
import Mathlib.Data.Nat.Find
import Conformance.Proofs.ArrayPart

/-!
# Counting up through a table

The array part can be read without regard to how large the table is: look up 1, 2, 3, … until
an index is absent. Nothing in such a scan (`Table.Scan.step`) says that it comes to an end. It
does, since different indices are different keys and there are only so many keys:

> `Table.eval_scan`: a scan halts, in any table, with the array part. That is what is at 1, 2, …
> up to the last index before the first that is absent, and no more elements than there are
> entries; the counter does not get further than to the one after.

`Table.run` looks up as many indices as there are entries, at most, and so finds the same.
-/

namespace Conformance

namespace Table

/-! ## Where the array part ends -/

/-- The first `n` indices are present and the next one is not. -/
structure EndsAfter (t : Table) (n : Nat) : Prop where
  present : ∀ i : Nat, i < n → (t.get? (.int (i + 1))).isSome = true
  absent : t.get? (.int (n + 1)) = none

/-- The element at an index, counted from 0, with the index that it has in the table. -/
def element (t : Table) (i : Nat) : Int × Value := (i + 1, get t (.int (i + 1)))

theorem element_of_get? {t : Table} {i : Nat} {v : Value} (h : t.get? (.int (i + 1)) = some v) :
    t.element i = ((i + 1 : Int), v) := by
  unfold element get
  rw [h]
  rfl

theorem inRun_of_present {t : Table} {n : Nat} (hpos : 0 < n)
    (h : ∀ i : Nat, i < n → (t.get? (.int (i + 1))).isSome = true) : t.InRun n := by
  refine ⟨by omega, ?_⟩
  intro j hj hjn
  obtain ⟨i, rfl⟩ : ∃ i : Nat, j = i + 1 := ⟨(j - 1).toNat, by omega⟩
  exact h i (by omega)

/-- No more indices are present, without a gap, than there are entries. -/
theorem le_size_of_present {t : Table} {n : Nat}
    (h : ∀ i : Nat, i < n → (t.get? (.int (i + 1))).isSome = true) : n ≤ t.size := by
  rcases Nat.eq_zero_or_pos n with hzero | hpos
  · omega
  · have := le_size_of_inRun (inRun_of_present hpos h)
    omega

/-- An index is absent, and so there is a first one. -/
theorem exists_endsAfter (t : Table) : ∃ n, t.EndsAfter n := by
  have hgap : ∃ n : Nat, t.get? (.int (n + 1)) = none := by
    by_contra hall
    have hpresent : ∀ i : Nat, i < t.size + 1 → (t.get? (.int (i + 1))).isSome = true := by
      intro i _
      rw [Option.isSome_iff_ne_none]
      intro hnone
      exact hall ⟨i, hnone⟩
    have := le_size_of_present hpresent
    omega
  refine ⟨Nat.find hgap, ?_, Nat.find_spec hgap⟩
  intro i hi
  rw [Option.isSome_iff_ne_none]
  exact Nat.find_min hgap hi

/-- Looking up indices one after the other finds those that are present before the first that is
absent, if it goes on for that long. -/
theorem runFrom_eq_map_element {t : Table} {start n count : Nat} (hcount : n ≤ count)
    (hpresent : ∀ i, start ≤ i → i < start + n → (t.get? (.int (i + 1))).isSome = true)
    (habsent : t.get? (.int ((start + n : Nat) + 1)) = none) :
    runFrom t (start + 1) count = (List.range' start n).map t.element := by
  -- on the indices that are left, as the count may go on past the end
  induction n generalizing start count with
  | zero =>
    cases count with
    | zero => rfl
    | succ count =>
      rw [Nat.add_zero] at habsent
      rw [runFrom, habsent]
      rfl
  | succ n ih =>
    obtain ⟨count, rfl⟩ : ∃ c, count = c + 1 := ⟨count - 1, by omega⟩
    obtain ⟨v, hv⟩ := Option.isSome_iff_exists.mp (hpresent start (Nat.le_refl _) (by omega))
    have hnext : start + (n + 1) = start + 1 + n := by omega
    rw [hnext] at habsent hpresent
    have hrest := ih (Nat.le_of_succ_le_succ hcount)
      (fun i hi hlt => hpresent i (by omega) hlt) habsent
    rw [runFrom, hv, List.range'_succ, List.map_cons, element_of_get? hv]
    exact congrArg _ hrest

/-- The array part has no more elements than the table has entries. -/
theorem EndsAfter.le_size {t : Table} {n : Nat} (h : t.EndsAfter n) : n ≤ t.size :=
  le_size_of_present h.present

/-- The array part is what is at the indices before the first that is absent. -/
theorem EndsAfter.run_eq {t : Table} {n : Nat} (h : t.EndsAfter n) :
    run t = (List.range n).map t.element := by
  have hpresent : ∀ i, 0 ≤ i → i < 0 + n → (t.get? (.int (i + 1))).isSome = true := by
    intro i _ hi
    exact h.present i (by omega)
  have habsent : t.get? (.int ((0 + n : Nat) + 1)) = none := by
    rw [Nat.zero_add]
    exact h.absent
  rw [List.range_eq_range']
  exact runFrom_eq_map_element h.le_size hpresent habsent

/-! ## A scan -/

/-- A scan on its way: the index that it looks up next, and what it found before. -/
structure Scan where
  index : Int
  found : List (Int × Value)

namespace Scan

/-- Nothing is looked up yet. -/
def start : Scan := ⟨1, []⟩

/-- Looks up the index. The scan goes on to the next one if it is present, and else it halts. -/
def step (t : Table) (s : Scan) : Option Scan :=
  (t.get? (.int s.index)).map fun v => ⟨s.index + 1, s.found ++ [(s.index, v)]⟩

/-- The counter is moved past an index before the index is looked up, and past the largest index
of 64 bits there is none. -/
def Overflows (s : Scan) : Prop := 2 ^ 63 ≤ s.index + 1

/-- The scan once so many elements are found. -/
def after (t : Table) (n : Nat) : Scan := ⟨n + 1, (List.range n).map t.element⟩

variable {t : Table} {n : Nat}

/-- A step from a present index finds one more element. -/
theorem step_after_of_present (h : (t.get? (.int (n + 1))).isSome = true) :
    step t (after t n) = some (after t (n + 1)) := by
  obtain ⟨v, hv⟩ := Option.isSome_iff_exists.mp h
  unfold step after
  rw [hv, Option.map_some, List.range_succ, List.map_append, List.map_singleton, element_of_get? hv]
  rfl

/-- There is no step from an absent index. -/
theorem step_after_of_absent (h : t.get? (.int (n + 1)) = none) : step t (after t n) = none := by
  unfold step after
  rw [h]
  rfl

/-- A scan gets to every index of the array part, and to the one after. -/
theorem reaches_after (h : t.EndsAfter n) {i : Nat} (hi : i ≤ n) :
    StateTransition.Reaches (step t) start (after t i) := by
  induction i with
  | zero => exact .refl
  | succ i ih =>
    have hstep := step_after_of_present (h.present i hi)
    exact (ih (by omega)).tail hstep

/-- Whatever a scan gets to, it has found the first elements of the array part. -/
theorem eq_after_of_reaches (h : t.EndsAfter n) {s : Scan}
    (hs : StateTransition.Reaches (step t) start s) : ∃ i, i ≤ n ∧ s = after t i := by
  induction hs with
  | refl => exact ⟨0, Nat.zero_le n, rfl⟩
  | @tail s s' _ hstep ih =>
    obtain ⟨i, hi, rfl⟩ := ih
    rcases Nat.lt_or_ge i n with hlt | hge
    · have hnext := step_after_of_present (h.present i hlt)
      exact ⟨i + 1, hlt, Option.some.inj (hstep.symm.trans hnext)⟩
    · -- past the last element there is no step
      obtain rfl : i = n := by omega
      exact nomatch hstep.symm.trans (step_after_of_absent h.absent)

end Scan

/-- A scan halts with the array part, in any table. It finds what is at the indices from 1 up to
the last before the first that is absent, in their order. There are no more of them than entries,
and so the counter stays within 64 bits unless the table has about 2^63 of these. -/
theorem eval_scan (t : Table) : ∃ n : Nat, n ≤ t.size ∧
    (∀ i : Nat, i < n → Key.int (i + 1) ∈ t.keys) ∧ Key.int (n + 1) ∉ t.keys ∧
    run t = (List.range n).map (fun i : Nat => ((i + 1 : Int), get t (.int (i + 1)))) ∧
    StateTransition.eval (Scan.step t) Scan.start = Part.some ⟨n + 1, run t⟩ ∧
    ∀ s, StateTransition.Reaches (Scan.step t) Scan.start s →
      s.index ≤ n + 1 ∧ (t.size + 2 < 2 ^ 63 → ¬ s.Overflows) := by
  obtain ⟨n, hends⟩ := exists_endsAfter t
  have hsize := hends.le_size
  refine ⟨n, hsize, fun i hi => mem_keys_of_isSome (hends.present i hi), ?_, hends.run_eq, ?_, ?_⟩
  · intro hmem
    have hsome := OrderedMap.isSome_get?_iff.mpr ⟨_, hmem, BEq.rfl⟩
    rw [hends.absent] at hsome
    exact absurd hsome Bool.false_ne_true
  · rw [Part.eq_some_iff, StateTransition.mem_eval, hends.run_eq]
    exact ⟨Scan.reaches_after hends (Nat.le_refl n), Scan.step_after_of_absent hends.absent⟩
  · intro s hs
    obtain ⟨i, hi, rfl⟩ := Scan.eq_after_of_reaches hends hs
    have hindex : (Scan.after t i).index = i + 1 := rfl
    unfold Scan.Overflows
    rw [hindex]
    exact ⟨by omega, by omega⟩

end Table

end Conformance

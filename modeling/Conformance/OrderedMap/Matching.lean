import Mathlib.Data.List.Perm.Subperm
import Mathlib.Data.List.Nodup
import Conformance.OrderedMap.Lemmas
import Conformance.UpToOrder

/-!
# Maps compared without regard to order

Maps are compared by their sizes and by looking up the entries of the one in the other.
The comparison is one-sided, but what it says is not:

> `OrderedMap.FoundIn.upToOrder`: when the maps are of one size and every entry of the first
> is found in the second, their entries agree up to order.
>
> `OrderedMap.FoundIn.symm`: then every entry of the second is found in the first.
>
> `OrderedMap.foundIn_iff_rel_get?`: and that is to say that look-ups at every key agree.

This is a matter of counting. Different keys are found in different entries, and the second
map has no more entries than there are keys in the first.
-/

namespace Conformance

namespace OrderedMap

universe u v w

variable {κ : Type u} {ν : Type v} {μ : Type w} [BEq κ] {R : ν → μ → Prop}

/-- Every entry of a map has a counterpart at its key in the other, with a value as `R` says. -/
def FoundIn (R : ν → μ → Prop) (m : OrderedMap κ ν) (n : OrderedMap κ μ) : Prop :=
  ∀ e ∈ m.entries, ∃ b, n.get? e.1 = some b ∧ R e.2 b

/-- How maps are compared: each entry of the one is looked up in the other. -/
theorem all_get?_iff (r : ν → μ → Bool) {m : OrderedMap κ ν} {n : OrderedMap κ μ} :
    (m.entries.all fun e => (n.get? e.1).any (r e.2)) = true ↔
      m.FoundIn (fun a b => r a b = true) n := by
  rw [List.all_eq_true]
  apply forall₂_congr
  intro e _
  rw [Option.any_eq_true]

/-- Two entries have the same key, however spelled, and values as `R` says. -/
def EntryRel (R : ν → μ → Prop) (e : κ × ν) (f : κ × μ) : Prop := (e.1 == f.1) = true ∧ R e.2 f.2

/-- The entries that are found, in the order in which they are looked up. -/
theorem FoundIn.exists_entries {m : OrderedMap κ ν} {n : OrderedMap κ μ} (h : m.FoundIn R n) :
    ∃ found, List.Forall₂ (EntryRel R) m.entries found ∧ found ⊆ n.entries := by
  obtain ⟨entries⟩ := m
  simp only [FoundIn] at h
  induction entries with
  | nil => exact ⟨[], .nil, List.nil_subset _⟩
  | cons e rest ih =>
    obtain ⟨found, hfound, hsub⟩ := ih fun x hx => h x (List.mem_cons_of_mem _ hx)
    obtain ⟨b, hb, hR⟩ := h e List.mem_cons_self
    obtain ⟨f, hf, hkey, rfl⟩ := mem_of_get?_eq_some hb
    exact ⟨f :: found, .cons ⟨hkey, hR⟩ hfound, List.cons_subset.mpr ⟨hf, hsub⟩⟩

variable [EquivBEq κ]

/-- Entries paired with entries that have different keys have different keys too. -/
theorem nodup_of_forall₂ {entries : List (κ × ν)} {found : List (κ × μ)}
    (h : List.Forall₂ (EntryRel R) entries found)
    (hdistinct : entries.Pairwise fun a b => (a.1 == b.1) = false) : found.Nodup := by
  induction h with
  | nil => exact List.nodup_nil
  | @cons e f rest found hef hrest ih =>
    obtain ⟨hhead, htail⟩ := List.pairwise_cons.mp hdistinct
    refine List.nodup_cons.mpr ⟨?_, ih htail⟩
    intro hmem
    -- an entry that were found twice would have been looked up by two equal keys
    obtain ⟨e', he', hkey, -⟩ := (UpToOrder.of_forall₂ hrest).symm.exists_of_mem hmem
    have hsame : (e.1 == e'.1) = true := BEq.trans hef.1 (BEq.symm hkey)
    rw [hhead e' he'] at hsame
    exact Bool.false_ne_true hsame

variable {m : OrderedMap κ ν} {n : OrderedMap κ μ}

/-- When the maps are of one size, the entries of the one and of the other agree up to order. -/
theorem FoundIn.upToOrder (h : m.FoundIn R n) (hm : m.Distinct) (hsize : m.size = n.size) :
    UpToOrder (EntryRel R) m.entries n.entries := by
  obtain ⟨found, hfound, hsub⟩ := h.exists_entries
  have hlength : n.entries.length ≤ found.length := by
    rw [← hfound.length_eq]
    exact Nat.le_of_eq hsize.symm
  have hsubperm := (nodup_of_forall₂ hfound hm).subperm hsub
  exact ⟨found, hfound, hsubperm.perm_of_length_le hlength⟩

/-- What is at a key of the one is related to what is at that key in the other. -/
theorem FoundIn.exists_get? (h : m.FoundIn R n) {k : κ} {a : ν} (ha : m.get? k = some a) :
    ∃ b, n.get? k = some b ∧ R a b := by
  obtain ⟨e, he, hkey, rfl⟩ := mem_of_get?_eq_some ha
  obtain ⟨b, hb, hR⟩ := h e he
  exact ⟨b, (n.get?_congr hkey).trans hb, hR⟩

/-- When the maps are of one size, what is found is all there is. -/
theorem FoundIn.symm (h : m.FoundIn R n) (hm : m.Distinct) (hsize : m.size = n.size) :
    n.FoundIn (flip R) m := by
  intro f hf
  obtain ⟨e, he, hkey, hR⟩ := (h.upToOrder hm hsize).symm.exists_of_mem hf
  refine ⟨e.2, ?_, hR⟩
  rw [← m.get?_congr hkey]
  exact get?_of_mem hm he

/-- There are no more entries in a map than in one where all of them are found. -/
theorem FoundIn.size_le (h : m.FoundIn R n) (hm : m.Distinct) : m.size ≤ n.size := by
  obtain ⟨found, hfound, hsub⟩ := h.exists_entries
  have hlength := ((nodup_of_forall₂ hfound hm).subperm hsub).length_le
  rw [← hfound.length_eq] at hlength
  exact hlength

/-- Maps with the same keys, however spelled, are of one size. -/
theorem size_eq_of_isSome (hm : m.Distinct) (hn : n.Distinct)
    (h : ∀ k, (m.get? k).isSome = (n.get? k).isSome) : m.size = n.size := by
  apply Nat.le_antisymm
  · refine FoundIn.size_le (R := fun _ _ => True) ?_ hm
    intro e he
    have hsome : (n.get? e.1).isSome = true := by rw [← h, get?_of_mem hm he]; rfl
    obtain ⟨b, hb⟩ := Option.isSome_iff_exists.mp hsome
    exact ⟨b, hb, trivial⟩
  · refine FoundIn.size_le (R := fun _ _ => True) ?_ hn
    intro e he
    have hsome : (m.get? e.1).isSome = true := by rw [h, get?_of_mem hn he]; rfl
    obtain ⟨b, hb⟩ := Option.isSome_iff_exists.mp hsome
    exact ⟨b, hb, trivial⟩

/-- However the present keys are listed, there are as many of them as there are entries. -/
theorem size_eq_length (hm : m.Distinct) {keys : List κ}
    (hkeys : keys.Pairwise fun a b => (a == b) = false)
    (h : ∀ k, (m.get? k).isSome = true ↔ ∃ l ∈ keys, (k == l) = true) :
    m.size = keys.length := by
  have hlisted : (⟨keys.map fun k => (k, ())⟩ : OrderedMap κ Unit).keys = keys := by
    rw [OrderedMap.keys, List.map_map]
    exact List.map_id keys
  have hsize : m.size = (⟨keys.map fun k => (k, ())⟩ : OrderedMap κ Unit).size := by
    refine size_eq_of_isSome hm (distinct_iff_keys.mpr (hlisted.symm ▸ hkeys)) ?_
    intro k
    rw [Bool.eq_iff_iff, h, isSome_get?_iff, hlisted]
  rw [hsize, size, List.length_map]

/-- A look-up does not depend on the order of the entries. -/
theorem get?_eq_of_perm {m n : OrderedMap κ ν} (hm : m.Distinct) (h : m.entries.Perm n.entries)
    (k : κ) : m.get? k = n.get? k := by
  have hn : n.Distinct := h.pairwise hm fun hab => BEq.comm.trans hab
  cases hk : m.get? k with
  | some v =>
    obtain ⟨e, he, hkey, rfl⟩ := mem_of_get?_eq_some hk
    rw [n.get?_congr hkey, get?_of_mem hn (h.subset he)]
  | none =>
    rw [get?_eq_none_iff] at hk
    rw [eq_comm, get?_eq_none_iff]
    intro e he
    exact hk e (h.symm.subset he)

/-! ## Other ways to say it -/

/-- When the maps are of one size, what is at a key of the one is related to what is at that key
in the other, and nothing to nothing. -/
theorem FoundIn.rel_get? (h : m.FoundIn R n) (hm : m.Distinct) (hsize : m.size = n.size) (k : κ) :
    Option.Rel R (m.get? k) (n.get? k) := by
  cases hk : m.get? k with
  | some a =>
    obtain ⟨b, hb, hR⟩ := h.exists_get? hk
    rw [hb]
    exact .some hR
  | none =>
    cases hk' : n.get? k with
    | none => exact .none
    | some b =>
      -- what is in the second map is found in the first
      obtain ⟨a, ha, -⟩ := (h.symm hm hsize).exists_get? hk'
      exact nomatch hk.symm.trans ha

/-- Related look-ups at all keys find each entry of the one map in the other. -/
theorem foundIn_of_rel_get? (hm : m.Distinct) (h : ∀ k, Option.Rel R (m.get? k) (n.get? k)) :
    m.FoundIn R n := by
  intro e he
  have hrel := h e.1
  rw [get?_of_mem hm he] at hrel
  cases hb : n.get? e.1 with
  | none => rw [hb] at hrel; exact nomatch hrel
  | some b => rw [hb] at hrel; exact ⟨b, rfl, Option.rel_some_some.mp hrel⟩

theorem isSome_eq_of_rel {a : Option ν} {b : Option μ} (h : Option.Rel R a b) :
    a.isSome = b.isSome := by
  cases h <;> rfl

/-- Comparing the sizes and looking up the entries of the one map in the other is comparing what
is at each key. -/
theorem foundIn_iff_rel_get? (hm : m.Distinct) (hn : n.Distinct) :
    (m.size = n.size ∧ m.FoundIn R n) ↔ ∀ k, Option.Rel R (m.get? k) (n.get? k) := by
  constructor
  · intro h
    exact h.2.rel_get? hm h.1
  · intro h
    exact ⟨size_eq_of_isSome hm hn fun k => isSome_eq_of_rel (h k), foundIn_of_rel_get? hm h⟩

/-- It is also comparing the entries without regard to their order. -/
theorem foundIn_iff_upToOrder (hm : m.Distinct) (hn : n.Distinct) :
    (m.size = n.size ∧ m.FoundIn R n) ↔ UpToOrder (EntryRel R) m.entries n.entries := by
  constructor
  · intro h
    exact h.2.upToOrder hm h.1
  · intro h
    refine ⟨h.length_eq, ?_⟩
    intro e he
    obtain ⟨f, hf, hkey, hR⟩ := h.exists_of_mem he
    exact ⟨f.2, (n.get?_congr hkey).trans (get?_of_mem hn hf), hR⟩

/-- A map is found in itself when each of its values is related to itself. -/
theorem foundIn_self_iff {S : ν → ν → Prop} (hm : m.Distinct) :
    m.FoundIn S m ↔ ∀ e ∈ m.entries, S e.2 e.2 := by
  apply forall₂_congr
  intro e he
  simp [get?_of_mem hm he]

end OrderedMap

end Conformance

import Mathlib.Data.List.Induction
import Conformance.OrderedMap.Matching
import Conformance.Value.WellFormed

/-!
# What a history leaves in a table

A history is all that was ever set in a table, first to last. The table keeps little of it,
and this file says what: at each key the value that was last set there, and the keys in the
order, and in the spelling, in which they came to be present. The setting that made a key
present (`History.OpensAt`) is the first since the key was last cleared. Main statement:

> `Table.swapAll_leaves`: starting from the empty table, any history leaves exactly this, and
> each of its steps gives back what was at its key just before.

One step keeps to it (`History.Leaves.set`), whether it writes over an entry, which stays in
its place and keeps its spelling, removes one, or puts a new one at the end.
-/

namespace Conformance

/-- What was set in a table, first to last. Setting an entry to nil clears it. -/
abbrev History := List (Key × Value)

namespace History

/-- Step `i` sets the entry at a key, however the key is spelled there, to nil or to a value. -/
def SetsAt (h : History) (k : Key) (toNil : Bool) (i : Nat) : Prop :=
  ∃ e, h[i]? = some e ∧ (k == e.1) = true ∧ e.2.isNil = toNil

/-- Step `i` sets the entry at a key to a value. -/
abbrev StoresAt (h : History) (k : Key) (i : Nat) : Prop := h.SetsAt k false i

/-- Step `i` clears the entry at a key. -/
abbrev ClearsAt (h : History) (k : Key) (i : Nat) : Prop := h.SetsAt k true i

/-- Step `i` is the one that made a key present: the first to store something at it after it
was last cleared, or at all if it never was. -/
structure OpensAt (h : History) (k : Key) (i : Nat) : Prop where
  stores : h.StoresAt k i
  after_clears : ∀ n, h.ClearsAt k n → n < i
  first : ∀ j, h.StoresAt k j → (∀ n, h.ClearsAt k n → n < j) → i ≤ j

/-- The value that was last set at a key, unless that was nil. -/
def value? (h : History) (k : Key) : Option Value :=
  (h.reverse.lookup k).filter fun v => !v.isNil

/-- The steps of a history with one more step are those it had and the new one. -/
theorem getElem?_snoc {h : History} {e f : Key × Value} {i : Nat} :
    (h ++ [e])[i]? = some f ↔ h[i]? = some f ∨ i = h.length ∧ e = f := by
  rcases Nat.lt_trichotomy i h.length with hlt | rfl | hgt
  · rw [List.getElem?_append_left hlt]
    have hne : i ≠ h.length := Nat.ne_of_lt hlt
    simp [hne]
  · simp
  · have hle : h.length ≤ i := Nat.le_of_lt hgt
    have hne : i ≠ h.length := Nat.ne_of_gt hgt
    have hone : i - h.length ≠ 0 := Nat.sub_ne_zero_of_lt hgt
    rw [List.getElem?_append_right hle, List.getElem?_eq_none hle]
    simp [hne, hone]

variable {h : History} {e : Key × Value} {k : Key} {toNil : Bool}

theorem lt_length_of_setsAt {i : Nat} (hs : h.SetsAt k toNil i) : i < h.length := by
  obtain ⟨e, he, -, -⟩ := hs
  exact (List.getElem?_eq_some_iff.mp he).1

/-- What sets a key in a history with one more step did so before, or is the new step. -/
theorem setsAt_snoc {i : Nat} : (h ++ [e] : History).SetsAt k toNil i ↔
    h.SetsAt k toNil i ∨ i = h.length ∧ (k == e.1) = true ∧ e.2.isNil = toNil := by
  constructor
  · rintro ⟨f, hf, hkey, hnil⟩
    rcases getElem?_snoc.mp hf with hold | ⟨hi, rfl⟩
    · exact .inl ⟨f, hold, hkey, hnil⟩
    · exact .inr ⟨hi, hkey, hnil⟩
  · rintro (⟨f, hf, hkey, hnil⟩ | ⟨hi, hkey, hnil⟩)
    · exact ⟨f, getElem?_snoc.mpr (.inl hf), hkey, hnil⟩
    · exact ⟨e, getElem?_snoc.mpr (.inr ⟨hi, rfl⟩), hkey, hnil⟩

/-- One more step decides about its own key and leaves the others as they were. -/
theorem value?_snoc : (h ++ [e] : History).value? k =
    if k == e.1 then (if e.2.isNil then none else some e.2) else h.value? k := by
  obtain ⟨l, v⟩ := e
  rw [value?, List.reverse_append, List.reverse_singleton, List.singleton_append, List.lookup_cons]
  cases hk : k == l with
  | true => cases hv : v.isNil <;> simp [Option.filter, hv]
  | false => rfl

/-- At a key where nothing is left, whatever was stored was cleared later. -/
theorem exists_clearsAt_of_value?_eq_none (hnone : h.value? k = none) {j : Nat}
    (hs : h.StoresAt k j) : ∃ n, h.ClearsAt k n ∧ j ≤ n := by
  induction h using List.reverseRecOn generalizing j with
  | nil => exact absurd (lt_length_of_setsAt hs) (Nat.not_lt_zero j)
  | append_singleton h e ih =>
    rw [value?_snoc] at hnone
    split at hnone
    · next hk =>
      split at hnone
      · next hnil =>
        have hj := lt_length_of_setsAt hs
        rw [List.length_append, List.length_singleton] at hj
        exact ⟨h.length, setsAt_snoc.mpr (.inr ⟨rfl, hk, hnil⟩), by omega⟩
      · exact absurd hnone (Option.some_ne_none _)
    · next hk =>
      rcases setsAt_snoc.mp hs with hold | ⟨-, hkey, -⟩
      · obtain ⟨n, hn, hjn⟩ := ih hnone hold
        exact ⟨n, setsAt_snoc.mpr (.inl hn), hjn⟩
      · exact absurd hkey hk

/-- A key stays open until it is cleared. -/
theorem OpensAt.snoc {i : Nat} (ho : h.OpensAt k i)
    (hkeep : (k == e.1) = true → e.2.isNil = false) :
    (h ++ [e] : History).OpensAt k i where
  stores := setsAt_snoc.mpr (.inl ho.stores)
  after_clears := by
    intro n hn
    rcases setsAt_snoc.mp hn with hold | ⟨-, hkey, hnil⟩
    · exact ho.after_clears n hold
    · rw [hkeep hkey] at hnil
      exact absurd hnil Bool.false_ne_true
  first := by
    intro j hj hclears
    rcases setsAt_snoc.mp hj with hold | ⟨rfl, -, -⟩
    · exact ho.first j hold fun n hn => hclears n (setsAt_snoc.mpr (.inl hn))
    · exact Nat.le_of_lt (lt_length_of_setsAt ho.stores)

/-- A key at which nothing is left is opened by the next step that stores something at it. -/
theorem opensAt_length (hnone : h.value? e.1 = none) (hnil : e.2.isNil = false) :
    (h ++ [e] : History).OpensAt e.1 h.length where
  stores := setsAt_snoc.mpr (.inr ⟨rfl, BEq.rfl, hnil⟩)
  after_clears := by
    intro n hn
    rcases setsAt_snoc.mp hn with hold | ⟨-, -, hnil'⟩
    · exact lt_length_of_setsAt hold
    · rw [hnil] at hnil'
      exact absurd hnil' Bool.false_ne_true
  first := by
    intro j hj hclears
    rcases setsAt_snoc.mp hj with hold | ⟨rfl, -, -⟩
    · obtain ⟨n, hn, hjn⟩ := exists_clearsAt_of_value?_eq_none hnone hold
      have := hclears n (setsAt_snoc.mpr (.inl hn))
      omega
    · exact Nat.le_refl _

/-- A key that is spelled as it was when it was opened. -/
def Opened (h : History) (k : Key) : Prop := ∃ i v, h.OpensAt k i ∧ h[i]? = some (k, v)

/-- One key was opened before another. -/
def OpenedBefore (h : History) (k l : Key) : Prop := ∃ i j, h.OpensAt k i ∧ h.OpensAt l j ∧ i < j

/-- An open key keeps its spelling until it is cleared. -/
theorem Opened.snoc (ho : h.Opened k) (hkeep : (k == e.1) = true → e.2.isNil = false) :
    (h ++ [e] : History).Opened k := by
  obtain ⟨i, v, hopens, hstep⟩ := ho
  exact ⟨i, v, hopens.snoc hkeep, getElem?_snoc.mpr (.inl hstep)⟩

/-- Two open keys keep their order until one of them is cleared. -/
theorem OpenedBefore.snoc {l : Key} (hb : h.OpenedBefore k l)
    (hkeep : (k == e.1) = true → e.2.isNil = false)
    (hkeep' : (l == e.1) = true → e.2.isNil = false) : (h ++ [e] : History).OpenedBefore k l := by
  obtain ⟨i, j, hi, hj, hlt⟩ := hb
  exact ⟨i, j, hi.snoc hkeep, hj.snoc hkeep', hlt⟩

/-! ## What is left -/

/-- The table is what the history leaves of an empty one. -/
structure Leaves (h : History) (t : Table) : Prop where
  /-- No key is listed twice, in whatever spelling. -/
  distinct : t.Distinct
  /-- A look-up finds what was last set, and nothing if that was nil. -/
  get?_eq : ∀ k, t.get? k = h.value? k
  /-- The keys are spelled as they were when they were opened. -/
  opened : ∀ k ∈ t.keys, h.Opened k
  /-- The keys are listed in the order in which they were opened. -/
  ordered : t.keys.Pairwise h.OpenedBefore

/-- No history leaves an empty table. -/
theorem leaves_empty : Leaves [] ∅ where
  distinct := OrderedMap.distinct_empty
  get?_eq := fun _ => rfl
  opened := fun _ hk => absurd hk List.not_mem_nil
  ordered := .nil

namespace Leaves

variable {t : Table} {v : Value}

theorem get?_set (hl : h.Leaves t) (k k' : Key) (v : Value) :
    (Table.set t k v).get? k' = (h ++ [(k, v)] : History).value? k' := by
  rw [Table.get?_set hl.distinct, value?_snoc, hl.get?_eq]

/-- Clearing an entry leaves the others as they are, and in their order. -/
theorem erase (hl : h.Leaves t) (hv : v.isNil = true) :
    Leaves (h ++ [(k, v)]) (Table.set t k v) := by
  have hset : Table.set t k v = t.erase k := by rw [Value.eq_nil_of_isNil hv, Table.set_nil]
  -- a key that is still listed is not the one that was cleared
  have hkeep : ∀ l ∈ (Table.set t k v).keys, (l == k) = true → v.isNil = false := by
    intro l hmem hkey
    rw [hset] at hmem
    rw [OrderedMap.not_beq_of_mem_keys_erase hl.distinct hmem] at hkey
    exact absurd hkey Bool.false_ne_true
  have hsub : (Table.set t k v).keys.Sublist t.keys := hset ▸ t.keys_erase_sublist k
  exact
    { distinct := Table.distinct_set hl.distinct k v
      get?_eq := fun k' => hl.get?_set k k' v
      opened := fun l hmem => (hl.opened l (hsub.subset hmem)).snoc (hkeep l hmem)
      ordered := (hl.ordered.sublist hsub).imp_of_mem fun hk hl' hb =>
        hb.snoc (hkeep _ hk) (hkeep _ hl') }

/-- Storing a value writes over the entry, in its place, or opens a new one at the end. -/
theorem insert (hl : h.Leaves t) (hv : v.isNil = false) :
    Leaves (h ++ [(k, v)]) (Table.set t k v) := by
  have hopened : ∀ l ∈ t.keys, (h ++ [(k, v)] : History).Opened l :=
    fun l hmem => (hl.opened l hmem).snoc fun _ => hv
  have hordered : t.keys.Pairwise (h ++ [(k, v)] : History).OpenedBefore :=
    hl.ordered.imp fun hb => hb.snoc (fun _ => hv) (fun _ => hv)
  have hdistinct := Table.distinct_set hl.distinct k v
  have hget (k' : Key) := hl.get?_set k k' v
  rw [Table.set_of_isNil_eq_false t k hv] at hdistinct hget ⊢
  cases hk : (t.get? k).isSome with
  | true =>
    have hkeys := OrderedMap.keys_insert_of_isSome hk v
    exact ⟨hdistinct, hget, hkeys ▸ hopened, hkeys ▸ hordered⟩
  | false =>
    have hkeys : (t.insert k v).keys = t.keys ++ [k] := by
      rw [OrderedMap.keys_insert, hk, if_neg Bool.false_ne_true]
    have hnone : h.value? k = none := by
      rw [← hl.get?_eq]
      exact Option.not_isSome_iff_eq_none.mp (Bool.eq_false_iff.mp hk)
    have hnew : (h ++ [(k, v)] : History).OpensAt k h.length := opensAt_length hnone hv
    refine ⟨hdistinct, hget, ?_, ?_⟩
    · intro l hmem
      rw [hkeys] at hmem
      rcases List.mem_append.mp hmem with hold | hlast
      · exact hopened l hold
      · rw [List.mem_singleton.mp hlast]
        exact ⟨h.length, v, hnew, getElem?_snoc.mpr (.inr ⟨rfl, rfl⟩)⟩
    · rw [hkeys]
      refine List.pairwise_append.mpr ⟨hordered, List.pairwise_singleton _ _, ?_⟩
      intro l hmem l' hlast
      rw [List.mem_singleton.mp hlast]
      -- what was open before was opened at an earlier step
      obtain ⟨i, -, hopens, -⟩ := hl.opened l hmem
      exact ⟨i, h.length, hopens.snoc fun _ => hv, hnew, lt_length_of_setsAt hopens.stores⟩

/-- One more step of the history, and the same step on the table. -/
theorem set (hl : h.Leaves t) (k : Key) (v : Value) :
    Leaves (h ++ [(k, v)]) (Table.set t k v) := by
  cases hv : v.isNil with
  | true => exact hl.erase hv
  | false => exact hl.insert hv

/-- The keys that are listed are those at which something is left. -/
theorem isSome_value?_iff (hl : h.Leaves t) :
    (h.value? k).isSome = true ↔ ∃ l ∈ t.keys, (k == l) = true := by
  rw [← hl.get?_eq, OrderedMap.isSome_get?_iff]

/-- What is listed at a key is what was last set there, and it is not nil. -/
theorem value?_of_mem (hl : h.Leaves t) {e : Key × Value} (he : e ∈ t.entries) :
    h.value? e.1 = some e.2 ∧ e.2.isNil = false := by
  have hvalue : h.value? e.1 = some e.2 := by
    rw [← hl.get?_eq, OrderedMap.get?_of_mem hl.distinct he]
  have hkept := (Option.filter_eq_some_iff.mp hvalue).2
  exact ⟨hvalue, by simpa using hkept⟩

/-- There are as many entries as there are keys at which something is left. -/
theorem size_eq (hl : h.Leaves t) {keys : List Key}
    (hkeys : keys.Pairwise fun a b => (a == b) = false)
    (hpresent : ∀ k, (h.value? k).isSome = true ↔ ∃ l ∈ keys, (k == l) = true) :
    t.size = keys.length := by
  refine OrderedMap.size_eq_length hl.distinct hkeys ?_
  intro k
  rw [hl.get?_eq, hpresent]

end Leaves

end History

namespace Table

theorem setAll_append (t : Table) (a b : History) : setAll t (a ++ b) = setAll (setAll t a) b :=
  List.foldl_append

/-- Both ways of setting an entry, with a value and with nil, give back what a look-up finds at
its key just before. -/
theorem swap_eq (t : Table) (k : Key) (v : Value) : swap t k v = (t.get? k, set t k v) := by
  cases v with
  | nil => exact t.remove_eq k
  | _ => exact t.replace_eq k _

/-- The first exchange hands back what the table has, and the others go on from what it leaves. -/
theorem swapAll_cons (t : Table) (e : Key × Value) (rest : History) :
    swapAll t (e :: rest) =
      (t.get? e.1 :: (swapAll (set t e.1 e.2) rest).1, (swapAll (set t e.1 e.2) rest).2) := by
  rw [swapAll, swap_eq]

/-- Swapping leaves the same table as setting. -/
theorem swapAll_snd (t : Table) (h : History) : (swapAll t h).2 = setAll t h := by
  induction h generalizing t with
  | nil => rfl
  | cons e rest ih =>
    rw [swapAll_cons]
    exact ih (set t e.1 e.2)

/-- What a swap gives back is what a look-up at its key finds just before. -/
theorem swapAll_fst_getElem? (t : Table) (h : History) {i : Nat} {e : Key × Value}
    (he : h[i]? = some e) :
    (swapAll t h).1[i]? = some ((swapAll t (h.take i)).2.get? e.1) := by
  induction h generalizing t i with
  | nil => exact absurd he (Option.some_ne_none _ ∘ Eq.symm)
  | cons f rest ih =>
    rw [swapAll_cons]
    cases i with
    | zero =>
      rw [List.getElem?_cons_zero, Option.some.injEq] at he
      rw [he]
      rfl
    | succ i =>
      rw [List.take_succ_cons, swapAll_cons]
      exact ih (set t f.1 f.2) he

theorem length_swapAll_fst (t : Table) (h : History) : (swapAll t h).1.length = h.length := by
  induction h generalizing t with
  | nil => rfl
  | cons e rest ih =>
    rw [swapAll_cons]
    exact congrArg (· + 1) (ih (set t e.1 e.2))

/-- Setting entries one after the other leaves what their history says. -/
theorem leaves_setAll (h : History) : h.Leaves (setAll ∅ h) := by
  induction h using List.reverseRecOn with
  | nil => exact History.leaves_empty
  | append_singleton h e ih =>
    rw [setAll_append]
    exact ih.set e.1 e.2

/-- Starting from the empty table, a history leaves at each key the value that was last set
there, unless that was nil. The keys at which something is left are listed once each, in the
order and the spelling in which they were opened, with nothing but these values, and make up
the size of the table. Each swap gave back what a look-up at its key would have found just
before. -/
theorem swapAll_leaves (h : History) :
    (swapAll ∅ h).2 = setAll ∅ h ∧
    (∀ k, (swapAll ∅ h).2.get? k = h.value? k) ∧
    (∀ k, (h.value? k).isSome = true ↔ ∃ l ∈ (swapAll ∅ h).2.keys, (k == l) = true) ∧
    (swapAll ∅ h).2.keys.Pairwise (fun k l => (k == l) = false ∧ h.OpenedBefore k l) ∧
    (∀ k ∈ (swapAll ∅ h).2.keys, h.Opened k) ∧
    (∀ e ∈ (swapAll ∅ h).2.entries, h.value? e.1 = some e.2 ∧ e.2.isNil = false) ∧
    (∀ keys : List Key, keys.Pairwise (fun k l => (k == l) = false) →
      (∀ k, (h.value? k).isSome = true ↔ ∃ l ∈ keys, (k == l) = true) →
      (swapAll ∅ h).2.size = keys.length) ∧
    (swapAll ∅ h).1.length = h.length ∧
    ∀ i e, h[i]? = some e → (swapAll ∅ h).1[i]? = some ((swapAll ∅ (h.take i)).2.get? e.1) := by
  have hl : h.Leaves (swapAll ∅ h).2 := swapAll_snd ∅ h ▸ leaves_setAll h
  have hordered := (OrderedMap.distinct_iff_keys.mp hl.distinct).and hl.ordered
  exact ⟨swapAll_snd ∅ h, hl.get?_eq, fun _ => hl.isSome_value?_iff, hordered, hl.opened,
    fun _ => hl.value?_of_mem, fun _ => hl.size_eq, length_swapAll_fst ∅ h,
    fun _ _ => swapAll_fst_getElem? ∅ h⟩

end Table

end Conformance

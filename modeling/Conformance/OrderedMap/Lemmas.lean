import Conformance.OrderedMap.Basic

/-!
# Laws of insertion-ordered maps

What each operation does to the two views of a map, look-up and the list of keys.

Main statements:

> `OrderedMap.get?_insert`, `OrderedMap.get?_erase`: a look-up sees the last write.
>
> `OrderedMap.keys_insert`: a present key keeps its place and spelling, and a new one
> goes to the end.
>
> `OrderedMap.distinct_insert`, `OrderedMap.distinct_erase`: keys stay different.
-/

namespace Conformance

namespace OrderedMap

universe u v

variable {κ : Type u} {ν : Type v} [BEq κ]

@[simp] theorem get?_empty (k : κ) : (∅ : OrderedMap κ ν).get? k = none := rfl

/-- No entries, no two with the same key. -/
theorem distinct_empty : (∅ : OrderedMap κ ν).Distinct := List.Pairwise.nil

@[simp] theorem insertAll_nil (m : OrderedMap κ ν) : m.insertAll [] = m := rfl

@[simp] theorem insertAll_cons (m : OrderedMap κ ν) (e : κ × ν) (rest : List (κ × ν)) :
    m.insertAll (e :: rest) = (m.insert e.1 e.2).insertAll rest := rfl

/-! ## Membership -/

/-- Nothing is found at a key when no entry has it, in any spelling. -/
theorem get?_eq_none_iff {m : OrderedMap κ ν} {k : κ} :
    m.get? k = none ↔ ∀ e ∈ m.entries, (k == e.1) = false := by
  simp only [get?, List.lookup_eq_none_iff, bne, Bool.not_eq_eq_eq_not, Bool.not_true]

/-- What is found at a key is in an entry that has it, perhaps in another spelling. -/
theorem mem_of_get?_eq_some {m : OrderedMap κ ν} {k : κ} {v : ν} (h : m.get? k = some v) :
    ∃ e ∈ m.entries, (k == e.1) = true ∧ e.2 = v := by
  rw [get?, List.lookup_eq_findSome?] at h
  obtain ⟨e, he, hv⟩ := List.exists_of_findSome?_eq_some h
  refine ⟨e, he, ?_⟩
  split at hv
  · next hk => exact ⟨hk, Option.some.inj hv⟩
  · exact absurd hv (by simp)

/-- The keys that are found are the ones listed, in any spelling. -/
theorem isSome_get?_iff {m : OrderedMap κ ν} {k : κ} :
    (m.get? k).isSome = true ↔ ∃ l ∈ m.keys, (k == l) = true := by
  constructor
  · intro h
    obtain ⟨v, hv⟩ := Option.isSome_iff_exists.mp h
    obtain ⟨e, he, hkey, -⟩ := mem_of_get?_eq_some hv
    exact ⟨e.1, List.mem_map_of_mem he, hkey⟩
  · rintro ⟨l, hl, hkey⟩
    obtain ⟨e, he, rfl⟩ := List.mem_map.mp hl
    cases hk : m.get? k with
    | some v => rfl
    | none =>
      rw [get?_eq_none_iff.mp hk e he] at hkey
      exact absurd hkey Bool.false_ne_true

/-! ## Keys -/

/-- A present key keeps its place and spelling. -/
theorem keys_insert_of_isSome {m : OrderedMap κ ν} {k : κ} (h : (m.get? k).isSome = true) (v : ν) :
    (m.insert k v).keys = m.keys := by
  obtain ⟨entries⟩ := m
  simp only [keys, insert]
  simp only [get?] at h
  induction entries with
  | nil => exact absurd h (by simp)
  | cons e rest ih =>
    obtain ⟨k', v'⟩ := e
    rw [insertEntry]
    split
    · rfl
    · next hk =>
      rw [List.lookup_cons, Bool.eq_false_iff.mpr hk] at h
      rw [List.map_cons, List.map_cons, ih h]

/-- A new key goes to the end. -/
theorem entries_insert_of_get?_eq_none {m : OrderedMap κ ν} {k : κ} (v : ν)
    (h : m.get? k = none) : (m.insert k v).entries = m.entries ++ [(k, v)] := by
  obtain ⟨entries⟩ := m
  simp only [insert]
  rw [get?_eq_none_iff] at h
  induction entries with
  | nil => rfl
  | cons e rest ih =>
    rw [insertEntry, h e List.mem_cons_self, ih fun x hx => h x (List.mem_cons_of_mem _ hx)]
    rfl

/-- The list of keys grows by a key that is new, and otherwise stays as it is. -/
theorem keys_insert (m : OrderedMap κ ν) (k : κ) (v : ν) :
    (m.insert k v).keys = if (m.get? k).isSome then m.keys else m.keys ++ [k] := by
  split
  · next h => exact keys_insert_of_isSome h v
  · next h =>
    have hnone : m.get? k = none := by simpa using h
    rw [keys, entries_insert_of_get?_eq_none v hnone, List.map_append]
    rfl

/-- Erasing an absent key changes nothing. -/
theorem erase_of_get?_eq_none {m : OrderedMap κ ν} {k : κ} (h : m.get? k = none) :
    m.erase k = m := by
  rw [get?_eq_none_iff] at h
  simp only [erase]
  rw [List.eraseP_of_forall_not fun e he => by simp [h e he]]

/-- Erasing leaves the order of the other keys. -/
theorem keys_erase_sublist (m : OrderedMap κ ν) (k : κ) :
    (m.erase k).keys.Sublist m.keys :=
  List.eraseP_sublist.map Prod.fst

theorem mem_of_mem_entries_erase {m : OrderedMap κ ν} {k : κ} {e : κ × ν}
    (h : e ∈ (m.erase k).entries) : e ∈ m.entries := List.mem_of_mem_eraseP h

/-- An entry after a write is the one written or was there before. -/
theorem mem_of_mem_entries_insert {m : OrderedMap κ ν} {k : κ} {v : ν} {e : κ × ν}
    (h : e ∈ (m.insert k v).entries) : e.2 = v ∨ e ∈ m.entries := by
  obtain ⟨entries⟩ := m
  simp only [insert] at h ⊢
  induction entries with
  | nil =>
    rw [insertEntry, List.mem_singleton] at h
    exact .inl (h ▸ rfl)
  | cons a rest ih =>
    rw [insertEntry] at h
    split at h
    · rcases List.mem_cons.mp h with heq | hrest
      · exact .inl (heq ▸ rfl)
      · exact .inr (List.mem_cons_of_mem _ hrest)
    · rcases List.mem_cons.mp h with heq | hrest
      · exact .inr (heq ▸ List.mem_cons_self)
      · exact (ih hrest).imp_right (List.mem_cons_of_mem _)

/-! ## What was there -/

/-- One run over the entries finds the old value and writes the new one. -/
theorem replaceEntry_eq (k : κ) (v : ν) (entries : List (κ × ν)) :
    replaceEntry k v entries = (entries.lookup k, insertEntry k v entries) := by
  induction entries with
  | nil => rfl
  | cons e rest ih =>
    rw [replaceEntry, insertEntry, List.lookup_cons, ih]
    cases k == e.1 <;> rfl

/-- Writing gives back what a look-up found just before. -/
theorem replace_eq (m : OrderedMap κ ν) (k : κ) (v : ν) :
    m.replace k v = (m.get? k, m.insert k v) := by
  rw [replace, replaceEntry_eq]
  rfl

/-- One run over the entries finds the value and takes it out. -/
theorem removeEntry_eq (k : κ) (entries : List (κ × ν)) :
    removeEntry k entries = (entries.lookup k, entries.eraseP fun e => k == e.1) := by
  induction entries with
  | nil => rfl
  | cons e rest ih =>
    rw [removeEntry, List.eraseP_cons, List.lookup_cons, ih]
    cases k == e.1 <;> rfl

/-- Erasing gives back what a look-up found just before. -/
theorem remove_eq (m : OrderedMap κ ν) (k : κ) : m.remove k = (m.get? k, m.erase k) := by
  rw [remove, removeEntry_eq]
  rfl

/-! ## Distinct keys -/

theorem distinct_iff_keys {m : OrderedMap κ ν} :
    m.Distinct ↔ m.keys.Pairwise fun a b => (a == b) = false := by
  rw [Distinct, keys, List.pairwise_map]

/-- Erasing keeps keys different. -/
theorem distinct_erase {m : OrderedMap κ ν} (h : m.Distinct) (k : κ) : (m.erase k).Distinct :=
  List.Pairwise.sublist List.eraseP_sublist h

variable [EquivBEq κ]

/-- Writing keeps keys different: a key that is there is not added again. -/
theorem distinct_insert {m : OrderedMap κ ν} (h : m.Distinct) (k : κ) (v : ν) :
    (m.insert k v).Distinct := by
  rw [distinct_iff_keys] at h ⊢
  rw [keys_insert]
  split
  · exact h
  · next hk =>
    have hnone : m.get? k = none := by simpa using hk
    rw [List.pairwise_append]
    refine ⟨h, List.pairwise_singleton _ _, fun a ha b hb => ?_⟩
    obtain ⟨e, he, rfl⟩ := List.mem_map.mp ha
    rw [List.mem_singleton.mp hb, BEq.comm]
    exact get?_eq_none_iff.mp hnone e he

/-- So does a run of writes. -/
theorem distinct_insertAll {m : OrderedMap κ ν} (h : m.Distinct) (entries : List (κ × ν)) :
    (m.insertAll entries).Distinct := by
  induction entries generalizing m with
  | nil => exact h
  | cons e rest ih => exact ih (distinct_insert h e.1 e.2)

/-- A map of a list has each key once, however often the list has it. -/
theorem distinct_ofList (entries : List (κ × ν)) : (ofList entries).Distinct :=
  distinct_insertAll distinct_empty entries

/-! ## Look-up -/

/-- A look-up does not tell spellings of a key apart. -/
theorem get?_congr (m : OrderedMap κ ν) {k k' : κ} (h : (k == k') = true) :
    m.get? k = m.get? k' := by
  obtain ⟨entries⟩ := m
  simp only [get?]
  induction entries with
  | nil => rfl
  | cons e rest ih =>
    obtain ⟨k₁, v₁⟩ := e
    have hsame : (k == k₁) = (k' == k₁) := BEq.congr_left h
    rw [List.lookup_cons, List.lookup_cons, hsame, ih]

/-- Each entry is what a look-up of its own key finds. -/
theorem get?_of_mem {m : OrderedMap κ ν} (hm : m.Distinct) {e : κ × ν} (h : e ∈ m.entries) :
    m.get? e.1 = some e.2 := by
  obtain ⟨entries⟩ := m
  simp only [get?]
  induction entries with
  | nil => exact absurd h List.not_mem_nil
  | cons a rest ih =>
    obtain ⟨k, v⟩ := a
    obtain ⟨hhead, hrest⟩ := List.pairwise_cons.mp hm
    rcases List.mem_cons.mp h with rfl | hmem
    · rw [List.lookup_cons, BEq.rfl]
    · have hne : (e.1 == k) = false := by rw [BEq.comm]; exact hhead e hmem
      rw [List.lookup_cons, hne]
      exact ih hrest hmem

/-- A look-up at the same key, however spelled, sees what was written. -/
theorem get?_insert_of_beq {m : OrderedMap κ ν} {k k' : κ} (h : (k' == k) = true) (v : ν) :
    (m.insert k v).get? k' = some v := by
  obtain ⟨entries⟩ := m
  simp only [insert, get?]
  induction entries with
  | nil => simp [insertEntry, List.lookup_cons, h]
  | cons e rest ih =>
    obtain ⟨k₁, v₁⟩ := e
    have hsame : (k' == k₁) = (k == k₁) := BEq.congr_left h
    rw [insertEntry]
    split
    · next hk => simp [List.lookup_cons, hsame, hk]
    · next hk => simpa [List.lookup_cons, hsame, hk] using ih

/-- A write at one key is not seen at another. -/
theorem get?_insert_of_not_beq {m : OrderedMap κ ν} {k k' : κ} (h : (k' == k) = false) (v : ν) :
    (m.insert k v).get? k' = m.get? k' := by
  obtain ⟨entries⟩ := m
  simp only [insert, get?]
  induction entries with
  | nil => simp [insertEntry, List.lookup_cons, h]
  | cons e rest ih =>
    obtain ⟨k₁, v₁⟩ := e
    rw [insertEntry]
    split
    · next hk =>
      have hsame : (k' == k) = (k' == k₁) := BEq.congr_right hk
      simp [List.lookup_cons, hsame ▸ h]
    · simp [List.lookup_cons, ih]

/-- A look-up after a write sees it at its key, and elsewhere what was there before. -/
theorem get?_insert (m : OrderedMap κ ν) (k k' : κ) (v : ν) :
    (m.insert k v).get? k' = if k' == k then some v else m.get? k' := by
  split
  · next h => exact get?_insert_of_beq h v
  · next h => exact get?_insert_of_not_beq (Bool.eq_false_iff.mpr h) v

/-- An erased key is not found, however spelled. -/
theorem get?_erase_of_beq {m : OrderedMap κ ν} (hm : m.Distinct) {k k' : κ}
    (h : (k' == k) = true) : (m.erase k).get? k' = none := by
  obtain ⟨entries⟩ := m
  simp only [erase, get?]
  induction entries with
  | nil => rfl
  | cons e rest ih =>
    obtain ⟨k₁, v₁⟩ := e
    obtain ⟨hhead, hrest⟩ := List.pairwise_cons.mp hm
    have hsame : (k' == k₁) = (k == k₁) := BEq.congr_left h
    rw [List.eraseP_cons]
    cases hk : k == k₁ with
    | true =>
      refine get?_eq_none_iff.mpr fun e he => ?_
      rw [BEq.congr_left (hsame.trans hk)]
      exact hhead e he
    | false =>
      rw [cond_false, List.lookup_cons, hsame, hk]
      exact ih hrest

/-- Erasing one key is not seen at another. -/
theorem get?_erase_of_not_beq (m : OrderedMap κ ν) {k k' : κ} (h : (k' == k) = false) :
    (m.erase k).get? k' = m.get? k' := by
  obtain ⟨entries⟩ := m
  simp only [erase, get?]
  induction entries with
  | nil => rfl
  | cons e rest ih =>
    obtain ⟨k₁, v₁⟩ := e
    rw [List.eraseP_cons]
    cases hk : k == k₁ with
    | true =>
      have hsame : (k' == k) = (k' == k₁) := BEq.congr_right hk
      rw [cond_true, List.lookup_cons, ← hsame, h]
    | false => rw [cond_false, List.lookup_cons, List.lookup_cons, ih]

/-- Only the key that is erased is lost. -/
theorem get?_erase {m : OrderedMap κ ν} (hm : m.Distinct) (k k' : κ) :
    (m.erase k).get? k' = if k' == k then none else m.get? k' := by
  split
  · next h => exact get?_erase_of_beq hm h
  · next h => exact get?_erase_of_not_beq m (Bool.eq_false_iff.mpr h)

/-- Of two writes to a key, however spelled, the second is what remains. -/
theorem insert_insert_of_beq (m : OrderedMap κ ν) {k l : κ} (h : (k == l) = true) (v w : ν) :
    (m.insert k v).insert l w = m.insert k w := by
  obtain ⟨entries⟩ := m
  simp only [insert, mk.injEq]
  induction entries with
  | nil =>
    have hlk : (l == k) = true := BEq.symm h
    simp [insertEntry, hlk]
  | cons e rest ih =>
    have hsame : (l == e.1) = (k == e.1) := (BEq.congr_left h).symm
    cases hk : k == e.1 with
    | true => simp [insertEntry, hsame, hk]
    | false => simpa [insertEntry, hsame, hk] using ih

/-- Erasing what was just written, however the key is spelled, leaves nothing at the key. -/
theorem erase_insert_of_beq (m : OrderedMap κ ν) {k l : κ} (h : (k == l) = true) (v : ν) :
    (m.insert k v).erase l = m.erase k := by
  obtain ⟨entries⟩ := m
  simp only [insert, erase, mk.injEq]
  induction entries with
  | nil =>
    have hlk : (l == k) = true := BEq.symm h
    simp [insertEntry, hlk]
  | cons e rest ih =>
    have hsame : (l == e.1) = (k == e.1) := (BEq.congr_left h).symm
    cases hk : k == e.1 with
    | true => simp [insertEntry, hsame, hk]
    | false => simpa [insertEntry, hsame, hk] using ih

/-- An erased key is no longer listed, in any spelling. -/
theorem not_beq_of_mem_keys_erase {m : OrderedMap κ ν} (hm : m.Distinct) {k l : κ}
    (h : l ∈ (m.erase k).keys) : (l == k) = false := by
  have hsome : ((m.erase k).get? l).isSome = true := isSome_get?_iff.mpr ⟨l, h, BEq.rfl⟩
  rw [get?_erase hm] at hsome
  cases hk : l == k with
  | false => rfl
  | true =>
    rw [hk] at hsome
    exact absurd hsome Bool.false_ne_true

end OrderedMap

end Conformance

import Conformance.Value.WellFormed
import Conformance.Proofs.ArrayPart
import Conformance.Proofs.Walk

/-!
# Every mismatch is genuine

A mismatch names a part of the value, a part of the spec and a path. `Value.At` says
where a path leads to in a value and `Spec.At` where it leads to in a spec, both without
any checking. Main statement:

> `Checker.exists_genuine_of_mem`: of all that a checker finds, the path is of the right
> shape, leads in the value exactly to what was found and in the spec to what was
> expected, and what was found does not fit what was expected.

What holds of a mismatch (`Mismatch.Genuine`) holds of it when it is seen from a node
further up, with one law for each way down: through an optional spec or a union nothing
is added to the path, and through a container the segment of the part.
-/

namespace Conformance

/-- The part of a value that a path leads to. An absent key leads to nil. -/
inductive Value.At : Value → Path → Value → Prop where
  | here {v : Value} : At v [] v
  | entry {t : Table} {k : Key} {path : Path} {x : Value} (rest : At (Table.get t k) path x) :
      At (.table t) (.entry k :: path) x
  | key {t : Table} {e : Key × Value} {path : Path} {x : Value} (mem : e ∈ t.entries)
      (rest : At e.1.toValue path x) : At (.table t) (.key e.1 :: path) x

/-- The part of a spec that a path leads to. There may be several, as a union has several
options. -/
inductive Spec.At : Spec → Path → Spec → Prop where
  | here {s : Spec} : At s [] s
  | optional {inner e : Spec} {path : Path} (rest : At inner path e) : At (.optional inner) path e
  | union {options : List Spec} {s e : Spec} {path : Path} (mem : s ∈ options)
      (rest : At s path e) : At (.union options) path e
  | key {key val e : Spec} {k : Key} {path : Path} (rest : At key path e) :
      At (.keyed key val) (.key k :: path) e
  | entry {key val e : Spec} {k : Key} {path : Path} (rest : At val path e) :
      At (.keyed key val) (.entry k :: path) e
  | field {fields : OrderedMap String Spec} {f : String × Spec} {e : Spec} {path : Path}
      (mem : f ∈ fields.entries) (rest : At f.2 path e) :
      At (.record fields) (.entry (.str f.1) :: path) e
  | element {element e : Spec} {i : Int} {path : Path} (one_le : 1 ≤ i) (rest : At element path e) :
      At (.array element) (.entry (.int i) :: path) e

/-- From a value that is not a table no path leads on. -/
theorem Value.At.path_eq_nil {v x : Value} {path : Path} (h : v.At path x)
    (hv : v.kind ≠ .table) : path = [] := by
  cases h with
  | here => rfl
  | entry _ => exact absurd rfl hv
  | key _ _ => exact absurd rfl hv

/-- The path through the value side of entries, and last perhaps to the key side of one. -/
def Path.through (keys : List Key) (last : Option Key) : Path :=
  keys.map .entry ++ last.toList.map .key

/-- A mismatch that is what it says it is. -/
structure Mismatch.Genuine (s : Spec) (v : Value) (m : Mismatch) : Prop where
  path_eq : ∃ keys last, m.path = Path.through keys last
  value_at : v.At m.path m.value
  expected_at : s.At m.path m.expected
  not_fits : m.expected.fits m.value = false

namespace Mismatch.Genuine

variable {s : Spec} {v : Value} {m : Mismatch}

/-- A value that does not fit is rightly reported itself. -/
theorem of_not_fits (h : s.fits v = false) : Genuine s v ⟨v, s, []⟩ where
  path_eq := ⟨[], none, rfl⟩
  value_at := .here
  expected_at := .here
  not_fits := h

theorem optional (h : Genuine s v m) : Genuine (.optional s) v m :=
  { h with expected_at := .optional h.expected_at }

theorem union {options : List Spec} (hs : s ∈ options) (h : Genuine s v m) :
    Genuine (.union options) v m :=
  { h with expected_at := .union hs h.expected_at }

/-- A mismatch on the key side is the key itself, so that its path ends there. -/
theorem key {val : Spec} {t : Table} {e : Key × Value} (he : e ∈ t.entries)
    (h : Genuine s e.1.toValue m) : Genuine (.keyed s val) (.table t) (m.under (.key e.1)) where
  path_eq := by
    -- a key is no table, so no path leads on from it
    have hpath := h.value_at.path_eq_nil e.1.kind_toValue_ne_table
    refine ⟨[], some e.1, ?_⟩
    rw [under, hpath]
    rfl
  value_at := .key he h.value_at
  expected_at := .key h.expected_at
  not_fits := h.not_fits

/-- A path to a part goes through one key more when it is seen from the table. -/
theorem path_eq_under_entry (h : Genuine s v m) (k : Key) :
    ∃ keys last, (m.under (.entry k)).path = Path.through keys last := by
  obtain ⟨keys, last, hpath⟩ := h.path_eq
  refine ⟨k :: keys, last, ?_⟩
  rw [under, hpath]
  rfl

/-- The key of an entry leads to the value of the same entry, because no other entry has an
equal key. -/
theorem entry {key : Spec} {t : Table} (ht : Table.WellFormed t) {e : Key × Value}
    (he : e ∈ t.entries) (h : Genuine s e.2 m) :
    Genuine (.keyed key s) (.table t) (m.under (.entry e.1)) where
  path_eq := h.path_eq_under_entry e.1
  value_at := by
    apply Value.At.entry
    rw [Table.get_of_mem ht he]
    exact h.value_at
  expected_at := .entry h.expected_at
  not_fits := h.not_fits

/-- What is rightly reported of a field is rightly reported of the record. -/
theorem field {fields : OrderedMap String Spec} {f : String × Spec} (hf : f ∈ fields.entries)
    {t : Table} (h : Genuine f.2 (Table.get t (.str f.1)) m) :
    Genuine (.record fields) (.table t) (m.under (.entry (.str f.1))) where
  path_eq := h.path_eq_under_entry (.str f.1)
  value_at := .entry h.value_at
  expected_at := .field hf h.expected_at
  not_fits := h.not_fits

/-- What is rightly reported of an element is rightly reported of the array. -/
theorem element {t : Table} {i : Int} (hi : 1 ≤ i) (h : Genuine s (Table.get t (.int i)) m) :
    Genuine (.array s) (.table t) (m.under (.entry (.int i))) where
  path_eq := h.path_eq_under_entry (.int i)
  value_at := .entry h.value_at
  expected_at := .element hi h.expected_at
  not_fits := h.not_fits

end Mismatch.Genuine

namespace Spec

/-- All that is wrong with a value is genuine. -/
theorem genuine_of_mem {s : Spec} {budget : Budget} {v : Value} (hv : v.WellFormed) {m : Mismatch}
    (hm : m ∈ s.mismatches budget v) : m.Genuine s v := by
  induction s generalizing budget v m with
  | any => exact absurd hm List.not_mem_nil
  | never =>
    rw [List.mem_singleton.mp hm]
    exact .of_not_fits rfl
  | kind k =>
    rw [mismatches_kind] at hm
    split at hm
    · exact absurd hm List.not_mem_nil
    · next h =>
      rw [List.mem_singleton.mp hm]
      exact .of_not_fits (Bool.eq_false_iff.mpr h)
  | literal l =>
    rw [mismatches_literal] at hm
    split at hm
    · exact absurd hm List.not_mem_nil
    · next h =>
      rw [List.mem_singleton.mp hm]
      exact .of_not_fits (Bool.eq_false_iff.mpr h)
  | optional inner ih =>
    rcases mem_mismatches_optional hm with ⟨hfits, rfl⟩ | hinner
    · exact .of_not_fits hfits
    · exact (ih hv hinner).optional
  | union options ih =>
    rcases mem_mismatches_union hm with ⟨hfits, rfl⟩ | ⟨s, hs, hoption⟩
    · exact .of_not_fits hfits
    · exact (ih s hs hv hoption).union hs
  | keyed key val ihKey ihVal =>
    rcases mem_mismatches_container (fun _ => rfl) hm with ⟨hfits, rfl⟩ | ⟨t, rfl⟩
    · exact .of_not_fits hfits
    rw [mismatches_keyed_table] at hm
    obtain ⟨e, he, hmem⟩ := mem_of_mem_firstFailure (Budget.mem_of_mem_ite_isSpent hm)
    rcases mem_entryMismatches.mp hmem with ⟨n, hn, rfl⟩ | ⟨n, hn, rfl⟩
    · exact (ihKey e.1.wellFormed_toValue hn).key he
    · exact (ihVal (Table.WellFormed.entries hv e he) hn).entry hv he
  | record fields ih =>
    rcases mem_mismatches_container (fun _ => rfl) hm with ⟨hfits, rfl⟩ | ⟨t, rfl⟩
    · exact .of_not_fits hfits
    rw [mismatches_record_table] at hm
    obtain ⟨f, hf, hmem⟩ := List.mem_flatMap.mp (Budget.mem_of_mem_ite_isSpent hm)
    obtain ⟨n, hn, rfl⟩ := List.mem_map.mp hmem
    exact (ih f hf (Table.wellFormed_get hv (.str f.1)) hn).field hf
  | array element ih =>
    rcases mem_mismatches_container (fun _ => rfl) hm with ⟨hfits, rfl⟩ | ⟨t, rfl⟩
    · exact .of_not_fits hfits
    rw [mismatches_array_table] at hm
    obtain ⟨e, he, hmem⟩ := mem_of_mem_firstFailure (Budget.mem_of_mem_ite_isSpent hm)
    obtain ⟨n, hn, rfl⟩ := List.mem_map.mp hmem
    obtain ⟨hi, hget⟩ := Table.get_of_mem_run he
    exact (ih (Table.wellFormed_get hv (.int e.1)) (hget ▸ hn)).element hi.1

end Spec

namespace Checker

/-- Every mismatch that a checker finds is genuine. Its path starts with the name of the root
if there is one, and from there on leads to what was found and to what was expected of it. -/
theorem exists_genuine_of_mem (c : Checker) {v : Value} (hv : v.WellFormed) {m : Mismatch}
    (hm : m ∈ c.mismatches v) :
    ∃ keys last, m.path = c.settings.name.toList.map .root ++ Path.through keys last ∧
      v.At (Path.through keys last) m.value ∧ c.spec.At (Path.through keys last) m.expected ∧
      m.expected.fits m.value = false := by
  rw [mismatches_eq] at hm
  obtain ⟨n, hn, rfl⟩ := List.mem_map.mp hm
  have hgenuine := Spec.genuine_of_mem hv hn
  obtain ⟨keys, last, hpath⟩ := hgenuine.path_eq
  refine ⟨keys, last, ?_, hpath ▸ hgenuine.value_at, hpath ▸ hgenuine.expected_at,
    hgenuine.not_fits⟩
  rw [Mismatch.below, hpath]
  rfl

/-- A list of one table, which has a truth value for a key. -/
def flagged : Value := .table (Table.ofList [.table (Table.set ∅ (.bool true) (.boolean false))])

theorem wellFormed_flagged : flagged.WellFormed :=
  Table.wellFormed_ofList (List.forall_mem_singleton.mpr
    (Table.wellFormed_set Table.wellFormed_empty (.scalar (by decide)) (.bool true)))

/-- A list of tables with strings for keys, under the name `list`. -/
def stringKeyed : Checker := ⟨.array (.keyed (.kind .string) .any), ⟨none, some "list"⟩⟩

/-- The key of an entry of an element of a named list is found under its name. -/
theorem exists_genuine_flagged :
    ⟨.boolean true, .kind .string, [.root "list", .entry (.int 1), .key (.bool true)]⟩ ∈
        stringKeyed.mismatches flagged ∧
      ∃ keys last, [.root "list", .entry (.int 1), .key (.bool true)] =
          stringKeyed.settings.name.toList.map .root ++ Path.through keys last ∧
        flagged.At (Path.through keys last) (.boolean true) ∧
        stringKeyed.spec.At (Path.through keys last) (.kind .string) ∧
        (Spec.kind .string).fits (.boolean true) = false := by
  have hm : ⟨.boolean true, .kind .string, [.root "list", .entry (.int 1), .key (.bool true)]⟩ ∈
      stringKeyed.mismatches flagged := List.mem_singleton.mpr rfl
  exact ⟨hm, exists_genuine_of_mem stringKeyed wellFormed_flagged hm⟩

end Checker

end Conformance

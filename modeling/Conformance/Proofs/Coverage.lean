import Conformance.OrderedMap.Lemmas
import Conformance.Proofs.ArrayPart
import Conformance.Proofs.Truncation

/-!
# Limits that are not felt

A limit on the depth can be so large that a check never comes up against it. Either the value
does not go deeper (`Value.height`), or the spec does not (`Spec.nesting`):

> `Checker.mismatches_eq_unlimited`: under a limit that is at least the height of the value or the
> nesting of the spec, a check finds what it would find without a limit. Under any limit, it
> finds nothing that lies more containers deep than the limit.

A value and a spec are walked together, and the limit goes down by one where both go into a
container. So it is enough that one of the two is used up first. A table without entries counts
as a container like any other: the declared fields of a record are looked up in it.
-/

namespace Conformance

/-- A maximum that is taken along a list is at least what each element has. -/
theorem le_of_mem_of_cons_eq_max {α : Type} {f : α → Nat} {g : List α → Nat}
    (hcons : ∀ a rest, g (a :: rest) = max (f a) (g rest)) {as : List α} {a : α} (h : a ∈ as) :
    f a ≤ g as := by
  induction as with
  | nil => exact absurd h List.not_mem_nil
  | cons b rest ih =>
    rw [hcons]
    rcases List.mem_cons.mp h with rfl | hrest
    · exact Nat.le_max_left _ _
    · exact Nat.le_trans (ih hrest) (Nat.le_max_right _ _)

/-! ## How deep a value goes -/

namespace Value

mutual

/-- How many tables deep a value goes. A table without entries goes one deep. -/
def height (v : Value) : Nat :=
  match v with
  | .table ⟨entries⟩ => heightEntries entries + 1
  | _ => 0
termination_by structural v

/-- How many tables deep the values of entries go, at most. -/
def heightEntries (entries : List (Key × Value)) : Nat :=
  match entries with
  | [] => 0
  | (_, v) :: rest => max (height v) (heightEntries rest)
termination_by structural entries

end

/-- A value that is no table has no tables in it. -/
theorem height_of_kind_ne {v : Value} (h : v.kind ≠ .table) : v.height = 0 := by
  cases v with
  | table t => exact absurd rfl h
  | _ => rfl

theorem height_table_pos (t : Table) : 0 < (table t).height := Nat.succ_pos _

/-- An entry goes less deep than the table that it is in. -/
theorem height_entry_lt {t : Table} {e : Key × Value} (h : e ∈ t.entries) :
    e.2.height < (table t).height :=
  Nat.lt_succ_of_le (le_of_mem_of_cons_eq_max (f := fun e => e.2.height) (fun _ _ => rfl) h)

/-- A key does not go deep at all. -/
theorem height_key_lt (k : Key) (t : Table) : k.toValue.height < (table t).height := by
  rw [height_of_kind_ne k.kind_toValue_ne_table]
  exact height_table_pos t

/-- What is looked up goes less deep than the table, whether it is there or not. -/
theorem height_get_lt (t : Table) (k : Key) : (Table.get t k).height < (table t).height := by
  rw [Table.get]
  cases hv : t.get? k with
  | none => exact height_table_pos t
  | some v =>
    obtain ⟨e, he, -, heq⟩ := OrderedMap.mem_of_get?_eq_some hv
    rw [Option.getD_some, ← heq]
    exact height_entry_lt he

end Value

/-! ## How deep a spec goes -/

namespace Spec

mutual

/-- How many container specs deep a spec goes. An optional spec and a union do not count. -/
def nesting (s : Spec) : Nat :=
  match s with
  | .optional inner => nesting inner
  | .union options => nestingOptions options
  | .keyed key val => max (nesting key) (nesting val) + 1
  | .record ⟨fields⟩ => nestingFields fields + 1
  | .array element => nesting element + 1
  | _ => 0
termination_by structural s

/-- How deep options go, at most. -/
def nestingOptions (options : List Spec) : Nat :=
  match options with
  | [] => 0
  | s :: rest => max (nesting s) (nestingOptions rest)
termination_by structural options

/-- How deep the specs of fields go, at most. -/
def nestingFields (fields : List (String × Spec)) : Nat :=
  match fields with
  | [] => 0
  | (_, s) :: rest => max (nesting s) (nestingFields rest)
termination_by structural fields

end

/-- A union is at least as deep as each of its options. -/
theorem nesting_option_le {options : List Spec} {s : Spec} (h : s ∈ options) :
    s.nesting ≤ (union options).nesting :=
  le_of_mem_of_cons_eq_max (g := nestingOptions) (fun _ _ => rfl) h

theorem nesting_key_lt (key val : Spec) : key.nesting < (keyed key val).nesting :=
  Nat.lt_succ_of_le (Nat.le_max_left _ _)

theorem nesting_value_lt (key val : Spec) : val.nesting < (keyed key val).nesting :=
  Nat.lt_succ_of_le (Nat.le_max_right _ _)

/-- A record is deeper than the spec of each of its fields. -/
theorem nesting_field_lt {fields : OrderedMap String Spec} {f : String × Spec}
    (h : f ∈ fields.entries) : f.2.nesting < (record fields).nesting :=
  Nat.lt_succ_of_le (le_of_mem_of_cons_eq_max (f := fun f => f.2.nesting) (fun _ _ => rfl) h)

/-- An array is deeper than the spec of its elements. -/
theorem nesting_element_lt (element : Spec) : element.nesting < (array element).nesting :=
  Nat.lt_succ_self _

/-! ## A limit that one of the two stays within -/

/-- The value goes no deeper than the limit, or the spec does not. -/
def CoveredBy (s : Spec) (v : Value) (d : Nat) : Prop := v.height ≤ d ∨ s.nesting ≤ d

variable {s s' : Spec} {v w : Value} {d : Nat}

/-- A table that a container spec is about takes up some of the limit, even if it is empty. -/
theorem CoveredBy.exists_succ {t : Table} (h : s.CoveredBy (.table t) d) (hs : 0 < s.nesting) :
    ∃ n, d = n + 1 := by
  have hv := Value.height_table_pos t
  have hd : d ≠ 0 := by
    rcases h with hheight | hnesting <;> omega
  exact Nat.exists_eq_succ_of_ne_zero hd

/-- Where both go into a container, what is left of the limit covers what is in there. -/
theorem CoveredBy.part (h : s.CoveredBy v (d + 1)) (hs : s'.nesting < s.nesting)
    (hv : w.height < v.height) : s'.CoveredBy w d := by
  rcases h with hheight | hnesting
  · exact .inl (Nat.le_of_lt_succ (Nat.lt_of_lt_of_le hv hheight))
  · exact .inr (Nat.le_of_lt_succ (Nat.lt_of_lt_of_le hs hnesting))

theorem respectsNil_eq {γ : Type} : RespectsNil (fun found found' : List γ => found = found') :=
  ⟨rfl, fun h => by rw [h]⟩

/-- A container spec need only be followed into tables that the limit lets it go into. -/
theorem mismatches_of_covered_tables (hs : ∀ x, s.fits x = (x.kind == .table))
    (hnesting : 0 < s.nesting)
    (h : ∀ n t, s.CoveredBy (.table t) (n + 1) →
      s.mismatches (some (n + 1)) (.table t) = s.mismatches none (.table t))
    (hd : s.CoveredBy v d) : s.mismatches (some d) v = s.mismatches none v := by
  refine rel_container (P := fun found found' => found = found') rfl hs hs rfl ?_
  rintro t _ rfl -
  obtain ⟨n, rfl⟩ := hd.exists_succ hnesting
  exact h n t hd

/-- What is found under a limit that covers the value or the spec is found without a limit. -/
theorem mismatches_of_covered (h : s.CoveredBy v d) :
    s.mismatches (some d) v = s.mismatches none v := by
  have hP : RespectsNil (fun found found' : List Mismatch => found = found') := respectsNil_eq
  induction s generalizing d v with
  | any => rfl
  | never => rfl
  | kind k => rfl
  | literal l => rfl
  | optional inner ih => exact rel_optional hP rfl rfl rfl (ih h)
  | union options ih =>
    refine rel_union hP rfl rfl ?_
    rw [List.forall₂_same]
    intro s hs
    exact ih s hs (h.imp_right (Nat.le_trans (nesting_option_le hs)))
  | keyed key val ihKey ihVal =>
    refine mismatches_of_covered_tables (fun _ => rfl) (Nat.succ_pos _) ?_ h
    intro n t hn
    rw [mismatches_keyed_table, mismatches_keyed_table]
    refine hP.firstFailure ?_
    rw [List.forall₂_same]
    intro e he
    have hkey := hn.part (nesting_key_lt key val) (Value.height_key_lt e.1 t)
    have hval := hn.part (nesting_value_lt key val) (Value.height_entry_lt he)
    show entryMismatches key val (some n) e = entryMismatches key val none e
    rw [entryMismatches, entryMismatches, ihKey hkey, ihVal hval]
  | record fields ih =>
    refine mismatches_of_covered_tables (fun _ => rfl) (Nat.succ_pos _) ?_ h
    intro n t hn
    rw [mismatches_record_table, mismatches_record_table]
    apply List.flatMap_congr
    intro f hf
    have hfield := hn.part (nesting_field_lt hf) (Value.height_get_lt t (.str f.1))
    show fieldMismatches (some n) t f = fieldMismatches none t f
    rw [fieldMismatches, fieldMismatches, ih f hf hfield]
  | array element ih =>
    refine mismatches_of_covered_tables (fun _ => rfl) (Nat.succ_pos _) ?_ h
    intro n t hn
    rw [mismatches_array_table, mismatches_array_table]
    refine hP.firstFailure ?_
    rw [List.forall₂_same]
    intro e he
    -- an element of the run is what is looked up at its index
    have helement := hn.part (nesting_element_lt element) (Value.height_get_lt t (.int e.1))
    rw [(Table.get_of_mem_run he).2] at helement
    show elementMismatches element (some n) e = elementMismatches element none e
    rw [elementMismatches, elementMismatches, ih helement]

/-- Under a limit nothing is found that lies deeper than the limit. -/
theorem depth_le_of_mem_mismatches {m : Mismatch} (hm : m ∈ s.mismatches (some d) v) :
    m.path.depth ≤ d := by
  -- the same is found against the spec that is cut off at that depth
  have hbound := (mismatches_truncated s d v).imp fun _ _ h => And.intro h.depth_le h
  exact ((List.forall₂_and_left _ _).mp hbound).1 m hm

end Spec

namespace Checker

/-- A limit that is at least the height of the value or the nesting of the spec is as good as
none; and no mismatch that is found under a limit lies deeper than the limit. -/
theorem mismatches_eq_unlimited (s : Spec) (v : Value) (name : Option String) (d : Nat) :
    (v.height ≤ d ∨ s.nesting ≤ d → (Checker.mk s ⟨some d, name⟩).mismatches v =
        (Checker.mk s ⟨none, name⟩).mismatches v) ∧
      ∀ m ∈ (Checker.mk s ⟨some d, name⟩).mismatches v, m.path.depth ≤ d := by
  rw [mismatches_eq, mismatches_eq]
  constructor
  · intro hcovered
    exact congrArg (List.map _) (Spec.mismatches_of_covered hcovered)
  · intro m hm
    obtain ⟨n, hn, rfl⟩ := List.mem_map.mp hm
    rw [Mismatch.below, Settings.rootPath, Path.depth_root_append]
    exact Spec.depth_le_of_mem_mismatches hn

/-- Tables with a list of rows of numbers each. -/
def grids : Spec := .array (.record ⟨[("rows", .array (.array (.kind .number)))]⟩)

/-- A list of a table without entries. -/
def emptyGrid : Value := .table (Table.ofList [.table ∅])

/-- The table without entries has no rows. That is not seen one container deep, and two deep it
is, as it is without a limit, although the spec goes on. -/
theorem mismatches_eq_unlimited_emptyGrid :
    grids.nesting = 4 ∧ emptyGrid.height ≤ 2 ∧
      (Checker.mk grids ⟨some 1, some "grids"⟩).mismatches emptyGrid = [] ∧
      (Checker.mk grids ⟨some 2, some "grids"⟩).mismatches emptyGrid =
        [⟨.nil, .array (.array (.kind .number)),
          [.root "grids", .entry (.int 1), .entry (.str "rows")]⟩] ∧
      (Checker.mk grids ⟨some 2, some "grids"⟩).mismatches emptyGrid =
        (Checker.mk grids ⟨none, some "grids"⟩).mismatches emptyGrid ∧
      ∀ m ∈ (Checker.mk grids ⟨some 2, some "grids"⟩).mismatches emptyGrid, m.path.depth ≤ 2 := by
  have hheight : emptyGrid.height ≤ 2 := Nat.le_refl 2
  obtain ⟨hsame, hdepth⟩ := mismatches_eq_unlimited grids emptyGrid (some "grids") 2
  exact ⟨rfl, hheight, rfl, rfl, hsame (.inl hheight), hdepth⟩

end Checker

end Conformance

import Conformance.Value.Building

/-!
# Loading a document and finding one's way in it

What a document holds can be looked for before it is loaded or after. This file shows that it
makes no difference, however deep it lies:

> `Document.toValue_follow`: where a path leads in a document is loaded as the value to which
> the same path leads in the loaded document.

A step is to a member by name or to an item by index. Before loading, items are counted from
0, and what is not there is null; after, they are counted from 1, and what is not there is
nil. At each container on the way the entries of the table are the members or items that are
not null, in document order (`Document.listing`).
-/

namespace Conformance

namespace Document

/-- A document whose objects, at every level, have members with different names. -/
inductive WellFormed : Document → Prop where
  | null : WellFormed .null
  | bool (b : Bool) : WellFormed (.bool b)
  | integer (i : Int) : WellFormed (.integer i)
  | float (x : Binary64) : WellFormed (.float x)
  | string (s : String) : WellFormed (.string s)
  | array {items : List Document} (wellFormed : ∀ d ∈ items, WellFormed d) :
      WellFormed (.array items)
  | object {members : List (String × Document)} (distinct : (members.map Prod.fst).Nodup)
      (wellFormed : ∀ m ∈ members, WellFormed m.2) : WellFormed (.object members)

/-- Whether a document is null. -/
def isNull : Document → Bool
  | .null => true
  | _ => false

/-- The members or the items, in document order, each at the key that it is loaded at. -/
def parts : Document → List (Key × Document)
  | .array items => Key.indexed items
  | .object members => members.map fun m => (.str m.1, m.2)
  | _ => []

/-- The members or the items that are not null, in document order, each with its key and
loaded. -/
def listing (d : Document) : List (Key × Value) :=
  (d.parts.filter fun p => !p.2.isNull).map fun p => (p.1, p.2.toValue)

/-! ## Following a path -/

/-- A step into a document: to the member with a name, or to the item at an index. -/
inductive Step where
  | member (name : String)
  | item (index : Nat)

/-- The key that a step leads to once the document is loaded. -/
def Step.key : Step → Key
  | .member name => .str name
  | .item index => .int (index + 1)

/-- What a step leads to. It leads to null when there is no such member or item, and from
anything that is not of the kind. -/
def step : Document → Step → Document
  | .object members, .member name => (members.lookup name).getD .null
  | .array items, .item index => items[index]?.getD .null
  | _, _ => .null

/-- What a path leads to. -/
def follow (d : Document) (path : List Step) : Document := path.foldl step d

end Document

/-- What is at a key of a value. From a scalar every key leads to nil. -/
def Value.step : Value → Key → Value
  | .table t, k => Table.get t k
  | _, _ => .nil

/-- What a path of keys leads to. -/
def Value.follow (v : Value) (path : List Key) : Value := path.foldl Value.step v

namespace Document

/-! ## What is loaded -/

/-- Only null is loaded as nil. -/
theorem isNil_toValue (d : Document) : d.toValue.isNil = d.isNull := by
  cases d <;> rfl

/-- The members of an object and the items of an array have different keys. -/
theorem WellFormed.parts_pairwise {d : Document} (hd : d.WellFormed) :
    d.parts.Pairwise fun a b => (a.1 == b.1) = false := by
  cases hd with
  | @array items wellFormed => exact Key.indexedFrom_pairwise 1 items
  | @object members distinct wellFormed =>
    rw [parts, List.pairwise_map]
    apply (List.pairwise_map.mp distinct).imp
    intro a b hab
    show (a.1 == b.1) = false
    exact beq_eq_false_iff_ne.mpr hab
  | _ => exact .nil

/-- The entries that a document sets when it is loaded. -/
def settings (d : Document) : List (Key × Value) := d.parts.map fun p => (p.1, p.2.toValue)

theorem settings_object (members : List (String × Document)) :
    (object members).settings = members.map fun m => (.str m.1, m.2.toValue) := by
  rw [settings, parts, List.map_map]
  rfl

theorem settings_array (items : List Document) :
    (array items).settings = Key.indexed (items.map toValue) := (Key.indexed_map toValue items).symm

/-- An array is loaded by setting its items at 1, 2, … in an empty table. -/
theorem toValue_array (items : List Document) :
    (array items).toValue = .table (Table.setAll ∅ (array items).settings) := by
  rw [toValue, toValues_eq_map, Table.ofList_eq_setAll, settings_array]

/-- An object is loaded by setting its members at their names in an empty table. -/
theorem toValue_object (members : List (String × Document)) :
    (object members).toValue = .table (Table.setAll ∅ (object members).settings) := by
  rw [toValue, toEntries_eq_map, settings_object]

/-- A document that is loaded as a table sets the entries of it. -/
theorem eq_setAll_of_toValue {d : Document} {t : Table} (h : d.toValue = .table t) :
    t = Table.setAll ∅ d.settings := by
  cases d with
  | array items => exact (Value.table.inj ((toValue_array items).symm.trans h)).symm
  | object members => exact (Value.table.inj ((toValue_object members).symm.trans h)).symm
  | _ => exact absurd (congrArg Value.kind h) (by simp [toValue, Value.ofInt, Value.kind])

/-- A document sets no key twice. -/
theorem WellFormed.settings_pairwise {d : Document} (hd : d.WellFormed) :
    d.settings.Pairwise fun a b => (a.1 == b.1) = false :=
  List.pairwise_map.mpr hd.parts_pairwise

/-- The entries of a table that was loaded are the parts that are not null. -/
theorem WellFormed.entries_eq_listing {d : Document} (hd : d.WellFormed) {t : Table}
    (h : d.toValue = .table t) : t.entries = d.listing := by
  have hnew : ∀ e ∈ d.settings, (∅ : Table).get? e.1 = none := fun _ _ => rfl
  have hentries :=
    Table.entries_setAll hd.settings_pairwise OrderedMap.distinct_empty hnew
  have hkept :
      ((fun e : Key × Value => !e.2.isNil) ∘ fun p : Key × Document => (p.1, p.2.toValue)) =
      fun p => !p.2.isNull := by
    funext p
    simp only [Function.comp_apply, isNil_toValue]
  rw [eq_setAll_of_toValue h, hentries, listing, settings, List.filter_map, hkept]
  rfl

/-- A look-up in a loaded document finds what the part at that key is loaded as. -/
theorem WellFormed.step_eq_lookup {d : Document} (hd : d.WellFormed) (k : Key) :
    d.toValue.step k = (d.settings.lookup k).getD .nil := by
  have hget := Table.get_setAll hd.settings_pairwise OrderedMap.distinct_empty k
  cases hd with
  | @array items wellFormed =>
    rw [toValue_array, Value.step, hget]
    rfl
  | @object members distinct wellFormed =>
    rw [toValue_object, Value.step, hget]
    rfl
  | _ => rfl

/-! ## One step -/

theorem lookup_settings_object (members : List (String × Document)) (name : String) :
    (object members).settings.lookup (.str name) = (members.lookup name).map toValue := by
  rw [settings_object]
  induction members with
  | nil => rfl
  | cons m rest ih =>
    obtain ⟨name', d⟩ := m
    rw [List.map_cons, List.lookup_cons, List.lookup_cons]
    have hkey : (Key.str name == Key.str name') = (name == name') := rfl
    rw [hkey]
    cases name == name' with
    | true => rfl
    | false => exact ih

theorem lookup_settings_object_int (members : List (String × Document)) (i : Int) :
    (object members).settings.lookup (.int i) = none := by
  rw [settings_object, List.lookup_eq_none_iff]
  intro e he
  obtain ⟨m, -, rfl⟩ := List.mem_map.mp he
  rfl

/-- A step before loading leads to what the same step leads to after. -/
theorem WellFormed.toValue_step {d : Document} (hd : d.WellFormed) (s : Step) :
    (d.step s).toValue = d.toValue.step s.key := by
  rw [hd.step_eq_lookup]
  cases d with
  | array items =>
    rw [settings_array]
    cases s with
    | member name => rw [Step.key, Key.lookup_indexed_str]; rfl
    | item index =>
      rw [Step.key, Key.lookup_indexed, List.getElem?_map, step]
      cases items[index]? <;> rfl
  | object members =>
    cases s with
    | member name =>
      rw [Step.key, lookup_settings_object, step]
      cases members.lookup name <;> rfl
    | item index => rw [Step.key, lookup_settings_object_int]; rfl
  | _ => cases s <;> rfl

/-- What a step leads to is well-formed too. -/
theorem WellFormed.step {d : Document} (hd : d.WellFormed) (s : Step) : (d.step s).WellFormed := by
  cases hd with
  | @array items wellFormed =>
    cases s with
    | member name => exact .null
    | item index =>
      rw [Document.step]
      cases hi : items[index]? with
      | none => exact .null
      | some x => exact wellFormed x (List.mem_of_getElem? hi)
  | @object members distinct wellFormed =>
    cases s with
    | item index => exact .null
    | member name =>
      rw [Document.step]
      cases hm : members.lookup name with
      | none => exact .null
      | some x =>
        obtain ⟨m, hmem, -, rfl⟩ := OrderedMap.mem_of_get?_eq_some (m := ⟨members⟩) hm
        exact wellFormed m hmem
  | _ => cases s <;> exact .null

/-! ## A path -/

theorem WellFormed.follow {d : Document} (hd : d.WellFormed) (path : List Step) :
    (d.follow path).WellFormed := by
  induction path generalizing d with
  | nil => exact hd
  | cons s rest ih => exact ih (hd.step s)

/-- What is found on a path in a document is loaded as what is found there in the loaded
document. -/
theorem WellFormed.toValue_follow_eq {d : Document} (hd : d.WellFormed) (path : List Step) :
    (d.follow path).toValue = d.toValue.follow (path.map Step.key) := by
  induction path generalizing d with
  | nil => rfl
  | cons s rest ih =>
    have hrest := ih (hd.step s)
    rw [hd.toValue_step] at hrest
    exact hrest

/-- Where a path leads in a document is loaded as the value to which the same path leads in
the loaded document. If that is a table, its entries are the members or items that are not
null, in document order. -/
theorem toValue_follow {d : Document} (hd : d.WellFormed) (path : List Step) :
    (d.follow path).toValue = d.toValue.follow (path.map Step.key) ∧
      ∀ t, d.toValue.follow (path.map Step.key) = .table t →
        t.entries = (d.follow path).listing := by
  have hfollow := hd.toValue_follow_eq path
  refine ⟨hfollow, ?_⟩
  intro t ht
  exact (hd.follow path).entries_eq_listing (hfollow.trans ht)

/-- A list of an absent item and of an object with an absent member, under a name. -/
def rows : Document :=
  .object [("rows", .array [.null, .object [("id", .null), ("tags", .array [.string "x"])]])]

theorem wellFormed_rows : rows.WellFormed := by
  refine .object (by decide) (List.forall_mem_singleton.mpr (.array ?_))
  refine List.forall_mem_cons.mpr ⟨.null, List.forall_mem_singleton.mpr (.object (by decide) ?_)⟩
  exact List.forall_mem_cons.mpr
    ⟨.null, List.forall_mem_singleton.mpr (.array (List.forall_mem_singleton.mpr (.string "x")))⟩

/-- The second row is found at 2, and the first tag in it at 1. -/
theorem toValue_follow_rows :
    rows.WellFormed ∧
      rows.toValue.follow [.str "rows", .int 2, .str "tags", .int 1] = .string "x" ∧
      ∀ t, rows.toValue.follow [.str "rows", .int 2] = .table t →
        t.entries = [(.str "tags", .table (Table.ofList [.string "x"]))] :=
  ⟨wellFormed_rows,
    (toValue_follow wellFormed_rows [.member "rows", .item 1, .member "tags", .item 0]).1.symm,
    (toValue_follow wellFormed_rows [.member "rows", .item 1]).2⟩

end Document

end Conformance

import Conformance.Proofs.Loading
import Conformance.Value.Equality

/-!
# Documents that are loaded as equal values

A loaded document does not tell everything about the document. An object does not keep the order
in which it is compared, and a null is the same as nothing, except in an array where another item
comes after it. What documents say apart from that (`Document.SameContent`) is all that matters:

> `Document.toValue_beq_of_sameContent`: documents that say the same are loaded as equal values. In
> particular a document is loaded as a value that is equal to itself, so that it holds no
> not-a-number.

That the values are equal takes more than that the same is said at each place: a number that is not
equal to itself would spoil it. A document cannot say one, as its numbers are finite
(`Document.IsJson`).
-/

namespace Conformance

/-- No integer becomes not-a-number. -/
theorem Binary64.ofInt_ne_nan (i : Int) : ofInt i ≠ .nan := by
  rw [ofInt_eq]
  dsimp only
  generalize Magnitude.nearest? i.natAbs 1 = nearest
  intro h
  cases nearest with
  | none => exact nomatch h
  | some m => exact nomatch h

namespace Document

/-- What a JSON text can say: its numbers are finite, and the members of an object have different
names, at every level. -/
inductive IsJson : Document → Prop where
  | null : IsJson .null
  | bool (b : Bool) : IsJson (.bool b)
  | integer (i : Int) : IsJson (.integer i)
  | float (negative : Bool) (m : Magnitude) : IsJson (.float (.finite negative m))
  | string (s : String) : IsJson (.string s)
  | array {items : List Document} (isJson : ∀ d ∈ items, IsJson d) : IsJson (.array items)
  | object {members : List (String × Document)} (distinct : (members.map Prod.fst).Nodup)
      (isJson : ∀ m ∈ members, IsJson m.2) : IsJson (.object members)

/-- The documents are the same but for what is not kept when they are loaded: the order of the
members of an object, members that are null, and nulls at the end of an array. They may differ in
this at any number of places and at any level, and in the sign of a zero. -/
inductive SameContent : Document → Document → Prop where
  | refl (d : Document) : SameContent d d
  | symm {d d' : Document} (same : SameContent d d') : SameContent d' d
  | trans {d d' d'' : Document} (same : SameContent d d') (same' : SameContent d' d'') :
      SameContent d d''
  | float {x y : Binary64} (equal : (x == y) = true) : SameContent (.float x) (.float y)
  | item {before after : List Document} {d d' : Document} (same : SameContent d d') :
      SameContent (.array (before ++ d :: after)) (.array (before ++ d' :: after))
  | trailingNull (items : List Document) : SameContent (.array (items ++ [.null])) (.array items)
  | member {before after : List (String × Document)} {name : String} {d d' : Document}
      (same : SameContent d d') :
      SameContent (.object (before ++ (name, d) :: after)) (.object (before ++ (name, d') :: after))
  | nullMember {members : List (String × Document)} {name : String}
      (new : name ∉ members.map Prod.fst) :
      SameContent (.object ((name, .null) :: members)) (.object members)
  | reordered {members members' : List (String × Document)} (perm : members.Perm members') :
      SameContent (.object members) (.object members')

/-! ## What a text can say -/

/-- An array is a JSON document when its items are. -/
theorem isJson_array_iff {items : List Document} :
    (array items).IsJson ↔ ∀ d ∈ items, d.IsJson := by
  constructor
  · intro h
    cases h with
    | array isJson => exact isJson
  · exact .array

/-- An object is a JSON document when its members have different names and hold JSON documents. -/
theorem isJson_object_iff {members : List (String × Document)} :
    (object members).IsJson ↔ (members.map Prod.fst).Nodup ∧ ∀ m ∈ members, m.2.IsJson := by
  constructor
  · intro h
    cases h with
    | object distinct isJson => exact ⟨distinct, isJson⟩
  · intro h
    exact .object h.1 h.2

/-- A JSON document has objects with different names, at every level. -/
theorem IsJson.wellFormed {d : Document} (h : d.IsJson) : d.WellFormed := by
  induction h with
  | null => exact .null
  | bool b => exact .bool b
  | integer i => exact .integer i
  | float negative m => exact .float _
  | string s => exact .string s
  | array _ ih => exact .array ih
  | object distinct _ ih => exact .object distinct ih

/-- A number that equals one of a JSON document can be in one too. -/
theorem isJson_float_of_beq {x y : Binary64} (h : (x == y) = true) (hx : (float x).IsJson) :
    (float y).IsJson := by
  cases hx with
  | float negative m =>
    cases y with
    | finite negative' m' => exact .float negative' m'
    | _ => exact absurd h Bool.false_ne_true

/-- What says the same as a JSON text can be said by one. -/
theorem SameContent.isJson_iff {d d' : Document} (h : d.SameContent d') : d.IsJson ↔ d'.IsJson := by
  induction h with
  | refl d => exact Iff.rfl
  | symm _ ih => exact ih.symm
  | trans _ _ ih ih' => exact ih.trans ih'
  | float equal => exact ⟨isJson_float_of_beq equal, isJson_float_of_beq (BEq.symm equal)⟩
  | item _ ih => simp only [isJson_array_iff, List.forall_mem_append, List.forall_mem_cons, ih]
  | trailingNull items =>
    simp only [isJson_array_iff, List.forall_mem_append, List.forall_mem_singleton, IsJson.null,
      and_true]
  | member _ ih =>
    simp only [isJson_object_iff, List.map_append, List.map_cons, List.forall_mem_append,
      List.forall_mem_cons, ih]
  | nullMember new =>
    simp only [isJson_object_iff, List.map_cons, List.nodup_cons, new, not_false_eq_true, true_and,
      List.forall_mem_cons, IsJson.null]
  | reordered perm =>
    rw [isJson_object_iff, isJson_object_iff, (perm.map Prod.fst).nodup_iff]
    simp only [perm.mem_iff]

/-! ## Not-a-number -/

/-- The parts of an array are its items. -/
theorem mem_items_of_mem_parts {items : List Document} {p : Key × Document}
    (h : p ∈ (array items).parts) : p.2 ∈ items := by
  rw [← Key.map_snd_indexed items]
  exact List.mem_map_of_mem h

/-- The parts of an object are the values of its members. -/
theorem exists_member_of_mem_parts {members : List (String × Document)} {p : Key × Document}
    (h : p ∈ (object members).parts) : ∃ m ∈ members, m.2 = p.2 := by
  obtain ⟨m, hm, rfl⟩ := List.mem_map.mp h
  exact ⟨m, hm, rfl⟩

/-- What is in a JSON document is a JSON document. -/
theorem IsJson.of_mem_parts {d : Document} (hd : d.IsJson) {p : Key × Document}
    (hp : p ∈ d.parts) : p.2.IsJson := by
  cases hd with
  | array isJson => exact isJson p.2 (mem_items_of_mem_parts hp)
  | object _ isJson =>
    obtain ⟨m, hm, heq⟩ := exists_member_of_mem_parts hp
    exact heq ▸ isJson m hm
  | _ => exact absurd hp List.not_mem_nil

/-- Not-a-number is not in a table that is loaded from parts which it is not in. -/
theorem WellFormed.not_holdsNan_of_parts {d : Document} (hd : d.WellFormed) {t : Table}
    (ht : d.toValue = .table t) (h : ∀ p ∈ d.parts, ¬ p.2.toValue.HoldsNan) :
    ¬ d.toValue.HoldsNan := by
  rw [ht, Value.holdsNan_table_iff, hd.entries_eq_listing ht]
  intro ⟨e, he, hnan⟩
  obtain ⟨p, hp, rfl⟩ := List.mem_map.mp he
  exact h p (List.mem_filter.mp hp).1 hnan

/-- A JSON document is loaded without not-a-number. -/
theorem IsJson.not_holdsNan {d : Document} (hd : d.IsJson) : ¬ d.toValue.HoldsNan := by
  induction hd with
  | integer i =>
    show ¬ (Value.number (.ofInt i)).HoldsNan
    rw [Value.holdsNan_scalar_iff (by simp [Value.kind]), Value.number.injEq]
    exact Binary64.ofInt_ne_nan i
  | array isJson ih =>
    refine (IsJson.array isJson).wellFormed.not_holdsNan_of_parts rfl ?_
    intro p hp
    exact ih p.2 (mem_items_of_mem_parts hp)
  | object distinct isJson ih =>
    refine (IsJson.object distinct isJson).wellFormed.not_holdsNan_of_parts rfl ?_
    intro p hp
    obtain ⟨m, hm, heq⟩ := exists_member_of_mem_parts hp
    exact heq ▸ ih m hm
  | _ => exact fun h => nomatch (Value.holdsNan_scalar_iff (by simp [toValue, Value.kind])).mp h

/-- So its value is equal to itself. -/
theorem IsJson.toValue_beq_self {d : Document} (hd : d.IsJson) : (d.toValue == d.toValue) = true :=
  (Value.beq_self_iff (wellFormed_toValue d)).mpr hd.not_holdsNan

/-! ## What is set when a document is loaded -/

/-- A look-up finds equal values in both lists, nil where there is none. -/
def SameLookups (es fs : List (Key × Value)) : Prop :=
  ∀ k, ((es.lookup k).getD .nil == (fs.lookup k).getD .nil) = true

/-- Documents that are loaded as tables are loaded as equal values if they set equal values at
every key. -/
theorem WellFormed.toValue_beq {d d' : Document} (hd : d.WellFormed) (hd' : d'.WellFormed)
    {t u : Table} (ht : d.toValue = .table t) (hu : d'.toValue = .table u)
    (h : SameLookups d.settings d'.settings) : (d.toValue == d'.toValue) = true := by
  have hwf : (Value.table t).WellFormed := ht ▸ wellFormed_toValue d
  have hwf' : (Value.table u).WellFormed := hu ▸ wellFormed_toValue d'
  rw [ht, hu, Table.beq_iff_get_beq hwf hwf']
  intro k
  have hk := h k
  rw [← hd.step_eq_lookup, ← hd'.step_eq_lookup, ht, hu] at hk
  exact hk

/-- One more item, wherever it stands, is one more entry that is set. -/
theorem settings_array_append_cons (before after : List Document) (d : Document) :
    (array (before ++ d :: after)).settings =
      Key.indexed (before.map toValue) ++ (.int (before.length + 1 : Nat), d.toValue) ::
        Key.indexedFrom (before.length + 2) (after.map toValue) := by
  rw [settings_array, List.map_append, List.map_cons, Key.indexed, Key.indexedFrom_append,
    Key.indexedFrom_cons, List.length_map, Nat.add_comm 1]
  rfl

section

variable {es before after : List (Key × Value)} {key : Key} {v w : Value}

/-- Entries that are each equal to themselves are found equal to themselves, at every key. -/
theorem lookup_beq_self (h : ∀ e ∈ es, (e.2 == e.2) = true) (k : Key) :
    ((es.lookup k).getD .nil == (es.lookup k).getD .nil) = true := by
  cases hk : es.lookup k with
  | none => rfl
  | some v =>
    obtain ⟨e, he, -, rfl⟩ := OrderedMap.mem_of_get?_eq_some (m := ⟨es⟩) hk
    exact h e he

/-- The values at one key are exchanged for equal ones. -/
theorem sameLookups_replace (hvw : (v == w) = true) (hbefore : ∀ e ∈ before, (e.2 == e.2) = true)
    (hafter : ∀ e ∈ after, (e.2 == e.2) = true) :
    SameLookups (before ++ (key, v) :: after) (before ++ (key, w) :: after) := by
  intro k
  rw [List.lookup_append, List.lookup_append]
  have hself := lookup_beq_self hbefore k
  cases hk : before.lookup k with
  | some x =>
    rw [hk] at hself
    exact hself
  | none =>
    rw [Option.none_or, Option.none_or, List.lookup_cons, List.lookup_cons]
    cases k == key with
    | true => exact hvw
    | false => exact lookup_beq_self hafter k

/-- Where nothing else is set at a key, it makes no difference to set it to nil. -/
theorem sameLookups_nil (before : List (Key × Value)) (hself : ∀ e ∈ es, (e.2 == e.2) = true)
    (hnew : ∀ e ∈ after, (key == e.1) = false) (hes : es = before ++ after) :
    SameLookups (before ++ (key, .nil) :: after) es := by
  intro k
  have hlookup : ((before ++ (key, .nil) :: after).lookup k).getD .nil = (es.lookup k).getD .nil := by
    rw [hes, List.lookup_append, List.lookup_append]
    cases before.lookup k with
    | some x => rfl
    | none =>
      rw [Option.none_or, Option.none_or, List.lookup_cons]
      cases hk : k == key with
      | false => rfl
      | true =>
        have hnone : after.lookup k = none := by
          rw [List.lookup_eq_none_iff]
          intro e he
          rw [bne, BEq.congr_left hk, hnew e he]
          rfl
        rw [hnone]
        rfl
  rw [hlookup]
  exact lookup_beq_self hself k

end

/-! ## Documents that say the same -/

theorem IsJson.settings_beq_self {d : Document} (hd : d.IsJson) :
    ∀ e ∈ d.settings, (e.2 == e.2) = true := by
  intro e he
  obtain ⟨p, hp, rfl⟩ := List.mem_map.mp he
  exact (hd.of_mem_parts hp).toValue_beq_self

/-- An equal value for an item changes no look-up. -/
theorem sameLookups_item {before after : List Document} {d d' : Document}
    (hd : (array (before ++ d :: after)).IsJson) (h : (d.toValue == d'.toValue) = true) :
    SameLookups (array (before ++ d :: after)).settings (array (before ++ d' :: after)).settings := by
  have hself := hd.settings_beq_self
  rw [settings_array_append_cons, List.forall_mem_append, List.forall_mem_cons] at hself
  rw [settings_array_append_cons, settings_array_append_cons]
  exact sameLookups_replace h hself.1 hself.2.2

/-- A null at the end of an array sets nothing. -/
theorem sameLookups_trailingNull {items : List Document} (hd : (array items).IsJson) :
    SameLookups (array (items ++ [.null])).settings (array items).settings := by
  rw [settings_array_append_cons]
  refine sameLookups_nil _ hd.settings_beq_self (fun _ he => absurd he List.not_mem_nil) ?_
  rw [settings_array]
  exact (List.append_nil _).symm

/-- An equal value for a member changes no look-up. -/
theorem sameLookups_member {before after : List (String × Document)} {name : String}
    {d d' : Document} (hd : (object (before ++ (name, d) :: after)).IsJson)
    (h : (d.toValue == d'.toValue) = true) :
    SameLookups (object (before ++ (name, d) :: after)).settings
      (object (before ++ (name, d') :: after)).settings := by
  have hself := hd.settings_beq_self
  rw [settings_object, List.map_append, List.map_cons, List.forall_mem_append,
    List.forall_mem_cons] at hself
  rw [settings_object, settings_object, List.map_append, List.map_cons, List.map_append,
    List.map_cons]
  exact sameLookups_replace h hself.1 hself.2.2

/-- A null member sets nothing, if there was none of its name. -/
theorem sameLookups_nullMember {members : List (String × Document)} {name : String}
    (hd : (object members).IsJson) (hnew : name ∉ members.map Prod.fst) :
    SameLookups (object ((name, .null) :: members)).settings (object members).settings := by
  rw [settings_object, List.map_cons]
  refine sameLookups_nil [] hd.settings_beq_self ?_ (settings_object members)
  intro e he
  obtain ⟨m, hm, rfl⟩ := List.mem_map.mp he
  show (name == m.1) = false
  rw [beq_eq_false_iff_ne]
  intro hname
  exact hnew (hname ▸ List.mem_map_of_mem hm)

/-- Members with different names are found in any order. -/
theorem sameLookups_reordered {members members' : List (String × Document)}
    (hd : (object members).IsJson) (hperm : members.Perm members') :
    SameLookups (object members).settings (object members').settings := by
  have hsettings : (object members).settings.Perm (object members').settings := by
    rw [settings_object, settings_object]
    exact hperm.map _
  intro k
  have hlookup : (object members).settings.lookup k = (object members').settings.lookup k :=
    OrderedMap.get?_eq_of_perm (m := ⟨_⟩) (n := ⟨_⟩) hd.wellFormed.settings_pairwise hsettings k
  rw [← hlookup]
  exact lookup_beq_self hd.settings_beq_self k

/-- Documents that say the same are loaded as equal values, if they can be said at all. -/
theorem SameContent.toValue_beq {d d' : Document} (h : d.SameContent d') (hd : d.IsJson) :
    (d.toValue == d'.toValue) = true := by
  have hd' := h.isJson_iff.mp hd
  induction h with
  | refl d => exact hd.toValue_beq_self
  | symm _ ih => exact Value.beq_symm (wellFormed_toValue _) (ih hd' hd)
  | trans same _ ih ih' =>
    have hmiddle := same.isJson_iff.mp hd
    exact Value.beq_trans (ih hd hmiddle) (ih' hmiddle hd')
  | float equal => exact equal
  | @item before after d d' same ih =>
    have hitem := isJson_array_iff.mp hd d (by simp)
    have hbeq := ih hitem (same.isJson_iff.mp hitem)
    exact hd.wellFormed.toValue_beq hd'.wellFormed rfl rfl (sameLookups_item hd hbeq)
  | trailingNull items =>
    exact hd.wellFormed.toValue_beq hd'.wellFormed rfl rfl (sameLookups_trailingNull hd')
  | @member before after name d d' same ih =>
    have hmember := (isJson_object_iff.mp hd).2 (name, d) (by simp)
    have hbeq := ih hmember (same.isJson_iff.mp hmember)
    exact hd.wellFormed.toValue_beq hd'.wellFormed rfl rfl (sameLookups_member hd hbeq)
  | nullMember new =>
    exact hd.wellFormed.toValue_beq hd'.wellFormed rfl rfl (sameLookups_nullMember hd' new)
  | reordered perm =>
    exact hd.wellFormed.toValue_beq hd'.wellFormed rfl rfl (sameLookups_reordered hd perm)

/-- Documents that are the same but for the order of members, for null members and for nulls at the
end of an array, at whatever level, are loaded as equal values. A document is loaded as a value
that is equal to itself, and in which there is no not-a-number. -/
theorem toValue_beq_of_sameContent {d d' : Document} (hd : d.IsJson) (h : d.SameContent d') :
    (d.toValue == d'.toValue) = true ∧ (d.toValue == d.toValue) = true ∧ ¬ d.toValue.HoldsNan :=
  ⟨h.toValue_beq hd, hd.toValue_beq_self, hd.not_holdsNan⟩

/-- A list with a null between two items and one at the end, and a size, under names; and a name
with a null. -/
def padded : Document :=
  .object [("note", .null), ("size", .float (.finite true .zero)),
    ("rows", .array [.bool true, .null, .object [("id", .integer 2), ("tag", .null)], .null])]

/-- The same without what leaves no trace, in another order and with another zero. -/
def trimmed : Document :=
  .object [("rows", .array [.bool true, .null, .object [("id", .integer 2)]]),
    ("size", .float (.finite false .zero))]

theorem isJson_padded : padded.IsJson := by
  have hrow : (object [("id", .integer 2), ("tag", .null)]).IsJson :=
    .object (by decide) (List.forall_mem_cons.mpr
      ⟨.integer 2, List.forall_mem_singleton.mpr .null⟩)
  have hrows : (array [.bool true, .null, .object [("id", .integer 2), ("tag", .null)], .null]).IsJson :=
    .array (List.forall_mem_cons.mpr ⟨.bool true, List.forall_mem_cons.mpr
      ⟨.null, List.forall_mem_cons.mpr ⟨hrow, List.forall_mem_singleton.mpr .null⟩⟩⟩)
  exact .object (by decide) (List.forall_mem_cons.mpr ⟨.null, List.forall_mem_cons.mpr
    ⟨.float true .zero, List.forall_mem_singleton.mpr hrows⟩⟩)

theorem sameContent_padded_trimmed : padded.SameContent trimmed := by
  have hrow : SameContent (.object [("id", .integer 2), ("tag", .null)]) (.object [("id", .integer 2)]) :=
    .trans (.reordered (List.Perm.swap _ _ [])) (.nullMember (by decide))
  have hrows : SameContent
      (.array [.bool true, .null, .object [("id", .integer 2), ("tag", .null)], .null])
      (.array [.bool true, .null, .object [("id", .integer 2)]]) :=
    .trans (.trailingNull [.bool true, .null, .object [("id", .integer 2), ("tag", .null)]])
      (@SameContent.item [.bool true, .null] [] _ _ hrow)
  have hsize : SameContent (.float (.finite true .zero)) (.float (.finite false .zero)) :=
    .float (by decide)
  refine .trans (.nullMember (by decide)) (.trans (@SameContent.member [] _ _ _ _ hsize) ?_)
  exact .trans (.reordered (List.Perm.swap _ _ [])) (@SameContent.member [] _ _ _ _ hrows)

/-- What both are loaded as, with the entries in the order of the one. The null between two items
is a gap, and the other nulls are gone. -/
def loaded : Value :=
  .table ⟨[(.str "size", .number (.finite true .zero)),
    (.str "rows", .table ⟨[(.int 1, .boolean true), (.int 3, .table ⟨[(.str "id", .ofInt 2)]⟩)]⟩)]⟩

/-- The padded document is loaded as a value equal to that of the trimmed one. -/
theorem toValue_beq_of_sameContent_padded :
    padded.IsJson ∧ padded.SameContent trimmed ∧ padded.toValue = loaded ∧
      (padded.toValue == trimmed.toValue) = true ∧ ¬ padded.toValue.HoldsNan := by
  obtain ⟨hbeq, -, hnan⟩ := toValue_beq_of_sameContent isJson_padded sameContent_padded_trimmed
  exact ⟨isJson_padded, sameContent_padded_trimmed, rfl, hbeq, hnan⟩

end Document

end Conformance

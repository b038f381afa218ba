import Conformance.Check.Basic

/-!
# All that is wrong with a value

`Spec.mismatches` says what is wrong with a value in terms of what is wrong with its
parts. Nothing is carried along: paths are built from the leaf upwards, a node putting
its own segment before the paths of its parts, and each container spends one from the
budget.

Main statements:

> `Spec.mismatches_keyed_table`, `Spec.mismatches_record_table`,
> `Spec.mismatches_array_table`: what is wrong with a table, from what is wrong with its
> entries, declared fields and elements.
>
> `Spec.mismatches_union_eq_nil_iff`: nothing is wrong with a value under a union when
> nothing is under one of its options, so no option is passed over.
-/

namespace Conformance

/-- The same mismatch, seen from further up. -/
def Mismatch.below (path : Path) (m : Mismatch) : Mismatch := { m with path := path ++ m.path }

/-- The same mismatch, seen from one step further up. -/
def Mismatch.under (segment : Segment) (m : Mismatch) : Mismatch :=
  { m with path := segment :: m.path }

/-- Whether containers are no longer looked into. -/
def Budget.isSpent (budget : Budget) : Bool := budget == some 0

/-- What is left of a budget inside a container. -/
def Budget.spend (budget : Budget) : Budget := budget.map (· - 1)

theorem Budget.isSpent_eq_false {budget : Budget} (h : budget ≠ some 0) :
    budget.isSpent = false := by
  rw [isSpent, beq_eq_false_iff_ne]
  exact h

/-- What is wrong inside a container is nothing when nothing is looked at or nothing found. -/
theorem Budget.ite_isSpent_eq_nil_iff {α : Type} {budget : Budget} {found : List α} :
    (if budget.isSpent then [] else found) = [] ↔ budget = some 0 ∨ found = [] := by
  by_cases h : budget = some 0 <;> simp [isSpent, h]

theorem Budget.mem_of_mem_ite_isSpent {α : Type} {budget : Budget} {found : List α} {a : α}
    (h : a ∈ if budget.isSpent then [] else found) : a ∈ found := by
  split at h
  · exact absurd h List.not_mem_nil
  · exact h

/-! ## The first failure -/

/-- The first result that is not empty. -/
def firstFailure {α β : Type} (f : α → List β) : List α → List β
  | [] => []
  | a :: rest =>
    match f a with
    | [] => firstFailure f rest
    | failures => failures

theorem firstFailure_cons_of_eq_nil {α β : Type} {f : α → List β} {a : α} (rest : List α)
    (h : f a = []) : firstFailure f (a :: rest) = firstFailure f rest := by
  rw [firstFailure, h]

theorem firstFailure_cons_of_ne_nil {α β : Type} {f : α → List β} {a : α} (rest : List α)
    (h : f a ≠ []) : firstFailure f (a :: rest) = f a := by
  rw [firstFailure]
  split
  · next hnil => exact absurd hnil h
  · rfl

/-- Nothing is reported if and only if nothing is found anywhere. -/
theorem firstFailure_eq_nil_iff {α β : Type} {f : α → List β} {as : List α} :
    firstFailure f as = [] ↔ ∀ a ∈ as, f a = [] := by
  induction as with
  | nil => simp [firstFailure]
  | cons a rest ih =>
    rw [List.forall_mem_cons]
    by_cases h : f a = []
    · rw [firstFailure_cons_of_eq_nil rest h, ih]
      exact ⟨fun hrest => ⟨h, hrest⟩, fun hall => hall.2⟩
    · rw [firstFailure_cons_of_ne_nil rest h]
      exact ⟨fun hc => (h hc).elim, fun hc => (h hc.1).elim⟩

/-- What is reported is the failures of one element, the first that has any. -/
theorem firstFailure_append {α β : Type} {f : α → List β} {before : List α} {a : α} {after : List α}
    (hbefore : ∀ x ∈ before, f x = []) (ha : f a ≠ []) :
    firstFailure f (before ++ a :: after) = f a := by
  induction before with
  | nil => exact firstFailure_cons_of_ne_nil after ha
  | cons x rest ih =>
    rw [List.cons_append, firstFailure_cons_of_eq_nil _ (hbefore x List.mem_cons_self)]
    exact ih fun y hy => hbefore y (List.mem_cons_of_mem _ hy)

/-- Either nothing fails, or the list splits at the first element that does. -/
theorem firstFailure_cases {α β : Type} (f : α → List β) (as : List α) :
    (∀ a ∈ as, f a = []) ∨
      ∃ before a after, as = before ++ a :: after ∧ (∀ x ∈ before, f x = []) ∧ f a ≠ [] := by
  induction as with
  | nil => exact .inl fun a ha => absurd ha List.not_mem_nil
  | cons a rest ih =>
    by_cases ha : f a = []
    · rcases ih with hall | ⟨before, b, after, heq, hbefore, hb⟩
      · exact .inl (List.forall_mem_cons.mpr ⟨ha, hall⟩)
      · exact .inr ⟨a :: before, b, after, by rw [heq, List.cons_append],
          List.forall_mem_cons.mpr ⟨ha, hbefore⟩, hb⟩
    · exact .inr ⟨[], a, rest, rfl, fun x hx => absurd hx List.not_mem_nil, ha⟩

/-- What is reported was found somewhere. -/
theorem mem_of_mem_firstFailure {α β : Type} {f : α → List β} {as : List α} {b : β}
    (h : b ∈ firstFailure f as) : ∃ a ∈ as, b ∈ f a := by
  rcases firstFailure_cases f as with hall | ⟨before, a, after, heq, hbefore, ha⟩
  · rw [firstFailure_eq_nil_iff.mpr hall] at h
    exact absurd h List.not_mem_nil
  · rw [heq, firstFailure_append hbefore ha] at h
    exact ⟨a, by rw [heq]; exact List.mem_append_right _ List.mem_cons_self, h⟩

namespace Spec

/-! ## Mismatches -/

mutual

/-- All that is wrong with a value, with paths from that value on. -/
def mismatches (s : Spec) (budget : Budget) (value : Value) : List Mismatch :=
  if fits s value then
    match s, value with
    | .optional inner, v => if v.isNil then [] else mismatches inner budget v
    | .union options, v => unionMismatches options budget v
    | .keyed key val, .table t =>
      if budget.isSpent then []
      else firstFailure (fun e =>
        (mismatches key budget.spend e.1.toValue).map (Mismatch.under (.key e.1)) ++
          (mismatches val budget.spend e.2).map (Mismatch.under (.entry e.1))) t.entries
    | .record ⟨fields⟩, .table t =>
      if budget.isSpent then [] else recordMismatches fields budget.spend t
    | .array element, .table t =>
      if budget.isSpent then []
      else firstFailure (fun e =>
        (mismatches element budget.spend e.2).map (Mismatch.under (.entry (.int e.1)))) (Table.run t)
    | _, _ => []
  else [⟨value, s, []⟩]
termination_by structural s

/-- Nothing if some option has no mismatch, else the mismatches of the last. -/
def unionMismatches (options : List Spec) (budget : Budget) (value : Value) : List Mismatch :=
  match options with
  | [] => []
  | [s] => mismatches s budget value
  | s :: rest =>
    if (mismatches s budget value).isEmpty then [] else unionMismatches rest budget value
termination_by structural options

/-- The mismatches of all the declared fields. An absent field is checked as nil. -/
def recordMismatches (fields : List (String × Spec)) (budget : Budget) (t : Table) :
    List Mismatch :=
  match fields with
  | [] => []
  | (name, s) :: rest =>
    (mismatches s budget (Table.get t (.str name))).map (Mismatch.under (.entry (.str name))) ++
      recordMismatches rest budget t
termination_by structural fields

end

/-- What is wrong with an entry of a keyed table: with its key, then with its value. -/
def entryMismatches (key val : Spec) (budget : Budget) (e : Key × Value) : List Mismatch :=
  (key.mismatches budget e.1.toValue).map (Mismatch.under (.key e.1)) ++
    (val.mismatches budget e.2).map (Mismatch.under (.entry e.1))

/-- What is wrong with a declared field of a table. -/
def fieldMismatches (budget : Budget) (t : Table) (f : String × Spec) : List Mismatch :=
  (f.2.mismatches budget (Table.get t (.str f.1))).map (Mismatch.under (.entry (.str f.1)))

/-- What is wrong with an element of an array. -/
def elementMismatches (element : Spec) (budget : Budget) (e : Int × Value) : List Mismatch :=
  (element.mismatches budget e.2).map (Mismatch.under (.entry (.int e.1)))

/-- An entry passes when its key and its value do. -/
theorem entryMismatches_eq_nil_iff {key val : Spec} {budget : Budget} {e : Key × Value} :
    entryMismatches key val budget e = [] ↔
      key.mismatches budget e.1.toValue = [] ∧ val.mismatches budget e.2 = [] := by
  rw [entryMismatches, List.append_eq_nil_iff, List.map_eq_nil_iff, List.map_eq_nil_iff]

/-- What is found at an entry is found on the side of its key, or in its value. -/
theorem mem_entryMismatches {key val : Spec} {budget : Budget} {e : Key × Value} {m : Mismatch} :
    m ∈ entryMismatches key val budget e ↔
      (∃ n ∈ key.mismatches budget e.1.toValue, n.under (.key e.1) = m) ∨
        ∃ n ∈ val.mismatches budget e.2, n.under (.entry e.1) = m := by
  rw [entryMismatches, List.mem_append, List.mem_map, List.mem_map]

/-- A field passes when what is at its name does, which is nil if there is nothing. -/
theorem fieldMismatches_eq_nil_iff {budget : Budget} {t : Table} {f : String × Spec} :
    fieldMismatches budget t f = [] ↔ f.2.mismatches budget (Table.get t (.str f.1)) = [] := by
  rw [fieldMismatches, List.map_eq_nil_iff]

/-- An element passes when its value does. -/
theorem elementMismatches_eq_nil_iff {element : Spec} {budget : Budget} {e : Int × Value} :
    elementMismatches element budget e = [] ↔ element.mismatches budget e.2 = [] := by
  rw [elementMismatches, List.map_eq_nil_iff]

/-! ## One law for each kind of spec -/

/-- A value that does not fit is the one mismatch there is. -/
theorem mismatches_of_not_fits {s : Spec} {value : Value} (budget : Budget)
    (h : s.fits value = false) : s.mismatches budget value = [⟨value, s, []⟩] := by
  unfold mismatches
  rw [h]
  rfl

/-- A value with nothing wrong fits. -/
theorem fits_of_mismatches_eq_nil {s : Spec} {budget : Budget} {value : Value}
    (h : s.mismatches budget value = []) : s.fits value = true := by
  cases hfits : s.fits value with
  | true => rfl
  | false =>
    rw [mismatches_of_not_fits budget hfits] at h
    exact absurd h (List.cons_ne_nil _ _)

theorem mismatches_any (budget : Budget) (value : Value) : any.mismatches budget value = [] := rfl

theorem mismatches_never (budget : Budget) (value : Value) :
    never.mismatches budget value = [⟨value, .never, []⟩] := rfl

/-- A kind is reported at the value itself. -/
theorem mismatches_kind (k : Kind) (budget : Budget) (value : Value) :
    (kind k).mismatches budget value = if value.kind == k then [] else [⟨value, .kind k, []⟩] := rfl

/-- A literal is reported at the value itself, also if it is a table. -/
theorem mismatches_literal (v : Value) (budget : Budget) (value : Value) :
    (literal v).mismatches budget value = if value == v then [] else [⟨value, .literal v, []⟩] := rfl

theorem mismatches_kind_of_fits {k : Kind} {budget : Budget} {value : Value}
    (h : (kind k).fits value = true) : (kind k).mismatches budget value = [] := if_pos h

theorem mismatches_literal_of_fits {v : Value} {budget : Budget} {value : Value}
    (h : (literal v).fits value = true) : (literal v).mismatches budget value = [] := if_pos h

theorem mismatches_optional_of_isNil (inner : Spec) (budget : Budget) {value : Value}
    (hnil : value.isNil = true) : (optional inner).mismatches budget value = [] := by
  rw [mismatches, fits, hnil]
  rfl

/-- A value that is there is checked as by the inner spec. -/
theorem mismatches_optional {inner : Spec} {value : Value} (budget : Budget)
    (hnil : value.isNil = false) (hfits : inner.fits value = true) :
    (optional inner).mismatches budget value = inner.mismatches budget value := by
  rw [mismatches, fits, hnil, hfits]
  rfl

/-- A value that fits an option is checked as by the options, one after the other. -/
theorem mismatches_union {options : List Spec} {value : Value} (budget : Budget)
    (h : fitsSome options value = true) :
    (union options).mismatches budget value = unionMismatches options budget value := by
  rw [mismatches, fits, h]
  rfl

/-- A keyed table reports on its first failing entry. -/
theorem mismatches_keyed_table (key val : Spec) (budget : Budget) (t : Table) :
    (keyed key val).mismatches budget (.table t) =
      if budget.isSpent then [] else firstFailure (entryMismatches key val budget.spend) t.entries :=
  rfl

/-- A record reports on all its fields. -/
theorem mismatches_record_table (fields : OrderedMap String Spec) (budget : Budget) (t : Table) :
    (record fields).mismatches budget (.table t) =
      if budget.isSpent then [] else fields.entries.flatMap (fieldMismatches budget.spend t) := by
  obtain ⟨fields⟩ := fields
  have hflat : recordMismatches fields budget.spend t = fields.flatMap (fieldMismatches budget.spend t) := by
    induction fields with
    | nil => rfl
    | cons f rest ih => rw [recordMismatches, ih, List.flatMap_cons]; rfl
  rw [← hflat]
  rfl

/-- An array reports on its first failing element. -/
theorem mismatches_array_table (element : Spec) (budget : Budget) (t : Table) :
    (array element).mismatches budget (.table t) =
      if budget.isSpent then []
      else firstFailure (elementMismatches element budget.spend) (Table.run t) :=
  rfl

/-- A value that does not fit is reported by itself. -/
theorem eq_of_mem_of_not_fits {s : Spec} {budget : Budget} {value : Value} {m : Mismatch}
    (hfits : s.fits value = false) (hm : m ∈ s.mismatches budget value) : m = ⟨value, s, []⟩ := by
  rw [mismatches_of_not_fits budget hfits] at hm
  exact List.mem_singleton.mp hm

/-- A spec without parts reports a value by itself, if at all. -/
theorem eq_of_mem_leaf {s : Spec} {budget : Budget} {value : Value} {m : Mismatch}
    (hleaf : s.fits value = true → s.mismatches budget value = [])
    (hm : m ∈ s.mismatches budget value) : m = ⟨value, s, []⟩ := by
  cases hfits : s.fits value with
  | true =>
    rw [hleaf hfits] at hm
    exact absurd hm List.not_mem_nil
  | false => exact eq_of_mem_of_not_fits hfits hm

/-- What is found for an optional spec is the value itself, which does not fit, or is found for the
inner spec. -/
theorem mem_mismatches_optional {inner : Spec} {budget : Budget} {value : Value} {m : Mismatch}
    (hm : m ∈ (optional inner).mismatches budget value) :
    (optional inner).fits value = false ∧ m = ⟨value, .optional inner, []⟩ ∨
      m ∈ inner.mismatches budget value := by
  cases hfits : (optional inner).fits value with
  | false => exact .inl ⟨rfl, eq_of_mem_of_not_fits hfits hm⟩
  | true =>
    cases hnil : value.isNil with
    | true =>
      rw [mismatches_optional_of_isNil inner budget hnil] at hm
      exact absurd hm List.not_mem_nil
    | false =>
      rw [fits, hnil, Bool.false_or] at hfits
      rw [mismatches_optional budget hnil hfits] at hm
      exact .inr hm

/-- A container spec reports a value that is no table by itself. -/
theorem mem_mismatches_container {s : Spec} {budget : Budget} {value : Value} {m : Mismatch}
    (hs : ∀ v, s.fits v = (v.kind == .table)) (hm : m ∈ s.mismatches budget value) :
    s.fits value = false ∧ m = ⟨value, s, []⟩ ∨ ∃ t, value = .table t := by
  cases hfits : s.fits value with
  | false => exact .inl ⟨rfl, eq_of_mem_of_not_fits hfits hm⟩
  | true =>
    rw [hs, beq_iff_eq] at hfits
    exact .inr (Value.exists_table_of_kind hfits)

/-! ## Unions -/

/-- The next option is tried when the one before it finds something. -/
theorem unionMismatches_cons_cons (s next : Spec) (rest : List Spec) (budget : Budget)
    (value : Value) : unionMismatches (s :: next :: rest) budget value =
      if (s.mismatches budget value).isEmpty then []
      else unionMismatches (next :: rest) budget value := rfl

/-- The first option that finds nothing ends the search. -/
theorem unionMismatches_cons_of_eq_nil {s : Spec} {budget : Budget} {value : Value}
    (rest : List Spec) (h : s.mismatches budget value = []) :
    unionMismatches (s :: rest) budget value = [] := by
  cases rest with
  | nil => exact h
  | cons next rest => rw [unionMismatches_cons_cons, h]; rfl

theorem unionMismatches_cons_of_ne_nil {s : Spec} {budget : Budget} {value : Value}
    (next : Spec) (rest : List Spec) (h : s.mismatches budget value ≠ []) :
    unionMismatches (s :: next :: rest) budget value = unionMismatches (next :: rest) budget value := by
  have hempty : (s.mismatches budget value).isEmpty = false := by simpa using h
  rw [unionMismatches_cons_cons, hempty]
  rfl

/-- Nothing is wrong when nothing is under some option, or when there are no options. -/
theorem unionMismatches_eq_nil_iff {options : List Spec} {budget : Budget} {value : Value} :
    unionMismatches options budget value = [] ↔
      options = [] ∨ ∃ s ∈ options, s.mismatches budget value = [] := by
  induction options with
  | nil => simp [unionMismatches]
  | cons s rest ih =>
    by_cases hs : s.mismatches budget value = []
    · simp [unionMismatches_cons_of_eq_nil rest hs, hs]
    · cases rest with
      | nil => simp [unionMismatches]
      | cons next rest => rw [unionMismatches_cons_of_ne_nil next rest hs, ih]; simp [hs]

/-- A union reports nothing or what its last option does. -/
theorem unionMismatches_eq_nil_or_last (options : List Spec) (budget : Budget) (value : Value) :
    unionMismatches options budget value = [] ∨
      ∃ s, options.getLast? = some s ∧
        unionMismatches options budget value = s.mismatches budget value := by
  induction options with
  | nil => exact .inl rfl
  | cons s rest ih =>
    cases rest with
    | nil => exact .inr ⟨s, rfl, rfl⟩
    | cons next rest =>
      by_cases hs : s.mismatches budget value = []
      · exact .inl (unionMismatches_cons_of_eq_nil (next :: rest) hs)
      · rw [unionMismatches_cons_of_ne_nil next rest hs, List.getLast?_cons_cons]
        exact ih

/-- What a union reports is what one of its options does. -/
theorem mem_of_mem_unionMismatches {options : List Spec} {budget : Budget} {value : Value}
    {m : Mismatch} (h : m ∈ unionMismatches options budget value) :
    ∃ s ∈ options, m ∈ s.mismatches budget value := by
  induction options with
  | nil => exact absurd h List.not_mem_nil
  | cons s rest ih =>
    by_cases hs : s.mismatches budget value = []
    · rw [unionMismatches_cons_of_eq_nil rest hs] at h
      exact absurd h List.not_mem_nil
    · cases rest with
      | nil => exact ⟨s, List.mem_cons_self, h⟩
      | cons next rest =>
        rw [unionMismatches_cons_of_ne_nil next rest hs] at h
        obtain ⟨s', hs', hm⟩ := ih h
        exact ⟨s', List.mem_cons_of_mem _ hs', hm⟩

/-- What is found for a union is the value itself, which fits no option, or is found for an
option. -/
theorem mem_mismatches_union {options : List Spec} {budget : Budget} {value : Value} {m : Mismatch}
    (hm : m ∈ (union options).mismatches budget value) :
    (union options).fits value = false ∧ m = ⟨value, .union options, []⟩ ∨
      ∃ s ∈ options, m ∈ s.mismatches budget value := by
  cases hfits : (union options).fits value with
  | false => exact .inl ⟨rfl, eq_of_mem_of_not_fits hfits hm⟩
  | true =>
    rw [mismatches_union budget hfits] at hm
    exact .inr (mem_of_mem_unionMismatches hm)

/-! ## What has no mismatch -/

/-- An optional spec is met by nil, and by what meets the inner spec. -/
theorem mismatches_optional_eq_nil_iff {inner : Spec} {budget : Budget} {value : Value} :
    (optional inner).mismatches budget value = [] ↔
      value = .nil ∨ inner.mismatches budget value = [] := by
  cases hnil : value.isNil with
  | true =>
    rw [mismatches_optional_of_isNil inner budget hnil]
    exact ⟨fun _ => .inl (Value.eq_nil_of_isNil hnil), fun _ => rfl⟩
  | false =>
    have hne : value ≠ .nil := by
      rintro rfl
      exact absurd hnil (by simp [Value.isNil])
    cases hfits : inner.fits value with
    | true =>
      rw [mismatches_optional budget hnil hfits]
      exact ⟨.inr, fun h => h.resolve_left hne⟩
    | false =>
      have hout : (optional inner).fits value = false := by rw [fits, hnil, hfits]; rfl
      rw [mismatches_of_not_fits budget hout, mismatches_of_not_fits budget hfits]
      simp [hne]

/-- Nothing is wrong with a value under a union when nothing is under one of its options. -/
theorem mismatches_union_eq_nil_iff {options : List Spec} {budget : Budget} {value : Value} :
    (union options).mismatches budget value = [] ↔
      ∃ s ∈ options, s.mismatches budget value = [] := by
  constructor
  · intro hnil
    have hfits := fits_of_mismatches_eq_nil hnil
    rw [mismatches_union budget hfits, unionMismatches_eq_nil_iff] at hnil
    rcases hnil with rfl | hoption
    · exact absurd hfits Bool.false_ne_true
    · exact hoption
  · rintro ⟨s, hs, hnil⟩
    -- the option fits, so the union as a whole is not turned down before its options are tried
    have hfits : fitsSome options value = true := by
      rw [fitsSome_eq_any]
      exact List.any_eq_true.mpr ⟨s, hs, fits_of_mismatches_eq_nil hnil⟩
    rw [mismatches_union budget hfits, unionMismatches_eq_nil_iff]
    exact .inr ⟨s, hs, hnil⟩

/-- A container spec is for tables, and what it asks of them may be said for tables only. -/
theorem mismatches_container_eq_nil_iff {s : Spec} {budget : Budget} {P : Table → Prop}
    (hfits : ∀ v, s.fits v = (v.kind == .table))
    (h : ∀ t, s.mismatches budget (.table t) = [] ↔ P t) {value : Value} :
    s.mismatches budget value = [] ↔ ∃ t, value = .table t ∧ P t := by
  constructor
  · intro hnil
    have hkind : value.kind = .table := by
      rw [← beq_iff_eq, ← hfits]
      exact fits_of_mismatches_eq_nil hnil
    obtain ⟨t, rfl⟩ := Value.exists_table_of_kind hkind
    exact ⟨t, rfl, (h t).mp hnil⟩
  · rintro ⟨t, rfl, hP⟩
    exact (h t).mpr hP

/-! ## What holds of every mismatch -/

/-- What holds of every value that is reported by itself, and still holds when it is seen from
a container, holds of every mismatch. -/
theorem of_mem_mismatches {P : Mismatch → Prop} (here : ∀ v s, P ⟨v, s, []⟩)
    (key : ∀ k m, P m → P (m.under (.key k))) (entry : ∀ k m, P m → P (m.under (.entry k)))
    {s : Spec} {budget : Budget} {value : Value} {m : Mismatch}
    (hm : m ∈ s.mismatches budget value) : P m := by
  induction s generalizing budget value m with
  | any => exact absurd hm List.not_mem_nil
  | never =>
    rw [List.mem_singleton.mp hm]
    exact here value .never
  | kind k =>
    rw [eq_of_mem_leaf mismatches_kind_of_fits hm]
    exact here value (.kind k)
  | literal v =>
    rw [eq_of_mem_leaf mismatches_literal_of_fits hm]
    exact here value (.literal v)
  | optional inner ih =>
    rcases mem_mismatches_optional hm with ⟨-, rfl⟩ | hinner
    · exact here value (.optional inner)
    · exact ih hinner
  | union options ih =>
    rcases mem_mismatches_union hm with ⟨-, rfl⟩ | ⟨s, hs, hoption⟩
    · exact here value (.union options)
    · exact ih s hs hoption
  | keyed k v ihKey ihVal =>
    rcases mem_mismatches_container (fun _ => rfl) hm with ⟨-, rfl⟩ | ⟨t, rfl⟩
    · exact here value (.keyed k v)
    rw [mismatches_keyed_table] at hm
    obtain ⟨e, -, he⟩ := mem_of_mem_firstFailure (Budget.mem_of_mem_ite_isSpent hm)
    rcases mem_entryMismatches.mp he with ⟨n, hn, rfl⟩ | ⟨n, hn, rfl⟩
    · exact key e.1 n (ihKey hn)
    · exact entry e.1 n (ihVal hn)
  | record fields ih =>
    rcases mem_mismatches_container (fun _ => rfl) hm with ⟨-, rfl⟩ | ⟨t, rfl⟩
    · exact here value (.record fields)
    rw [mismatches_record_table] at hm
    obtain ⟨f, hf, hfield⟩ := List.mem_flatMap.mp (Budget.mem_of_mem_ite_isSpent hm)
    obtain ⟨n, hn, rfl⟩ := List.mem_map.mp hfield
    exact entry (.str f.1) n (ih f hf hn)
  | array element ih =>
    rcases mem_mismatches_container (fun _ => rfl) hm with ⟨-, rfl⟩ | ⟨t, rfl⟩
    · exact here value (.array element)
    rw [mismatches_array_table] at hm
    obtain ⟨e, -, he⟩ := mem_of_mem_firstFailure (Budget.mem_of_mem_ite_isSpent hm)
    obtain ⟨n, hn, rfl⟩ := List.mem_map.mp he
    exact entry (.int e.1) n (ih hn)

/-- Only the settings name the root. -/
theorem root_not_mem_path {s : Spec} {budget : Budget} {value : Value} {m : Mismatch}
    (hm : m ∈ s.mismatches budget value) (name : String) : .root name ∉ m.path := by
  refine of_mem_mismatches (P := fun m => .root name ∉ m.path) ?_ ?_ ?_ hm
  · intro v s
    exact List.not_mem_nil
  · intro k m hmem
    exact List.not_mem_cons_of_ne_of_not_mem (fun h => nomatch h) hmem
  · intro k m hmem
    exact List.not_mem_cons_of_ne_of_not_mem (fun h => nomatch h) hmem

end Spec

end Conformance

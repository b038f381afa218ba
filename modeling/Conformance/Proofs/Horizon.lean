import Conformance.Proofs.Correspondence
import Conformance.Proofs.Walk

/-!
# What a bounded check can see

A check with a limit of `d` looks into containers that lie less than `d` containers deep
and takes the others for what they are, tables. Two values agree to depth `d`
(`Value.AgreeTo`) when they differ only inside of those others:

> `Checker.mismatches_map_demand_of_agreeTo`: under a limit of `d`, values that agree to depth
> `d` are found to fail at the same places, in the same order, and for the same reasons.

A literal is compared in full whatever the limit is, so the spec must not ask for a table
by its contents (`Spec.ScalarLiterals`). Then all tables fit it or none does
(`Spec.fits_table`), and past the limit that is all there is to be seen.
-/

namespace Conformance

/-! ## Agreement to a depth -/

/-- The values are the same, except perhaps inside of tables that lie `d` tables deep. Keys
are the same, and come in the same order, as far as there is agreement. -/
def Value.AgreeTo (d : Nat) (v w : Value) : Prop :=
  match v, w with
  | .table t, .table u =>
    match d with
    | 0 => True
    | d + 1 => List.Forall₂ (fun e f => e.1 = f.1 ∧ AgreeTo d e.2 f.2) t.entries u.entries
  | v, w => v = w
termination_by structural d

/-- What is at the same key or index agrees to a depth. -/
def AgreeAt {κ : Type} (d : Nat) (e f : κ × Value) : Prop := e.1 = f.1 ∧ e.2.AgreeTo d f.2

namespace Value

/-- Tables agree when their entries do, with one table less to go. -/
theorem agreeTo_table_succ {d : Nat} {t u : Table} :
    AgreeTo (d + 1) (.table t) (.table u) ↔ List.Forall₂ (AgreeAt d) t.entries u.entries := Iff.rfl

/-- Values that agree are the same, or both are tables. -/
theorem AgreeTo.cases {d : Nat} {v w : Value} (h : v.AgreeTo d w) :
    v = w ∨ ∃ t u, v = .table t ∧ w = .table u := by
  unfold AgreeTo at h
  split at h
  · next t u => exact .inr ⟨t, u, rfl, rfl⟩
  · exact .inl h

theorem agreeTo_nil (d : Nat) : AgreeTo d .nil .nil := by
  unfold AgreeTo
  rfl

/-- Values that agree are of one kind. -/
theorem AgreeTo.kind_eq {d : Nat} {v w : Value} (h : v.AgreeTo d w) : v.kind = w.kind := by
  rcases h.cases with rfl | ⟨t, u, rfl, rfl⟩
  · rfl
  · rfl

theorem AgreeTo.isNil_eq {d : Nat} {v w : Value} (h : v.AgreeTo d w) : v.isNil = w.isNil := by
  rcases h.cases with rfl | ⟨t, u, rfl, rfl⟩
  · rfl
  · rfl

end Value

namespace Table

variable {d : Nat} {t u : Table}

/-- What is at a key agrees, or there is nothing in either table. -/
theorem get?_agree (h : List.Forall₂ (AgreeAt d) t.entries u.entries) (k : Key) :
    (t.get? k = none ∧ u.get? k = none) ∨
      ∃ a b, t.get? k = some a ∧ u.get? k = some b ∧ a.AgreeTo d b := by
  obtain ⟨es⟩ := t
  obtain ⟨fs⟩ := u
  simp only [OrderedMap.get?]
  simp only at h
  induction h with
  | nil => exact .inl ⟨rfl, rfl⟩
  | @cons e f es fs hef _ ih =>
    obtain ⟨k₁, a⟩ := e
    obtain ⟨k₂, b⟩ := f
    obtain ⟨rfl, hab⟩ : k₁ = k₂ ∧ a.AgreeTo d b := hef
    rw [List.lookup_cons, List.lookup_cons]
    cases k == k₁ with
    | true => exact .inr ⟨a, b, rfl, rfl, hab⟩
    | false => exact ih

/-- What is at a key agrees, nil included. -/
theorem get_agree (h : List.Forall₂ (AgreeAt d) t.entries u.entries) (k : Key) :
    (get t k).AgreeTo d (get u k) := by
  rcases get?_agree h k with ⟨ht, hu⟩ | ⟨a, b, ht, hu, hab⟩
  · rw [get, get, ht, hu]
    exact Value.agreeTo_nil d
  · rw [get, get, ht, hu]
    exact hab

/-- So does what is at the indices from some index on. -/
theorem runFrom_agree (h : List.Forall₂ (AgreeAt d) t.entries u.entries) (start : Int)
    (count : Nat) : List.Forall₂ (AgreeAt d) (runFrom t start count) (runFrom u start count) := by
  induction count generalizing start with
  | zero => exact .nil
  | succ count ih =>
    rcases get?_agree h (.int start) with ⟨ht, hu⟩ | ⟨a, b, ht, hu, hab⟩
    · rw [runFrom, runFrom, ht, hu]
      exact .nil
    · rw [runFrom, runFrom, ht, hu]
      exact .cons ⟨rfl, hab⟩ (ih (start + 1))

/-- The array parts are equally long, and their elements agree. -/
theorem run_agree (h : List.Forall₂ (AgreeAt d) t.entries u.entries) :
    List.Forall₂ (AgreeAt d) (run t) (run u) := by
  have hsize : t.size = u.size := h.length_eq
  rw [run, run, hsize]
  exact runFrom_agree h 1 u.size

end Table

/-! ## Specs without table literals -/

/-- A spec occurs in another: it is that spec, or occurs in a part of it. -/
inductive Spec.OccursIn (s : Spec) : Spec → Prop where
  | self : OccursIn s s
  | optional {inner : Spec} (h : OccursIn s inner) : OccursIn s (.optional inner)
  | option {options : List Spec} {t : Spec} (mem : t ∈ options) (h : OccursIn s t) :
      OccursIn s (.union options)
  | key {key val : Spec} (h : OccursIn s key) : OccursIn s (.keyed key val)
  | value {key val : Spec} (h : OccursIn s val) : OccursIn s (.keyed key val)
  | field {fields : OrderedMap String Spec} {f : String × Spec} (mem : f ∈ fields.entries)
      (h : OccursIn s f.2) : OccursIn s (.record fields)
  | element {element : Spec} (h : OccursIn s element) : OccursIn s (.array element)

/-- No literal in the spec is a table. -/
def Spec.ScalarLiterals (s : Spec) : Prop :=
  ∀ v, (Spec.literal v).OccursIn s → v.kind ≠ .table

namespace Spec

/-- All tables fit the spec, or none does. -/
theorem fits_table {s : Spec} (hs : s.ScalarLiterals) (t u : Table) :
    s.fits (.table t) = s.fits (.table u) := by
  induction s with
  | literal l =>
    cases l with
    | table w => exact absurd rfl (hs _ .self)
    | _ => rfl
  | optional inner ih =>
    rw [fits, fits, ih fun v hv => hs v (.optional hv)]
    rfl
  | union options ih =>
    apply fits_union_of_forall₂
    rw [List.forall₂_same]
    intro s hmem
    exact ih s hmem fun v hv => hs v (.option hmem hv)
  | _ => rfl

/-- Values that agree to any depth fit the same specs, if no table is asked for by its contents. -/
theorem fits_of_agreeTo {s : Spec} (hs : s.ScalarLiterals) {d : Nat} {v w : Value}
    (h : v.AgreeTo d w) : s.fits v = s.fits w := by
  rcases h.cases with rfl | ⟨t, u, rfl, rfl⟩
  · rfl
  · exact fits_table hs t u

end Spec

/-! ## What is found -/

/-- What is asked for, and where. -/
def Mismatch.demand (m : Mismatch) : Path × Spec := (m.path, m.expected)

/-- The mismatches are at the same place, where the same is expected. -/
def Mismatch.SameDemand (m n : Mismatch) : Prop := m.demand = n.demand

namespace Mismatch.SameDemand

theorem here (s : Spec) (v w : Value) : List.Forall₂ SameDemand [⟨v, s, []⟩] [⟨w, s, []⟩] :=
  .cons rfl .nil

/-- The same demand stays the same when it is seen from further up. -/
theorem under {m n : Mismatch} (h : SameDemand m n) (segment : Segment) :
    SameDemand (m.under segment) (n.under segment) := by
  obtain ⟨hpath, hexpected⟩ := Prod.mk.inj h
  exact Prod.ext (congrArg (segment :: ·) hpath) hexpected

theorem stable : Stable SameDemand := ⟨fun _ => rfl, under⟩

theorem below {m n : Mismatch} (h : SameDemand m n) (path : Path) :
    SameDemand (m.below path) (n.below path) := stable.below h path

end Mismatch.SameDemand

namespace Spec

open Mismatch (SameDemand)

/-- A container spec need only be followed on tables that it is looked into. -/
theorem sameDemand_of_tables {s : Spec} (hs : ∀ v, s.fits v = (v.kind == .table))
    (hspent : ∀ t, s.mismatches (some 0) (.table t) = [])
    (htables : ∀ d t u, List.Forall₂ (AgreeAt d) (OrderedMap.entries t) (OrderedMap.entries u) →
      List.Forall₂ SameDemand (s.mismatches (some (d + 1)) (.table t))
        (s.mismatches (some (d + 1)) (.table u)))
    {d : Nat} {v w : Value} (h : v.AgreeTo d w) :
    List.Forall₂ SameDemand (s.mismatches (some d) v) (s.mismatches (some d) w) := by
  refine rel_container (SameDemand.here s v w) hs hs h.kind_eq ?_
  rintro t u rfl rfl
  cases d with
  | zero =>
    rw [hspent, hspent]
    exact .nil
  | succ d => exact htables d t u (Value.agreeTo_table_succ.mp h)

/-- Under a limit, values that agree to that depth fail at the same places for the same
reasons. -/
theorem sameDemand_of_agreeTo {s : Spec} (hs : s.ScalarLiterals) {d : Nat} {v w : Value}
    (h : v.AgreeTo d w) :
    List.Forall₂ SameDemand (s.mismatches (some d) v) (s.mismatches (some d) w) := by
  have hP : RespectsNil (List.Forall₂ SameDemand) := respectsNil_forall₂
  induction s generalizing d v w with
  | any => exact .nil
  | never => exact SameDemand.here .never v w
  | kind k =>
    exact rel_leaf hP (SameDemand.here _ v w) (fits_of_agreeTo hs h) mismatches_kind_of_fits
      mismatches_kind_of_fits
  | literal l =>
    exact rel_leaf hP (SameDemand.here _ v w) (fits_of_agreeTo hs h) mismatches_literal_of_fits
      mismatches_literal_of_fits
  | optional inner ih =>
    have hinner : inner.ScalarLiterals := fun v hv => hs v (.optional hv)
    have hfits := fits_of_agreeTo hinner h
    exact rel_optional hP (SameDemand.here _ v w) h.isNil_eq hfits (ih hinner h)
  | union options ih =>
    refine rel_union hP (SameDemand.here _ v w) (fits_of_agreeTo hs h) ?_
    rw [List.forall₂_same]
    intro s hmem
    exact ih s hmem (fun v hv => hs v (.option hmem hv)) h
  | keyed key val _ ihVal =>
    have hval : val.ScalarLiterals := fun v hv => hs v (.value hv)
    refine sameDemand_of_tables (fun _ => rfl) (fun _ => rfl) ?_ h
    intro d t u hentries
    rw [mismatches_keyed_table, mismatches_keyed_table]
    refine hP.firstFailure ?_
    apply hentries.imp
    rintro ⟨k, a⟩ ⟨_, b⟩ ⟨rfl, hab⟩
    -- both entries have this key, so on the key side there is nothing to compare
    have hofKey := SameDemand.stable.forall₂_refl
      ((key.mismatches (some d) k.toValue).map (Mismatch.under (.key k)))
    have hofVal := SameDemand.stable.forall₂_under (ihVal hval hab) (.entry k)
    exact List.rel_append hofKey hofVal
  | record fields ih =>
    refine sameDemand_of_tables (fun _ => rfl) (fun _ => rfl) ?_ h
    intro d t u hentries
    rw [mismatches_record_table, mismatches_record_table]
    refine flatMap_forall₂ ?_
    rw [List.forall₂_same]
    intro f hf
    have hfield : f.2.ScalarLiterals := fun v hv => hs v (.field hf hv)
    have hget := Table.get_agree hentries (.str f.1)
    exact SameDemand.stable.forall₂_under (ih f hf hfield hget) (.entry (.str f.1))
  | array element ih =>
    have helement : element.ScalarLiterals := fun v hv => hs v (.element hv)
    refine sameDemand_of_tables (fun _ => rfl) (fun _ => rfl) ?_ h
    intro d t u hentries
    rw [mismatches_array_table, mismatches_array_table]
    refine hP.firstFailure ?_
    apply (Table.run_agree hentries).imp
    rintro ⟨i, a⟩ ⟨_, b⟩ ⟨rfl, hab⟩
    exact SameDemand.stable.forall₂_under (ih helement hab) (.entry (.int i))

end Spec

namespace Checker

/-- Under a limit of `d`, what is asked for and where is the same for values that agree to
depth `d`. -/
theorem mismatches_map_demand_of_agreeTo {s : Spec} (hs : s.ScalarLiterals) {d : Nat}
    {v w : Value} (h : v.AgreeTo d w) (name : Option String) :
    ((Checker.mk s ⟨some d, name⟩).mismatches v).map Mismatch.demand =
      ((Checker.mk s ⟨some d, name⟩).mismatches w).map Mismatch.demand := by
  rw [← List.forall₂_eq_eq_eq, List.forall₂_map_left_iff, List.forall₂_map_right_iff,
    mismatches_eq, mismatches_eq, List.forall₂_map_left_iff, List.forall₂_map_right_iff]
  apply (Spec.sameDemand_of_agreeTo hs h).imp
  intro m n hmn
  exact hmn.below _

/-- A list of a table and a truth value. -/
def tableAndFlag (t : Table) : Value := .table (Table.ofList [.table t, .boolean true])

/-- A list of tables without entries, or nil. -/
def emptyTables : Spec := .array (.optional (.keyed .never .never))

theorem scalarLiterals_emptyTables : emptyTables.ScalarLiterals := by
  intro v hv
  cases hv with
  | element h =>
    cases h with
    | optional h =>
      cases h with
      | key h => cases h
      | value h => cases h

theorem agreeTo_tableAndFlag (t u : Table) : (tableAndFlag t).AgreeTo 1 (tableAndFlag u) :=
  .cons ⟨rfl, trivial⟩ (.cons ⟨rfl, rfl⟩ .nil)

/-- Within one container it is not seen that the first table should have no entries. -/
theorem mismatches_map_demand_emptyTables :
    emptyTables.ScalarLiterals ∧
      (tableAndFlag (Table.ofList [.nil, .boolean true])).AgreeTo 1 (tableAndFlag ∅) ∧
      ((Checker.mk emptyTables ⟨some 1, some "list"⟩).mismatches
          (tableAndFlag (Table.ofList [.nil, .boolean true]))).map Mismatch.demand =
        ((Checker.mk emptyTables ⟨some 1, some "list"⟩).mismatches (tableAndFlag ∅)).map
          Mismatch.demand :=
  ⟨scalarLiterals_emptyTables, agreeTo_tableAndFlag _ _,
    mismatches_map_demand_of_agreeTo scalarLiterals_emptyTables (agreeTo_tableAndFlag _ _)
      (some "list")⟩

end Checker

end Conformance

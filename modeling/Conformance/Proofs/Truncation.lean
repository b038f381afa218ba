import Conformance.Proofs.Correspondence
import Conformance.Proofs.Walk

/-!
# A limit on the depth is a smaller spec

A limit can be written into the spec: every container spec that lies as deep as the limit
is replaced by a spec that asks for a table and no more (`Spec.truncate`). Checking
against the smaller spec needs no limit, and finds the same:

> `Checker.mismatches_truncate`: a bounded check and an unbounded check of the truncated
> spec report the same parts at the same places, one by one, and what the second expects
> is what the first expects, truncated at the depth that is left there.

The truncated spec is built once, while the limit is counted down on the way; they agree
because a truncated spec fits the same values (`Spec.fits_truncate`), so that the same
options are met and the same entries fail.
-/

namespace Conformance

namespace Spec

mutual

/-- The spec with every container spec that lies under `d` others replaced by `table`. -/
def truncate (s : Spec) (d : Nat) : Spec :=
  match s with
  | .optional inner => .optional (truncate inner d)
  | .union options => .union (truncateOptions options d)
  | .keyed key val =>
    match d with
    | 0 => .kind .table
    | d + 1 => .keyed (truncate key d) (truncate val d)
  | .record ⟨fields⟩ =>
    match d with
    | 0 => .kind .table
    | d + 1 => .record ⟨truncateFields fields d⟩
  | .array element =>
    match d with
    | 0 => .kind .table
    | d + 1 => .array (truncate element d)
  | s => s
termination_by structural s

/-- The options, each truncated. -/
def truncateOptions (options : List Spec) (d : Nat) : List Spec :=
  match options with
  | [] => []
  | s :: rest => truncate s d :: truncateOptions rest d
termination_by structural options

/-- The fields, each with its spec truncated. -/
def truncateFields (fields : List (String × Spec)) (d : Nat) : List (String × Spec) :=
  match fields with
  | [] => []
  | (name, s) :: rest => (name, truncate s d) :: truncateFields rest d
termination_by structural fields

end

/-- The limit is counted in containers: an optional spec and a union do not count. -/
example : (Spec.array (.optional (.union [.keyed .any .any, .literal (.boolean true)]))).truncate 1 =
    .array (.optional (.union [.kind .table, .literal (.boolean true)])) := rfl

theorem truncateOptions_eq_map (options : List Spec) (d : Nat) :
    truncateOptions options d = options.map (truncate · d) := by
  induction options with
  | nil => rfl
  | cons s rest ih => rw [truncateOptions, ih, List.map_cons]

theorem truncateFields_eq_map (fields : List (String × Spec)) (d : Nat) :
    truncateFields fields d = fields.map fun f => (f.1, f.2.truncate d) := by
  induction fields with
  | nil => rfl
  | cons f rest ih => rw [truncateFields, ih, List.map_cons]

/-- Truncation takes nothing away that a value could fail to fit. -/
theorem fits_truncate (s : Spec) (d : Nat) (v : Value) : (s.truncate d).fits v = s.fits v := by
  induction s with
  | optional inner ih => rw [truncate, fits, fits, ih]
  | union options ih =>
    rw [truncate, fits, fits, fitsSome_eq_any, fitsSome_eq_any, truncateOptions_eq_map, List.any_map]
    rw [Bool.eq_iff_iff, List.any_eq_true, List.any_eq_true]
    apply exists_congr
    intro s
    apply and_congr_right
    intro hs
    rw [Function.comp_apply, ih s hs]
  | _ => cases d <;> rfl

end Spec

/-! ## Corresponding mismatches -/

/-- Whether a segment is the name of the root, which no container lies behind. -/
def Segment.isRoot : Segment → Bool
  | .root _ => true
  | _ => false

theorem Segment.isRoot_key (k : Key) : (Segment.key k).isRoot = false := rfl

theorem Segment.isRoot_entry (k : Key) : (Segment.entry k).isRoot = false := rfl

/-- The number of containers that a path goes into. -/
def Path.depth (path : Path) : Nat := path.countP fun segment => !segment.isRoot

/-- Every segment but a root is one container deeper. -/
theorem Path.depth_cons {segment : Segment} (h : segment.isRoot = false) (path : Path) :
    Path.depth (segment :: path) = path.depth + 1 := by
  rw [Path.depth, List.countP_cons_of_pos (by rw [h]; rfl), Path.depth]

/-- The name of the root lies outside all containers. -/
theorem Path.depth_root_append (name : Option String) (path : Path) :
    Path.depth (name.toList.map .root ++ path) = path.depth := by
  cases name <;> rfl

/-- The second mismatch is the first, with what is expected truncated at the depth that a
limit of `d` leaves there. -/
structure Mismatch.Truncated (d : Nat) (m n : Mismatch) : Prop where
  value_eq : n.value = m.value
  path_eq : n.path = m.path
  depth_le : m.path.depth ≤ d
  expected_eq : n.expected = m.expected.truncate (d - m.path.depth)

namespace Mismatch.Truncated

theorem here (d : Nat) (v : Value) (s : Spec) : Truncated d ⟨v, s, []⟩ ⟨v, s.truncate d, []⟩ where
  value_eq := rfl
  path_eq := rfl
  depth_le := Nat.zero_le d
  expected_eq := rfl

theorem forall₂_here (d : Nat) (v : Value) (s : Spec) :
    List.Forall₂ (Truncated d) [⟨v, s, []⟩] [⟨v, s.truncate d, []⟩] := .cons (here d v s) .nil

/-- Seen from one container further up, there is one more to go. -/
theorem under {d : Nat} {m n : Mismatch} (h : Truncated d m n) {segment : Segment}
    (hsegment : segment.isRoot = false) :
    Truncated (d + 1) (m.under segment) (n.under segment) where
  value_eq := h.value_eq
  path_eq := congrArg (segment :: ·) h.path_eq
  depth_le := by
    rw [Mismatch.under, Path.depth_cons hsegment]
    exact Nat.succ_le_succ h.depth_le
  expected_eq := by
    rw [Mismatch.under, Mismatch.under, Path.depth_cons hsegment, Nat.add_sub_add_right]
    exact h.expected_eq

theorem below_root {d : Nat} {m n : Mismatch} (h : Truncated d m n) (name : Option String) :
    Truncated d (m.below (name.toList.map .root)) (n.below (name.toList.map .root)) where
  value_eq := h.value_eq
  path_eq := by rw [Mismatch.below, Mismatch.below, h.path_eq]
  depth_le := by
    rw [Mismatch.below, Path.depth_root_append]
    exact h.depth_le
  expected_eq := by
    rw [Mismatch.below, Mismatch.below, Path.depth_root_append]
    exact h.expected_eq

/-- Seen from a table, what was truncated at a depth is so one container deeper. -/
theorem forall₂_map_under {d : Nat} {ms ns : List Mismatch}
    (h : List.Forall₂ (Truncated d) ms ns) {segment : Segment} (hsegment : segment.isRoot = false) :
    List.Forall₂ (Truncated (d + 1)) (ms.map (Mismatch.under segment))
      (ns.map (Mismatch.under segment)) :=
  List.rel_map (fun _ _ hmn => hmn.under hsegment) h

end Mismatch.Truncated

namespace Spec

open Mismatch (Truncated)
open Mismatch.Truncated (forall₂_here)

/-- A container spec need only be followed on tables that the limit lets the check go into. As
deep as the limit, what is left of the spec asks for no more than a table. -/
theorem truncated_of_tables {s : Spec} (hs : ∀ v, s.fits v = (v.kind == .table))
    (hspent : ∀ t, s.mismatches (some 0) (.table t) = []) (htable : s.truncate 0 = .kind .table)
    (htables : ∀ d t, List.Forall₂ (Truncated (d + 1)) (s.mismatches (some (d + 1)) (.table t))
      ((s.truncate (d + 1)).mismatches none (.table t))) (d : Nat) (v : Value) :
    List.Forall₂ (Truncated d) (s.mismatches (some d) v) ((s.truncate d).mismatches none v) := by
  have htruncated : ∀ v, (s.truncate d).fits v = (v.kind == .table) :=
    fun v => (fits_truncate s d v).trans (hs v)
  refine rel_container (forall₂_here d v s) hs htruncated rfl ?_
  rintro t _ rfl -
  cases d with
  | zero =>
    rw [hspent, htable, mismatches_kind_of_fits rfl]
    exact .nil
  | succ d => exact htables d t

/-- A bounded check and a check of the truncated spec find the same. -/
theorem mismatches_truncated (s : Spec) (d : Nat) (v : Value) :
    List.Forall₂ (Truncated d) (s.mismatches (some d) v) ((s.truncate d).mismatches none v) := by
  induction s generalizing d v with
  | any => exact .nil
  | never => exact forall₂_here d v .never
  | kind k =>
    exact rel_leaf respectsNil_forall₂ (forall₂_here d v _) rfl mismatches_kind_of_fits
      mismatches_kind_of_fits
  | literal l =>
    exact rel_leaf respectsNil_forall₂ (forall₂_here d v _) rfl mismatches_literal_of_fits
      mismatches_literal_of_fits
  | optional inner ih =>
    have hfits := (fits_truncate inner d v).symm
    exact rel_optional respectsNil_forall₂ (forall₂_here d v _) rfl hfits (ih d v)
  | union options ih =>
    have hfits := (fits_truncate (.union options) d v).symm
    have hhere := forall₂_here d v (.union options)
    rw [truncate, truncateOptions_eq_map] at hfits hhere ⊢
    refine rel_union respectsNil_forall₂ hhere hfits ?_
    rw [List.forall₂_map_right_iff, List.forall₂_same]
    intro s hs
    exact ih s hs d v
  | keyed key val ihKey ihVal =>
    refine truncated_of_tables (fun _ => rfl) (fun _ => rfl) rfl ?_ d v
    intro d t
    rw [truncate, mismatches_keyed_table, mismatches_keyed_table]
    refine firstFailure_forall₂ ?_
    rw [List.forall₂_same]
    intro e _
    have hkey := Truncated.forall₂_map_under (ihKey d e.1.toValue) (Segment.isRoot_key e.1)
    have hval := Truncated.forall₂_map_under (ihVal d e.2) (Segment.isRoot_entry e.1)
    exact List.rel_append hkey hval
  | record fields ih =>
    obtain ⟨entries⟩ := fields
    refine truncated_of_tables (fun _ => rfl) (fun _ => rfl) rfl ?_ d v
    intro d t
    rw [truncate, mismatches_record_table, mismatches_record_table, truncateFields_eq_map]
    refine flatMap_forall₂ ?_
    rw [List.forall₂_map_right_iff, List.forall₂_same]
    intro f hf
    exact Truncated.forall₂_map_under (ih f hf d (Table.get t (.str f.1))) (Segment.isRoot_entry _)
  | array element ih =>
    refine truncated_of_tables (fun _ => rfl) (fun _ => rfl) rfl ?_ d v
    intro d t
    rw [truncate, mismatches_array_table, mismatches_array_table]
    refine firstFailure_forall₂ ?_
    rw [List.forall₂_same]
    intro e _
    exact Truncated.forall₂_map_under (ih d e.2) (Segment.isRoot_entry _)

end Spec

/-- A bounded check finds what an unbounded check of the truncated spec finds: one by one, in
order, the same parts at the same places. -/
theorem Checker.mismatches_truncate (s : Spec) (d : Nat) (name : Option String) (v : Value) :
    List.Forall₂ (Mismatch.Truncated d) ((Checker.mk s ⟨some d, name⟩).mismatches v)
      ((Checker.mk (s.truncate d) ⟨none, name⟩).mismatches v) := by
  rw [Checker.mismatches_eq, Checker.mismatches_eq, List.forall₂_map_left_iff,
    List.forall₂_map_right_iff]
  apply (Spec.mismatches_truncated s d v).imp
  intro m n h
  exact h.below_root name

end Conformance

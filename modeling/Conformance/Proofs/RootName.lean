import Conformance.Proofs.Walk

/-!
# The name of the root

A name that is given to the root is where every path starts, and it is nowhere else. It decides
nothing:

> `Checker.mismatches_named`: under a name a check finds what it finds without one, with the name
> in front of every path. An empty name is not even seen in the lines.

The walk pushes the name once, before anything is looked at, and every step leaves the path as it
found it (`Spec.reports_walk`). In words a root name starts the description afresh:

> `Path.location?_append_root`: a location is described from the last root on, and an empty name is
> no root. There are words for every path that has steps, unless the last one is such a root.

The last step decides whether there are words, because every step leaves some behind, whatever was
described before it (`Segment.extend_eq_empty_iff`).
-/

namespace Conformance

/-! ## Words for a path with roots in it -/

/-- A step leaves words behind, unless it is to a root with an empty name. -/
theorem Segment.extend_eq_empty_iff {described : String} {s : Segment} :
    extend described s = "" ↔ s = .root "" := by
  cases s with
  | root name => rw [extend, Segment.root.injEq]
  | key k =>
    have hwords : extend described (.key k) ≠ "" := by
      rw [extend]
      split <;> simp
    exact iff_of_false hwords (fun h => nomatch h)
  | entry k =>
    have hwords : extend described (.entry k) ≠ "" := by
      by_cases hdescribed : described = ""
      · cases k <;> simp [extend, hdescribed]
      · -- what is described already stays in front
        cases k with
        | str name =>
          rw [extend, String.isEmpty_eq_false_iff.mpr hdescribed, if_neg Bool.false_ne_true]
          split <;> simp [hdescribed]
        | _ => simp [extend, hdescribed]
    exact iff_of_false hwords (fun h => nomatch h)

namespace Path

/-- A root starts the words afresh, whatever was described before it. -/
theorem describe_append_root (before after : Path) (name : String) :
    describe (before ++ .root name :: after) = describe (.root name :: after) := by
  unfold describe
  rw [List.foldl_append, List.foldl_cons, List.foldl_cons, Segment.extend, Segment.extend]

/-- The words for a path are built up one segment at a time. -/
theorem describe_append_singleton (path : Path) (s : Segment) :
    describe (path ++ [s]) = Segment.extend (describe path) s := by
  unfold describe
  rw [List.foldl_append, List.foldl_cons, List.foldl_nil]

/-- There are no words before the first step, nor behind a root with an empty name. -/
theorem describe_eq_empty_iff {path : Path} :
    describe path = "" ↔ path = [] ∨ path.getLast? = some (.root "") := by
  rcases List.eq_nil_or_concat path with rfl | ⟨before, s, rfl⟩
  · exact iff_of_true rfl (.inl rfl)
  · rw [List.concat_eq_append, describe_append_singleton, Segment.extend_eq_empty_iff,
      List.getLast?_concat, Option.some.injEq]
    simp

/-- What follows an empty root name is described as if there were none. -/
theorem location?_root_empty (path : Path) :
    location? (.root "" :: path) = location? path := by
  have hstart : Segment.extend "" (.root "") = "" := rfl
  rw [location?, location?, describe, describe, List.foldl_cons, hstart]

theorem location?_eq_none_iff {path : Path} : location? path = none ↔ describe path = "" := by
  rw [← String.isEmpty_iff]
  simp [location?]

/-- A location that is described has words. -/
theorem location?_ne_some_empty (path : Path) : location? path ≠ some "" := by
  intro h
  by_cases hwords : describe path = ""
  · exact nomatch h.symm.trans (location?_eq_none_iff.mpr hwords)
  · rw [location?, String.isEmpty_eq_false_iff.mpr hwords, if_neg Bool.false_ne_true] at h
    exact hwords (Option.some.inj h)

/-- What comes before a root does not show in the words for a location, and neither does a root
with an empty name. A location has no words exactly if the path is empty or ends with such a root;
otherwise it has some, and they are not empty. -/
theorem location?_append_root (before after : Path) (name : String) :
    location? (before ++ .root name :: after) = location? (.root name :: after) ∧
      location? (before ++ .root "" :: after) = location? after ∧
      ∀ path : Path, (location? path = none ↔ path = [] ∨ path.getLast? = some (.root "")) ∧
        location? path ≠ some "" := by
  have hroot (name : String) :
      location? (before ++ .root name :: after) = location? (.root name :: after) := by
    rw [location?, describe_append_root]
    rfl
  refine ⟨hroot name, (hroot "").trans (location?_root_empty after), ?_⟩
  intro path
  exact ⟨location?_eq_none_iff.trans describe_eq_empty_iff, location?_ne_some_empty path⟩

/-- An entry before a root is not described, and one behind an empty root is where words start. -/
example :
    location? [.entry (.str "a"), .root "env", .entry (.str "b")] = some "env.b" ∧
      location? [.entry (.str "a"), .root "", .entry (.str "b")] = some "table entry 'b'" := by
  decide +kernel

end Path

/-! ## Checks under a name -/

theorem Mismatch.line_under_root_empty (m : Mismatch) : (m.under (.root "")).line = m.line := by
  unfold line under
  rw [Path.location?_root_empty]

namespace Checker

/-- A name for the root is one more segment, before all others. -/
theorem mismatches_map_under_root (s : Spec) (maxDepth : Budget) (name : String) (v : Value) :
    (Checker.mk s ⟨maxDepth, some name⟩).mismatches v =
      ((Checker.mk s ⟨maxDepth, none⟩).mismatches v).map (Mismatch.under (.root name)) := by
  rw [mismatches_eq, mismatches_eq, List.map_map]
  apply List.map_congr_left
  intro m _
  rfl

/-- Under a name for the root the same parts are found, in the same order and with the same
expected of them, and the name stands in front of each path. Under the empty name the lines are
those of a check without a name. -/
theorem mismatches_named (s : Spec) (maxDepth : Budget) (name : String) (v : Value) :
    (Checker.mk s ⟨maxDepth, some name⟩).mismatches v =
        ((Checker.mk s ⟨maxDepth, none⟩).mismatches v).map (Mismatch.under (.root name)) ∧
      (Checker.mk s ⟨maxDepth, some ""⟩).lines v = (Checker.mk s ⟨maxDepth, none⟩).lines v := by
  refine ⟨mismatches_map_under_root s maxDepth name v, ?_⟩
  rw [lines, lines, mismatches_map_under_root, List.map_map]
  apply List.map_congr_left
  intro m _
  exact m.line_under_root_empty

end Checker

end Conformance

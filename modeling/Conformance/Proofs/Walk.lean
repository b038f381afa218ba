import Conformance.Check.Mismatches
import Conformance.Checker

/-!
# The walk finds what is wrong

The walk carries a path and a depth; `Spec.mismatches` carries neither. This file shows
that they agree, wherever the walk starts:

> `Spec.reports_walk`: a walk that is `depth` containers deep reports what is wrong with
> its subject under the budget that the limit leaves there, with the current path in
> front of each path, and it leaves the path as it found it.
>
> `Checker.mismatches_eq`: a checker finds what is wrong with a value, under the root.

One relation, `Walk.Reports`, carries both halves, so that each way to put steps together
needs one law: pushing a segment, taking a step after a step, stopping at the first report.
-/

namespace Conformance

theorem Mismatch.below_nil (m : Mismatch) : m.below [] = m := rfl

/-- A path can be put in front of a mismatch last segment first. -/
theorem Mismatch.below_append (path : Path) (segment : Segment) (m : Mismatch) :
    m.below (path ++ [segment]) = (m.under segment).below path := by
  simp [below, under]

/-- What a limit leaves for a container that lies `depth` containers deep. -/
def Budget.leftAt (limit : Budget) (depth : Nat) : Budget := limit.map (· - depth)

theorem Budget.leftAt_zero (limit : Budget) : limit.leftAt 0 = limit := by
  cases limit <;> rfl

/-- What is left one container further in is one less. -/
theorem Budget.spend_leftAt (limit : Budget) (depth : Nat) :
    (limit.leftAt depth).spend = limit.leftAt (depth + 1) := by
  cases limit with
  | none => rfl
  | some max => simp only [spend, leftAt, Option.map_some, Nat.sub_sub]

/-- A limit reaches as deep as it leaves something. -/
theorem Budget.isSpent_leftAt (limit : Budget) (depth : Nat) :
    (limit.leftAt depth).isSpent = !limit.reaches depth := by
  cases limit with
  | none => rfl
  | some max =>
    rw [Bool.eq_iff_iff]
    simp [isSpent, leftAt, reaches, Nat.sub_eq_zero_iff_le]

/-- Only a part is ever a table. -/
theorem Subject.exists_table_of_kind (subject : Subject) (h : subject.value.kind = .table) :
    ∃ t, subject.table? = some t ∧ subject.value = .table t := by
  cases subject with
  | part v =>
    obtain ⟨t, rfl⟩ := Value.exists_table_of_kind h
    exact ⟨t, rfl, rfl⟩
  | key k => exact absurd h (Key.kind_toValue_ne_table k)

namespace Walk

/-- The step reports the mismatches, each seen from the root, and leaves the path as it
was. -/
def Reports (step : Walk (List Mismatch)) (ms : List Mismatch) : Prop :=
  ∀ path, step.run path = (ms.map (Mismatch.below path), path)

theorem reports_nil : Reports (return []) [] := by
  intro path
  rfl

/-- A report is all that is found, where it is made. -/
theorem reports_report (value : Value) (expected : Spec) :
    Reports (report value expected) [⟨value, expected, []⟩] := by
  intro path
  rw [List.map_singleton, Mismatch.below, List.append_nil]
  rfl

/-- What comes after a step finds the path as it was before the step. -/
theorem Reports.run_bind {step : Walk (List Mismatch)} {ms : List Mismatch} (h : Reports step ms)
    {β : Type} (next : List Mismatch → Walk β) (path : Path) :
    (step >>= next).run path = (next (ms.map (Mismatch.below path))).run path := by
  rw [StateT.run_bind, h path]
  rfl

/-- Inside a part, what is reported is seen from one step further down. -/
theorem Reports.within {step : Walk (List Mismatch)} {ms : List Mismatch} (h : Reports step ms)
    (segment : Segment) : Reports (within segment step) (ms.map (Mismatch.under segment)) := by
  intro path
  show ((step.run (path ++ [segment])).1, (step.run (path ++ [segment])).2.dropLast) = _
  have hmap : ms.map (Mismatch.below (path ++ [segment])) =
      (ms.map (Mismatch.under segment)).map (Mismatch.below path) := by
    rw [List.map_map]
    apply List.map_congr_left
    intro m _
    exact Mismatch.below_append path segment m
  rw [h (path ++ [segment]), List.dropLast_concat, hmap]

/-- One step after another reports what both do. -/
theorem Reports.append {step next : Walk (List Mismatch)} {ms ns : List Mismatch}
    (h : Reports step ms) (hnext : Reports next ns) :
    Reports (do let a ← step; let b ← next; return a ++ b) (ms ++ ns) := by
  intro path
  rw [h.run_bind, hnext.run_bind, List.map_append]
  rfl

/-- The first step that reports something is the last one taken. -/
theorem reports_untilReport {α : Type} {step : α → Walk (List Mismatch)}
    {f : α → List Mismatch} (h : ∀ a, Reports (step a) (f a)) (as : List α) :
    Reports (untilReport step as) (firstFailure f as) := by
  induction as with
  | nil => exact reports_nil
  | cons a rest ih =>
    intro path
    rw [untilReport, (h a).run_bind, List.isEmpty_map]
    by_cases ha : f a = []
    · rw [firstFailure_cons_of_eq_nil rest ha, ha]
      exact ih path
    · rw [firstFailure_cons_of_ne_nil rest ha, List.isEmpty_eq_false_iff.mpr ha]
      rfl

/-- A container is gone into when something is left for it. -/
theorem reports_into {limit : Budget} {depth : Nat} {subject : Subject} {t : Table}
    {step : Table → Walk (List Mismatch)} {ms : List Mismatch} (htable : subject.table? = some t)
    (h : Reports (step t) ms) :
    Reports (into limit depth subject step) (if (limit.leftAt depth).isSpent then [] else ms) := by
  rw [into, Budget.isSpent_leftAt, htable]
  cases limit.reaches depth with
  | true => exact h
  | false => exact reports_nil

end Walk

namespace Spec

open Walk

/-- Options are walked up to the first that is met; a walk through all of them reports
what the last one does. -/
theorem reports_walkOptions {limit : Budget} {subject : Subject} {depth : Nat} {s : Spec}
    {rest : List Spec} (last : List Mismatch)
    (h : ∀ t ∈ s :: rest, Reports (walk limit t subject depth)
      (t.mismatches (limit.leftAt depth) subject.value)) :
    Reports (walkOptions limit (s :: rest) subject depth last)
      (unionMismatches (s :: rest) (limit.leftAt depth) subject.value) := by
  induction rest generalizing s last with
  | nil =>
    intro path
    rw [walkOptions, (h s List.mem_cons_self).run_bind]
    split <;> rfl
  | cons next rest ih =>
    intro path
    rw [walkOptions, (h s List.mem_cons_self).run_bind, List.isEmpty_map]
    by_cases hs : s.mismatches (limit.leftAt depth) subject.value = []
    · rw [unionMismatches_cons_of_eq_nil _ hs, hs]
      rfl
    · rw [unionMismatches_cons_of_ne_nil next rest hs, List.isEmpty_eq_false_iff.mpr hs]
      -- what this option reported is passed on, but a later option always takes its place
      apply ih ((s.mismatches (limit.leftAt depth) subject.value).map (Mismatch.below path))
      intro t ht
      exact h t (List.mem_cons_of_mem _ ht)

/-- Every declared field is walked. -/
theorem reports_walkFields {limit : Budget} {t : Table} {depth : Nat}
    {fields : List (String × Spec)}
    (h : ∀ f ∈ fields, ∀ v, Reports (walk limit f.2 (.part v) depth)
      (f.2.mismatches (limit.leftAt depth) v)) :
    Reports (walkFields limit fields t depth)
      (fields.flatMap (fieldMismatches (limit.leftAt depth) t)) := by
  induction fields with
  | nil => exact reports_nil
  | cons f rest ih =>
    have hfield := (h f List.mem_cons_self (Table.get t (.str f.1))).within (.entry (.str f.1))
    have hrest := ih fun g hg => h g (List.mem_cons_of_mem _ hg)
    exact hfield.append hrest

/-- A subject that does not fit is reported as it is. So the walk needs to be followed only
where the subject fits. -/
theorem reports_walk_of_fits {limit : Budget} {s : Spec} {subject : Subject} {depth : Nat}
    (h : s.fits subject.value = true → Reports (walk limit s subject depth)
      (s.mismatches (limit.leftAt depth) subject.value)) :
    Reports (walk limit s subject depth) (s.mismatches (limit.leftAt depth) subject.value) := by
  cases hfits : s.fits subject.value with
  | true => exact h hfits
  | false =>
    rw [mismatches_of_not_fits _ hfits]
    unfold walk
    rw [hfits]
    exact reports_report subject.value s

/-- A container spec reports on a table what it reports on the parts, when it goes into it. -/
theorem reports_walk_container {limit : Budget} {s : Spec} {subject : Subject} {depth : Nat}
    {step : Table → Walk (List Mismatch)} {found : Table → List Mismatch}
    (hkind : ∀ v, s.fits v = (v.kind == .table))
    (hfound : ∀ t, s.mismatches (limit.leftAt depth) (.table t) =
      if (limit.leftAt depth).isSpent then [] else found t)
    (hwalk : s.fits subject.value = true →
      walk limit s subject depth = into limit depth subject step)
    (hstep : ∀ t, Reports (step t) (found t)) :
    Reports (walk limit s subject depth) (s.mismatches (limit.leftAt depth) subject.value) := by
  refine reports_walk_of_fits ?_
  intro hfits
  rw [hwalk hfits]
  rw [hkind, beq_iff_eq] at hfits
  obtain ⟨t, htable, hvalue⟩ := subject.exists_table_of_kind hfits
  rw [hvalue, hfound]
  exact reports_into htable (hstep t)

/-- A walk reports what is wrong with its subject, as far as the limit reaches from there. -/
theorem reports_walk (limit : Budget) (s : Spec) (subject : Subject) (depth : Nat) :
    Reports (walk limit s subject depth) (s.mismatches (limit.leftAt depth) subject.value) := by
  induction s generalizing subject depth with
  | any =>
    show Reports (return []) []
    exact reports_nil
  | never =>
    show Reports (report subject.value .never) [⟨subject.value, .never, []⟩]
    exact reports_report subject.value .never
  | kind k =>
    refine reports_walk_of_fits ?_
    intro hfits
    unfold walk mismatches
    rw [hfits]
    exact reports_nil
  | literal v =>
    refine reports_walk_of_fits ?_
    intro hfits
    unfold walk mismatches
    rw [hfits]
    exact reports_nil
  | optional inner ih =>
    refine reports_walk_of_fits ?_
    intro hfits
    unfold walk
    rw [hfits]
    cases hnil : subject.value.isNil with
    | true =>
      rw [mismatches_optional_of_isNil inner _ hnil]
      exact reports_nil
    | false =>
      have hinner : inner.fits subject.value = true := by
        rwa [fits, hnil, Bool.false_or] at hfits
      rw [mismatches_optional _ hnil hinner]
      exact ih subject depth
  | union options ih =>
    refine reports_walk_of_fits ?_
    intro hfits
    rw [mismatches_union _ hfits]
    unfold walk
    rw [hfits]
    cases options with
    | nil =>
      -- nothing fits a union without options, so it is never walked
      exact absurd hfits Bool.false_ne_true
    | cons s rest =>
      refine reports_walkOptions [] ?_
      intro t ht
      exact ih t ht subject depth
  | keyed key val ihKey ihVal =>
    apply reports_walk_container (fun _ => rfl) (mismatches_keyed_table key val _)
    · intro hfits
      unfold walk
      rw [hfits]
      rfl
    intro t
    rw [Budget.spend_leftAt]
    refine reports_untilReport ?_ t.entries
    intro e
    -- the key side and the value side of one entry are always both walked
    have hkey := (ihKey (.key e.1) (depth + 1)).within (.key e.1)
    have hval := (ihVal (.part e.2) (depth + 1)).within (.entry e.1)
    exact hkey.append hval
  | record fields ih =>
    apply reports_walk_container (fun _ => rfl) (mismatches_record_table fields _)
    · intro hfits
      unfold walk
      rw [hfits]
      rfl
    intro t
    rw [Budget.spend_leftAt]
    refine reports_walkFields ?_
    intro f hf v
    exact ih f hf (.part v) (depth + 1)
  | array element ih =>
    apply reports_walk_container (fun _ => rfl) (mismatches_array_table element _)
    · intro hfits
      unfold walk
      rw [hfits]
      rfl
    intro t
    rw [Budget.spend_leftAt]
    refine reports_untilReport ?_ (Table.run t)
    intro e
    exact (ih (.part e.2) (depth + 1)).within (.entry (.int e.1))

end Spec

/-- A checker finds what is wrong with a value, seen from the root. -/
theorem Checker.mismatches_eq (c : Checker) (value : Value) :
    c.mismatches value =
      (c.spec.mismatches c.settings.maxDepth value).map (Mismatch.below c.settings.rootPath) := by
  have h := Spec.reports_walk c.settings.maxDepth c.spec (.part value) 0 c.settings.rootPath
  rw [Checker.mismatches, h, Budget.leftAt_zero]
  rfl

/-- A checker finds nothing when there is nothing to be seen from the root. -/
theorem Checker.mismatches_eq_nil_iff (c : Checker) (value : Value) :
    c.mismatches value = [] ↔ c.spec.mismatches c.settings.maxDepth value = [] := by
  rw [Checker.mismatches_eq, List.map_eq_nil_iff]

end Conformance

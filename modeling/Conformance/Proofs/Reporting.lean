import Conformance.Proofs.ArrayPart
import Conformance.Proofs.Walk

/-!
# What is reported of containers and unions

A check of a table reports nothing of its own: all it reports is what separate checks of
its parts find, each made one container further in and seen from the table. Which parts
those are is the policy of the container:

> `Checker.mismatches_table`: a record reports on all its fields, in their order; a keyed
> table reports on its first failing entry, the key before the value; an array reports on
> the failing element with the least index.

That a part is checked within a walk as it would be by itself is `Spec.reports_walk`: what
the walk carries (its path, its depth) comes out as a segment in front and one less to go.

A union has options for parts, and they are about the same value at the same place:

> `Checker.mismatches_of_union`: a union reports nothing when some option does not; otherwise it
> reports what its last option does, or the value against the union as a whole if no option
> even fits.
-/

namespace Conformance

namespace Checker

/-! ## Checks of parts -/

/-- What a check of a part by itself finds, with one container less to go, seen from the
container. -/
def ofPart (maxDepth : Budget) (segment : Segment) (s : Spec) (v : Value) : List Mismatch :=
  ((Checker.mk s ⟨maxDepth.spend, none⟩).mismatches v).map (Mismatch.under segment)

/-- What checks of a key and of its value find. -/
def ofEntry (maxDepth : Budget) (key val : Spec) (e : Key × Value) : List Mismatch :=
  ofPart maxDepth (.key e.1) key e.1.toValue ++ ofPart maxDepth (.entry e.1) val e.2

/-- What a check of a declared field finds. -/
def ofField (maxDepth : Budget) (t : Table) (f : String × Spec) : List Mismatch :=
  ofPart maxDepth (.entry (.str f.1)) f.2 (Table.get t (.str f.1))

/-- What a check of the element at an index finds. -/
def ofElement (maxDepth : Budget) (element : Spec) (t : Table) (i : Int) : List Mismatch :=
  ofPart maxDepth (.entry (.int i)) element (Table.get t (.int i))

/-- Without a name for the root, mismatches are seen from the value itself. -/
theorem mismatches_of_unnamed (s : Spec) (maxDepth : Budget) (v : Value) :
    (Checker.mk s ⟨maxDepth, none⟩).mismatches v = s.mismatches maxDepth v := by
  rw [mismatches_eq]
  -- the path to an unnamed root is empty, and a path put behind it stays as it is
  exact (List.map_congr_left fun m _ => m.below_nil).trans (List.map_id _)

/-- A part is checked within a walk as it is by itself. -/
theorem ofPart_eq (maxDepth : Budget) (segment : Segment) (s : Spec) (v : Value) :
    ofPart maxDepth segment s v = (s.mismatches maxDepth.spend v).map (Mismatch.under segment) := by
  rw [ofPart, mismatches_of_unnamed]

theorem ofEntry_eq (maxDepth : Budget) (key val : Spec) :
    ofEntry maxDepth key val = Spec.entryMismatches key val maxDepth.spend := by
  funext e
  rw [ofEntry, ofPart_eq, ofPart_eq, Spec.entryMismatches]

theorem ofField_eq (maxDepth : Budget) (t : Table) :
    ofField maxDepth t = Spec.fieldMismatches maxDepth.spend t := by
  funext f
  rw [ofField, ofPart_eq, Spec.fieldMismatches]

theorem ofElement_eq {maxDepth : Budget} {element : Spec} {t : Table} {e : Int × Value}
    (he : e ∈ Table.run t) :
    Spec.elementMismatches element maxDepth.spend e = ofElement maxDepth element t e.1 := by
  rw [ofElement, ofPart_eq, (Table.get_of_mem_run he).2, Spec.elementMismatches]

/-! ## Containers -/

/-- What is reported is all that a check finds of one thing in a list, the first of which it
finds anything. -/
def IsFirstReport {α : Type} (check : α → List Mismatch) (as : List α)
    (reported : List Mismatch) : Prop :=
  (∀ a ∈ as, check a = []) ∧ reported = [] ∨
    ∃ before a after, as = before ++ a :: after ∧ (∀ x ∈ before, check x = []) ∧
      check a ≠ [] ∧ reported = check a

/-- What is reported is all that a check finds at one index of the array part, the least of
those where it finds anything. -/
def IsLeastReport (check : Int → List Mismatch) (t : Table) (reported : List Mismatch) : Prop :=
  (∀ i, t.InRun i → check i = []) ∧ reported = [] ∨
    ∃ i, t.InRun i ∧ (∀ j, t.InRun j → j < i → check j = []) ∧
      check i ≠ [] ∧ reported = check i

/-- A first failure is reported as such. -/
theorem isFirstReport_firstFailure {α : Type} (check : α → List Mismatch) (as : List α) :
    IsFirstReport check as (firstFailure check as) := by
  rcases firstFailure_cases check as with hall | ⟨before, a, after, heq, hbefore, ha⟩
  · exact .inl ⟨hall, firstFailure_eq_nil_iff.mpr hall⟩
  · refine .inr ⟨before, a, after, heq, hbefore, ha, ?_⟩
    rw [heq, firstFailure_append hbefore ha]

/-- The first failing element of a run is the one with the least index, because the run
ascends. -/
theorem IsFirstReport.isLeastReport {f : Int × Value → List Mismatch} {check : Int → List Mismatch}
    {t : Table} {reported : List Mismatch} (hcheck : ∀ e ∈ Table.run t, f e = check e.1)
    (h : IsFirstReport f (Table.run t) reported) : IsLeastReport check t reported := by
  have hindex {i : Int} (hi : t.InRun i) : f (i, Table.get t (.int i)) = check i :=
    hcheck _ (Table.mem_run_of_inRun hi)
  rcases h with ⟨hall, hnil⟩ | ⟨before, e, after, heq, hbefore, he, hreported⟩
  · refine .inl ⟨?_, hnil⟩
    intro i hi
    rw [← hindex hi]
    exact hall _ (Table.mem_run_of_inRun hi)
  · have hmem : e ∈ Table.run t := heq ▸ List.mem_append_right _ List.mem_cons_self
    rw [hcheck e hmem] at he hreported
    refine .inr ⟨e.1, (Table.get_of_mem_run hmem).1, ?_, he, hreported⟩
    intro j hj hlt
    rw [← hindex hj]
    exact hbefore _ (Table.mem_before_of_lt heq (Table.mem_run_of_inRun hj) hlt)

/-- A record reports on all its fields, in their order. -/
theorem mismatches_record {maxDepth : Budget} (h : maxDepth ≠ some 0)
    (fields : OrderedMap String Spec) (t : Table) :
    (Checker.mk (.record fields) ⟨maxDepth, none⟩).mismatches (.table t) =
      fields.entries.flatMap (ofField maxDepth t) := by
  rw [mismatches_of_unnamed, Spec.mismatches_record_table, Budget.isSpent_eq_false h, ofField_eq,
    if_neg Bool.false_ne_true]

/-- A keyed table reports on its first failing entry. -/
theorem isFirstReport_keyed {maxDepth : Budget} (h : maxDepth ≠ some 0) (key val : Spec)
    (t : Table) :
    IsFirstReport (ofEntry maxDepth key val) t.entries
      ((Checker.mk (.keyed key val) ⟨maxDepth, none⟩).mismatches (.table t)) := by
  rw [mismatches_of_unnamed, Spec.mismatches_keyed_table, Budget.isSpent_eq_false h, ofEntry_eq,
    if_neg Bool.false_ne_true]
  exact isFirstReport_firstFailure _ _

/-- An array reports on the failing element with the least index. -/
theorem isLeastReport_array {maxDepth : Budget} (h : maxDepth ≠ some 0) (element : Spec)
    (t : Table) :
    IsLeastReport (ofElement maxDepth element t) t
      ((Checker.mk (.array element) ⟨maxDepth, none⟩).mismatches (.table t)) := by
  rw [mismatches_of_unnamed, Spec.mismatches_array_table, Budget.isSpent_eq_false h,
    if_neg Bool.false_ne_true]
  apply (isFirstReport_firstFailure _ _).isLeastReport
  intro e he
  exact ofElement_eq he

/-- What a container reports is found by separate checks of its parts: of all the fields of
a record, of the first failing entry of a keyed table, of the failing element of an array
with the least index. -/
theorem mismatches_table {maxDepth : Budget} (h : maxDepth ≠ some 0) (t : Table)
    (fields : OrderedMap String Spec) (key val element : Spec) :
    (Checker.mk (.record fields) ⟨maxDepth, none⟩).mismatches (.table t) =
        fields.entries.flatMap (ofField maxDepth t) ∧
      IsFirstReport (ofEntry maxDepth key val) t.entries
        ((Checker.mk (.keyed key val) ⟨maxDepth, none⟩).mismatches (.table t)) ∧
      IsLeastReport (ofElement maxDepth element t) t
        ((Checker.mk (.array element) ⟨maxDepth, none⟩).mismatches (.table t)) :=
  ⟨mismatches_record h fields t, isFirstReport_keyed h key val t, isLeastReport_array h element t⟩

/-- A list of which the first element passes as a truth value and the other two do not. -/
def mixed : Table := Table.ofList [.boolean true, .table ∅, .function "print"]

/-- A limit of one container is enough for the elements themselves. The record lacks a size, and
the keyed table and the array are wrong at the second element first. -/
theorem mismatches_table_mixed :
    (some 1 : Budget) ≠ some 0 ∧
      (Checker.mk (.record ⟨[("size", .never), ("name", .any)]⟩) ⟨some 1, none⟩).mismatches
          (.table mixed) = [⟨.nil, .never, [.entry (.str "size")]⟩] ∧
      (Checker.mk (.keyed (.kind .number) (.kind .boolean)) ⟨some 1, none⟩).mismatches
          (.table mixed) = [⟨.table ∅, .kind .boolean, [.entry (.int 2)]⟩] ∧
      (Checker.mk (.array (.kind .boolean)) ⟨some 1, none⟩).mismatches (.table mixed) =
        [⟨.table ∅, .kind .boolean, [.entry (.int 2)]⟩] ∧
      (Checker.mk (.record ⟨[("size", .never), ("name", .any)]⟩) ⟨some 1, none⟩).mismatches
          (.table mixed) =
        [("size", .never), ("name", .any)].flatMap (ofField (some 1) mixed) ∧
      IsFirstReport (ofEntry (some 1) (.kind .number) (.kind .boolean)) mixed.entries
        ((Checker.mk (.keyed (.kind .number) (.kind .boolean)) ⟨some 1, none⟩).mismatches
          (.table mixed)) ∧
      IsLeastReport (ofElement (some 1) (.kind .boolean) mixed) mixed
        ((Checker.mk (.array (.kind .boolean)) ⟨some 1, none⟩).mismatches (.table mixed)) :=
  ⟨by decide, rfl, rfl, rfl, mismatches_table (by decide) mixed ⟨[("size", .never), ("name", .any)]⟩
    (.kind .number) (.kind .boolean) (.kind .boolean)⟩

/-! ## Unions -/

/-- What a check of an option by itself finds. -/
def ofOption (settings : Settings) (v : Value) (s : Spec) : List Mismatch :=
  (Checker.mk s settings).mismatches v

theorem ofOption_eq_nil_iff {settings : Settings} {v : Value} {s : Spec} :
    ofOption settings v s = [] ↔ s.mismatches settings.maxDepth v = [] := by
  rw [ofOption, mismatches_eq, List.map_eq_nil_iff]

/-- A value that does not fit is reported at the root. -/
theorem ofOption_of_not_fits {settings : Settings} {v : Value} {s : Spec}
    (h : s.fits v = false) : ofOption settings v s = [⟨v, s, settings.rootPath⟩] := by
  rw [ofOption, mismatches_eq, Spec.mismatches_of_not_fits _ h, List.map_singleton, Mismatch.below,
    List.append_nil]

/-- A union that the value fits, but none of whose options is met in full, reports what the
last option does. -/
theorem ofOption_union_of_fits {settings : Settings} {v : Value} {options : List Spec}
    (hfits : ∃ s ∈ options, s.fits v = true) (hfail : ∀ s ∈ options, ofOption settings v s ≠ []) :
    ∃ last, options.getLast? = some last ∧
      ofOption settings v (.union options) = ofOption settings v last := by
  have hsome : Spec.fitsSome options v = true := by
    rw [Spec.fitsSome_eq_any, List.any_eq_true]
    exact hfits
  rcases Spec.unionMismatches_eq_nil_or_last options settings.maxDepth v with
    hnil | ⟨last, hlast, heq⟩
  · -- nothing is found only where an option is met, since there are options
    rcases Spec.unionMismatches_eq_nil_iff.mp hnil with hempty | ⟨s, hs, hmet⟩
    · rw [hempty] at hsome
      exact absurd hsome Bool.false_ne_true
    · exact absurd (ofOption_eq_nil_iff.mpr hmet) (hfail s hs)
  · refine ⟨last, hlast, ?_⟩
    rw [ofOption, ofOption, mismatches_eq, mismatches_eq, Spec.mismatches_union _ hsome, heq]

/-- What a union reports is nothing exactly when some option reports nothing. Otherwise it is
what the last option reports, whether that fits or not; but if no option fits, it is the value
against the union, where the last option would report the value against itself. -/
theorem mismatches_of_union (options : List Spec) (settings : Settings) (v : Value) :
    (ofOption settings v (.union options) = [] ↔ ∃ s ∈ options, ofOption settings v s = []) ∧
      ((∀ s ∈ options, ofOption settings v s ≠ []) → (∃ s ∈ options, s.fits v = true) →
        ∃ last, options.getLast? = some last ∧
          ofOption settings v (.union options) = ofOption settings v last) ∧
      ((∀ s ∈ options, s.fits v = false) →
        ofOption settings v (.union options) = [⟨v, .union options, settings.rootPath⟩] ∧
          ∀ last, options.getLast? = some last →
            ofOption settings v last = [⟨v, last, settings.rootPath⟩]) := by
  refine ⟨?_, ?_, ?_⟩
  · simp only [ofOption_eq_nil_iff]
    exact Spec.mismatches_union_eq_nil_iff
  · intro hfail hfits
    exact ofOption_union_of_fits hfits hfail
  · intro hnone
    have hout : (Spec.union options).fits v = false := by
      rw [Spec.fits, Spec.fitsSome_eq_any, List.any_eq_false]
      intro s hs
      rw [hnone s hs]
      exact Bool.false_ne_true
    refine ⟨ofOption_of_not_fits hout, ?_⟩
    intro last hlast
    exact ofOption_of_not_fits (hnone last (List.mem_of_getLast? hlast))

/-- Truth values in a list, or a string. -/
def flagsOrWord : List Spec := [.array (.kind .boolean), .kind .string]

/-- Of a list with a table in it the string is reported that it is not, although it fits the
first option and not the second. -/
theorem mismatches_of_union_mixed :
    (∀ s ∈ flagsOrWord, ofOption ⟨none, some "item"⟩ (.table mixed) s ≠ []) ∧
      (∃ s ∈ flagsOrWord, s.fits (.table mixed) = true) ∧
      ∃ last, flagsOrWord.getLast? = some last ∧
        ofOption ⟨none, some "item"⟩ (.table mixed) (.union flagsOrWord) =
          ofOption ⟨none, some "item"⟩ (.table mixed) last := by
  have hfail : ∀ s ∈ flagsOrWord, ofOption ⟨none, some "item"⟩ (.table mixed) s ≠ [] :=
    List.forall_mem_cons.mpr ⟨List.cons_ne_nil _ _,
      List.forall_mem_singleton.mpr (List.cons_ne_nil _ _)⟩
  have hfits : ∃ s ∈ flagsOrWord, s.fits (.table mixed) = true := ⟨_, List.mem_cons_self, rfl⟩
  exact ⟨hfail, hfits,
    (mismatches_of_union flagsOrWord ⟨none, some "item"⟩ (.table mixed)).2.1 hfail hfits⟩

end Checker

end Conformance

import Conformance.Checker
import Conformance.Proofs.KeyText
import Conformance.Proofs.Walk
import Conformance.Text.Lines

/-!
# Line breaks in a refusal

The text of a refusal has a message for each mismatch, one under the other. A message is meant
to be one line, but strings of the host are shown in it: the name of the root, the string keys
of the path, what was found, and the literals of what was expected. Quoting a string leaves a
line break in it as it is, so that a message is as many lines as these strings make it:

> `Mismatch.oneLine_line_iff`: a message is one line exactly when all strings shown in it are.
>
> `Checker.splitLines_text_eq_messages_iff`: the text of a refusal comes apart into its messages
> exactly when all strings shown in them are one line.
>
> `Checker.splitLines_text_ne_messages`: it need not, as a string with a line break may be found.
-/

namespace Conformance

/-! ## Strings that are shown -/

/-- The strings of the host in the text of a value. -/
def Value.shown : Value → List String
  | .string s => [s]
  | .function name => [name]
  | _ => []

/-- The strings of the host in the words for a step of a path. -/
def Segment.shown : Segment → List String
  | .root name => [name]
  | .key k => k.str?.toList
  | .entry k => k.str?.toList

namespace Spec

mutual

/-- The strings of the host in the words for a spec: those of its literals, but not of what
containers ask for. -/
def shown (s : Spec) : List String :=
  match s with
  | .literal v => v.shown
  | .optional inner => shown inner
  | .union options => shownOptions options
  | _ => []
termination_by structural s

/-- The strings of the host in the words for the options. -/
def shownOptions (options : List Spec) : List String :=
  match options with
  | [] => []
  | s :: rest => shown s ++ shownOptions rest
termination_by structural options

end

theorem shownOptions_eq_flatMap (options : List Spec) :
    shownOptions options = options.flatMap shown := by
  induction options with
  | nil => rfl
  | cons s rest ih => rw [shownOptions, ih, List.flatMap_cons]

end Spec

/-- The strings of the host in the line for a mismatch. -/
def Mismatch.shown (m : Mismatch) : List String :=
  m.path.flatMap Segment.shown ++ m.value.shown ++ m.expected.shown

/-! ## Values and specs -/

/-- A key is spelled in one line unless its text has a line break in it. -/
theorem Key.oneLine_spelling_iff (k : Key) :
    OneLine k.spelling ↔ ∀ s ∈ k.str?.toList, OneLine s := by
  rcases k.exists_str_or_plain with ⟨s, hs⟩ | hplain
  · rw [hs]
    exact oneLine_quoted_iff.trans List.forall_mem_singleton.symm
  · have hline : OneLine k.text := oneLine_of_all rfl (all_isNumberChar_text hplain)
    have hnone : k.str? = none := hplain
    rw [hplain.spelling_eq, hnone]
    exact iff_of_true hline (List.forall_mem_nil _)

theorem oneLine_integer (i : Int) : OneLine (String.ofList (integerChars i)) := by
  refine oneLine_of_all (p := isIntegerChar) rfl ?_
  rw [String.toList_ofList]
  exact all_isIntegerChar_integerChars i

theorem oneLine_number (x : Binary64) : OneLine x.text := by
  refine oneLine_of_all (p := isNumberChar) rfl ?_
  rw [Binary64.text, String.toList_ofList]
  exact x.all_isNumberChar_chars

/-- A value is spelled in one line when the texts that are shown of it are. -/
theorem Value.oneLine_spelling_iff (v : Value) :
    OneLine v.spelling ↔ ∀ s ∈ v.shown, OneLine s := by
  cases v with
  | nil => exact iff_of_true (by decide) (List.forall_mem_nil _)
  | boolean b => cases b <;> exact iff_of_true (by decide) (List.forall_mem_nil _)
  | number x => exact iff_of_true (oneLine_number x) (List.forall_mem_nil _)
  | string s => exact oneLine_quoted_iff.trans List.forall_mem_singleton.symm
  | function name =>
    exact (oneLine_append_iff_of_left (by decide)).trans List.forall_mem_singleton.symm
  | table t =>
    have hline : OneLine ("table: " ++ String.ofList (integerChars t.size) ++ " entries") :=
      oneLine_append_iff.mpr
        ⟨oneLine_append_iff.mpr ⟨by decide, oneLine_integer t.size⟩, by decide⟩
    exact iff_of_true hline (List.forall_mem_nil _)

/-- A spec is described in one line when the texts that are shown of it are. -/
theorem Spec.oneLine_description_iff (s : Spec) :
    OneLine s.description ↔ ∀ t ∈ s.shown, OneLine t := by
  induction s with
  | any => exact iff_of_true (by decide) (List.forall_mem_nil _)
  | never => exact iff_of_true (by decide) (List.forall_mem_nil _)
  | kind k => cases k <;> exact iff_of_true (by decide) (List.forall_mem_nil _)
  | literal v => exact v.oneLine_spelling_iff
  | optional inner ih =>
    exact (oneLine_append_iff_of_left (by decide)).trans ih
  | union options ih =>
    rw [description, shown, descriptions_eq_map, shownOptions_eq_flatMap,
      oneLine_intercalate_iff (by decide), List.forall_mem_map, List.forall_mem_flatMap]
    exact forall₂_congr ih
  | keyed key val _ _ =>
    have hline : OneLine "table" := by decide
    exact iff_of_true hline (List.forall_mem_nil _)
  | record fields _ =>
    have hline : OneLine "structural table" := by decide
    exact iff_of_true hline (List.forall_mem_nil _)
  | array element _ =>
    have hline : OneLine "array table" := by decide
    exact iff_of_true hline (List.forall_mem_nil _)

/-! ## Locations -/

/-- What an entry adds to the words for what it is in. -/
theorem Segment.oneLine_extend_entry_iff {described : String} (h : ¬ described.isEmpty = true)
    (k : Key) : OneLine (Segment.extend described (.entry k)) ↔
      OneLine described ∧ ∀ s ∈ k.str?.toList, OneLine s := by
  have hbracket : OneLine (described ++ "[" ++ k.spelling ++ "]") ↔
      OneLine described ∧ ∀ s ∈ k.str?.toList, OneLine s := by
    rw [oneLine_append_iff_of_right (by decide), oneLine_append_iff,
      oneLine_append_iff_of_right (by decide), k.oneLine_spelling_iff]
  cases k with
  | str s =>
    rw [Segment.extend, if_neg h]
    by_cases hs : isIdentifier s = true
    · -- the name of a field stands there as it is
      rw [if_pos hs, oneLine_append_iff, oneLine_append_iff_of_right (by decide)]
      exact and_congr_right fun _ => List.forall_mem_singleton.symm
    · rw [if_neg hs]
      exact hbracket
  | _ =>
    rw [Segment.extend, if_neg h]
    · exact hbracket
    · exact nofun

/-- The words for a location grow by a line break only with a step that has one in its key. -/
theorem Segment.oneLine_extend_iff {segment : Segment} (h : ∀ name, segment ≠ .root name)
    (described : String) : OneLine (segment.extend described) ↔
      OneLine described ∧ ∀ s ∈ segment.shown, OneLine s := by
  by_cases hdescribed : described.isEmpty = true
  · have hline : OneLine described := by
      rw [String.isEmpty_iff.mp hdescribed]
      decide
    rw [and_iff_right hline]
    cases segment with
    | root name => exact absurd rfl (h name)
    | key k =>
      rw [Segment.extend, if_pos hdescribed, oneLine_append_iff_of_left (by decide)]
      exact k.oneLine_spelling_iff
    | entry k =>
      have hwords : Segment.extend described (.entry k) = "table entry " ++ k.spelling :=
        if_pos hdescribed
      rw [hwords, oneLine_append_iff_of_left (by decide)]
      exact k.oneLine_spelling_iff
  · cases segment with
    | root name => exact absurd rfl (h name)
    | key k =>
      -- the key is named first, although it is the last step
      rw [Segment.extend, if_neg hdescribed, oneLine_append_iff,
        oneLine_append_iff_of_right (by decide), oneLine_append_iff_of_left (by decide), and_comm]
      exact and_congr_right fun _ => k.oneLine_spelling_iff
    | entry k => exact Segment.oneLine_extend_entry_iff hdescribed k

namespace Path

/-- Behind the root, every step adds what it shows to the words that there are. -/
theorem oneLine_foldl_iff {path : Path} (hpath : ∀ name, .root name ∉ path)
    (described : String) : OneLine (path.foldl Segment.extend described) ↔
      OneLine described ∧ ∀ s ∈ path.flatMap Segment.shown, OneLine s := by
  induction path generalizing described with
  | nil => exact (and_iff_left (List.forall_mem_nil _)).symm
  | cons segment rest ih =>
    have hsegment : ∀ name, segment ≠ .root name := fun name heq =>
      hpath name (heq ▸ List.mem_cons_self)
    have hrest : ∀ name, .root name ∉ rest := fun name hmem =>
      hpath name (List.mem_cons_of_mem _ hmem)
    rw [List.foldl_cons, ih hrest, Segment.oneLine_extend_iff hsegment, List.flatMap_cons,
      List.forall_mem_append, and_assoc]

/-- The words for a location under a name are one line when the name is, and the strings on the
way from there. -/
theorem oneLine_describe_iff {path : Path} (hpath : ∀ name, .root name ∉ path)
    (name : Option String) : OneLine (describe (name.toList.map .root ++ path)) ↔
      ∀ s ∈ (name.toList.map Segment.root ++ path).flatMap Segment.shown, OneLine s := by
  have hnothing : OneLine "" := List.not_mem_nil
  cases name with
  | none => exact (oneLine_foldl_iff hpath "").trans (and_iff_right hnothing)
  | some name =>
    rw [Option.toList_some, List.map_singleton, List.singleton_append, List.flatMap_cons,
      List.forall_mem_append]
    exact (oneLine_foldl_iff hpath name).trans (and_congr_left fun _ =>
      List.forall_mem_singleton.symm)

end Path

/-! ## Messages -/

namespace Mismatch

/-- A message says where, if there is anything to say of that. -/
theorem exists_line_eq (m : Mismatch) : ∃ location : String,
    (OneLine location ↔ OneLine m.path.describe) ∧
      m.line = "Unexpected value" ++ location ++ ". Found: " ++ m.value.spelling ++
        " Expected: value of type " ++ m.expected.description := by
  refine ⟨_, ?_, rfl⟩
  rw [Path.location?]
  by_cases h : m.path.describe.isEmpty = true
  · rw [String.isEmpty_iff.mp h]
    exact Iff.rfl
  · rw [if_neg h]
    exact oneLine_append_iff_of_left (by decide)

/-- The words between location, finding and description are one line in every message. -/
theorem oneLine_line_iff_parts (m : Mismatch) : OneLine m.line ↔
    OneLine m.path.describe ∧ OneLine m.value.spelling ∧ OneLine m.expected.description := by
  obtain ⟨location, hlocation, hline⟩ := m.exists_line_eq
  rw [hline, oneLine_append_iff, oneLine_append_iff_of_right (by decide), oneLine_append_iff,
    oneLine_append_iff_of_right (by decide), oneLine_append_iff_of_left (by decide), hlocation,
    and_assoc]

/-- A message is one line exactly when all strings that it shows are. -/
theorem oneLine_line_iff {m : Mismatch} {name : Option String}
    (hpath : ∀ root, .root root ∉ m.path) :
    OneLine (m.below (name.toList.map .root)).line ↔
      ∀ s ∈ (m.below (name.toList.map .root)).shown, OneLine s := by
  rw [oneLine_line_iff_parts, shown, List.forall_mem_append, List.forall_mem_append, and_assoc]
  refine and_congr ?_ (and_congr ?_ ?_)
  · exact Path.oneLine_describe_iff hpath name
  · exact m.value.oneLine_spelling_iff
  · exact m.expected.oneLine_description_iff

end Mismatch

namespace Checker

/-- What is reported takes one line when the texts that are shown in it do. -/
theorem oneLine_line_iff_of_mem (c : Checker) {v : Value} {m : Mismatch}
    (hm : m ∈ c.mismatches v) : OneLine m.line ↔ ∀ s ∈ m.shown, OneLine s := by
  rw [mismatches_eq, List.mem_map] at hm
  obtain ⟨n, hn, hbelow⟩ := hm
  rw [← hbelow]
  exact Mismatch.oneLine_line_iff (Spec.root_not_mem_path hn)

/-- A refusal has a message for each mismatch, and there are some. -/
theorem messages_of_require {c : Checker} {v : Value} {r : Rejection}
    (h : c.require v = .error r) : r.messages = c.lines v ∧ r.messages ≠ [] := by
  unfold require at h
  split at h
  · exact nomatch h
  · next hsome =>
    rw [← Except.error.inj h]
    exact ⟨rfl, hsome⟩

/-- The text of a refusal comes apart into its messages, which tell the mismatches one by one,
exactly when no string that is shown in them has a line break in it. -/
theorem splitLines_text_eq_messages_iff (c : Checker) {v : Value} {r : Rejection}
    (h : c.require v = .error r) :
    r.messages = (c.mismatches v).map Mismatch.line ∧
      (splitLines r.text = r.messages ↔ ∀ m ∈ c.mismatches v, ∀ s ∈ m.shown, OneLine s) := by
  obtain ⟨hmessages, hsome⟩ := messages_of_require h
  refine ⟨hmessages, ?_⟩
  rw [Rejection.text, splitLines_intercalate_eq_iff hsome, hmessages, lines, List.forall_mem_map]
  exact forall₂_congr fun m hm => c.oneLine_line_iff_of_mem hm

/-- Numbers at two names, one of which has a line break in it, under the name `list`. -/
def twoSizes : Checker :=
  ⟨.record ⟨[("size", .kind .number), ("full\nsize", .kind .number)]⟩, ⟨none, some "list"⟩⟩

/-- The refusal of a table that has neither. -/
def sizesMissing : Rejection :=
  ⟨["Unexpected value in list.size. Found: nil Expected: value of type number",
    "Unexpected value in list['full\nsize']. Found: nil Expected: value of type number"]⟩

/-- The second of two messages shows the name that has a line break in it. -/
theorem splitLines_text_eq_messages_iff_twoSizes :
    twoSizes.require (.table ∅) = .error sizesMissing ∧
      sizesMissing.messages = (twoSizes.mismatches (.table ∅)).map Mismatch.line ∧
      (splitLines sizesMissing.text = sizesMissing.messages ↔
        ∀ m ∈ twoSizes.mismatches (.table ∅), ∀ s ∈ m.shown, OneLine s) := by
  have hrefused : twoSizes.require (.table ∅) = .error sizesMissing := by decide +kernel
  exact ⟨hrefused, splitLines_text_eq_messages_iff twoSizes hrefused⟩

/-- The refusal of a string with a line break in it, where a number should be. -/
def numberExpected : Rejection :=
  ⟨["Unexpected value. Found: 'a\nb' Expected: value of type number"]⟩

/-- The text of a refusal need not come apart into its messages: one message can be two lines. -/
theorem splitLines_text_ne_messages :
    ¬ ∀ (c : Checker) (v : Value) (r : Rejection), c.require v = .error r →
      splitLines r.text = r.messages := by
  intro h
  have hrefused : (ofSpec (.kind .number)).require (.string "a\nb") = .error numberExpected := by
    decide +kernel
  have hlines := (splitLines_intercalate_eq_iff (List.cons_ne_nil _ _)).mp (h _ _ _ hrefused)
  have hbreak : ¬ OneLine "Unexpected value. Found: 'a\nb' Expected: value of type number" := by
    decide
  exact hbreak (hlines _ List.mem_cons_self)

end Checker

end Conformance

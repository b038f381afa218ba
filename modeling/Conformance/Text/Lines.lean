import Conformance.Text.Quoted

/-!
# Lines of a text

A text is taken apart at its line breaks. When texts have been put together with a line break
between any two of them, taking the whole apart gives them back if there is no line break in
any of them, and only then:

> `splitLines_intercalate_eq_iff`: texts come apart as they were put together exactly when each
> of them is one line.
-/

namespace Conformance

/-- No line break is in the text. -/
def OneLine (text : String) : Prop := '\n' ∉ text.toList

instance (text : String) : Decidable (OneLine text) :=
  inferInstanceAs (Decidable ('\n' ∉ text.toList))

/-- What stands between the line breaks of a text. -/
def splitLines (text : String) : List String := (text.split '\n').toList.map (·.copy)

/-! ## Texts of one line -/

/-- A text is one line when both its parts are. -/
theorem oneLine_append_iff {a b : String} : OneLine (a ++ b) ↔ OneLine a ∧ OneLine b := by
  unfold OneLine
  rw [String.toList_append, List.mem_append, not_or]

/-- What stands in front, or behind, does not matter when it is one line itself. -/
theorem oneLine_append_iff_of_left {a b : String} (ha : OneLine a) :
    OneLine (a ++ b) ↔ OneLine b :=
  oneLine_append_iff.trans (and_iff_right ha)

theorem oneLine_append_iff_of_right {a b : String} (hb : OneLine b) :
    OneLine (a ++ b) ↔ OneLine a :=
  oneLine_append_iff.trans (and_iff_left hb)

/-- What has only characters of a kind is one line, if a line break is not of that kind. -/
theorem oneLine_of_all {p : Char → Bool} {text : String} (hp : p '\n' = false)
    (h : text.toList.all p = true) : OneLine text := by
  intro hmem
  rw [List.all_eq_true.mp h _ hmem] at hp
  exact Bool.noConfusion hp

/-- Texts put together are one line when each of them is, and what stands between is too. -/
theorem oneLine_intercalate_iff {separator : String} (hseparator : OneLine separator)
    {texts : List String} :
    OneLine (separator.intercalate texts) ↔ ∀ t ∈ texts, OneLine t := by
  induction texts with
  | nil =>
    rw [String.intercalate_nil]
    exact ⟨fun _ t ht => absurd ht List.not_mem_nil, fun _ => List.not_mem_nil⟩
  | cons t rest ih =>
    cases rest with
    | nil => rw [String.intercalate_singleton, List.forall_mem_singleton]
    | cons next rest =>
      rw [String.intercalate_cons_cons, oneLine_append_iff,
        oneLine_append_iff_of_right hseparator, ih]
      exact List.forall_mem_cons.symm

/-- Quoting adds quotes and backslashes, and takes nothing away. -/
theorem mem_escapeQuotes_iff {c : Char} (hquote : c ≠ '\'') (hbackslash : c ≠ '\\')
    {chars : List Char} : c ∈ escapeQuotes chars ↔ c ∈ chars := by
  induction chars with
  | nil => exact Iff.rfl
  | cons d rest ih =>
    unfold escapeQuotes at ih ⊢
    rw [List.flatMap_cons, List.mem_append, ih, List.mem_cons]
    apply or_congr_left
    by_cases hd : d = '\''
    · simp [hd, hquote, hbackslash]
    · simp [hd]

/-- Quotes neither add a line break nor take one away. -/
theorem oneLine_quoted_iff {s : String} : OneLine (quoted s) ↔ OneLine s := by
  unfold OneLine quoted
  rw [String.toList_ofList, List.mem_append, List.mem_cons,
    mem_escapeQuotes_iff (by decide) (by decide)]
  simp

/-! ## Taking a text apart -/

/-- What stands between the marks of a text has no mark in it. -/
theorem not_mem_of_mem_splitOn {mark : Char} {text part : List Char}
    (h : part ∈ text.splitOn mark) : mark ∉ part := by
  induction text generalizing part with
  | nil =>
    rw [List.splitOn_nil, List.mem_singleton] at h
    rw [h]
    exact List.not_mem_nil
  | cons c rest ih =>
    rw [List.splitOn_cons_eq_if_modifyHead] at h
    obtain ⟨first, others, hparts⟩ := List.exists_cons_of_ne_nil (List.splitOn_ne_nil mark rest)
    rw [hparts] at h ih
    by_cases hc : (c == mark) = true
    · rw [if_pos hc, List.mem_cons] at h
      rcases h with hnil | hpart
      · rw [hnil]
        exact List.not_mem_nil
      · exact ih hpart
    · -- the character belongs to the first part of the rest
      rw [if_neg hc, List.modifyHead_cons, List.mem_cons] at h
      rcases h with hfirst | hpart
      · have hne : mark ≠ c := fun heq => hc (beq_iff_eq.mpr heq.symm)
        rw [hfirst, List.mem_cons, not_or]
        exact ⟨hne, ih List.mem_cons_self⟩
      · exact ih (List.mem_cons_of_mem first hpart)

/-- A line has no line break in it. -/
theorem oneLine_of_mem_splitLines {text line : String} (h : line ∈ splitLines text) :
    OneLine line := by
  unfold splitLines at h
  rw [String.toList_split_char, List.mem_map] at h
  obtain ⟨part, hpart, hline⟩ := h
  rw [← hline, OneLine, String.toList_ofList]
  exact not_mem_of_mem_splitOn hpart

/-- Texts come apart as they were put together exactly when each of them is one line. -/
theorem splitLines_intercalate_eq_iff {texts : List String} (hne : texts ≠ []) :
    splitLines ("\n".intercalate texts) = texts ↔ ∀ t ∈ texts, OneLine t := by
  constructor
  · intro h t ht
    rw [← h] at ht
    exact oneLine_of_mem_splitLines ht
  · intro hall
    have hparts := String.toList_split_intercalate hall
    rw [if_neg hne] at hparts
    exact hparts

end Conformance

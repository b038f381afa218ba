import Mathlib.Data.List.Induction
import Conformance.Text.Quoted

/-!
# Reading a text from its end

Some texts can only be taken apart from the right. A quoted string is one: a backslash of the
string is shown as it is, so that a quote behind a backslash may be escaped or be the closing
one, and only what comes after tells. The opening quote, however, is not behind a backslash.
Main statements:

> `append_cons_inj_of_all`: the last character that is not of a kind splits a text in one way.
>
> `escapeQuotes_cancel`: so does the opening quote of a string that closes the text.
-/

namespace Conformance

/-- The last character of a text is of a kind. -/
def EndsIn (p : Char → Bool) (text : List Char) : Prop :=
  ∃ c, text.getLast? = some c ∧ p c = true

section

variable {p q : Char → Bool} {a b s t : List Char} {x y : Char}

/-- What stands in front does not change how a text ends. -/
theorem EndsIn.append (h : EndsIn p b) (a : List Char) : EndsIn p (a ++ b) := by
  obtain ⟨c, hc, hp⟩ := h
  exact ⟨c, by rw [List.getLast?_append, hc, Option.some_or], hp⟩

/-- A text ends with its last character. -/
theorem endsIn_append_singleton (h : p x = true) (a : List Char) : EndsIn p (a ++ [x]) :=
  ⟨x, List.getLast?_concat, h⟩

/-- A text all of whose characters are of a kind ends with one, unless it is empty. -/
theorem endsIn_of_all (hne : s ≠ []) (hall : s.all p = true) : EndsIn p s :=
  ⟨s.getLast hne, List.getLast?_eq_some_getLast hne,
    List.all_eq_true.mp hall _ (List.getLast_mem hne)⟩

/-- A text that ends with a character of a kind ends with one of a wider kind. -/
theorem EndsIn.imp (h : EndsIn p s) (himp : ∀ c, p c = true → q c = true) : EndsIn q s := by
  obtain ⟨c, hc, hp⟩ := h
  exact ⟨c, hc, himp c hp⟩

/-- A text does not end in two ways at once. -/
theorem EndsIn.not (h : EndsIn p s) (hnot : ∀ c, p c = true → q c = false) : ¬ EndsIn q s := by
  rintro ⟨c, hc, hq⟩
  obtain ⟨d, hd, hp⟩ := h
  rw [Option.some.inj (hc.symm.trans hd), hnot d hp] at hq
  exact Bool.false_ne_true hq

/-- A text does not end both with a character of a kind and with one that is not. -/
theorem EndsIn.ne_append_singleton (h : EndsIn p s) (hx : p x = false) : s ≠ a ++ [x] := by
  obtain ⟨c, hc, hp⟩ := h
  intro heq
  rw [heq, List.getLast?_concat] at hc
  rw [← Option.some.inj hc, hx] at hp
  exact Bool.false_ne_true hp

/-- There is one way to split a text at its last character that is not of a kind. -/
theorem append_cons_inj_of_all (h : a ++ x :: s = b ++ y :: t) (hs : s.all p = true)
    (ht : t.all p = true) (hx : p x = false) (hy : p y = false) : a = b ∧ x = y ∧ s = t := by
  rcases List.append_eq_append_iff.mp h with ⟨c, hb, hc⟩ | ⟨c, ha, hc⟩
  · cases c with
    | nil =>
      rw [List.append_nil] at hb
      rw [List.nil_append, List.cons.injEq] at hc
      exact ⟨hb.symm, hc⟩
    | cons z c =>
      -- the other split lies behind this one, among characters of the kind
      have hmem : y ∈ s := (List.cons.inj hc).2 ▸ List.mem_append_right c List.mem_cons_self
      rw [List.all_eq_true.mp hs y hmem] at hy
      exact Bool.noConfusion hy
  · cases c with
    | nil =>
      rw [List.append_nil] at ha
      rw [List.nil_append, List.cons.injEq] at hc
      exact ⟨ha, hc.1.symm, hc.2.symm⟩
    | cons z c =>
      have hmem : x ∈ t := (List.cons.inj hc).2 ▸ List.mem_append_right c List.mem_cons_self
      rw [List.all_eq_true.mp ht x hmem] at hx
      exact Bool.noConfusion hx

/-- There is one way to split a text at its last mark. -/
theorem append_cons_inj_of_not_mem (h : a ++ x :: s = b ++ x :: t) (hs : x ∉ s) (ht : x ∉ t) :
    a = b ∧ s = t := by
  have hall {u : List Char} (hu : x ∉ u) : u.all (· != x) = true :=
    List.all_eq_true.mpr fun c hc => bne_iff_ne.mpr fun heq => hu (heq ▸ hc)
  have hx : (x != x) = false := bne_self_eq_false x
  obtain ⟨hab, -, hst⟩ := append_cons_inj_of_all h (hall hs) (hall ht) hx hx
  exact ⟨hab, hst⟩

/-- The end of a text that a mark is not in stands behind the mark. -/
theorem exists_append_of_not_mem (h : a ++ x :: s = b ++ t) (hx : x ∉ t) :
    ∃ c, s = c ++ t ∧ b = a ++ x :: c := by
  rw [List.append_cons] at h
  rcases List.append_eq_append_iff.mp h with ⟨c, hb, hs⟩ | ⟨c, ha, ht⟩
  · exact ⟨c, hs, hb.trans (List.append_cons a x c).symm⟩
  · cases c using List.reverseRecOn with
    | nil => exact ⟨[], ht.symm, by rw [ha, List.append_nil]⟩
    | append_singleton c z =>
      -- the mark would be the last character before what stands behind it
      rw [← List.append_assoc] at ha
      have hz : x = z := (List.cons.inj (List.append_inj' ha rfl).2).1
      rw [ht, hz] at hx
      exact absurd (List.mem_append_left s List.mem_concat_self) hx

/-! ## Quoted strings -/

/-- An escaped string grows at its end by the character, behind a backslash if it is a quote. -/
theorem append_escapeQuotes_append_singleton (a s : List Char) (c : Char) :
    a ++ '\'' :: escapeQuotes (s ++ [c]) =
      (a ++ '\'' :: escapeQuotes s ++ if c = '\'' then ['\\'] else []) ++ [c] := by
  rw [escapeQuotes_append, List.append_assoc, List.append_assoc]
  by_cases hc : c = '\''
  · subst hc
    rfl
  · have hplain : escapeQuotes [c] = [c] := by
      rw [escapeQuotes, List.flatMap_singleton, if_neg hc]
    rw [if_neg hc, hplain]
    rfl

/-- An opening quote is not an escaped one. -/
theorem append_quote_ne_escaped (ha : ¬ EndsIn (· == '\\') a) (b t : List Char) (c : Char) :
    a ++ ['\''] ≠ b ++ '\'' :: escapeQuotes (t ++ [c]) := by
  intro h
  rw [append_escapeQuotes_append_singleton] at h
  obtain ⟨hbefore, hlast⟩ := List.append_inj' h rfl
  rw [if_pos (List.cons.inj hlast).1.symm] at hbefore
  rw [hbefore] at ha
  exact ha (endsIn_append_singleton rfl _)

/-- There is one way to split a text at the opening quote of the string that closes it. -/
theorem escapeQuotes_cancel (h : a ++ '\'' :: escapeQuotes s = b ++ '\'' :: escapeQuotes t)
    (ha : ¬ EndsIn (· == '\\') a) (hb : ¬ EndsIn (· == '\\') b) : a = b ∧ s = t := by
  induction s using List.reverseRecOn generalizing t with
  | nil =>
    cases t using List.reverseRecOn with
    | nil => exact ⟨(List.append_inj' h rfl).1, rfl⟩
    | append_singleton t d => exact absurd h (append_quote_ne_escaped ha b t d)
  | append_singleton s c ih =>
    cases t using List.reverseRecOn with
    | nil => exact absurd h.symm (append_quote_ne_escaped hb a s c)
    | append_singleton t d =>
      -- what is last in the text is last in both strings, and escaped in both or in neither
      rw [append_escapeQuotes_append_singleton, append_escapeQuotes_append_singleton] at h
      obtain ⟨hbefore, hlast⟩ := List.append_inj' h rfl
      have hcd : c = d := (List.cons.inj hlast).1
      rw [hcd] at hbefore
      obtain ⟨hab, hst⟩ := ih (List.append_cancel_right hbefore)
      exact ⟨hab, by rw [hst, hcd]⟩

end

end Conformance

import Conformance.Proofs.NumberText
import Conformance.Value.Equality

/-!
# What the text of a value tells

A diagnostic shows what was found. A table is shown by its size only, but any other value can be
told from what is shown:

> `Value.spelling_eq_iff`: values that are no tables are spelled in one way exactly if they are
> equal, or both not-a-number.

The kind is seen at once (`Kind.ofText_spelling`). A string starts with a quote; a function and a
table have a colon in them, and start differently; the rest is told by the last character. Within a
kind the texts differ as well. Of a quoted string it is not enough to look at the quotes, as some of
them are escaped, and a backslash that is the string's own is not; what helps is that nothing stands
before the first quote (`quoted_injective`).
-/

namespace Conformance

/-! ## Strings -/

/-- Different strings are quoted differently, whatever quotes and backslashes they have. -/
theorem quoted_injective {s t : String} (h : quoted s = quoted t) : s = t := by
  have hchars := congrArg String.toList h
  rw [toList_quoted, toList_quoted] at hchars
  have hopened : [] ++ '\'' :: escapeQuotes s.toList = [] ++ '\'' :: escapeQuotes t.toList :=
    List.append_cancel_right hchars
  have hnone : ¬ EndsIn (· == '\\') [] := fun ⟨_, hc, _⟩ => nomatch hc
  exact String.toList_injective (escapeQuotes_cancel hopened hnone hnone).2

/-! ## Kinds -/

/-- The kind of the value that a text shows, by what it starts with, what it ends with, and
whether there is a colon in it. -/
def Kind.ofText (text : List Char) : Kind :=
  if text.head? = some '\'' then .string
  else if ':' ∈ text then
    if text.head? = some 'f' then .function else .table
  else if text.getLast? = some 'l' then .nil
  else if text.getLast? = some 'e' then .boolean
  else .number

namespace Value

theorem toList_spelling_number (x : Binary64) : (number x).spelling.toList = x.chars :=
  String.toList_ofList

/-- A function is told by its name. -/
theorem toList_spelling_function (name : String) :
    (function name).spelling.toList = "function: ".toList ++ name.toList := String.toList_append

/-- A table is told by the number of its entries, so that many have one text. -/
theorem toList_spelling_table (t : Table) :
    (table t).spelling.toList =
      "table: ".toList ++ (integerChars t.size ++ " entries".toList) := by
  have hsize : (String.ofList (integerChars t.size)).toList = integerChars t.size :=
    String.toList_ofList
  show ("table: " ++ String.ofList (integerChars t.size) ++ " entries").toList = _
  rw [String.toList_append, String.toList_append, hsize, List.append_assoc]

end Value

/-- A number's text is that of no other kind. -/
theorem Kind.ofText_chars (x : Binary64) : ofText x.chars = .number := by
  have hall := List.all_eq_true.mp x.all_isNumberChar_chars
  have hquote : x.chars.head? ≠ some '\'' := by
    intro h
    exact absurd (hall _ (List.mem_of_head? h)) (by decide)
  have hcolon : ':' ∉ x.chars := by
    intro h
    exact absurd (hall _ h) (by decide)
  obtain ⟨c, hlast, hend⟩ := x.endsIn_chars
  have hother (d : Char) (hd : isNumberEnd d = false) : x.chars.getLast? ≠ some d := by
    intro h
    rw [Option.some.inj (hlast.symm.trans h), hd] at hend
    exact Bool.false_ne_true hend
  rw [ofText, if_neg hquote, if_neg hcolon, if_neg (hother 'l' rfl), if_neg (hother 'e' rfl)]

/-- The text of a value tells its kind. -/
theorem Kind.ofText_spelling (v : Value) : ofText v.spelling.toList = v.kind := by
  cases v with
  | nil => rfl
  | boolean b => cases b <;> rfl
  | number x => rw [Value.toList_spelling_number, ofText_chars, Value.kind]
  | string s =>
    have hquoted : (Value.string s).spelling = quoted s := rfl
    rw [hquoted, toList_quoted]
    rfl
  | function name => rw [Value.toList_spelling_function]; rfl
  | table t => rw [Value.toList_spelling_table]; rfl

/-! ## Values -/

namespace Value

/-- The text of a value tells its kind. -/
theorem kind_eq_of_spelling_eq {v w : Value} (h : v.spelling = w.spelling) : v.kind = w.kind := by
  rw [← Kind.ofText_spelling v, h, Kind.ofText_spelling]

/-- Values that are no tables have one text only if they are one value, or one number up to the
sign of zero. -/
theorem eq_or_same_of_spelling_eq {v w : Value} (hv : v.kind ≠ .table)
    (h : v.spelling = w.spelling) :
    v = w ∨ ∃ x y, v = .number x ∧ w = .number y ∧ x.same y = true := by
  have hkind := kind_eq_of_spelling_eq h
  cases v with
  | nil =>
    cases w with
    | nil => exact .inl rfl
    | _ => exact absurd hkind (by simp [kind])
  | boolean a =>
    cases w with
    | boolean b =>
      have hab : a = b := by
        cases a <;> cases b <;> simp [spelling, text] at h ⊢
      exact .inl (congrArg boolean hab)
    | _ => exact absurd hkind (by simp [kind])
  | number x =>
    cases w with
    | number y =>
      exact .inr ⟨x, y, rfl, rfl, Binary64.chars_eq_iff.mp (String.ofList_injective h)⟩
    | _ => exact absurd hkind (by simp [kind])
  | string s =>
    cases w with
    | string t => exact .inl (congrArg string (quoted_injective h))
    | _ => exact absurd hkind (by simp [kind])
  | function f =>
    cases w with
    | function g =>
      have hname := congrArg String.toList h
      rw [toList_spelling_function, toList_spelling_function] at hname
      exact .inl (congrArg function (String.toList_injective (List.append_cancel_left hname)))
    | _ => exact absurd hkind (by simp [kind])
  | table t => exact absurd rfl hv

/-- Numbers that are the same, up to the sign of zero, are spelled in one way. -/
theorem spelling_number_of_same {x y : Binary64} (h : x.same y = true) :
    (number x).spelling = (number y).spelling :=
  congrArg String.ofList (Binary64.chars_eq_iff.mpr h)

/-- Equal values that are no tables are spelled in one way. -/
theorem spelling_eq_of_beq {v w : Value} (hv : v.kind ≠ .table) (h : (v == w) = true) :
    v.spelling = w.spelling := by
  rcases beq_cases h with ⟨rfl, -⟩ | ⟨x, y, rfl, rfl, hxy⟩ | ⟨t, u, rfl, -⟩
  · rfl
  · exact spelling_number_of_same (Binary64.same_iff.mpr (.inl hxy))
  · exact absurd rfl hv

/-- A value that is no table is spelled as another is exactly if the two are equal, or both are
not-a-number. A string is spelled as no other value, be it a string or not. -/
theorem spelling_eq_iff {v : Value} (hv : v.kind ≠ .table) (w : Value) :
    (v.spelling = w.spelling ↔ (v == w) = true ∨ (v = .number .nan ∧ w = .number .nan)) ∧
      ∀ s, (string s).spelling = w.spelling ↔ string s = w := by
  constructor
  · constructor
    · intro h
      rcases eq_or_same_of_spelling_eq hv h with rfl | ⟨x, y, rfl, rfl, hxy⟩
      · by_cases hnan : v = .number .nan
        · exact .inr ⟨hnan, hnan⟩
        · exact .inl ((beq_self_iff_of_scalar hv).mpr hnan)
      · rcases Binary64.same_iff.mp hxy with hbeq | ⟨rfl, rfl⟩
        · exact .inl hbeq
        · exact .inr ⟨rfl, rfl⟩
    · intro h
      rcases h with hbeq | ⟨rfl, rfl⟩
      · exact spelling_eq_of_beq hv hbeq
      · rfl
  · intro s
    constructor
    · intro h
      have hstring : (string s).kind ≠ .table := by simp [kind]
      rcases eq_or_same_of_spelling_eq hstring h with heq | ⟨x, y, hx, -⟩
      · exact heq
      · exact nomatch hx
    · intro heq
      rw [heq]

/-- A backslash before a quote is told from an escaped quote, a number in quotes from the number,
and zero is the same with a sign and without. -/
theorem spelling_eq_iff_zero : (number (.finite true .zero)).kind ≠ .table ∧
    (number (.finite true .zero)).spelling = (number (.finite false .zero)).spelling ∧
    (number (.finite true .zero)).spelling ≠ (string "0").spelling ∧
    (string "it's").spelling ≠ (string "it\\'s").spelling := by
  have hkind : (number (.finite true .zero)).kind ≠ .table := by simp [kind]
  have hzero := (spelling_eq_iff hkind (number (.finite false .zero))).1
  have hquoted := (spelling_eq_iff hkind (string "it\\'s")).2 "it's"
  have hstring := (spelling_eq_iff hkind (number (.finite true .zero))).2 "0"
  refine ⟨hkind, hzero.mpr (.inl (by decide)), ?_, ?_⟩
  · intro h
    exact nomatch hstring.mp h.symm
  · intro h
    exact absurd (string.inj (hquoted.mp h)) (by decide)

end Value

end Conformance

import Conformance.Path
import Conformance.Proofs.NumberText

/-!
# What the spelling of a key tells

A number key that `Key.number` has made is not written as an integer is (`Key.Normal`). Two
such keys, or any others, that are spelled in one way are the same. In a description the
spelling stands behind a space or an opening bracket, and it also tells where it starts:

> `Key.spelling_cancel`: a text ends with the spelling of one key only.

A string is told from the other keys by the quote that closes it. It starts at a quote that is
not behind a backslash, and any other key starts behind the last character that is not of a
number.
-/

namespace Conformance

/-- A character that the spelling of a key stands behind. -/
def isOpening (c : Char) : Bool := c == ' ' || c == '['

/-- What opens a key is a space or a bracket. -/
theorem eq_of_isOpening {c : Char} (h : isOpening c = true) : c = ' ' ∨ c = '[' := by
  rwa [isOpening, Bool.or_eq_true, beq_iff_eq, beq_iff_eq] at h

namespace Key

/-! ## Number keys as they are made -/

/-- A number key, if it is one, is what `Key.number` makes of some number. -/
def Normal (k : Key) : Prop := ∀ x, k = .float x → ∃ y, number y = k

/-- An integer is kept as it is. -/
theorem normal_int (i : Int) : (int i).Normal := fun _ h => nomatch h

/-- A string is kept as it is. -/
theorem normal_str (s : String) : (str s).Normal := fun _ h => nomatch h

/-- What a number is taken in as is kept as it is. -/
theorem normal_number (x : Binary64) : (number x).Normal := fun _ _ => ⟨x, rfl⟩

/-- A number that is written as an integer is taken in as one. -/
theorem number_of_smallInt? {x : Binary64} {i : Int} (h : x.smallInt? = some i) :
    number x = .int i := by
  obtain ⟨hint, hsmall⟩ := Option.filter_eq_some_iff.mp h
  have hlt : i.natAbs < wholeLimit := by
    have hplaces : i.natAbs < 10 ^ wholePlaces := of_decide_eq_true hsmall
    have hlimit : 10 ^ wholePlaces ≤ wholeLimit := by decide
    omega
  rw [number, hint]
  exact if_pos hlt

/-- A number is taken in as an integer or as it is. -/
theorem number_eq_int_or_float (x : Binary64) :
    (∃ i, number x = .int i) ∨ number x = .float x := by
  rw [number]
  split
  · next i _ =>
    split
    · exact .inl ⟨i, rfl⟩
    · exact .inr rfl
  · exact .inr rfl

/-- A number that stays a number key is not written as an integer. -/
theorem Normal.smallInt?_eq_none {x : Binary64} (h : (float x).Normal) : x.smallInt? = none := by
  obtain ⟨y, hy⟩ := h x rfl
  rcases number_eq_int_or_float y with ⟨i, hi⟩ | hfloat
  · exact nomatch hi.symm.trans hy
  · rw [← Key.float.inj (hfloat.symm.trans hy), Option.eq_none_iff_forall_ne_some]
    intro i hi
    exact nomatch (number_of_smallInt? hi).symm.trans hfloat

/-! ## Texts of keys that are no strings -/

/-- Not a string. -/
def Plain (k : Key) : Prop := k.str? = none

/-- Only strings are quoted. -/
theorem exists_str_or_plain (k : Key) : (∃ s, k = .str s) ∨ k.Plain := by
  cases k with
  | str s => exact .inl ⟨s, rfl⟩
  | _ => exact .inr rfl

/-- What is not quoted is spelled as its text. -/
theorem Plain.spelling_eq {k : Key} (h : k.Plain) : k.spelling = k.text := by
  cases k with
  | str s => exact nomatch h
  | _ => rfl

theorem toList_text_int (i : Int) : (int i).text.toList = integerChars i := String.toList_ofList

theorem toList_text_float (x : Binary64) : (float x).text.toList = x.chars := String.toList_ofList

/-- The text of a number or a truth value has letters, digits, minus signs and points only. -/
theorem all_isNumberChar_text {k : Key} (h : k.Plain) : k.text.toList.all isNumberChar = true := by
  cases k with
  | int i =>
    rw [toList_text_int]
    exact all_isNumberChar_of_all_isIntegerChar (all_isIntegerChar_integerChars i)
  | float x =>
    rw [toList_text_float]
    exact x.all_isNumberChar_chars
  | str s => exact nomatch h
  | bool b => cases b <;> decide

theorem isAlphanum_of_isNumberEnd {c : Char} (h : isNumberEnd c = true) : c.isAlphanum = true := by
  rw [isNumberEnd, Bool.or_eq_true, Bool.or_eq_true, beq_iff_eq, beq_iff_eq] at h
  rcases h with (hdigit | rfl) | rfl
  · rw [Char.isAlphanum, hdigit, Bool.or_true]
  · rfl
  · rfl

/-- An integer ends with a digit. -/
theorem endsIn_text_int (i : Int) : EndsIn isNumberEnd (int i).text.toList := by
  rw [toList_text_int]
  exact (endsIn_integerChars i).imp fun _ => isNumberEnd_of_isDigit

/-- A number ends with a digit, or as `NaN` or `inf` do. -/
theorem endsIn_text_float (x : Binary64) : EndsIn isNumberEnd (float x).text.toList := by
  rw [toList_text_float]
  exact x.endsIn_chars

/-- What is not quoted ends with a letter or a digit. -/
theorem endsIn_text {k : Key} (h : k.Plain) : EndsIn Char.isAlphanum k.text.toList := by
  cases k with
  | int i => exact (endsIn_text_int i).imp fun _ => isAlphanum_of_isNumberEnd
  | float x => exact (endsIn_text_float x).imp fun _ => isAlphanum_of_isNumberEnd
  | str s => exact nomatch h
  | bool b => cases b <;> exact ⟨'e', rfl, rfl⟩

/-- A truth value's text ends as no number's does. -/
theorem endsIn_text_bool (b : Bool) : EndsIn (· == 'e') (bool b).text.toList := by
  cases b <;> exact ⟨'e', rfl, rfl⟩

/-- A truth value does not end as a number does. -/
theorem text_ne_bool {k : Key} (h : EndsIn isNumberEnd k.text.toList) (b : Bool) :
    k.text ≠ (bool b).text := by
  intro heq
  refine EndsIn.not (endsIn_text_bool b) ?_ (heq ▸ h)
  intro c hc
  rw [beq_iff_eq.mp hc]
  rfl

/-- Only integers are written with nothing but digits and a sign. -/
theorem exists_int_of_all_isIntegerChar {k : Key} (hk : k.Normal) (hplain : k.Plain)
    (h : k.text.toList.all isIntegerChar = true) : ∃ i, k = .int i := by
  cases k with
  | int i => exact ⟨i, rfl⟩
  | float x =>
    rw [toList_text_float] at h
    obtain ⟨c, hc, hnot⟩ := Binary64.exists_mem_not_isIntegerChar hk.smallInt?_eq_none
    rw [List.all_eq_true.mp h c hc] at hnot
    exact Bool.noConfusion hnot
  | str s => exact nomatch hplain
  | bool b => cases b <;> exact absurd h (by decide)

/-- Of the keys that are no strings, only numbers have a point in them. What stands before it
is a sign and digits. -/
theorem exists_float_of_text_eq {k : Key} (hk : k.Normal) (hplain : k.Plain)
    {before after : List Char} (h : k.text.toList = before ++ '.' :: after)
    (hafter : '.' ∉ after) :
    ∃ x negative whole, k = .float x ∧ isNumeral whole = true ∧
      before = withSign negative whole := by
  have hpoint : '.' ∈ k.text.toList := h ▸ List.mem_append_right before List.mem_cons_self
  cases k with
  | int i =>
    rw [toList_text_int] at hpoint
    exact absurd (List.all_eq_true.mp (all_isIntegerChar_integerChars i) _ hpoint) (by decide)
  | float x =>
    rw [toList_text_float] at h
    obtain ⟨negative, whole, hwhole, hbefore⟩ :=
      Binary64.exists_withSign_of_chars_eq hk.smallInt?_eq_none h hafter
    exact ⟨x, negative, whole, rfl, hwhole, hbefore⟩
  | str s => exact nomatch hplain
  | bool b => cases b <;> exact absurd hpoint (by decide)

/-- Keys that are no strings are told by their texts. -/
theorem eq_of_text_eq {k l : Key} (hk : k.Normal) (hl : l.Normal) (hkplain : k.Plain)
    (hlplain : l.Plain) (h : k.text = l.text) : k = l := by
  cases k with
  | str s => exact nomatch hkplain
  | int i =>
    cases l with
    | str t => exact nomatch hlplain
    | int j =>
      rw [integerChars_injective (String.ofList_injective h)]
    | float y =>
      exact absurd (String.ofList_injective h).symm
        (Binary64.chars_ne_of_smallInt? hl.smallInt?_eq_none i)
    | bool b => exact absurd h (text_ne_bool (endsIn_text_int i) b)
  | float x =>
    cases l with
    | str t => exact nomatch hlplain
    | int j =>
      exact absurd (String.ofList_injective h)
        (Binary64.chars_ne_of_smallInt? hk.smallInt?_eq_none j)
    | float y =>
      rw [Binary64.eq_of_chars_eq hk.smallInt?_eq_none hl.smallInt?_eq_none
        (String.ofList_injective h)]
    | bool b => exact absurd h (text_ne_bool (endsIn_text_float x) b)
  | bool a =>
    cases l with
    | str t => exact nomatch hlplain
    | int j => exact absurd h.symm (text_ne_bool (endsIn_text_int j) a)
    | float y => exact absurd h.symm (text_ne_bool (endsIn_text_float y) a)
    | bool b =>
      cases a <;> cases b <;> first | rfl | exact absurd h (by decide)

/-! ## Spellings -/

/-- A string is between quotes, and those inside it are escaped. -/
theorem toList_spelling_str (s : String) :
    (str s).spelling.toList = '\'' :: escapeQuotes s.toList ++ ['\''] := toList_quoted s

/-- A spelling does not end as an entry in brackets does. -/
theorem endsIn_spelling (k : Key) :
    EndsIn (fun c => c.isAlphanum || c == '\'') k.spelling.toList := by
  rcases k.exists_str_or_plain with ⟨s, rfl⟩ | hplain
  · rw [toList_spelling_str]
    exact endsIn_append_singleton rfl _
  · rw [hplain.spelling_eq]
    refine (endsIn_text hplain).imp ?_
    intro c hc
    rw [hc, Bool.true_or]

/-- A text that ends with the spelling of a key, behind a character that opens it, ends with the
spelling of no other, and nowhere else. -/
theorem spelling_cancel {k l : Key} (hk : k.Normal) (hl : l.Normal) {a b : List Char} {x y : Char}
    (hx : isOpening x = true) (hy : isOpening y = true)
    (h : a ++ x :: k.spelling.toList = b ++ y :: l.spelling.toList) : a = b ∧ x = y ∧ k = l := by
  -- a string's text with its closing quote apart, and its opening quote behind what opens it
  have hstr (c : List Char) (z : Char) (s : String) : c ++ z :: (str s).spelling.toList =
      ((c ++ [z]) ++ '\'' :: escapeQuotes s.toList) ++ ['\''] := by
    rw [toList_spelling_str, List.append_assoc, List.append_assoc]
    rfl
  have hplain {p : Key} (hp : p.Plain) (c : List Char) (z : Char) :
      EndsIn Char.isAlphanum (c ++ z :: p.spelling.toList) := by
    rw [hp.spelling_eq]
    exact ((endsIn_text hp).append [z]).append c
  have hopening (c : List Char) {z : Char} (hz : isOpening z = true) :
      ¬ EndsIn (· == '\\') (c ++ [z]) := by
    refine (endsIn_append_singleton hz c).not ?_
    intro d hd
    rcases eq_of_isOpening hd with rfl | rfl <;> rfl
  have hnumber {z : Char} (hz : isOpening z = true) : isNumberChar z = false := by
    rcases eq_of_isOpening hz with rfl | rfl <;> rfl
  rcases k.exists_str_or_plain with ⟨s, rfl⟩ | hkplain
  · rcases l.exists_str_or_plain with ⟨t, rfl⟩ | hlplain
    · rw [hstr, hstr] at h
      obtain ⟨hopened, hst⟩ :=
        escapeQuotes_cancel (List.append_cancel_right h) (hopening a hx) (hopening b hy)
      obtain ⟨hab, hxy⟩ := List.append_inj' hopened rfl
      exact ⟨hab, (List.cons.inj hxy).1, congrArg str (String.toList_injective hst)⟩
    · rw [hstr] at h
      exact absurd h.symm ((hplain hlplain b y).ne_append_singleton rfl)
  · rcases l.exists_str_or_plain with ⟨t, rfl⟩ | hlplain
    · rw [hstr] at h
      exact absurd h ((hplain hkplain a x).ne_append_singleton rfl)
    · rw [hkplain.spelling_eq, hlplain.spelling_eq] at h
      obtain ⟨hab, hxy, htext⟩ := append_cons_inj_of_all h (all_isNumberChar_text hkplain)
        (all_isNumberChar_text hlplain) (hnumber hx) (hnumber hy)
      exact ⟨hab, hxy, eq_of_text_eq hk hl hkplain hlplain (String.toList_injective htext)⟩

end Key

end Conformance

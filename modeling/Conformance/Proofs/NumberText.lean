import Conformance.Binary64.Text
import Conformance.Decimal.Reading
import Conformance.Text.Endings

/-!
# What the text of a number tells

A number is written as an integer, if it is whole and not too large (`Binary64.smallInt?`), and
otherwise as a decimal that reads back to it. Both texts tell the number:

> `Binary64.chars_eq_iff`: numbers have one text exactly if they are the same, up to the sign of
> zero.

They also tell which of the two they are. An integer's text has digits and a minus sign only;
a decimal's has a point or a power as well (`Magnitude.WrittenAs.marked`), because a decimal
without either would be read as a whole number.
-/

namespace Conformance

/-! ## Integers -/

/-- A digit or a minus sign: a character of an integer's text. -/
def isIntegerChar (c : Char) : Bool := c.isDigit || c == '-'

/-- A letter, a digit, a minus sign or a point: a character of a number's text. -/
def isNumberChar (c : Char) : Bool := c.isAlphanum || c == '-' || c == '.'

/-- A character that a number's text can end with. -/
def isNumberEnd (c : Char) : Bool := c.isDigit || c == 'N' || c == 'f'

/-- An integer is written with characters of a number. -/
theorem isNumberChar_of_isIntegerChar {c : Char} (h : isIntegerChar c = true) :
    isNumberChar c = true := by
  rw [isIntegerChar, Bool.or_eq_true] at h
  rw [isNumberChar, Char.isAlphanum]
  rcases h with hdigit | hminus
  · rw [hdigit, Bool.or_true, Bool.true_or, Bool.true_or]
  · rw [hminus, Bool.or_true, Bool.true_or]

theorem isNumberEnd_of_isDigit {c : Char} (h : c.isDigit = true) : isNumberEnd c = true := by
  rw [isNumberEnd, h, Bool.true_or, Bool.true_or]

theorem all_isNumberChar_of_all_isIntegerChar {text : List Char}
    (h : text.all isIntegerChar = true) : text.all isNumberChar = true :=
  List.all_eq_true.mpr fun c hc => isNumberChar_of_isIntegerChar (List.all_eq_true.mp h c hc)

theorem all_isIntegerChar_of_all_isDigit {text : List Char} (h : text.all Char.isDigit = true) :
    text.all isIntegerChar = true := by
  rw [List.all_eq_true] at h ⊢
  intro c hc
  rw [isIntegerChar, h c hc, Bool.true_or]

theorem all_isIntegerChar_withSign {text : List Char} (h : text.all isIntegerChar = true)
    (negative : Bool) : (withSign negative text).all isIntegerChar = true := by
  cases negative with
  | true => rw [withSign, if_pos rfl, List.all_cons, h]; rfl
  | false => exact h

/-- An integer is written with digits and a minus sign. -/
theorem all_isIntegerChar_integerChars (i : Int) : (integerChars i).all isIntegerChar = true :=
  all_isIntegerChar_withSign
    (all_isIntegerChar_of_all_isDigit (isNumeral_iff.mp (isNumeral_toDigits i.natAbs)).2) _

theorem withSign_append (negative : Bool) (a b : List Char) :
    withSign negative (a ++ b) = withSign negative a ++ b := by
  cases negative <;> rfl

theorem all_isNumberChar_withSign {text : List Char} (h : text.all isNumberChar = true)
    (negative : Bool) : (withSign negative text).all isNumberChar = true := by
  cases negative with
  | true => rw [withSign, if_pos rfl, List.all_cons, h]; rfl
  | false => exact h

/-- A sign takes nothing away. -/
theorem mem_withSign {text : List Char} {c : Char} (h : c ∈ text) (negative : Bool) :
    c ∈ withSign negative text := by
  cases negative with
  | true => exact List.mem_cons_of_mem _ h
  | false => exact h

/-- A sign adds nothing but a minus sign. -/
theorem mem_of_mem_withSign {text : List Char} {c : Char} {negative : Bool}
    (h : c ∈ withSign negative text) (hc : c ≠ '-') : c ∈ text := by
  cases negative with
  | true => exact List.mem_of_ne_of_mem hc h
  | false => exact h

/-- A sign in front does not change how a text ends. -/
theorem endsIn_withSign {p : Char → Bool} {text : List Char} (h : EndsIn p text)
    (negative : Bool) : EndsIn p (withSign negative text) := by
  cases negative with
  | true => exact h.append ['-']
  | false => exact h

/-- A numeral ends in a digit. -/
theorem endsIn_of_isNumeral {text : List Char} (h : isNumeral text = true) :
    EndsIn Char.isDigit text :=
  endsIn_of_all (isNumeral_iff.mp h).1 (isNumeral_iff.mp h).2

/-- An integer ends with a digit. -/
theorem endsIn_integerChars (i : Int) : EndsIn Char.isDigit (integerChars i) :=
  endsIn_withSign (endsIn_of_isNumeral (isNumeral_toDigits i.natAbs)) _

/-- A sign is told from what comes after it. -/
theorem withSign_inj {a b : Bool} {s t : List Char} (hs : s.head? ≠ some '-')
    (ht : t.head? ≠ some '-') (h : withSign a s = withSign b t) : a = b ∧ s = t := by
  cases a <;> cases b
  · exact ⟨rfl, h⟩
  · have hst : s = '-' :: t := h
    rw [hst] at hs
    exact absurd rfl hs
  · have hst : '-' :: s = t := h
    rw [← hst] at ht
    exact absurd rfl ht
  · exact ⟨rfl, (List.cons.inj h).2⟩

/-! ## Magnitudes -/

namespace Magnitude

/-- A magnitude that no integer is written for: it is too large, or it is not whole. -/
def NotSmallWhole (m : Magnitude) : Prop :=
  10 ^ wholePlaces * unitsPerOne ≤ m.units ∨ m.units % unitsPerOne ≠ 0

/-- How a magnitude is written out: with these digits before and behind the point, and this
power, of which the last two may be missing. -/
structure WrittenAs (m : Magnitude) (whole fraction : List Char) (power : Option Int) : Prop where
  whole_numeral : isNumeral whole = true
  fraction_digits : fraction.all Char.isDigit = true
  chars_eq : m.chars = Decimal.written whole fraction power
  nearest_eq : Decimal.nearest?
    ⟨Nat.ofDigitChars 10 (whole ++ fraction) 0, power.getD 0 - fraction.length⟩ = some m
  marked : m.NotSmallWhole → fraction ≠ [] ∨ power ≠ none

/-- A decimal with no places behind the point is not nearest to what is not whole. -/
theorem exponent_neg_of_nearest? {d : Decimal} {m : Magnitude} (h : d.nearest? = some m)
    (hm : m.units % unitsPerOne ≠ 0) : d.exponent < 0 := by
  rcases Int.lt_or_le d.exponent 0 with hneg | hnonneg
  · exact hneg
  · rw [← Decimal.nearest?_natural hnonneg] at h
    exact absurd (units_mod_of_nearest?_one h) hm

/-- Every magnitude is written in digits, with a point or a power or both. -/
theorem exists_writtenAs (m : Magnitude) :
    ∃ whole fraction power, m.WrittenAs whole fraction power := by
  have hshortest := nearest?_shortest m
  cases hextreme : m.isExtreme with
  | true =>
    obtain ⟨whole, fraction, power, hwhole, hfraction, htext, hvalue⟩ :=
      m.shortest.exists_scientific_eq_written
    exact ⟨whole, fraction, some power,
      { whole_numeral := hwhole
        fraction_digits := hfraction
        chars_eq := by rw [chars, hextreme, if_pos rfl, htext]
        nearest_eq := by rw [Option.getD_some, hvalue, hshortest]
        marked := fun _ => .inr (Option.some_ne_none power) }⟩
  | false =>
    obtain ⟨whole, fraction, hwhole, hfraction, hplaces, htext, hvalue⟩ :=
      m.shortest.exists_positional_eq_written
    refine ⟨whole, fraction, none,
      { whole_numeral := hwhole
        fraction_digits := hfraction
        chars_eq := by rw [chars, hextreme, if_neg Bool.false_ne_true, htext]
        nearest_eq := by rw [Option.getD_none, hvalue, hshortest]
        marked := ?_ }⟩
    rintro (hlarge | hbroken)
    · rw [isExtreme, Bool.or_eq_false_iff, decide_eq_false_iff_not] at hextreme
      exact absurd hlarge hextreme.1
    · exact .inl (hplaces (exponent_neg_of_nearest? hshortest hbroken))

/-- A magnitude's text is read as a decimal that it is nearest to. -/
theorem exists_read?_chars (m : Magnitude) :
    ∃ d, Decimal.read? m.chars = some d ∧ d.nearest? = some m := by
  obtain ⟨whole, fraction, power, hw⟩ := m.exists_writtenAs
  refine ⟨_, ?_, hw.nearest_eq⟩
  rw [hw.chars_eq, Decimal.read?_written hw.whole_numeral hw.fraction_digits]

/-- Different magnitudes are written differently. -/
theorem chars_injective {m n : Magnitude} (h : m.chars = n.chars) : m = n := by
  obtain ⟨d, hd, hm⟩ := m.exists_read?_chars
  obtain ⟨e, he, hn⟩ := n.exists_read?_chars
  have hde : d = e := Option.some.inj (hd.symm.trans ((congrArg Decimal.read? h).trans he))
  rw [hde] at hm
  exact Option.some.inj (hm.symm.trans hn)

namespace WrittenAs

variable {m : Magnitude} {whole fraction : List Char} {power : Option Int}

/-- The text starts with a digit. -/
theorem head?_isDigit (hw : m.WrittenAs whole fraction power) :
    ∃ c, m.chars.head? = some c ∧ c.isDigit = true := by
  obtain ⟨hne, hdigits⟩ := isNumeral_iff.mp hw.whole_numeral
  obtain ⟨c, rest, rfl⟩ := List.exists_cons_of_ne_nil hne
  rw [List.all_cons, Bool.and_eq_true] at hdigits
  exact ⟨c, by rw [hw.chars_eq, Decimal.written]; rfl, hdigits.1⟩

/-- The text ends with a digit. -/
theorem endsIn (hw : m.WrittenAs whole fraction power) : EndsIn Char.isDigit m.chars := by
  rw [hw.chars_eq, Decimal.written]
  cases power with
  | some p => exact (EndsIn.append (endsIn_integerChars p) ['e']).append _
  | none =>
    rw [Option.elim_none, List.append_nil]
    split
    · rw [List.append_nil]
      exact endsIn_of_isNumeral hw.whole_numeral
    · next hfraction =>
      have hne : fraction ≠ [] := by simpa using hfraction
      exact (EndsIn.append (endsIn_of_all hne hw.fraction_digits) ['.']).append _

/-- The text has letters, digits, minus signs and points only. -/
theorem all_isNumberChar (hw : m.WrittenAs whole fraction power) :
    m.chars.all isNumberChar = true := by
  have hdigits {s : List Char} (hs : s.all Char.isDigit = true) : s.all isNumberChar = true :=
    all_isNumberChar_of_all_isIntegerChar (all_isIntegerChar_of_all_isDigit hs)
  rw [hw.chars_eq, Decimal.written, List.all_append, List.all_append,
    hdigits (isNumeral_iff.mp hw.whole_numeral).2, Bool.true_and, Bool.and_eq_true]
  constructor
  · split
    · rfl
    · rw [List.all_cons, hdigits hw.fraction_digits]
      rfl
  · cases power with
    | none => rfl
    | some p =>
      rw [Option.elim_some, List.all_cons,
        all_isNumberChar_of_all_isIntegerChar (all_isIntegerChar_integerChars p)]
      rfl

/-- What comes after the point, if there is one, has no further point. -/
theorem point_not_mem (hw : m.WrittenAs whole fraction power) :
    '.' ∉ fraction ++ power.elim [] fun p => 'e' :: integerChars p := by
  rw [List.mem_append, not_or]
  refine ⟨not_mem_of_all_isDigit hw.fraction_digits rfl, ?_⟩
  cases power with
  | none => exact List.not_mem_nil
  | some p =>
    refine List.not_mem_cons_of_ne_of_not_mem (by decide) ?_
    intro hmem
    exact absurd (List.all_eq_true.mp (all_isIntegerChar_integerChars p) _ hmem) (by decide)

/-- A text with a point in it has digits only before it. -/
theorem chars_eq_append_point (hw : m.WrittenAs whole fraction power) (hpoint : '.' ∈ m.chars) :
    m.chars = whole ++ '.' :: (fraction ++ power.elim [] fun p => 'e' :: integerChars p) := by
  rw [hw.chars_eq, Decimal.written] at hpoint ⊢
  by_cases hfraction : fraction = []
  · have hnone := hw.point_not_mem
    subst hfraction
    rw [List.isEmpty_nil, if_pos rfl, List.append_nil, List.mem_append] at hpoint
    rcases hpoint with hwhole | hpower
    · exact absurd hwhole (not_mem_of_all_isDigit (isNumeral_iff.mp hw.whole_numeral).2 rfl)
    · exact absurd hpower hnone
  · rw [List.isEmpty_eq_false_iff.mpr hfraction, if_neg Bool.false_ne_true, List.append_assoc]
    rfl

/-- The text has a point or a power in it where no integer would be written. -/
theorem exists_mem_not_isIntegerChar (hw : m.WrittenAs whole fraction power)
    (hm : m.NotSmallWhole) : ∃ c ∈ m.chars, isIntegerChar c = false := by
  rw [hw.chars_eq, Decimal.written]
  rcases hw.marked hm with hfraction | hpower
  · refine ⟨'.', ?_, rfl⟩
    rw [List.isEmpty_eq_false_iff.mpr hfraction, if_neg Bool.false_ne_true]
    exact List.mem_append_left _ (List.mem_append_right _ List.mem_cons_self)
  · obtain ⟨p, rfl⟩ := Option.ne_none_iff_exists'.mp hpower
    exact ⟨'e', List.mem_append_right _ List.mem_cons_self, rfl⟩

end WrittenAs

end Magnitude

/-! ## Numbers -/

namespace Binary64

/-- The integer that a number is written as, if it is whole and not too large. -/
def smallInt? (x : Binary64) : Option Int := x.toInt?.filter fun i => i.natAbs < 10 ^ wholePlaces

/-- A number that is a small integer is written as the integer. -/
theorem chars_of_smallInt? {x : Binary64} {i : Int} (h : x.smallInt? = some i) :
    x.chars = integerChars i := by
  obtain ⟨hint, hsmall⟩ := Option.filter_eq_some_iff.mp h
  cases x with
  | finite negative m =>
    rw [chars, hint]
    exact if_pos (of_decide_eq_true hsmall)
  | _ => exact absurd hint (Option.some_ne_none i ∘ Eq.symm)

/-- The whole number that a magnitude is, with its sign, if it is one. -/
theorem toInt?_finite (negative : Bool) (m : Magnitude) : (finite negative m).toInt? =
    if m.units % unitsPerOne = 0 then some (signed negative (m.units / unitsPerOne)) else none :=
  rfl

/-- A sign does not change the size. -/
theorem natAbs_signed (negative : Bool) (n : Nat) : (signed negative n).natAbs = n := by
  cases negative
  · exact Int.natAbs_natCast n
  · exact (Int.natAbs_neg n).trans (Int.natAbs_natCast n)

/-- Where no integer is written, the magnitude is written out after the sign. -/
theorem chars_finite {negative : Bool} {m : Magnitude}
    (h : (finite negative m).smallInt? = none) :
    (finite negative m).chars = withSign negative m.chars ∧ m.NotSmallWhole := by
  rw [smallInt?, toInt?_finite] at h
  rw [chars, toInt?_finite]
  split at h
  · next hwhole =>
    rw [Option.filter_some, natAbs_signed, ite_eq_right_iff] at h
    have hlarge : ¬ m.units / unitsPerOne < 10 ^ wholePlaces := by simpa using h
    rw [if_pos hwhole]
    dsimp only
    rw [natAbs_signed, if_neg hlarge]
    exact ⟨rfl, .inl (Nat.mul_le_of_le_div _ _ _ (Nat.not_lt.mp hlarge))⟩
  · next hbroken =>
    rw [if_neg hbroken]
    exact ⟨rfl, .inr hbroken⟩

/-- A number is written with letters, digits, minus signs and points only. -/
theorem all_isNumberChar_chars (x : Binary64) : x.chars.all isNumberChar = true := by
  cases hx : x.smallInt? with
  | some i =>
    rw [chars_of_smallInt? hx]
    exact all_isNumberChar_of_all_isIntegerChar (all_isIntegerChar_integerChars i)
  | none =>
    cases x with
    | nan => rfl
    | infinite negative => exact all_isNumberChar_withSign rfl negative
    | finite negative m =>
      obtain ⟨whole, fraction, power, hw⟩ := m.exists_writtenAs
      rw [(chars_finite hx).1]
      exact all_isNumberChar_withSign hw.all_isNumberChar negative

/-- It ends with a digit, or as `NaN` or `inf` do. -/
theorem endsIn_chars (x : Binary64) : EndsIn isNumberEnd x.chars := by
  cases hx : x.smallInt? with
  | some i =>
    rw [chars_of_smallInt? hx]
    exact (endsIn_integerChars i).imp fun _ => isNumberEnd_of_isDigit
  | none =>
    cases x with
    | nan => exact ⟨'N', rfl, rfl⟩
    | infinite negative =>
      have hinf : EndsIn isNumberEnd ['i', 'n', 'f'] := ⟨'f', rfl, rfl⟩
      exact endsIn_withSign hinf negative
    | finite negative m =>
      obtain ⟨whole, fraction, power, hw⟩ := m.exists_writtenAs
      rw [(chars_finite hx).1]
      exact endsIn_withSign (hw.endsIn.imp fun _ => isNumberEnd_of_isDigit) negative

/-- Where no integer is written, a sign and digits stand before a point, if there is one. -/
theorem exists_withSign_of_chars_eq {x : Binary64} (hx : x.smallInt? = none)
    {before after : List Char} (h : x.chars = before ++ '.' :: after) (hafter : '.' ∉ after) :
    ∃ negative whole, isNumeral whole = true ∧ before = withSign negative whole := by
  have hpoint : '.' ∈ x.chars := h ▸ List.mem_append_right before List.mem_cons_self
  cases x with
  | nan => exact absurd hpoint (by decide)
  | infinite negative =>
    have hnone : ∀ sign, '.' ∉ withSign sign ['i', 'n', 'f'] := by decide
    exact absurd hpoint (hnone negative)
  | finite negative m =>
    obtain ⟨whole, fraction, power, hw⟩ := m.exists_writtenAs
    rw [(chars_finite hx).1] at h hpoint
    rw [hw.chars_eq_append_point (mem_of_mem_withSign hpoint (by decide)), withSign_append] at h
    exact ⟨negative, whole, hw.whole_numeral,
      (append_cons_inj_of_not_mem h hw.point_not_mem hafter).1.symm⟩

/-- Where no integer is written, the text is not that of an integer. -/
theorem exists_mem_not_isIntegerChar {x : Binary64} (h : x.smallInt? = none) :
    ∃ c ∈ x.chars, isIntegerChar c = false := by
  cases x with
  | nan => exact ⟨'N', List.mem_cons_self, rfl⟩
  | infinite negative => exact ⟨'i', mem_withSign List.mem_cons_self negative, rfl⟩
  | finite negative m =>
    obtain ⟨hchars, hm⟩ := chars_finite h
    obtain ⟨whole, fraction, power, hw⟩ := m.exists_writtenAs
    obtain ⟨c, hc, hnot⟩ := hw.exists_mem_not_isIntegerChar hm
    exact ⟨c, hchars ▸ mem_withSign hc negative, hnot⟩

/-- A magnitude's text has no sign of its own. -/
theorem head?_chars_ne_minus (m : Magnitude) : m.chars.head? ≠ some '-' := by
  obtain ⟨whole, fraction, power, hw⟩ := m.exists_writtenAs
  obtain ⟨c, hc, hdigit⟩ := hw.head?_isDigit
  rw [hc]
  intro heq
  rw [Option.some.inj heq] at hdigit
  exact absurd hdigit (by decide)

/-- Counting with a sign, and then in units. -/
theorem signed_mul (negative : Bool) (k n : Nat) :
    signed negative (k * n) = signed negative k * n := by
  cases negative
  · exact Int.natCast_mul k n
  · exact (congrArg Neg.neg (Int.natCast_mul k n)).trans (Int.neg_mul k n).symm

/-- A whole number is its integer of ones. -/
theorem exists_finite_of_toInt? {x : Binary64} {i : Int} (h : x.toInt? = some i) :
    ∃ negative m, x = finite negative m ∧ signed negative m.units = i * unitsPerOne := by
  cases x with
  | nan => exact nomatch h
  | infinite negative => exact nomatch h
  | finite negative m =>
    rw [toInt?_finite, Option.ite_none_right_eq_some] at h
    refine ⟨negative, m, rfl, ?_⟩
    rw [← Nat.div_mul_cancel (Nat.dvd_of_mod_eq_zero h.1), signed_mul, Option.some.inj h.2]

/-- Numbers that are whole are equal when they are the same integer. -/
theorem beq_of_toInt?_eq {x y : Binary64} {i : Int} (hx : x.toInt? = some i)
    (hy : y.toInt? = some i) : (x == y) = true := by
  obtain ⟨a, m, rfl, hm⟩ := exists_finite_of_toInt? hx
  obtain ⟨b, n, rfl, hn⟩ := exists_finite_of_toInt? hy
  exact finite_beq_iff.mpr (hm.trans hn.symm)

/-- Numbers that are not written as integers are equal when their texts are. -/
theorem eq_of_chars_eq {x y : Binary64} (hx : x.smallInt? = none) (hy : y.smallInt? = none)
    (h : x.chars = y.chars) : x = y := by
  have hinf : ['i', 'n', 'f'].head? ≠ some '-' := by decide
  have hnan : ['N', 'a', 'N'].head? ≠ some '-' := by decide
  -- a magnitude starts with a digit, and the other texts do not
  have hdigit (m : Magnitude) (s : List Char) (hs : s.head?.all (!·.isDigit) = true) :
      s ≠ m.chars := by
    obtain ⟨whole, fraction, power, hw⟩ := m.exists_writtenAs
    obtain ⟨c, hc, hcdigit⟩ := hw.head?_isDigit
    intro heq
    rw [heq, hc, Option.all_some, hcdigit] at hs
    exact Bool.noConfusion hs
  cases x with
  | nan =>
    cases y with
    | nan => rfl
    | infinite b => exact absurd (withSign_inj (a := false) hnan hinf h).2 (by decide)
    | finite b n =>
      rw [(chars_finite hy).1] at h
      exact absurd (withSign_inj (a := false) hnan (head?_chars_ne_minus n) h).2 (hdigit n _ rfl)
  | infinite a =>
    cases y with
    | nan => exact absurd (withSign_inj (b := false) hinf hnan h).2 (by decide)
    | infinite b => rw [(withSign_inj hinf hinf h).1]
    | finite b n =>
      rw [(chars_finite hy).1] at h
      exact absurd (withSign_inj hinf (head?_chars_ne_minus n) h).2 (hdigit n _ rfl)
  | finite a m =>
    rw [(chars_finite hx).1] at h
    cases y with
    | nan =>
      exact absurd (withSign_inj (b := false) (head?_chars_ne_minus m) hnan h).2.symm
        (hdigit m _ rfl)
    | infinite b =>
      exact absurd (withSign_inj (head?_chars_ne_minus m) hinf h).2.symm (hdigit m _ rfl)
    | finite b n =>
      rw [(chars_finite hy).1] at h
      obtain ⟨rfl, hchars⟩ := withSign_inj (head?_chars_ne_minus m) (head?_chars_ne_minus n) h
      rw [Magnitude.chars_injective hchars]

/-- A number that is written as an integer and one that is not have different texts. -/
theorem chars_ne_of_smallInt? {x : Binary64} (hx : x.smallInt? = none) (i : Int) :
    x.chars ≠ integerChars i := by
  intro h
  obtain ⟨c, hc, hnot⟩ := exists_mem_not_isIntegerChar hx
  rw [List.all_eq_true.mp (all_isIntegerChar_integerChars i) c (h ▸ hc)] at hnot
  exact Bool.noConfusion hnot

/-- Numbers with one text are the same, up to the sign of zero. -/
theorem same_of_chars_eq {x y : Binary64} (h : x.chars = y.chars) : x.same y = true := by
  cases hx : x.smallInt? with
  | none =>
    cases hy : y.smallInt? with
    | none => rw [eq_of_chars_eq hx hy h, same_refl]
    | some j => exact absurd (h.trans (chars_of_smallInt? hy)) (chars_ne_of_smallInt? hx j)
  | some i =>
    cases hy : y.smallInt? with
    | none => exact absurd (h.symm.trans (chars_of_smallInt? hx)) (chars_ne_of_smallInt? hy i)
    | some j =>
      rw [chars_of_smallInt? hx, chars_of_smallInt? hy] at h
      rw [integerChars_injective h] at hx
      have hbeq := beq_of_toInt?_eq (Option.filter_eq_some_iff.mp hx).1
        (Option.filter_eq_some_iff.mp hy).1
      cases x with
      | nan => exact absurd hx (Option.some_ne_none j ∘ Eq.symm)
      | _ => exact hbeq

/-- Nothing has no sign. -/
theorem signed_zero (negative : Bool) : signed negative 0 = 0 := by
  cases negative <;> rfl

/-- A count with a sign tells the count, and the sign if there is anything to count. -/
theorem signed_inj {a b : Bool} {m n : Nat} (h : signed a m = signed b n) :
    m = n ∧ (a = b ∨ m = 0) := by
  have hmn : m = n := by rw [← natAbs_signed a m, h, natAbs_signed]
  refine ⟨hmn, ?_⟩
  unfold signed at h
  cases a <;> cases b <;> simp at h ⊢ <;> omega

/-- Equal numbers are one number, or they are zeros. -/
theorem eq_or_zero_of_beq {x y : Binary64} (h : (x == y) = true) :
    x = y ∨ ∃ a b m, x = finite a m ∧ y = finite b m ∧ m.units = 0 := by
  cases x with
  | nan => exact absurd h Bool.false_ne_true
  | infinite a =>
    cases y with
    | infinite b => exact .inl (congrArg infinite (beq_iff_eq.mp h))
    | _ => exact absurd h Bool.false_ne_true
  | finite a m =>
    cases y with
    | finite b n =>
      obtain ⟨hunits, hsign⟩ := signed_inj (finite_beq_iff.mp h)
      rw [Magnitude.units_injective hunits] at hsign ⊢
      rcases hsign with rfl | hzero
      · exact .inl rfl
      · exact .inr ⟨a, b, n, rfl, rfl, hzero⟩
    | _ => exact absurd h Bool.false_ne_true

/-- Zero is written without its sign. -/
theorem chars_of_units_eq_zero (negative : Bool) {m : Magnitude} (h : m.units = 0) :
    (finite negative m).chars = integerChars 0 := by
  have hint : (finite negative m).toInt? = some 0 := by
    rw [toInt?_finite, h, Nat.zero_mod, if_pos rfl, Nat.zero_div, signed_zero]
  apply chars_of_smallInt?
  rw [smallInt?, hint]
  rfl

/-- Numbers that are the same as keys have one text: that of zero leaves out its sign. -/
theorem chars_eq_of_same {x y : Binary64} (h : x.same y = true) : x.chars = y.chars := by
  rcases same_iff.mp h with hbeq | ⟨rfl, rfl⟩
  · rcases eq_or_zero_of_beq hbeq with rfl | ⟨a, b, m, rfl, rfl, hzero⟩
    · rfl
    · rw [chars_of_units_eq_zero a hzero, chars_of_units_eq_zero b hzero]
  · rfl

/-- Numbers have one text exactly if they are the same, up to the sign of zero. -/
theorem chars_eq_iff {x y : Binary64} : x.chars = y.chars ↔ x.same y = true :=
  ⟨same_of_chars_eq, chars_eq_of_same⟩

end Binary64

end Conformance

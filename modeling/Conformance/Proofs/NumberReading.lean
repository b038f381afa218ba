import Conformance.Binary64.Nearest
import Conformance.Proofs.NumberText

/-!
# The text of a number is read back as the number

The text of a finite number is a decimal, perhaps after a minus sign. This file says what decimal it
is and how it is laid out:

> `Binary64.text_finite`: the decimal that the text shows is nearest to the number and to no other,
> so that to read it gives the number again, up to the sign of zero. The text is an integer exactly
> if the number is whole and below `10^15`; otherwise it has an exponent exactly if the number is at
> least `10^15` or below `10^-5`, and if it has none, a point.

That a text is nearest to its number is by construction where a decimal is searched for, and for an
integer because the number is whole. There is always either a point or an exponent where no integer
is written, as a text with neither would show a whole number (`Magnitude.WrittenAs.marked`).

The bound `10^-5` is not a number, but no number lies between it and the number that is nearest to
it (`Magnitude.units_lt_iff_of_nearest?`).
-/

namespace Conformance

namespace Decimal

/-- The decimal that a text shows, and whether a minus sign stands before it. -/
def readSigned? : List Char → Option (Bool × Decimal)
  | '-' :: digits => (read? digits).map fun d => (true, d)
  | digits => (read? digits).map fun d => (false, d)

/-- A sign in front of a text is read as its sign. -/
theorem readSigned?_withSign (negative : Bool) {text : List Char} (h : text.head? ≠ some '-') :
    readSigned? (withSign negative text) = (read? text).map fun d => (negative, d) := by
  cases negative with
  | true => rfl
  | false =>
    unfold withSign readSigned?
    rw [if_neg Bool.false_ne_true]
    split
    · exact absurd rfl h
    · rfl

/-- Digits are read as the number they are the digits of. -/
theorem read?_toDigits (n : Nat) : read? (Nat.toDigits 10 n) = some ⟨n, 0⟩ := by
  have hread : read? (written (Nat.toDigits 10 n) [] none) = _ :=
    read?_written (isNumeral_toDigits n) rfl none
  rw [written, List.isEmpty_nil, if_pos rfl, List.append_nil, Option.elim_none, List.append_nil,
    Nat.ofDigitChars_ten_toDigits] at hread
  exact hread

theorem head?_toDigits_ne_minus (n : Nat) : (Nat.toDigits 10 n).head? ≠ some '-' := by
  intro h
  exact minus_not_mem_digits n (List.mem_of_head? h)

/-- An integer is read as itself. -/
theorem readSigned?_integerChars (i : Int) :
    readSigned? (integerChars i) = some (decide (i < 0), ⟨i.natAbs, 0⟩) := by
  rw [integerChars, readSigned?_withSign _ (head?_toDigits_ne_minus _), read?_toDigits]
  rfl

/-- A decimal is rounded to the magnitude that is nearest to it, if one is. -/
theorem nearest?_eq_some_iff {d : Decimal} {m : Magnitude} :
    d.nearest? = some m ↔ m.IsNearest d.numerator d.denominator :=
  Magnitude.nearest?_eq_some_iff d.denominator_pos

theorem e_mem_scientific (d : Decimal) : 'e' ∈ d.scientific := by
  obtain ⟨whole, fraction, power, hwhole, hfraction, htext, -⟩ := d.exists_scientific_eq_written
  rw [htext, e_mem_written_iff (isNumeral_iff.mp hwhole).2 hfraction]
  exact Option.some_ne_none power

theorem e_not_mem_positional (d : Decimal) : 'e' ∉ d.positional := by
  obtain ⟨whole, fraction, hwhole, hfraction, -, htext, -⟩ := d.exists_positional_eq_written
  rw [htext, e_mem_written_iff (isNumeral_iff.mp hwhole).2 hfraction]
  exact fun h => h rfl

end Decimal

/-! ## Bounds -/

namespace Magnitude

/-- Whole, and below `10^15`. -/
def SmallWhole (m : Magnitude) : Prop :=
  m.units % unitsPerOne = 0 ∧ m.units < 10 ^ 15 * unitsPerOne

theorem isExtreme_iff {m : Magnitude} :
    m.isExtreme = true ↔ 10 ^ 15 * unitsPerOne ≤ m.units ∨ m.units * 10 ^ 5 < unitsPerOne := by
  rw [isExtreme, Bool.or_eq_true, decide_eq_true_iff, decide_eq_true_iff, wholePlaces,
    fractionPlaces]

/-- The magnitude that `10^-5` is rounded to. -/
def hundredThousandth : Magnitude :=
  ⟨2 ^ 52 + 0x4f8b588e368f1, 1005, by decide, .inr (by decide), by decide⟩

theorem nearest?_hundredThousandth : nearest? 1 (10 ^ 5) = some hundredThousandth := by
  decide +kernel

/-- It is rounded up. -/
theorem unitsPerOne_le_hundredThousandth : unitsPerOne ≤ hundredThousandth.units * 10 ^ 5 := by
  decide +kernel

/-- To be below `10^-5` is to be below the number that is nearest to it, as one that lay in between
would be nearer. -/
theorem units_lt_iff_of_nearest? {m t : Magnitude} (ht : nearest? 1 (10 ^ 5) = some t) :
    m.units * 10 ^ 5 < unitsPerOne ↔ m.units < t.units := by
  rw [nearest?_hundredThousandth, Option.some.injEq] at ht
  have hup := unitsPerOne_le_hundredThousandth
  have hnearest := (isNearest_of_nearest? (by decide) nearest?_hundredThousandth).dist_le m
  rw [ht] at hup hnearest
  rw [Nat.one_mul] at hnearest
  unfold Nat.dist at hnearest
  omega

/-! ## Layout -/

/-- A magnitude has an exponent when it is extreme. -/
theorem e_mem_chars_iff (m : Magnitude) : 'e' ∈ m.chars ↔ m.isExtreme = true := by
  rw [chars]
  split
  · next h => exact ⟨fun _ => h, fun _ => m.shortest.e_mem_scientific⟩
  · next h => exact ⟨fun hmem => absurd hmem m.shortest.e_not_mem_positional, fun hm => absurd hm h⟩

/-- What is not both whole and small has a point or an exponent. -/
theorem point_or_e_mem_chars {m : Magnitude} (h : m.NotSmallWhole) :
    '.' ∈ m.chars ∨ 'e' ∈ m.chars := by
  obtain ⟨whole, fraction, power, hw⟩ := m.exists_writtenAs
  have hpower := Decimal.e_mem_written_iff (isNumeral_iff.mp hw.whole_numeral).2
    hw.fraction_digits power
  rw [hw.chars_eq]
  rcases hw.marked h with hfraction | hsome
  · left
    rw [Decimal.written, List.isEmpty_eq_false_iff.mpr hfraction, if_neg Bool.false_ne_true]
    exact List.mem_append_left _ (List.mem_append_right _ List.mem_cons_self)
  · exact .inr (hpower.mpr hsome)

end Magnitude

theorem mem_withSign_iff {text : List Char} {c : Char} {negative : Bool} (hc : c ≠ '-') :
    c ∈ withSign negative text ↔ c ∈ text :=
  ⟨fun h => mem_of_mem_withSign h hc, fun h => mem_withSign h negative⟩

theorem not_mem_integerChars {c : Char} (h : isIntegerChar c = false) (i : Int) :
    c ∉ integerChars i := by
  intro hmem
  rw [List.all_eq_true.mp (all_isIntegerChar_integerChars i) c hmem] at h
  exact Bool.noConfusion h

/-! ## Numbers -/

namespace Binary64

theorem toList_text (x : Binary64) : x.text.toList = x.chars := String.toList_ofList

/-- A finite number is written as an integer if it is whole and below `10^15`. -/
theorem smallInt?_finite_eq_some_iff {negative : Bool} {m : Magnitude} {i : Int} :
    (finite negative m).smallInt? = some i ↔
      m.SmallWhole ∧ signed negative (m.units / unitsPerOne) = i := by
  rw [smallInt?, toInt?_finite, Option.filter_eq_some_iff, Option.ite_none_right_eq_some,
    Option.some.injEq, decide_eq_true_iff, Magnitude.SmallWhole, wholePlaces]
  constructor
  · rintro ⟨⟨hwhole, rfl⟩, hsmall⟩
    rw [natAbs_signed, Nat.div_lt_iff_lt_mul unitsPerOne_pos] at hsmall
    exact ⟨⟨hwhole, hsmall⟩, rfl⟩
  · rintro ⟨⟨hwhole, hsmall⟩, rfl⟩
    rw [natAbs_signed, Nat.div_lt_iff_lt_mul unitsPerOne_pos]
    exact ⟨⟨hwhole, rfl⟩, hsmall⟩

/-- A count of whole ones has the sign of the units. -/
theorem signed_of_signed_neg (negative : Bool) {n k : Nat} (h : k = 0 → n = 0) :
    signed (decide (signed negative k < 0)) n = signed negative n := by
  cases negative with
  | false =>
    have hpos : ¬ signed false k < 0 := by
      unfold signed
      simp
    rw [decide_eq_false hpos]
  | true =>
    by_cases hk : k = 0
    · rw [h hk, signed_zero, signed_zero]
    · have hneg : signed true k < 0 := by
        unfold signed
        simp
        omega
      rw [decide_eq_true hneg]

/-- The decimal that a finite number's text shows is one that the number is nearest to. -/
theorem exists_readSigned?_chars (negative : Bool) (m : Magnitude) :
    ∃ sign d, Decimal.readSigned? (finite negative m).chars = some (sign, d) ∧
      d.nearest? = some m ∧ (finite sign m == finite negative m) = true := by
  cases hsmall : (finite negative m).smallInt? with
  | some i =>
    obtain ⟨⟨hwhole, -⟩, hi⟩ := smallInt?_finite_eq_some_iff.mp hsmall
    have hunits : m.units / unitsPerOne * unitsPerOne = m.units :=
      Nat.div_mul_cancel (Nat.dvd_of_mod_eq_zero hwhole)
    refine ⟨decide (i < 0), ⟨i.natAbs, 0⟩, ?_, ?_, ?_⟩
    · rw [chars_of_smallInt? hsmall, Decimal.readSigned?_integerChars]
    · refine Magnitude.nearest?_units m (Decimal.denominator_pos _) ?_
      simp only [Decimal.numerator, Decimal.denominator, Int.toNat_zero, Int.neg_zero,
        Nat.pow_zero, Nat.mul_one]
      rw [← hi, natAbs_signed, hunits]
    · have hsign : signed (decide (i < 0)) m.units = signed negative m.units := by
        rw [← hi]
        apply signed_of_signed_neg
        intro hzero
        rw [← hunits, hzero, Nat.zero_mul]
      exact finite_beq_iff.mpr hsign
  | none =>
    obtain ⟨d, hd, hnearest⟩ := m.exists_read?_chars
    refine ⟨negative, d, ?_, hnearest, finite_beq_iff.mpr rfl⟩
    rw [(chars_finite hsmall).1, Decimal.readSigned?_withSign _ (head?_chars_ne_minus m), hd]
    rfl

/-- The text of a finite number shows a decimal that is nearest to this number alone, up to the sign
of zero. It is an integer exactly if the number is whole and below `10^15`. Otherwise it has an
exponent exactly if the number is at least `10^15` or below `10^-5`, and otherwise a point. -/
theorem text_finite (negative : Bool) (m : Magnitude) :
    (∃ sign d, Decimal.readSigned? (finite negative m).text.toList = some (sign, d) ∧
      (∀ n : Magnitude, n.IsNearest d.numerator d.denominator ↔ n = m) ∧
      (finite sign m == finite negative m) = true) ∧
    ((readInteger? (finite negative m).text.toList).isSome ∧
        '.' ∉ (finite negative m).text.toList ∧ 'e' ∉ (finite negative m).text.toList ↔
      m.SmallWhole) ∧
    ('e' ∈ (finite negative m).text.toList ↔
      ¬ m.SmallWhole ∧ (10 ^ 15 * unitsPerOne ≤ m.units ∨ m.units * 10 ^ 5 < unitsPerOne)) ∧
    ('.' ∈ (finite negative m).text.toList ∨
      m.SmallWhole ∨ 10 ^ 15 * unitsPerOne ≤ m.units ∨ m.units * 10 ^ 5 < unitsPerOne) := by
  rw [toList_text]
  refine ⟨?_, ?_⟩
  · obtain ⟨sign, d, hread, hnearest, hbeq⟩ := exists_readSigned?_chars negative m
    refine ⟨sign, d, hread, ?_, hbeq⟩
    intro n
    rw [← Decimal.nearest?_eq_some_iff, hnearest, Option.some.injEq, eq_comm]
  cases hx : (finite negative m).smallInt? with
  | some i =>
    have hsmall := (smallInt?_finite_eq_some_iff.mp hx).1
    have hpoint := not_mem_integerChars (c := '.') rfl i
    have hpower := not_mem_integerChars (c := 'e') rfl i
    rw [chars_of_smallInt? hx]
    refine ⟨⟨fun _ => hsmall, fun _ => ⟨?_, hpoint, hpower⟩⟩,
      ⟨fun h => absurd h hpower, fun h => absurd hsmall h.1⟩, .inr (.inl hsmall)⟩
    rw [readInteger?_integerChars]
    rfl
  | none =>
    have hsmall : ¬ m.SmallWhole := by
      intro h
      exact nomatch hx.symm.trans (smallInt?_finite_eq_some_iff.mpr ⟨h, rfl⟩)
    obtain ⟨hchars, hlarge⟩ := chars_finite hx
    have hmarked := Magnitude.point_or_e_mem_chars hlarge
    rw [hchars, mem_withSign_iff (by decide), mem_withSign_iff (by decide), m.e_mem_chars_iff,
      Magnitude.isExtreme_iff]
    rw [m.e_mem_chars_iff, Magnitude.isExtreme_iff] at hmarked
    refine ⟨⟨fun h => ?_, fun h => absurd h hsmall⟩, ⟨fun h => ⟨hsmall, h⟩, fun h => h.2⟩, ?_⟩
    · rcases hmarked with hpoint | hextreme
      · exact absurd hpoint h.2.1
      · exact absurd hextreme h.2.2
    · exact hmarked.imp_right .inr

end Binary64

end Conformance

import Conformance.Decimal.Basic

/-!
# Reading decimals

`Decimal.read?` reads the text of a decimal: digits, perhaps with a point among them, and
perhaps a power of ten behind an `e`. Nothing is rounded in reading, the text shows a decimal
exactly. Main statements:

> `Decimal.read?_positional`: a positional text is read as a decimal of the same value.
>
> `Decimal.read?_scientific`: a scientific text is read as the decimal it was written for.

Both layouts have one form (`Decimal.written`): digits before the point, digits behind it, and a
power, of which the last two may be missing.
-/

namespace Conformance

/-- Whether a text is a row of digits, and not an empty one. -/
def isNumeral (text : List Char) : Bool := !text.isEmpty && text.all Char.isDigit

/-- The integer that a text shows: digits, perhaps after a minus sign. -/
def readInteger? : List Char → Option Int
  | '-' :: digits =>
    if isNumeral digits then some (-(Nat.ofDigitChars 10 digits 0 : Int)) else none
  | digits => if isNumeral digits then some (Nat.ofDigitChars 10 digits 0 : Int) else none

/-- The text before a mark, and what comes after it if the mark is there. -/
def cut (mark : Char) (text : List Char) : List Char × Option (List Char) :=
  (text.takeWhile (· != mark), (text.dropWhile (· != mark)).tail?)

/-- The decimal that a text shows. -/
def Decimal.read? (text : List Char) : Option Decimal :=
  let (mantissa, power) := cut 'e' text
  let (whole, places) := cut '.' mantissa
  if isNumeral whole && places.all isNumeral then
    (power.elim (some 0) readInteger?).map fun exponent =>
      let fraction := places.getD []
      ⟨Nat.ofDigitChars 10 (whole ++ fraction) 0, exponent - fraction.length⟩
  else none

/-- Digits, a point and more digits if there are more, and a power if there is one. -/
def Decimal.written (whole fraction : List Char) (power : Option Int) : List Char :=
  whole ++ (if fraction.isEmpty then [] else '.' :: fraction) ++
    power.elim [] fun p => 'e' :: integerChars p

/-! ## Digits -/

theorem isNumeral_iff {text : List Char} :
    isNumeral text = true ↔ text ≠ [] ∧ text.all Char.isDigit = true := by
  rw [isNumeral, Bool.and_eq_true, Bool.not_eq_eq_eq_not, Bool.not_true,
    List.isEmpty_eq_false_iff]

/-- The digits of a number are a numeral. -/
theorem isNumeral_toDigits (n : Nat) : isNumeral (Nat.toDigits 10 n) = true :=
  isNumeral_iff.mpr ⟨Nat.toDigits_ne_nil, List.all_eq_true.mpr fun _ hc => isDigit_of_mem_digits hc⟩

/-- A character that is no digit is not among digits. -/
theorem not_mem_of_all_isDigit {text : List Char} (h : text.all Char.isDigit = true) {c : Char}
    (hc : c.isDigit = false) : c ∉ text := by
  intro hmem
  rw [List.all_eq_true.mp h c hmem] at hc
  exact Bool.noConfusion hc

/-- An integer is read again as it was written. -/
theorem readInteger?_integerChars (i : Int) : readInteger? (integerChars i) = some i := by
  have hnumeral := isNumeral_toDigits i.natAbs
  unfold integerChars withSign
  by_cases hneg : i < 0
  · rw [decide_eq_true hneg, if_pos rfl, readInteger?, if_pos hnumeral,
      Nat.ofDigitChars_ten_toDigits]
    congr 1
    omega
  · rw [decide_eq_false hneg, if_neg Bool.false_ne_true]
    unfold readInteger?
    split
    · next digits heq => exact absurd (heq ▸ List.mem_cons_self) (minus_not_mem_digits i.natAbs)
    · rw [if_pos hnumeral, Nat.ofDigitChars_ten_toDigits]
      congr 1
      omega

/-! ## Cutting -/

/-- Up to the first mark, all is before it. -/
theorem cut_before {mark : Char} {before : List Char} (h : mark ∉ before) (rest : List Char) :
    cut mark (before ++ rest) =
      (before ++ rest.takeWhile (· != mark), (rest.dropWhile (· != mark)).tail?) := by
  have hall : ∀ c ∈ before, (c != mark) = true := by
    intro c hc
    rw [bne_iff_ne]
    rintro rfl
    exact h hc
  rw [cut, List.takeWhile_append_of_pos hall, List.dropWhile_append_of_pos hall]

/-- A text without the mark stays in one piece. -/
theorem cut_of_not_mem {mark : Char} {text : List Char} (h : mark ∉ text) :
    cut mark text = (text, none) := by
  have hcut := cut_before h []
  rw [List.append_nil, List.takeWhile_nil, List.append_nil] at hcut
  exact hcut

/-- A text is cut at the first mark in it. -/
theorem cut_append {mark : Char} {before : List Char} (h : mark ∉ before) (after : List Char) :
    cut mark (before ++ mark :: after) = (before, some after) := by
  rw [cut_before h, List.takeWhile_cons_of_neg (by simp), List.dropWhile_cons_of_neg (by simp),
    List.append_nil]
  rfl

namespace Decimal

/-! ## Reading what is written -/

theorem e_not_mem_mantissa {whole fraction : List Char} (hwhole : whole.all Char.isDigit = true)
    (hfraction : fraction.all Char.isDigit = true) :
    'e' ∉ whole ++ (if fraction.isEmpty then [] else '.' :: fraction) := by
  rw [List.mem_append, not_or]
  refine ⟨not_mem_of_all_isDigit hwhole rfl, ?_⟩
  split
  · exact List.not_mem_nil
  · exact List.not_mem_cons_of_ne_of_not_mem (by decide) (not_mem_of_all_isDigit hfraction rfl)

/-- There is an `e` in a written text exactly if there is a power. -/
theorem e_mem_written_iff {whole fraction : List Char} (hwhole : whole.all Char.isDigit = true)
    (hfraction : fraction.all Char.isDigit = true) (power : Option Int) :
    'e' ∈ written whole fraction power ↔ power ≠ none := by
  have hmantissa := e_not_mem_mantissa hwhole hfraction
  cases power with
  | none =>
    rw [written, Option.elim_none, List.append_nil]
    exact ⟨fun h => absurd h hmantissa, fun h => absurd rfl h⟩
  | some p =>
    rw [written, Option.elim_some]
    exact ⟨fun _ => Option.some_ne_none p,
      fun _ => List.mem_append_right _ List.mem_cons_self⟩

/-- A written text is read as the decimal with all of its digits, whose last one stands for
the power less the places behind the point. -/
theorem read?_written {whole fraction : List Char} (hwhole : isNumeral whole = true)
    (hfraction : fraction.all Char.isDigit = true) (power : Option Int) :
    read? (written whole fraction power) =
      some ⟨Nat.ofDigitChars 10 (whole ++ fraction) 0, power.getD 0 - fraction.length⟩ := by
  have hdigits := (isNumeral_iff.mp hwhole).2
  have hpoint : '.' ∉ whole := not_mem_of_all_isDigit hdigits rfl
  -- the mantissa has no `e`, so that the power is cut off first
  have hcut : cut 'e' (written whole fraction power) =
      (whole ++ (if fraction.isEmpty then [] else '.' :: fraction),
        power.map integerChars) := by
    have hmantissa := e_not_mem_mantissa hdigits hfraction
    cases power with
    | none => rw [written, Option.elim_none, List.append_nil, cut_of_not_mem hmantissa]; rfl
    | some p => rw [written, Option.elim_some, cut_append hmantissa]; rfl
  have hexponent : (power.map integerChars).elim (some 0) readInteger? = some (power.getD 0) := by
    cases power with
    | none => rfl
    | some p => exact readInteger?_integerChars p
  unfold read?
  simp only [hcut, hexponent]
  by_cases hempty : fraction = []
  · subst hempty
    rw [List.isEmpty_nil, if_pos rfl, List.append_nil, cut_of_not_mem hpoint]
    simp only [hwhole, Option.all_none, Bool.and_true, if_true]
    rw [Option.map_some, Option.getD_none, List.append_nil]
  · have hplaces : isNumeral fraction = true := isNumeral_iff.mpr ⟨hempty, hfraction⟩
    rw [List.isEmpty_eq_false_iff.mpr hempty, if_neg Bool.false_ne_true, cut_append hpoint]
    simp only [hwhole, hplaces, Option.all_some, Bool.and_true, if_true]
    rfl

/-- Zeros at the end of the digits are worth a power of ten. -/
theorem nearest?_natural {d : Decimal} (h : 0 ≤ d.exponent) :
    nearest? ⟨d.digits * 10 ^ d.exponent.toNat, 0⟩ = d.nearest? := by
  have hplaces : (-d.exponent).toNat = 0 := by omega
  simp only [nearest?, numerator, denominator, hplaces, Int.toNat_zero, Int.neg_zero,
    Nat.pow_zero, Nat.mul_one]

/-- Zeros in front do not count. -/
theorem ofDigitChars_zeros_append (count n : Nat) :
    Nat.ofDigitChars 10 (List.replicate count '0' ++ Nat.toDigits 10 n) 0 = n := by
  rw [Nat.ofDigitChars_append, Nat.ofDigitChars_replicate_zero, Nat.mul_zero,
    Nat.ofDigitChars_ten_toDigits]

/-- Each zero at the end counts for a factor of ten. -/
theorem ofDigitChars_append_zeros (n count : Nat) :
    Nat.ofDigitChars 10 (Nat.toDigits 10 n ++ List.replicate count '0') 0 = n * 10 ^ count := by
  rw [Nat.ofDigitChars_append, Nat.ofDigitChars_replicate_zero, Nat.ofDigitChars_ten_toDigits,
    Nat.mul_comm]

theorem all_isDigit_zeros (count : Nat) : (List.replicate count '0').all Char.isDigit = true := by
  rw [List.all_replicate]
  simp

/-- A positional text has digits behind the point if the exponent is negative, and shows a
decimal of the same value. -/
theorem exists_positional_eq_written (d : Decimal) :
    ∃ whole fraction, isNumeral whole = true ∧ fraction.all Char.isDigit = true ∧
      (d.exponent < 0 → fraction ≠ []) ∧ d.positional = written whole fraction none ∧
      nearest? ⟨Nat.ofDigitChars 10 (whole ++ fraction) 0, 0 - fraction.length⟩ = d.nearest? := by
  have hnumeral := isNumeral_toDigits d.digits
  have hdigits := (isNumeral_iff.mp hnumeral).2
  unfold positional
  dsimp only
  split
  · next hplaces =>
    have hexponent : 0 ≤ d.exponent := by omega
    refine ⟨Nat.toDigits 10 d.digits ++ List.replicate d.exponent.toNat '0', [], ?_, rfl, ?_, ?_,
      ?_⟩
    · refine isNumeral_iff.mpr ⟨List.append_ne_nil_of_left_ne_nil Nat.toDigits_ne_nil _, ?_⟩
      rw [List.all_append, hdigits, all_isDigit_zeros]
      rfl
    · intro hneg
      omega
    · rw [written, List.isEmpty_nil, if_pos rfl, List.append_nil, Option.elim_none,
        List.append_nil]
    · rw [List.append_nil, ofDigitChars_append_zeros]
      exact nearest?_natural hexponent
  · next hplaces =>
    generalize hpadded : List.replicate ((-d.exponent).toNat + 1 - (Nat.toDigits 10 d.digits).length)
      '0' ++ Nat.toDigits 10 d.digits = padded
    have hlength : (-d.exponent).toNat + 1 ≤ padded.length := by
      rw [← hpadded, List.length_append, List.length_replicate]
      omega
    have hall : padded.all Char.isDigit = true := by
      rw [← hpadded, List.all_append, hdigits, all_isDigit_zeros]
      rfl
    have hfraction : (padded.drop (padded.length - (-d.exponent).toNat)).length =
        (-d.exponent).toNat := by
      rw [List.length_drop]
      omega
    refine ⟨padded.take (padded.length - (-d.exponent).toNat),
      padded.drop (padded.length - (-d.exponent).toNat), ?_, ?_, ?_, ?_, ?_⟩
    · refine isNumeral_iff.mpr ⟨?_, ?_⟩
      · intro hnil
        have hzero := congrArg List.length hnil
        rw [List.length_take, List.length_nil] at hzero
        omega
      · rw [List.all_eq_true] at hall ⊢
        exact fun c hc => hall c (List.mem_of_mem_take hc)
    · rw [List.all_eq_true] at hall ⊢
      exact fun c hc => hall c (List.mem_of_mem_drop hc)
    · intro _ hnil
      rw [hnil, List.length_nil] at hfraction
      exact hplaces hfraction.symm
    · have hnonempty : (padded.drop (padded.length - (-d.exponent).toNat)).isEmpty = false := by
        rw [List.isEmpty_eq_false_iff, ← List.length_pos_iff, hfraction]
        omega
      rw [written, hnonempty, if_neg Bool.false_ne_true, Option.elim_none, List.append_nil]
    · have hexponent : 0 - ((-d.exponent).toNat : Int) = d.exponent := by omega
      rw [List.take_append_drop, hfraction, hexponent, ← hpadded, ofDigitChars_zeros_append]

/-- A positional text is read as a decimal of the same value. -/
theorem read?_positional (d : Decimal) :
    ∃ e, read? d.positional = some e ∧ e.nearest? = d.nearest? := by
  obtain ⟨whole, fraction, hwhole, hfraction, -, htext, hvalue⟩ := exists_positional_eq_written d
  exact ⟨_, htext ▸ read?_written hwhole hfraction none, hvalue⟩

/-- A scientific text has one digit before the point, and shows the decimal it was written for. -/
theorem exists_scientific_eq_written (d : Decimal) :
    ∃ whole fraction power, isNumeral whole = true ∧ fraction.all Char.isDigit = true ∧
      d.scientific = written whole fraction (some power) ∧
      (⟨Nat.ofDigitChars 10 (whole ++ fraction) 0, power - fraction.length⟩ : Decimal) = d := by
  have hdigits := (isNumeral_iff.mp (isNumeral_toDigits d.digits)).2
  have hvalue := Nat.ofDigitChars_ten_toDigits (n := d.digits)
  unfold scientific
  split
  · next hnil => exact absurd hnil Nat.toDigits_ne_nil
  · next first others hcons =>
    rw [hcons] at hdigits hvalue
    rw [List.all_cons, Bool.and_eq_true] at hdigits
    refine ⟨[first], others, d.exponent + others.length, ?_, hdigits.2, ?_, ?_⟩
    · exact isNumeral_iff.mpr ⟨List.cons_ne_nil _ _, by rw [List.all_cons, hdigits.1]; rfl⟩
    · rw [written, Option.elim_some, List.append_assoc]
      rfl
    · rw [List.singleton_append, hvalue, Int.add_sub_cancel]

/-- A scientific text is read as the decimal it was written for. -/
theorem read?_scientific (d : Decimal) : read? d.scientific = some d := by
  obtain ⟨whole, fraction, power, hwhole, hfraction, htext, hvalue⟩ :=
    exists_scientific_eq_written d
  rw [htext, read?_written hwhole hfraction, Option.getD_some, hvalue]

end Decimal

end Conformance

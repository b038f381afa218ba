import Conformance.Proofs.NumberReading
import Conformance.Proofs.KeyText
import Conformance.Proofs.Provenance
import Conformance.Proofs.RootName
import Conformance.Proofs.ValueText

/-!
# A key and the value that it is

A key is spelled in a location as the key that it is, and where it is found to be wrong it is
spelled as a value. A reader of the line sees both:

> `Key.spelling_eq_spelling_toValue_iff`: the two are the same text exactly if the key is not an
> integer from `10^15` on. The line of a mismatch on the key side shows the one behind `key` and the
> other behind `Found:`.

A number, a string and a truth value are the same as a key and as a value, so that nothing can
differ. An integer becomes the number nearest to it. Below `10^15` it is that number, and this is
written as an integer again. From there on the number may be another one, but rounding does not take
it below `10^15` (`Magnitude.units_le_of_nearest?`), and so it is not written as an integer is.
-/

namespace Conformance

/-! ## Integers as numbers -/

namespace Binary64

/-- An integer below `10^15` is written as itself. -/
theorem chars_ofInt {i : Int} (h : i.natAbs < 10 ^ 15) : (ofInt i).chars = integerChars i := by
  have hbits : i.natAbs < 2 ^ 53 := by omega
  refine chars_of_smallInt? (Option.filter_eq_some_iff.mpr ⟨toInt?_ofInt hbits, ?_⟩)
  rw [decide_eq_true_iff, wholePlaces]
  exact h

/-- What an integer from `10^15` on is rounded to is not below that. -/
theorem le_units_of_nearest? {n : Nat} (hn : 10 ^ 15 ≤ n) {m : Magnitude}
    (h : Magnitude.nearest? n 1 = some m) : 10 ^ 15 * unitsPerOne ≤ m.units := by
  have hbits : 10 ^ 15 < 2 ^ 53 := by decide
  obtain ⟨limit, hlimit⟩ := Magnitude.exists_units_eq hbits
  rw [← hlimit]
  apply Magnitude.units_le_of_nearest? Nat.one_pos h
  rw [Nat.mul_one, hlimit]
  exact Nat.mul_le_mul_right _ hn

theorem smallInt?_ofInt_eq_none {i : Int} (h : 10 ^ 15 ≤ i.natAbs) :
    (ofInt i).smallInt? = none := by
  cases hnearest : Magnitude.nearest? i.natAbs 1 with
  | none =>
    rw [ofInt_eq]
    dsimp only
    rw [hnearest]
    rfl
  | some m =>
    rw [ofInt_of_nearest? hnearest]
    refine Option.eq_none_iff_forall_ne_some.mpr fun j hj => ?_
    obtain ⟨⟨-, hsmall⟩, -⟩ := smallInt?_finite_eq_some_iff.mp hj
    exact absurd (le_units_of_nearest? h hnearest) (Nat.not_le.mpr hsmall)

/-- As a number and as an integer, a whole number is written the same as long as it is below
`10^15`. -/
theorem chars_ofInt_eq_iff {i : Int} : (ofInt i).chars = integerChars i ↔ i.natAbs < 10 ^ 15 := by
  constructor
  · intro h
    by_contra hlarge
    exact chars_ne_of_smallInt? (smallInt?_ofInt_eq_none (Nat.not_lt.mp hlarge)) i h
  · exact chars_ofInt

end Binary64

/-! ## The key side -/

theorem Value.At.eq_self {v x : Value} (h : v.At [] x) : x = v := by
  cases h with
  | here => rfl

/-- What is found on the key side is the key. -/
theorem Value.At.eq_toValue {v x : Value} {path : Path} {k : Key}
    (h : v.At (path ++ [.key k]) x) : x = k.toValue := by
  induction path generalizing v with
  | nil =>
    cases h with
    | key _ rest => exact rest.eq_self
  | cons s path ih =>
    cases h with
    | entry rest => exact ih rest
    | key _ rest => exact ih rest

theorem Path.describe_append_key (path : Path) (k : Key) : describe (path ++ [.key k]) =
    "key " ++ k.spelling ++ (path.location?.elim "" fun words => " of " ++ words) := by
  rw [describe_append_singleton, Segment.extend, location?]
  split
  · rw [Option.elim_none, String.append_empty]
  · rw [Option.elim_some, String.append_assoc]

theorem Path.location?_append_key (path : Path) (k : Key) : location? (path ++ [.key k]) =
    some ("key " ++ k.spelling ++ (path.location?.elim "" fun words => " of " ++ words)) := by
  have hwords : describe (path ++ [.key k]) ≠ "" := by
    rw [describe_append_singleton, Ne, Segment.extend_eq_empty_iff]
    exact fun h => nomatch h
  rw [← describe_append_key, location?]
  exact if_neg fun h => hwords (String.isEmpty_iff.mp h)

/-- The line of a mismatch whose path ends at a key. -/
theorem Mismatch.line_of_path_eq {m : Mismatch} {path : Path} {k : Key}
    (h : m.path = path ++ [.key k]) : m.line = "Unexpected value in key " ++ k.spelling ++
      (path.location?.elim "" fun words => " of " ++ words) ++ ". Found: " ++ m.value.spelling ++
      " Expected: value of type " ++ m.expected.description := by
  have hlead : "Unexpected value" ++ " in " ++ "key " = "Unexpected value in key " := by decide
  have hlocation := Path.location?_append_key path k
  rw [← h] at hlocation
  generalize path.location?.elim "" (fun words => " of " ++ words) = whose at *
  have hwords : "Unexpected value" ++ (" in " ++ ("key " ++ k.spelling ++ whose)) =
      "Unexpected value in key " ++ k.spelling ++ whose := by
    calc "Unexpected value" ++ (" in " ++ ("key " ++ k.spelling ++ whose))
        = "Unexpected value" ++ " in " ++ "key " ++ k.spelling ++ whose := by
          simp only [String.append_assoc]
      _ = "Unexpected value in key " ++ k.spelling ++ whose := by rw [hlead]
  have hline : m.line = "Unexpected value" ++ (" in " ++ ("key " ++ k.spelling ++ whose)) ++
      ". Found: " ++ m.value.spelling ++ " Expected: value of type " ++ m.expected.description := by
    unfold line
    simp only [hlocation]
  rw [hline, hwords]

/-- A mismatch on the key side of an entry has the key for what was found. -/
theorem Checker.value_eq_of_mem {c : Checker} {v : Value} (hv : v.WellFormed) {m : Mismatch}
    (hm : m ∈ c.mismatches v) {path : Path} {k : Key} (hpath : m.path = path ++ [.key k]) :
    m.value = k.toValue := by
  rw [mismatches_eq] at hm
  obtain ⟨n, hn, rfl⟩ := List.mem_map.mp hm
  have hat := (Spec.genuine_of_mem hv hn).value_at
  have hpath : c.settings.rootPath ++ n.path = path ++ [.key k] := hpath
  rcases List.eq_nil_or_concat n.path with hnil | ⟨before, s, hlast⟩
  · -- a path with no step but to the root has no key at its end
    rw [hnil, List.append_nil] at hpath
    have hmem : Segment.key k ∈ c.settings.rootPath :=
      hpath ▸ List.mem_append_right path List.mem_cons_self
    obtain ⟨name, -, hroot⟩ := List.mem_map.mp hmem
    exact nomatch hroot
  · rw [List.concat_eq_append] at hlast
    rw [hlast, ← List.append_assoc] at hpath
    have hs := (List.cons.inj (List.append_inj' hpath rfl).2).1
    rw [hlast, hs] at hat
    exact hat.eq_toValue

namespace Key

/-- A key is spelled as the value that it is exactly if it is not an integer from `10^15` on. The
line of a mismatch on the key side of an entry shows both. -/
theorem spelling_eq_spelling_toValue_iff (k : Key) :
    (k.spelling = k.toValue.spelling ↔ ¬ ∃ i, k = .int i ∧ 10 ^ 15 ≤ i.natAbs) ∧
    ∀ (c : Checker) (v : Value), v.WellFormed → ∀ m ∈ c.mismatches v, ∀ path : Path,
      m.path = path ++ [.key k] →
      m.line = "Unexpected value in key " ++ k.spelling ++
        (path.location?.elim "" fun words => " of " ++ words) ++ ". Found: " ++
        k.toValue.spelling ++ " Expected: value of type " ++ m.expected.description := by
  constructor
  · cases k with
    | int i =>
      have hplain : (int i).Plain := rfl
      rw [← String.toList_inj, hplain.spelling_eq, toList_text_int, toValue,
        Value.toList_spelling_number, eq_comm, Binary64.chars_ofInt_eq_iff]
      constructor
      · rintro hsmall ⟨j, hj, hlarge⟩
        rw [← int.inj hj] at hlarge
        omega
      · intro h
        by_contra hlarge
        exact h ⟨i, rfl, Nat.not_lt.mp hlarge⟩
    | _ =>
      refine iff_of_true rfl ?_
      rintro ⟨i, hi, -⟩
      cases hi
  · intro c v hv m hm path hpath
    rw [Mismatch.line_of_path_eq hpath, Checker.value_eq_of_mem hv hm hpath]

/-- A table with an entry at `10^15`. -/
def farEntry : Value := .table (Table.set ∅ (.int (10 ^ 15)) (.boolean true))

theorem wellFormed_farEntry : farEntry.WellFormed :=
  Table.wellFormed_set Table.wellFormed_empty (.scalar (by decide)) (.int (10 ^ 15))

/-- A table with strings for keys, under the name `env`. -/
def environment : Checker := ⟨.keyed (.kind .string) .any, ⟨none, some "env"⟩⟩

/-- The key `10^15` is spelled in two ways, and the line that says that it is no string shows
both. -/
theorem spelling_eq_spelling_toValue_iff_farEntry :
    (int (10 ^ 15)).spelling ≠ (int (10 ^ 15)).toValue.spelling ∧
    farEntry.WellFormed ∧
    ⟨(int (10 ^ 15)).toValue, .kind .string, [.root "env", .key (int (10 ^ 15))]⟩ ∈
      environment.mismatches farEntry ∧
    Mismatch.line ⟨(int (10 ^ 15)).toValue, .kind .string, [.root "env", .key (int (10 ^ 15))]⟩ =
      "Unexpected value in key " ++ (int (10 ^ 15)).spelling ++ " of env" ++ ". Found: " ++
        (int (10 ^ 15)).toValue.spelling ++ " Expected: value of type " ++
        (Spec.kind .string).description := by
  obtain ⟨hspelling, hline⟩ := spelling_eq_spelling_toValue_iff (int (10 ^ 15))
  have hm : ⟨(int (10 ^ 15)).toValue, .kind .string, [.root "env", .key (int (10 ^ 15))]⟩ ∈
      environment.mismatches farEntry := List.mem_singleton.mpr rfl
  have hwhose :
      (Path.location? [.root "env"]).elim "" (fun words => " of " ++ words) = " of env" := by
    decide
  refine ⟨?_, wellFormed_farEntry, hm, ?_⟩
  · intro h
    exact hspelling.mp h ⟨10 ^ 15, rfl, by decide⟩
  · rw [← hwhose]
    exact hline environment farEntry wellFormed_farEntry _ hm [.root "env"] rfl

end Key

end Conformance

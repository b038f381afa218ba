import Conformance.Proofs.Acceptance

/-!
# What looking deeper can change

A check first holds a value against its spec from outside (`Spec.fits`), and then goes in as
far as its limit allows. Where there is nowhere to go, the first look is all there is to it:

> `Checker.mismatches_eq_ite_fits`: of a value that is not a table, or under a limit of zero,
> nothing is reported if the value fits, and otherwise the value itself against the whole spec.

No part of an optional spec or of a union is reported then, although both are walked into
again after the first look. In particular a key is found to be wrong just as any value is, and
the walk need not ask it for a table (`Spec.walk_key`).

Going in can only turn a verdict against the value:

> `Checker.mismatches_eq_nil_of_noDeeper`: what passes under a limit passes under a lower one.

What is reported need not be less under the lower limit. It may be another entry, or another
part of one, so the argument goes through what it means to pass, `Spec.Satisfies`.
-/

namespace Conformance

namespace Spec

variable {s : Spec} {budget : Budget} {v : Value}

/-! ## Nothing to go into -/

/-- A container spec asks for no more than a table when it is not looked into. -/
theorem mismatches_container_of_fits (hs : ∀ x, s.fits x = (x.kind == .table))
    (hspent : ∀ t, s.mismatches (some 0) (.table t) = [])
    (h : v.kind ≠ .table ∨ budget = some 0) (hfits : s.fits v = true) :
    s.mismatches budget v = [] := by
  rw [hs, beq_iff_eq] at hfits
  rcases h with hscalar | hzero
  · exact absurd hfits hscalar
  · obtain ⟨t, ht⟩ := Value.exists_table_of_kind hfits
    rw [hzero, ht]
    exact hspent t

/-- What fits is not found wrong when there is nothing to go into. -/
theorem mismatches_of_fits (h : v.kind ≠ .table ∨ budget = some 0) (hfits : s.fits v = true) :
    s.mismatches budget v = [] := by
  induction s with
  | any => exact mismatches_any budget v
  | never => exact absurd hfits Bool.false_ne_true
  | kind k => exact mismatches_kind_of_fits hfits
  | literal l => exact mismatches_literal_of_fits hfits
  | optional inner ih =>
    rw [fits, Bool.or_eq_true] at hfits
    rw [mismatches_optional_eq_nil_iff]
    rcases hfits with hnil | hinner
    · exact .inl (Value.eq_nil_of_isNil hnil)
    · exact .inr (ih hinner)
  | union options ih =>
    -- an option that the value fits is met in full, so the union is
    rw [fits, fitsSome_eq_any, List.any_eq_true] at hfits
    obtain ⟨s, hs, hoption⟩ := hfits
    rw [mismatches_union_eq_nil_iff]
    exact ⟨s, hs, ih s hs hoption⟩
  | keyed key val _ _ =>
    exact mismatches_container_of_fits (fun _ => rfl) (fun _ => rfl) h hfits
  | record fields _ =>
    exact mismatches_container_of_fits (fun _ => rfl) (fun _ => rfl) h hfits
  | array element _ =>
    exact mismatches_container_of_fits (fun _ => rfl) (fun _ => rfl) h hfits

/-- A key is walked as the value would be that it is turned into. -/
theorem walk_key (limit : Budget) (s : Spec) (k : Key) (depth : Nat) :
    walk limit s (.key k) depth = walk limit s (.part k.toValue) depth := by
  funext path
  have hkey := reports_walk limit s (.key k) depth path
  have hpart := reports_walk limit s (.part k.toValue) depth path
  exact hkey.trans hpart.symm

end Spec

/-- Where there is nothing to go into, a checker reports a value that does not fit, against the
whole spec and at the root, and nothing else. -/
theorem Checker.mismatches_eq_ite_fits (c : Checker) {v : Value}
    (h : v.kind ≠ .table ∨ c.settings.maxDepth = some 0) :
    c.mismatches v = if c.spec.fits v then [] else [⟨v, c.spec, c.settings.rootPath⟩] := by
  rw [mismatches_eq]
  cases hfits : c.spec.fits v with
  | true =>
    rw [Spec.mismatches_of_fits h hfits]
    rfl
  | false =>
    rw [Spec.mismatches_of_not_fits _ hfits, List.map_singleton, Mismatch.below, List.append_nil]
    rfl

/-- Nil, or a list of truth values, or one of two words, under the name `color`. -/
def Checker.color : Checker :=
  ⟨.union [.optional (.array (.kind .boolean)),
    .union [.literal (.string "red"), .optional (.literal (.string "blue"))]],
    ⟨none, some "color"⟩⟩

/-- The key of an entry, as a value, is reported against the union as a whole. -/
theorem Checker.mismatches_eq_ite_fits_key :
    ((Key.str "pink").toValue.kind ≠ .table ∨ color.settings.maxDepth = some 0) ∧
      color.mismatches (Key.str "pink").toValue =
        [⟨(Key.str "pink").toValue, color.spec, [.root "color"]⟩] := by
  have hscalar := Key.kind_toValue_ne_table (.str "pink")
  have hout : ¬ color.spec.fits (Key.str "pink").toValue = true := by decide
  exact ⟨.inl hscalar, (mismatches_eq_ite_fits color (.inl hscalar)).trans (if_neg hout)⟩

/-! ## Lower limits -/

namespace Budget

/-- The first limit goes no deeper than the second. -/
inductive NoDeeper : Budget → Budget → Prop where
  | unlimited (b : Budget) : NoDeeper b none
  | limited {m n : Nat} (le : m ≤ n) : NoDeeper (some m) (some n)

variable {b c : Budget}

/-- A container that the higher limit leaves alone is left alone by the lower one. -/
theorem NoDeeper.eq_zero (h : b.NoDeeper c) (hc : c = some 0) : b = some 0 := by
  cases h with
  | unlimited b => exact nomatch hc
  | limited le =>
    rw [Option.some.inj hc, Nat.le_zero] at le
    rw [le]

/-- A limit that is no deeper stays so one container further in. -/
theorem NoDeeper.spend (h : b.NoDeeper c) : b.spend.NoDeeper c.spend := by
  cases h with
  | unlimited b => exact .unlimited b.spend
  | limited le => exact .limited (Nat.sub_le_sub_right le 1)

end Budget

/-- What satisfies a spec as far as a limit reaches satisfies it as far as a lower one does. -/
theorem Spec.Satisfies.of_noDeeper {s : Spec} {b c : Budget} (hbc : b.NoDeeper c) {v : Value}
    (h : s.Satisfies c v) : s.Satisfies b v := by
  induction s generalizing b c v with
  | any => exact h
  | never => exact h
  | kind k => exact h
  | literal l => exact h
  | optional inner ih =>
    rw [Satisfies] at h ⊢
    exact h.imp_right (ih hbc)
  | union options ih =>
    rw [Satisfies, satisfiesSome_iff] at h ⊢
    obtain ⟨s, hs, hoption⟩ := h
    exact ⟨s, hs, ih s hs hbc hoption⟩
  | keyed key val ihKey ihVal =>
    rw [Satisfies] at h ⊢
    obtain ⟨t, ht, hentries⟩ := h
    refine ⟨t, ht, hentries.imp hbc.eq_zero ?_⟩
    intro hall e he
    obtain ⟨hkey, hval⟩ := hall e he
    exact ⟨ihKey hbc.spend hkey, ihVal hbc.spend hval⟩
  | record fields ih =>
    rw [Satisfies] at h ⊢
    obtain ⟨t, ht, hfields⟩ := h
    refine ⟨t, ht, hfields.imp hbc.eq_zero ?_⟩
    rw [satisfiesFields_iff, satisfiesFields_iff]
    intro hall f hf
    exact ih f hf hbc.spend (hall f hf)
  | array element ih =>
    rw [Satisfies] at h ⊢
    obtain ⟨t, ht, helements⟩ := h
    refine ⟨t, ht, helements.imp hbc.eq_zero ?_⟩
    intro hall i hi
    exact ih hbc.spend (hall i hi)

namespace Checker

/-- What passes under a limit passes under a lower one. -/
theorem mismatches_eq_nil_of_noDeeper {s : Spec} {v : Value} {name : Option String}
    {maxDepth lower : Budget} (hlower : lower.NoDeeper maxDepth)
    (h : (Checker.mk s ⟨maxDepth, name⟩).mismatches v = []) :
    (Checker.mk s ⟨lower, name⟩).mismatches v = [] := by
  rw [mismatches_eq, List.map_eq_nil_iff, Spec.mismatches_eq_nil_iff] at h ⊢
  exact h.of_noDeeper hlower

/-- Lists of lists of lists without elements. -/
def emptyLists : Spec := .array (.array (.array .never))

/-- A truth value in a list in a list in a list. -/
def buriedFlag : Value :=
  .table (Table.ofList [.table (Table.ofList [.table (Table.ofList [.boolean true])])])

/-- An element that should not be there is not seen by a check that goes two lists deep, nor by
one that goes one list deep. -/
theorem mismatches_eq_nil_emptyLists :
    Budget.NoDeeper (some 1) (some 2) ∧
      (Checker.mk emptyLists ⟨some 2, some "lists"⟩).mismatches buriedFlag = [] ∧
      (Checker.mk emptyLists ⟨some 1, some "lists"⟩).mismatches buriedFlag = [] := by
  have hlower : Budget.NoDeeper (some 1) (some 2) := .limited (Nat.le_succ 1)
  have hpass : (Checker.mk emptyLists ⟨some 2, some "lists"⟩).mismatches buriedFlag = [] := rfl
  exact ⟨hlower, hpass, mismatches_eq_nil_of_noDeeper hlower hpass⟩

end Checker

end Conformance

import Conformance.OrderedMap.Matching
import Conformance.Spec.Basic

/-!
# Equality of specs

What a spec is equal to, one law for each kind of spec. Equal specs are of one kind and
have equal parts; the options of a union are equal one by one, and the fields of a record
up to order.
-/

namespace Conformance

namespace Spec

variable {t : Spec}

/-- Only `any` is equal to `any`. -/
theorem eq_any_of_beq (h : (any == t) = true) : t = .any := by
  cases t with
  | any => rfl
  | _ => exact absurd h Bool.false_ne_true

/-- Only `never` is equal to `never`. -/
theorem eq_never_of_beq (h : (never == t) = true) : t = .never := by
  cases t with
  | never => rfl
  | _ => exact absurd h Bool.false_ne_true

/-- Only the same kind is equal to a kind. -/
theorem eq_kind_of_beq {k : Kind} (h : (kind k == t) = true) : t = .kind k := by
  cases t with
  | kind l =>
    have hkl : k = l := beq_iff_eq.mp h
    exact congrArg kind hkl.symm
  | _ => exact absurd h Bool.false_ne_true

/-- What is equal to a literal is a literal of an equal value. -/
theorem exists_literal_of_beq {v : Value} (h : (literal v == t) = true) :
    ∃ w, t = .literal w ∧ (v == w) = true := by
  cases t with
  | literal w => exact ⟨w, rfl, h⟩
  | _ => exact absurd h Bool.false_ne_true

/-- What is equal to an optional spec is optional with an equal inner spec. -/
theorem exists_optional_of_beq {inner : Spec} (h : (optional inner == t) = true) :
    ∃ inner', t = .optional inner' ∧ (inner == inner') = true := by
  cases t with
  | optional inner' => exact ⟨inner', rfl, h⟩
  | _ => exact absurd h Bool.false_ne_true

/-- Equal options are equal one by one, in their order. -/
theorem forall₂_of_beqOptions {options options' : List Spec}
    (h : beqOptions options options' = true) :
    List.Forall₂ (fun s s' : Spec => (s == s') = true) options options' := by
  induction options generalizing options' with
  | nil =>
    cases options' with
    | nil => exact .nil
    | cons s' rest' => exact absurd h Bool.false_ne_true
  | cons s rest ih =>
    cases options' with
    | nil => exact absurd h Bool.false_ne_true
    | cons s' rest' =>
      obtain ⟨hs, hrest⟩ := (Bool.and_eq_true _ _).mp h
      exact .cons hs (ih hrest)

/-- Equal unions have equal options, one by one. -/
theorem exists_union_of_beq {options : List Spec} (h : (union options == t) = true) :
    ∃ options', t = .union options' ∧
      List.Forall₂ (fun s s' : Spec => (s == s') = true) options options' := by
  cases t with
  | union options' => exact ⟨options', rfl, forall₂_of_beqOptions h⟩
  | _ => exact absurd h Bool.false_ne_true

/-- What is equal to a keyed table is one with equal specs for keys and values. -/
theorem exists_keyed_of_beq {key val : Spec} (h : (keyed key val == t) = true) :
    ∃ key' val', t = .keyed key' val' ∧ (key == key') = true ∧ (val == val') = true := by
  cases t with
  | keyed key' val' => exact ⟨key', val', rfl, (Bool.and_eq_true _ _).mp h⟩
  | _ => exact absurd h Bool.false_ne_true

/-- Equal records have equal fields, up to order. -/
theorem exists_record_of_beq {fields : OrderedMap String Spec} (hdistinct : fields.Distinct)
    (h : (record fields == t) = true) : ∃ fields', t = .record fields' ∧
      UpToOrder (OrderedMap.EntryRel fun s s' : Spec => (s == s') = true)
        fields.entries fields'.entries := by
  cases t with
  | record fields' =>
    have hbeq : (fields.size == fields'.size && allIn fields.entries fields') = true := h
    rw [allIn_eq_all, Bool.and_eq_true, beq_iff_eq, OrderedMap.all_get?_iff (· == ·)] at hbeq
    obtain ⟨hsize, hfound⟩ := hbeq
    exact ⟨fields', rfl, hfound.upToOrder hdistinct hsize⟩
  | _ => exact absurd h Bool.false_ne_true

/-- What is equal to an array is an array with an equal spec for elements. -/
theorem exists_array_of_beq {element : Spec} (h : (array element == t) = true) :
    ∃ element', t = .array element' ∧ (element == element') = true := by
  cases t with
  | array element' => exact ⟨element', rfl, h⟩
  | _ => exact absurd h Bool.false_ne_true

end Spec

end Conformance

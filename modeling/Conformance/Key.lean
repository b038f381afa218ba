import Conformance.Binary64.Text
import Conformance.Text.Quoted

/-!
# Table keys

A key is an integer, a number, a string or a truth value. A number that is whole and
not too large is taken in as an integer (`Key.number`), so that `2` and `2.0` address
one entry; a number key built directly stays a number, and is another key than the
integer of equal value.

Integers are not bounded. Those of a host have 64 bits, but all that is ever computed
with them is the next index of a sequence, and a sequence too long for 64 bits does not
exist; only `Key.ofCount`, which takes in unsigned counts, has to wrap.

Keys are compared by `==`: content for content, numbers by `Binary64.same`. Two number
keys can be equal and yet be spelled differently, as zero and minus zero are.
-/

namespace Conformance

/-- A key of a table entry. -/
inductive Key where
  | int (i : Int)
  | float (x : Binary64)
  | str (s : String)
  | bool (b : Bool)

namespace Key

/-! ## Equality and order -/

/-- Whether two keys address the same entry. -/
protected def beq : Key → Key → Bool
  | .int i, .int j => i == j
  | .float x, .float y => x.same y
  | .str s, .str t => s == t
  | .bool a, .bool b => a == b
  | _, _ => false

instance : BEq Key := ⟨Key.beq⟩

instance : EquivBEq Key where
  rfl := by
    intro a
    cases a <;> simp [BEq.beq, Key.beq, Binary64.same_refl]
  symm := by
    intro a b h
    cases a <;> cases b <;> simp_all [BEq.beq, Key.beq]
    exact Binary64.same_symm h
  trans := by
    intro a b c hab hbc
    cases a <;> cases b <;> cases c <;> simp_all [BEq.beq, Key.beq]
    exact Binary64.same_trans hab hbc

/-- Only an integer key is the same as an integer. -/
theorem eq_int_of_beq {i : Int} {k : Key} (h : (int i == k) = true) : k = .int i := by
  cases k with
  | int j =>
    have hij : i = j := beq_iff_eq.mp h
    rw [hij]
  | _ => exact absurd h Bool.false_ne_true

/-- Only a string key is the same as a string. -/
theorem eq_str_of_beq {s : String} {k : Key} (h : (str s == k) = true) : k = .str s := by
  cases k with
  | str s' =>
    have hs : s = s' := beq_iff_eq.mp h
    rw [hs]
  | _ => exact absurd h Bool.false_ne_true

/-- Integers come first, then numbers, strings and truth values. -/
def rank : Key → Nat
  | .int _ => 0
  | .float _ => 1
  | .str _ => 2
  | .bool _ => 3

/-- The order of keys: by sort, then by content. Strings go by code point, and false
comes before true. -/
protected def compare : Key → Key → Ordering
  | .int i, .int j => Ord.compare i j
  | .float x, .float y => x.compare y
  | .str s, .str t => Ord.compare s t
  | .bool a, .bool b => Ord.compare a b
  | a, b => Ord.compare a.rank b.rank

instance : Ord Key := ⟨Key.compare⟩

/-! ## Keys from other data -/

/-- Whole numbers are taken in as integers when they are smaller than this. -/
def wholeLimit : Nat := 9 * 10 ^ 15

/-- The key of a number: an integer when the number is whole and below the limit. -/
def number (x : Binary64) : Key :=
  match x.toInt? with
  | some i => if i.natAbs < wholeLimit then .int i else .float x
  | none => .float x

/-- The key of a 64-bit count. From `2^63` on it wraps to the negative integers. -/
def ofCount (n : UInt64) : Key := .int n.toInt64.toInt

/-! ## Text -/

/-- The string of a string key. -/
def str? : Key → Option String
  | .str s => some s
  | _ => none

/-- The plain text of a key. -/
def text : Key → String
  | .int i => String.ofList (integerChars i)
  | .float x => x.text
  | .str s => s
  | .bool b => if b then "true" else "false"

/-- The text of a key as it stands in diagnostics: strings are quoted. -/
def spelling : Key → String
  | .str s => quoted s
  | k => k.text

end Key

end Conformance

import Conformance.Value.Basic

/-!
# Tables

A table stores no nil: setting an entry to nil removes it, and looking up an absent
key gives nil. The array part is the run of entries at 1, 2, 3, … up to the first
index that is absent.
-/

namespace Conformance

namespace Table

/-- Sets the entry at a key; setting it to nil removes it. -/
def set (t : Table) (k : Key) : Value → Table
  | .nil => t.erase k
  | v => t.insert k v

/-- Sets the entry at a key, and gives back the value that is put over or taken out. -/
def swap (t : Table) (k : Key) : Value → Option Value × Table
  | .nil => t.remove k
  | v => t.replace k v

/-- The value at a key, nil where there is none. -/
def get (t : Table) (k : Key) : Value := (t.get? k).getD .nil

/-- Sets the entries at `i`, `i + 1`, … to the values of a list. -/
def setFrom (t : Table) (i : Int) : List Value → Table
  | [] => t
  | v :: rest => setFrom (set t (.int i) v) (i + 1) rest

/-- The table with the values of a list at 1, 2, 3, …; a nil uses up its index. -/
def ofList (values : List Value) : Table := setFrom ∅ 1 values

/-- Sets entries one after the other. -/
def setAll (t : Table) (entries : List (Key × Value)) : Table :=
  entries.foldl (fun acc e => set acc e.1 e.2) t

/-- Swaps entries one after the other, and gives back the values that were there. -/
def swapAll (t : Table) : List (Key × Value) → List (Option Value) × Table
  | [] => ([], t)
  | (k, v) :: rest =>
    let (old, next) := swap t k v
    let (olds, last) := swapAll next rest
    (old :: olds, last)

/-- The entries at `i`, `i + 1`, … up to the first that is absent, `count` at most. -/
def runFrom (t : Table) (i : Int) : Nat → List (Int × Value)
  | 0 => []
  | count + 1 =>
    match t.get? (.int i) with
    | some v => (i, v) :: runFrom t (i + 1) count
    | none => []

/-- The array part: the elements at 1, 2, 3, … up to the first that is absent. There
are at most as many as there are entries. -/
def run (t : Table) : List (Int × Value) := runFrom t 1 t.size

end Table

end Conformance

/-!
# Insertion-ordered maps

An `OrderedMap κ ν` is a list of entries with different keys, oldest key first.
Writing to a key that is present keeps the entry's place and the key as it was first
written; a new key goes to the end; erasing leaves the order of the rest.

Keys are compared with `==`, which may be coarser than equality: the stored key is
then one spelling of it, the one that came first.
-/

namespace Conformance

universe u v

/-- Entries in the order in which their keys first came. -/
structure OrderedMap (κ : Type u) (ν : Type v) where
  entries : List (κ × ν)

namespace OrderedMap

variable {κ : Type u} {ν : Type v}

/-- The map without entries. -/
def empty : OrderedMap κ ν := ⟨[]⟩

instance : EmptyCollection (OrderedMap κ ν) := ⟨empty⟩

instance : Inhabited (OrderedMap κ ν) := ⟨empty⟩

/-- The number of entries. -/
def size (m : OrderedMap κ ν) : Nat := m.entries.length

/-- Whether there are no entries. -/
def isEmpty (m : OrderedMap κ ν) : Bool := m.entries.isEmpty

/-- The keys, oldest first. -/
def keys (m : OrderedMap κ ν) : List κ := m.entries.map Prod.fst

variable [BEq κ]

/-- The value at a key. -/
def get? (m : OrderedMap κ ν) (k : κ) : Option ν := m.entries.lookup k

/-- Puts a value at a key: in the entry that has the key, or in a new one at the end. -/
def insertEntry (k : κ) (v : ν) : List (κ × ν) → List (κ × ν)
  | [] => [(k, v)]
  | e :: rest => if k == e.1 then (e.1, v) :: rest else e :: insertEntry k v rest

/-- The map with a value put at a key. -/
def insert (m : OrderedMap κ ν) (k : κ) (v : ν) : OrderedMap κ ν :=
  ⟨insertEntry k v m.entries⟩

/-- The map without the entry at a key. -/
def erase (m : OrderedMap κ ν) (k : κ) : OrderedMap κ ν :=
  ⟨m.entries.eraseP fun e => k == e.1⟩

/-- Puts a value at a key, and gives back the value that it is put over. -/
def replaceEntry (k : κ) (v : ν) : List (κ × ν) → Option ν × List (κ × ν)
  | [] => (none, [(k, v)])
  | e :: rest =>
    if k == e.1 then (some e.2, (e.1, v) :: rest)
    else
      let (old, entries) := replaceEntry k v rest
      (old, e :: entries)

/-- The value that is put over at a key, and the map with the new one. -/
def replace (m : OrderedMap κ ν) (k : κ) (v : ν) : Option ν × OrderedMap κ ν :=
  let (old, entries) := replaceEntry k v m.entries
  (old, ⟨entries⟩)

/-- Takes out the entry that has a key, and gives back its value. -/
def removeEntry (k : κ) : List (κ × ν) → Option ν × List (κ × ν)
  | [] => (none, [])
  | e :: rest =>
    if k == e.1 then (some e.2, rest)
    else
      let (old, entries) := removeEntry k rest
      (old, e :: entries)

/-- The value that is taken out at a key, and the map without it. -/
def remove (m : OrderedMap κ ν) (k : κ) : Option ν × OrderedMap κ ν :=
  let (old, entries) := removeEntry k m.entries
  (old, ⟨entries⟩)

/-- The map with all of `entries` inserted, first to last. -/
def insertAll (m : OrderedMap κ ν) (entries : List (κ × ν)) : OrderedMap κ ν :=
  entries.foldl (fun acc e => acc.insert e.1 e.2) m

/-- The map of a list of entries: of those with the same key, the place of the first
and the value of the last. -/
def ofList (entries : List (κ × ν)) : OrderedMap κ ν := insertAll ∅ entries

/-- No two entries have the same key. Every map built by `insert` and `erase` is so. -/
def Distinct (m : OrderedMap κ ν) : Prop :=
  m.entries.Pairwise fun a b => (a.1 == b.1) = false

end OrderedMap

end Conformance

import GscAssembler.Bytes.Chunk
import Std.Data.TreeMap

/-!
# Reference tables

A table lists the distinct values of one sort that the code of a script uses, in the order in which
they were first asked for, and for each value the addresses of the operands that refer to it.  In the
image, the references of a value are written as rows of at most 250.
-/

namespace GscAssembler.Reference

/-- The most references in one row. -/
def maxRowReferences : Nat := 250

/-- A value of a table with everything known about its use. -/
structure Entry (α : Type) where
  /-- The value itself. -/
  value : α
  /-- Where the value is stored in the image, for tables that store theirs. -/
  address : Option Nat := none
  /-- The addresses of the operands that refer to the value. -/
  references : Array Nat := #[]
  deriving DecidableEq, Repr

namespace Entry

variable {α : Type}

/-- The references in rows, of which only the last may be shorter than the others. -/
def rows (e : Entry α) : List (List Nat) :=
  Bytes.chunks maxRowReferences e.references.toList

/-- The number of rows. -/
def rowCount (e : Entry α) : Nat :=
  (e.references.size + (maxRowReferences - 1)) / maxRowReferences

/-- The entry as if nothing had been laid out. -/
def cleared (e : Entry α) : Entry α :=
  { e with address := none, references := #[] }

end Entry

/-- Distinct values in the order of their first use.  The index finds the position of a value. -/
structure Table (α : Type) [Ord α] where
  /-- The entries in order. -/
  entries : Array (Entry α) := #[]
  /-- The position of each value. -/
  index : Std.TreeMap α Nat := {}

namespace Table

variable {α : Type} [Ord α]

/-- The table without values. -/
def empty : Table α := {}

/-- The position of a value. -/
def find? (t : Table α) (value : α) : Option Nat :=
  t.index[value]?

/-- The position of a value, which is appended if it is new. -/
def add (t : Table α) (value : α) : Nat × Table α :=
  match t.find? value with
  | some position => (position, t)
  | none =>
      let position := t.entries.size
      (position,
        { entries := t.entries.push { value := value }
          index := t.index.insert value position })

/-- The entry at a position. -/
def get? (t : Table α) (position : Nat) : Option (Entry α) :=
  t.entries[position]?

/-- Records a reference to the entry at a position, if there is one. -/
def addReference (t : Table α) (position address : Nat) : Table α :=
  { t with
    entries := t.entries.modify position fun e =>
      { e with references := e.references.push address } }

/-- Sets the address of the entry at a position, if there is one. -/
def setAddress (t : Table α) (position address : Nat) : Table α :=
  { t with entries := t.entries.modify position fun e => { e with address := some address } }

/-- Forgets all references and addresses, and keeps the values. -/
def clearReferences (t : Table α) : Table α :=
  { t with entries := t.entries.map Entry.cleared }

/-- The number of values. -/
def size (t : Table α) : Nat :=
  t.entries.size

/-- The number of rows of all entries. -/
def rowCount (t : Table α) : Nat :=
  t.entries.foldl (fun sum e => sum + e.rowCount) 0

/-- The number of references of all entries. -/
def referenceCount (t : Table α) : Nat :=
  t.entries.foldl (fun sum e => sum + e.references.size) 0

/-- The bytes of all rows, for a given size of what precedes the references of a row. -/
def rowsSize (t : Table α) (headerSize : Nat) : Nat :=
  t.rowCount * headerSize + t.referenceCount * 4

end Table

end GscAssembler.Reference

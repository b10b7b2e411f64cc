import GscAssembler.Reference.Table

/-!
# The tables of a script

A script keeps four reference tables: its strings, the functions it imports, the global objects it
uses, and its developer strings.
-/

namespace GscAssembler.Reference

/-- What identifies an import: two calls share one only if all of this is equal. -/
structure ImportKey where
  /-- The hash of the function's name. -/
  function : UInt32
  /-- The hash of its namespace. -/
  namespaceHash : UInt32
  /-- The number of parameters passed. -/
  params : UInt8
  /-- How the function is called. -/
  flags : UInt8
  deriving DecidableEq, Repr

/-- Imports are ordered by function, namespace, parameters and flags. -/
instance : Ord ImportKey where
  compare := compareLex (compareOn ImportKey.function)
    (compareLex (compareOn ImportKey.namespaceHash)
      (compareLex (compareOn ImportKey.params) (compareOn ImportKey.flags)))

/-- Names one of the tables. -/
inductive TableKind where
  /-- The strings. -/
  | strings
  /-- The imported functions. -/
  | imports
  /-- The global objects. -/
  | globals
  /-- The developer strings. -/
  | debug
  deriving DecidableEq, Repr

/-- A use of a table entry by an operand. -/
structure TableReference where
  /-- The table of the entry. -/
  table : TableKind
  /-- The position of the entry in its table. -/
  entry : Nat
  /-- The address of the operand. -/
  address : Nat
  deriving DecidableEq, Repr

/-- The reference tables of one script. -/
structure Tables where
  /-- The strings, by their text. -/
  strings : Table String := .empty
  /-- The imported functions. -/
  imports : Table ImportKey := .empty
  /-- The global objects, by the hash of their name. -/
  globals : Table UInt32 := .empty
  /-- The developer strings, by their hash. -/
  debug : Table UInt32 := .empty

namespace Tables

/-- Forgets all references and addresses, and keeps the values. -/
def clearReferences (t : Tables) : Tables where
  strings := t.strings.clearReferences
  imports := t.imports.clearReferences
  globals := t.globals.clearReferences
  debug := t.debug.clearReferences

/-- Records a reference in its table. -/
def record (t : Tables) (r : TableReference) : Tables :=
  match r.table with
  | .strings => { t with strings := t.strings.addReference r.entry r.address }
  | .imports => { t with imports := t.imports.addReference r.entry r.address }
  | .globals => { t with globals := t.globals.addReference r.entry r.address }
  | .debug => { t with debug := t.debug.addReference r.entry r.address }

end Tables

end GscAssembler.Reference

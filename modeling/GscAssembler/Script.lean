import GscAssembler.Code.Function
import GscAssembler.Name.Registry

/-!
# Scripts

A `Script` is one unit of compilation: its settings, the functions it exports, the scripts it
includes, the tables its code refers to and the names it has hashed.
-/

namespace GscAssembler

open Bytes (ByteOrder)
open Code (Chain Key ScriptFunction)
open Name (Registry)
open Reference (Tables)

/-- How a script is compiled. -/
structure Settings where
  /-- What the image is made for. -/
  target : Target := .legacyLittle
  /-- The path under which the machine knows the script. -/
  scriptName : String := "scripts/custom/main.gsc"
  /-- The checksum of the source, unless that of the target is used. -/
  checksum : Option UInt32 := none
  /-- Whether calls of developer functions are marked as such. -/
  flagDeveloperCalls : Bool := false
  deriving DecidableEq, Repr

/-- The namespace of scripts that name none. -/
def defaultNamespace : String := "ilcustom"

/-- A unit of compilation. -/
structure Script where
  /-- How the script is compiled. -/
  settings : Settings
  /-- The hash of its namespace. -/
  namespaceHash : UInt32
  /-- The exported functions. -/
  functions : Chain ScriptFunction := .empty
  /-- The included scripts. -/
  includes : Array String := #[]
  /-- The tables its code refers to. -/
  tables : Tables := {}
  /-- The names hashed so far. -/
  names : Registry := {}

namespace Script

/-- A script without contents. -/
def create (settings : Settings) : Script :=
  let (namespaceHash, names) :=
    ({} : Registry).hashName settings.target.revision defaultNamespace
  { settings, namespaceHash, names }

/-- What the script is compiled for. -/
def target (s : Script) : Target :=
  s.settings.target

/-- The 32-bit hash of a name, which the script remembers. -/
def hash (s : Script) (name : String) : Except CompileError (UInt32 × Script) := do
  let (hash, names) ← s.names.hash s.target.revision name
  .ok (hash, { s with names })

/-- The 64-bit hash of a name, which the script remembers. -/
def hash64 (s : Script) (name : String) : Except CompileError (UInt64 × Script) := do
  let (hash, names) ← s.names.hash64 s.target.revision name
  .ok (hash, { s with names })

/-- Sets the namespace of the script. -/
def setNamespace (s : Script) (name : String) : Except CompileError Script := do
  let (hash, s) ← s.hash name
  .ok { s with namespaceHash := hash }

/-- The form in which included paths are kept: ASCII letters in lower case, and slashes only. -/
def normalizePath (path : String) : String :=
  (Text.asciiLower path).map fun c => if c = '\\' then '/' else c

/-- Includes a script, and tells whether it was not included before. -/
def addInclude (s : Script) (path : String) : Bool × Script :=
  let path := normalizePath path
  if s.includes.contains path then (false, s)
  else (true, { s with includes := s.includes.push path })

/-- Takes an included script out, and tells whether it was included. -/
def removeInclude (s : Script) (path : String) : Bool × Script :=
  let path := normalizePath path
  (s.includes.contains path, { s with includes := s.includes.filter (· ≠ path) })

/-- The function with the given hashes of its name and namespace. -/
def findFunction? (s : Script) (hash namespaceHash : UInt32) : Option Key :=
  (s.functions.toList.find? fun (_, f) => f.hash = hash ∧ f.namespaceHash = namespaceHash).map (·.1)

/-- Exports a function, unless there is one of its name and namespace already. -/
def addFunction (s : Script) (f : ScriptFunction) : Except CompileError (Key × Script) :=
  match s.findFunction? f.hash f.namespaceHash with
  | some _ => .error (.duplicateFunction f.name)
  | none =>
      let (key, functions) := s.functions.push f
      .ok (key, { s with functions })

/-- Takes a function out of the exports.  Table entries it used stay. -/
def removeFunction (s : Script) (key : Key) : Except CompileError (ScriptFunction × Script) :=
  match s.functions.remove key with
  | (some f, functions) => .ok (f, { s with functions })
  | (none, _) => .error .unknownFunction

end Script

end GscAssembler

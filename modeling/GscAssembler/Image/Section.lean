import GscAssembler.Bytes.Align
import GscAssembler.Image.Header
import GscAssembler.Reference.Tables

/-!
# The sections of an image

An image is a sequence of sections, each filled up to a multiple of 16.  The size of a section is
known from the tables and the header before any byte of it is written (`Contents.size`).
-/

namespace GscAssembler.Image

open Bytes (sectionPadding)
open Reference (Tables)

/-- A region of the image. -/
inductive Section where
  /-- The header. -/
  | header
  /-- The name of the script. -/
  | name
  /-- The texts of the strings; on the newer machine, with their rows before them. -/
  | strings
  /-- The export entries, and the functions behind them. -/
  | exports
  /-- The rows of the imports. -/
  | imports
  /-- The included scripts. -/
  | includes
  /-- The rows of the strings, on the legacy machine. -/
  | stringFixups
  /-- The rows of the developer strings. -/
  | debugStrings
  /-- The rows of the global objects. -/
  | globals
  deriving DecidableEq, Repr

namespace Section

/-- All sections. -/
def all : List Section :=
  [.header, .name, .strings, .exports, .imports, .includes, .stringFixups, .debugStrings, .globals]

/-- The sections of a revision's images, in order. -/
def order : Revision → List Section
  | .legacy => [.header, .name, .strings, .exports, .imports, .includes, .stringFixups, .debugStrings]
  | .rev36 => [.header, .exports, .imports, .strings, .includes, .globals]

/-- The name a section is listed under. -/
def label : Section → String
  | .header => "Header"
  | .name => "Name"
  | .strings => "Strings"
  | .exports => "Exports"
  | .imports => "Imports"
  | .includes => "Includes"
  | .stringFixups => "StringFixups"
  | .debugStrings => "DebugStrings"
  | .globals => "Globals"

end Section

/-- Bytes before the references in a row of imports. -/
def importRowHeaderSize : Nat := 12

/-- Bytes before the references in a row of developer strings. -/
def debugRowHeaderSize : Nat := 8

/-- Bytes before the references in a row of global objects. -/
def globalRowHeaderSize : Nat := 8

/-- Everything that decides the sizes of the sections. -/
structure Contents where
  /-- What the image is made for. -/
  target : Target
  /-- The name of the script. -/
  scriptName : String
  /-- The included scripts. -/
  includes : List String
  /-- The reference tables. -/
  tables : Tables
  /-- The header, in which the layout of the functions has left its fields. -/
  header : Header

namespace Contents

/-- The bytes of a text with the zero behind it. -/
def textSize (s : String) : Nat :=
  s.utf8ByteSize + 1

/-- The bytes of all strings. -/
def stringsSize (c : Contents) : Nat :=
  c.tables.strings.entries.foldl (fun sum e => sum + textSize e.value) 0

/-- The bytes of the string rows. -/
def stringRowsSize (c : Contents) : Nat :=
  c.tables.strings.rowsSize c.target.stringRowHeaderSize

/-- The size of a section without its padding. -/
def rawSize (c : Contents) : Section → Nat
  | .header => c.target.headerSize
  | .name => textSize c.scriptName
  | .strings =>
      match c.target.revision with
      | .legacy => c.stringsSize
      | .rev36 => c.stringRowsSize + c.stringsSize
  | .exports => c.header.bytecodeOffset + c.header.bytecodeSize - c.header.exportOffset
  | .imports => c.tables.imports.rowsSize importRowHeaderSize
  | .includes =>
      match c.target.revision with
      | .legacy => c.includes.foldl (fun sum path => sum + (4 + textSize path)) 0
      | .rev36 => c.includes.length * 8
  | .stringFixups => c.stringRowsSize
  | .debugStrings => c.tables.debug.rowsSize debugRowHeaderSize
  | .globals => c.tables.globals.rowsSize globalRowHeaderSize

/-- The size of a section at an address, its padding included. -/
def size (c : Contents) (s : Section) (base : Nat) : Nat :=
  c.rawSize s + sectionPadding base (c.rawSize s)

end Contents

/-- Where a section is in the image. -/
structure SectionRecord where
  /-- The section. -/
  kind : Section
  /-- The address of its first byte. -/
  base : Nat
  /-- The number of its bytes, padding included. -/
  size : Nat
  deriving DecidableEq, Repr

end GscAssembler.Image

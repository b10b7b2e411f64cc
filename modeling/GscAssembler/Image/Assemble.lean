import GscAssembler.Code.Layout
import GscAssembler.Image.Section
import GscAssembler.Script

/-!
# Assembling the image of a script

The sections are written one behind the other.  The size of each is known before it is written, and
the section is filled up to that size; only the functions have to be laid out first, since their code
is part of the export section.  When all sections are written, the header is filled in.
-/

namespace GscAssembler.Image

open Bytes (Buffer)
open Code (FunctionLayout ScriptFunction)
open Reference (Entry ImportKey Tables)

/-- The largest count that 16 bits hold. -/
def countLimit : Nat := 0xFFFF

/-- The most included scripts of the legacy machine. -/
def legacyIncludeLimit : Nat := 0xFF

/-- An image in the making. -/
structure Assembly where
  /-- What the image is made for. -/
  target : Target
  /-- The name of the script. -/
  scriptName : String
  /-- The included scripts. -/
  includes : List String
  /-- The functions to export. -/
  functions : List ScriptFunction
  /-- The tables with the references made so far. -/
  tables : Tables
  /-- The header as filled in so far. -/
  header : Header
  /-- The image so far. -/
  image : Buffer
  /-- The functions laid out so far. -/
  layouts : List FunctionLayout := []
  /-- The sections written so far. -/
  records : Array SectionRecord := #[]

namespace Assembly

/-- What decides the size of the next section. -/
def contents (a : Assembly) : Contents :=
  { target := a.target, scriptName := a.scriptName, includes := a.includes
    tables := a.tables, header := a.header }

/-- Where the next section starts. -/
def base (a : Assembly) : Nat :=
  a.records.foldl (fun sum record => sum + record.size) 0

/-! ## Rows -/

/-- Writes the rows of an entry.  `rowHeader` gives the fields before the references of a row, by
width and value, for the number of references in it. -/
def writeRows {α : Type} (entry : Entry α) (rowHeader : Nat → List Header.Field) (image : Buffer) :
    Buffer :=
  entry.rows.foldl (fun b row =>
    let headed := (rowHeader row.length).foldl (fun b (width, value) => b.word width value) b
    row.foldl (fun b address => b.word 4 address) headed) image

/-- The fields before the references of a string row. -/
def stringRowHeader (target : Target) (address count : Nat) : List Header.Field :=
  match target.revision, target.order with
  | .legacy, .big => [(2, address), (1, count), (1, 0)]
  | _, _ => [(4, address), (1, count), (1, 0), (2, 0)]

/-- The fields before the references of an import row. -/
def importRowHeader (key : ImportKey) (count : Nat) : List Header.Field :=
  [(4, key.function.toNat), (4, key.namespaceHash.toNat), (2, count), (1, key.params.toNat),
   (1, key.flags.toNat)]

/-- The fields before the references of a developer string row. -/
def debugRowHeader (hash : UInt32) (count : Nat) : List Header.Field :=
  [(4, hash.toNat), (1, count), (2, 0), (1, 0)]

/-- The fields before the references of a row of a global object. -/
def globalRowHeader (hash : UInt32) (count : Nat) : List Header.Field :=
  [(4, hash.toNat), (4, count)]

/-- Writes the rows of all strings. -/
def writeStringRows (a : Assembly) : Buffer :=
  a.tables.strings.entries.foldl (fun b e =>
    writeRows e (stringRowHeader a.target (e.address.getD 0)) b) a.image

/-! ## Sections -/

/-- Writes the name of the script. -/
def writeName (a : Assembly) : Assembly :=
  { a with
    header := { a.header with nameOffset := a.base }
    image := a.image.text a.scriptName }

/-- Writes one string of the legacy machine and notes its address, which big-endian platforms keep
in 16 bits. -/
def writeLegacyString (target : Target) (progress : Buffer × Array (Entry String))
    (e : Entry String) : Except CompileError (Buffer × Array (Entry String)) :=
  let (image, entries) := progress
  let address := image.position
  if !target.isLittle && countLimit < address then
    .error (.capacityExceeded "string address" address countLimit)
  else .ok (image.text e.value, entries.push { e with address := some address })

/-- Writes the texts of the strings, for the legacy machine. -/
def writeLegacyStrings (a : Assembly) : Except CompileError Assembly := do
  let (image, entries) ←
    a.tables.strings.entries.toList.foldlM (writeLegacyString a.target) (a.image, #[])
  .ok { a with
    image
    tables := { a.tables with strings := { a.tables.strings with entries } } }

/-- The entries of strings that are stored one behind the other from an address on. -/
def addressed (start : Nat) (entries : Array (Entry String)) : Array (Entry String) :=
  (entries.foldl (fun (address, done) e =>
    (address + Contents.textSize e.value, done.push { e with address := some address }))
    (start, #[])).2

/-- Writes the string rows and behind them the texts, for the newer machine. -/
def writeRev36Strings (a : Assembly) : Except CompileError Assembly := do
  let rows := a.tables.strings.rowCount
  requireAtMost "string rows" rows countLimit
  let base := a.base
  let start := base + a.contents.stringRowsSize
  let strings := { a.tables.strings with entries := addressed start a.tables.strings.entries }
  let a := { a with
    header := { a.header with stringOffset := base, stringCount := rows }
    tables := { a.tables with strings } }
  let image := strings.entries.foldl (fun b e => b.text e.value) a.writeStringRows
  .ok { a with image }

/-- Lays out all functions behind the space for the export entries. -/
def layOutFunctions (a : Assembly) : Except CompileError Assembly := do
  let count := a.functions.length
  requireAtMost "exports" count countLimit
  let base := a.base
  let entriesEnd := base + count * a.target.exportEntrySize
  let (layouts, image, tables) ← a.functions.foldlM
    (fun (layouts, image, tables) f => do
      let (layout, image, tables) ← ScriptFunction.layOut f image tables
      .ok ((layouts.push layout : Array FunctionLayout), image, tables))
    (#[], a.image.padTo entriesEnd, a.tables)
  let bytecodeOffset := (layouts[0]?.map (·.address)).getD entriesEnd
  .ok { a with
    layouts := layouts.toList, image, tables
    header := { a.header with
      exportOffset := base, exportCount := count
      bytecodeOffset, bytecodeSize := image.position - bytecodeOffset } }

/-- The fields of an export entry.  The newer machine has a second namespace, which is the same. -/
def exportFields (target : Target) (layout : FunctionLayout) : List Header.Field :=
  [(4, layout.crc.toNat), (4, layout.address), (4, layout.hash.toNat),
   (4, layout.namespaceHash.toNat)] ++
  (if target.isLegacy then [] else [(4, layout.namespaceHash.toNat)]) ++
  [(1, layout.params.toNat), (1, layout.flags.toNat), (2, 0)]

/-- Fills in the export entries. -/
def writeExports (a : Assembly) : Assembly :=
  let base := a.base
  let entrySize := a.target.exportEntrySize
  let entryBytes (layout : FunctionLayout) : List UInt8 :=
    (exportFields a.target layout).flatMap fun (width, value) => a.target.order.bytes width value
  { a with
    image := (a.layouts.foldl (fun (address, b) layout =>
      (address + entrySize, b.patch address (entryBytes layout))) (base, a.image)).2 }

/-- Writes the import rows. -/
def writeImports (a : Assembly) : Except CompileError Assembly := do
  let rows := a.tables.imports.rowCount
  requireAtMost "import rows" rows countLimit
  .ok { a with
    header := { a.header with importOffset := a.base, importCount := rows }
    image := a.tables.imports.entries.foldl (fun b e =>
      writeRows e (importRowHeader e.value) b) a.image }

/-- Writes the included scripts of the legacy machine: the addresses of their paths, and behind them
the paths. -/
def writeLegacyIncludes (a : Assembly) : Except CompileError Assembly := do
  let count := a.includes.length
  requireAtMost "includes" count legacyIncludeLimit
  let base := a.base
  let pointers := (a.includes.foldl (fun (address, b) path =>
    (address + Contents.textSize path, b.word 4 address)) (base + count * 4, a.image)).2
  .ok { a with
    header := { a.header with includeOffset := base, includeCount := count }
    image := a.includes.foldl (fun b path => b.text path) pointers }

/-- Writes the included scripts of the newer machine, which are hashes of their paths. -/
def writeRev36Includes (a : Assembly) : Except CompileError Assembly := do
  let count := a.includes.length
  requireAtMost "includes" count countLimit
  .ok { a with
    header := { a.header with includeOffset := a.base, includeCount := count }
    image := a.includes.foldl (fun b path => b.word 8 (Name.pathHash path).toNat) a.image }

/-- Writes the string rows of the legacy machine. -/
def writeStringFixups (a : Assembly) : Except CompileError Assembly := do
  let rows := a.tables.strings.rowCount
  requireAtMost "string rows" rows countLimit
  .ok { a with
    header := { a.header with stringOffset := a.base, stringCount := rows }
    image := a.writeStringRows }

/-- Writes the developer string rows. -/
def writeDebugStrings (a : Assembly) : Except CompileError Assembly := do
  let rows := a.tables.debug.rowCount
  requireAtMost "debug string rows" rows countLimit
  .ok { a with
    header := { a.header with debugStringOffset := a.base, debugStringCount := rows }
    image := a.tables.debug.entries.foldl (fun b e =>
      writeRows e (debugRowHeader e.value) b) a.image }

/-- Writes the rows of the global objects. -/
def writeGlobals (a : Assembly) : Except CompileError Assembly := do
  let rows := a.tables.globals.rowCount
  requireAtMost "globals" rows countLimit
  .ok { a with
    header := { a.header with globalOffset := a.base, globalCount := rows }
    image := a.tables.globals.entries.foldl (fun b e =>
      writeRows e (globalRowHeader e.value) b) a.image }

/-- Writes the contents of a section. -/
def write (a : Assembly) : Section → Except CompileError Assembly
  | .header => .ok { a with image := a.image.padTo (a.base + a.target.headerSize) }
  | .name => .ok a.writeName
  | .strings =>
      match a.target.revision with
      | .legacy => a.writeLegacyStrings
      | .rev36 => a.writeRev36Strings
  | .exports => .ok a.writeExports
  | .imports => a.writeImports
  | .includes =>
      match a.target.revision with
      | .legacy => a.writeLegacyIncludes
      | .rev36 => a.writeRev36Includes
  | .stringFixups => a.writeStringFixups
  | .debugStrings => a.writeDebugStrings
  | .globals => a.writeGlobals

/-- Writes a section and fills it up to the size it was expected to have. -/
def commit (a : Assembly) (s : Section) : Except CompileError Assembly := do
  let base := a.base
  let a ← if s = .exports then a.layOutFunctions else .ok a
  let expected := a.contents.size s base
  let a ← a.write s
  let image := a.image.padTo (base + expected)
  .ok { a with image, records := a.records.push ⟨s, base, image.position - base⟩ }

/-- Fills in the header. -/
def finish (a : Assembly) : Assembly :=
  { a with image := a.image.patch 0 (a.header.encode a.target) }

end Assembly

end GscAssembler.Image

namespace GscAssembler

open Bytes (Buffer)
open Code (FunctionLayout)
open Image (Assembly Contents Header Section SectionRecord)
open Reference (Tables)

/-- An image with everything that is known about it. -/
structure CompiledScript where
  /-- What the image is made for. -/
  target : Target
  /-- The name of the script. -/
  scriptName : String
  /-- The included scripts. -/
  includes : List String
  /-- The bytes of the image. -/
  image : Array UInt8
  /-- The fields of its header. -/
  header : Header
  /-- Where its functions are, in the order of their export. -/
  layouts : List FunctionLayout
  /-- Where its sections are, in order. -/
  records : List SectionRecord
  /-- The tables with all references of the image. -/
  tables : Tables
  /-- The names hashed for it. -/
  names : Name.Registry

namespace Script

/-- The image of a script before any section is written. -/
def startAssembly (s : Script) (nameHash : UInt64) : Assembly :=
  let target := s.target
  { target
    scriptName := s.settings.scriptName
    includes := s.includes.toList
    functions := s.functions.toList.map (·.2)
    tables := s.tables.clearReferences
    header := { checksum := s.settings.checksum.getD target.defaultChecksum, nameHash }
    image := { order := target.order } }

/-- Assembles the image of a script. -/
def compile (s : Script) : Except CompileError CompiledScript := do
  let (nameHash, s) ← s.hash64 s.settings.scriptName
  let written ← (Section.order s.target.revision).foldlM Assembly.commit (s.startAssembly nameHash)
  let a := written.finish
  .ok {
    target := a.target
    scriptName := a.scriptName
    includes := a.includes
    image := a.image.bytes
    header := a.header
    layouts := a.layouts
    records := a.records.toList
    tables := a.tables
    names := s.names }

end Script

namespace CompiledScript

/-- Where a section is. -/
def section? (c : CompiledScript) (kind : Section) : Option SectionRecord :=
  c.records.find? (·.kind = kind)

/-- The size of a section, computed again from the finished tables and header. -/
def sectionSize? (c : CompiledScript) (kind : Section) : Option Nat :=
  let contents : Contents :=
    { target := c.target, scriptName := c.scriptName, includes := c.includes
      tables := c.tables, header := c.header }
  (c.section? kind).map fun record => contents.size kind record.base

/-- The first function of a name, whatever the case of its ASCII letters. -/
def function? (c : CompiledScript) (name : String) : Option FunctionLayout :=
  c.layouts.find? fun layout => Text.equalsIgnoringAsciiCase layout.name name

/-- The names in the image by their hashes in hexadecimal, ordered as texts. -/
def hashMap (c : CompiledScript) : List (String × String) :=
  (c.names.entries.map fun (hash, name) => (Text.hex hash.toNat, name)).mergeSort
    fun a b => a.1 ≤ b.1

end CompiledScript

end GscAssembler

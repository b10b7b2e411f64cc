import GscAssembler.Bytes.HexDump
import GscAssembler.Image.Assemble
import GscAssembler.Json.Printer

/-!
# Listings of an image

The texts that show a compiled script: a listing of its sections, functions and bytes, and the list
of its hashed names as a JSON file.
-/

namespace GscAssembler.Console

open Bytes (ByteOrder)
open Code (FunctionLayout)
open Image (SectionRecord)
open Text (hexPadded)

/-- A number in decimal, right-aligned in eight columns. -/
def column (n : Nat) : String :=
  String.ofList ((toString n).toList.leftpad 8 ' ')

/-- The target of an image. -/
def targetLine (target : Target) : String :=
  let machine := match target.revision with
    | .legacy => "legacy"
    | .rev36 => "vm36"
  let order := match target.order with
    | .little => "little"
    | .big => "big"
  s!"target: {machine} vm, {order} endian"

/-- A section with its address and size. -/
def sectionLine (record : SectionRecord) : String :=
  hexPadded 8 record.base ++ "  " ++ column record.size ++ "  " ++ record.kind.label

/-- A function with its address, size and checksum. -/
def functionLine (layout : FunctionLayout) : String :=
  let params := layout.params.toNat
  let instructions := layout.instructions.length
  hexPadded 8 layout.address ++ "  " ++ column layout.size ++ "  crc " ++
    hexPadded 8 layout.crc.toNat ++ "  " ++ layout.name ++
    s!" ({params} params, {instructions} instructions)"

/-- The lines of the whole listing. -/
def listing (c : CompiledScript) : List String :=
  [targetLine c.target, "", "sections:"] ++ c.records.map sectionLine ++
  ["", "functions:"] ++ c.layouts.map functionLine ++
  ["", "image:"] ++ Bytes.dumpLines 0 c.image.toList ++
  ["", "total size: " ++ toString c.image.size]

/-- The fields of an object, one to a line, all but the last with a comma. -/
def fieldLines (indent : String) : List (String × String) → List String
  | [] => []
  | [(name, text)] => [indent ++ Json.quote name ++ ": " ++ Json.quote text]
  | (name, text) :: rest =>
      (indent ++ Json.quote name ++ ": " ++ Json.quote text ++ ",") :: fieldLines indent rest

/-- The lines of the file that lists the hashed names. -/
def hashMapLines (c : CompiledScript) : List String :=
  ["\x7b", "  \"hashes\": \x7b"] ++ fieldLines "    " c.hashMap ++ ["  \x7d", "\x7d"]

/-- The line that shows the hashes of a name. -/
def hashLine (revision : Revision) (name : String) : String :=
  let short := name ++ ": " ++ hexPadded 8 (Name.identifierHash revision name).toNat
  match revision with
  | .legacy => short
  | .rev36 => short ++ " " ++ hexPadded 16 (Name.pathHash name).toNat

end GscAssembler.Console

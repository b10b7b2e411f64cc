import GscAssembler.Bytes.Buffer
import GscAssembler.Target

/-!
# The image header

Every image starts with a header of fixed size.  It holds the offset and the number of entries of
each section, as the sections fill them in, and each revision writes its own selection of them.
-/

namespace GscAssembler.Image

open Bytes (Buffer)

/-- The offsets and counts that an image's sections leave for its header. -/
structure Header where
  /-- The checksum of the source. -/
  checksum : UInt32 := 0
  /-- The hash of the script's name. -/
  nameHash : UInt64 := 0
  /-- Where the script's name is. -/
  nameOffset : Nat := 0
  /-- Where the includes are. -/
  includeOffset : Nat := 0
  /-- The number of includes. -/
  includeCount : Nat := 0
  /-- Where the first function is. -/
  bytecodeOffset : Nat := 0
  /-- The bytes from the first function to the end of the last. -/
  bytecodeSize : Nat := 0
  /-- Where the string rows are. -/
  stringOffset : Nat := 0
  /-- The number of string rows. -/
  stringCount : Nat := 0
  /-- Where the developer string rows are. -/
  debugStringOffset : Nat := 0
  /-- The number of developer string rows. -/
  debugStringCount : Nat := 0
  /-- Where the export entries are. -/
  exportOffset : Nat := 0
  /-- The number of exports. -/
  exportCount : Nat := 0
  /-- Where the import rows are. -/
  importOffset : Nat := 0
  /-- The number of import rows. -/
  importCount : Nat := 0
  /-- Where the rows of global objects are. -/
  globalOffset : Nat := 0
  /-- The number of rows of global objects. -/
  globalCount : Nat := 0
  deriving DecidableEq, Repr

namespace Header

/-- A field of the encoded header: its width in bytes and its value. -/
abbrev Field := Nat × Nat

/-- What the legacy machine reads behind the checksum. -/
def legacyFields (h : Header) (target : Target) : List Field :=
  let size := target.headerSize
  [(4, h.includeOffset), (4, size), (4, h.bytecodeOffset), (4, h.stringOffset),
   (4, h.debugStringOffset), (4, h.exportOffset), (4, h.importOffset), (4, size), (4, size),
   (4, h.bytecodeSize), (if target.isLittle then 4 else 2, h.nameOffset),
   (2, h.stringCount), (2, h.exportCount), (2, h.importCount), (2, 0), (2, 0),
   (2, h.debugStringCount), (1, h.includeCount), (1, 0), (1, 0)]

/-- What the newer machine reads behind the checksum. -/
def rev36Fields (h : Header) (target : Target) : List Field :=
  let size := target.headerSize
  [(4, 0), (8, h.nameHash.toNat), (4, h.includeOffset), (2, h.stringCount), (2, h.exportCount),
   (4, 0), (4, h.stringOffset), (2, h.importCount), (2, 0), (4, 0), (4, h.exportOffset), (4, 0),
   (4, h.importOffset), (2, h.globalCount), (2, 0), (4, size), (4, h.globalOffset),
   (4, size), (4, size), (4, size), (4, size), (2, h.includeCount), (2, 0), (4, 0)]

/-- All fields of the encoded header. -/
def fields (h : Header) (target : Target) : List Field :=
  (8, target.magic) :: (4, h.checksum.toNat) ::
    match target.revision with
    | .legacy => h.legacyFields target
    | .rev36 => h.rev36Fields target

/-- The encoded header, filled up to its size with zeros. -/
def encode (h : Header) (target : Target) : List UInt8 :=
  let start : Buffer := { order := target.order }
  let written := (h.fields target).foldl (fun b (width, value) => b.word width value) start
  (written.padTo target.headerSize).bytes.toList

end Header

end GscAssembler.Image

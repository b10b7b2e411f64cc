import GscAssembler.Bytes.Order

/-!
# Compilation targets

An image is made for one revision of the virtual machine and one byte order.  The two together fix
every size and constant of the format.
-/

namespace GscAssembler

open Bytes (ByteOrder)

/-- A revision of the script virtual machine. -/
inductive Revision where
  /-- The legacy machine, with 20-byte exports behind a header of 0x50 bytes. -/
  | legacy
  /-- Revision 0x36 of the newer machine, with 24-byte exports behind a header of 0x60 bytes. -/
  | rev36
  deriving DecidableEq, Repr

/-- What an image is made for. -/
structure Target where
  /-- The machine that loads the image. -/
  revision : Revision
  /-- The byte order of the platform. -/
  order : ByteOrder
  deriving DecidableEq, Repr

namespace Target

/-- The legacy machine on little-endian platforms. -/
def legacyLittle : Target := ⟨.legacy, .little⟩

/-- The legacy machine on big-endian consoles. -/
def legacyBig : Target := ⟨.legacy, .big⟩

/-- The newer machine, on little-endian platforms. -/
def rev36Little : Target := ⟨.rev36, .little⟩

/-- The newer machine with the other byte order. -/
def rev36Big : Target := ⟨.rev36, .big⟩

/-- Whether the target runs the legacy machine. -/
def isLegacy (t : Target) : Bool := t.revision = .legacy

/-- Whether the least significant byte of a word comes first. -/
def isLittle (t : Target) : Bool := t.order = .little

/-- Bytes of an encoded opcode. -/
def opcodeWidth (t : Target) : Nat :=
  match t.order with
  | .little => 2
  | .big => 1

/-- Bytes of the image header. -/
def headerSize (t : Target) : Nat :=
  match t.revision with
  | .legacy => 0x50
  | .rev36 => 0x60

/-- Bytes of an export entry. -/
def exportEntrySize (t : Target) : Nat :=
  match t.revision with
  | .legacy => 20
  | .rev36 => 24

/-- The word every image starts with. -/
def magic (t : Target) : Nat :=
  match t.revision with
  | .legacy => 0x1C000A0D43534780
  | .rev36 => 0x36000A0D43534780

/-- The checksum of an image whose source has none. -/
def defaultChecksum (t : Target) : UInt32 :=
  match t.revision with
  | .legacy => 0x4C492053
  | .rev36 => 0x636E9D38

/-- Bytes before the references in a row of the string table. -/
def stringRowHeaderSize (t : Target) : Nat :=
  match t.revision, t.order with
  | .legacy, .little => 8
  | .legacy, .big => 4
  | .rev36, _ => 8

end Target

end GscAssembler

import GscAssembler.Bytes.Chunk
import GscAssembler.Text.Hex

/-!
# Hex dumps

A dump shows sixteen bytes a line: the address of the first, the bytes in hexadecimal, and the
visible ASCII characters among them.
-/

namespace GscAssembler.Bytes

/-- The number of bytes shown on a line. -/
def bytesPerLine : Nat := 16

/-- A byte as a visible ASCII character, or a dot. -/
def visibleChar (b : UInt8) : Char :=
  if 0x21 ≤ b ∧ b ≤ 0x7E then Char.ofNat b.toNat else '.'

/-- One line of a dump. -/
def dumpLine (address : Nat) (line : List UInt8) : String :=
  let cells := line.map fun b => " " ++ Text.hexPadded 2 b.toNat
  let blanks := List.replicate (bytesPerLine - line.length) "   "
  Text.hexPadded 8 address ++ "   " ++ String.join (cells ++ blanks) ++ "    " ++
    String.ofList (line.map visibleChar)

/-- The lines of a dump whose first byte has the given address. -/
def dumpLines (address : Nat) (bytes : List UInt8) : List String :=
  (chunks bytesPerLine bytes).mapIdx fun i line => dumpLine (address + i * bytesPerLine) line

/-- The whole dump, every line ended by a newline. -/
def hexDump (address : Nat) (bytes : List UInt8) : String :=
  String.join ((dumpLines address bytes).map (· ++ "\n"))

end GscAssembler.Bytes

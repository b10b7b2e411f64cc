import GscAssembler.Bytes.Buffer
import GscAssembler.Code.Instruction
import GscAssembler.Reference.Tables
import GscAssembler.Text.Hex

/-!
# The encoding of instructions

An instruction is an opcode followed by operands, most of which are aligned on their absolute
address.  Its bytes depend on the target, the locals of its function, the imports of its script and
the address it is placed at, and on nothing else; `encode` therefore writes them into a buffer of
their own.

Operands that the loader fills in, such as string addresses, hold ones.  The reference that leads the
loader there is returned beside the bytes.
-/

namespace GscAssembler.Code

open Bytes (Buffer align)
open Number (Constant)
open Reference (ImportKey Table TableReference)

/-- What encoding an instruction needs to know of its function and script. -/
structure Frame where
  /-- What the image is made for. -/
  target : Target
  /-- The name of the function, for messages. -/
  function : String
  /-- The hashes of the function's locals, in the order of their declaration. -/
  locals : List UInt32
  /-- The imports of the script. -/
  imports : Table ImportKey

/-- The bytes of an instruction and the table entry it refers to. -/
structure Encoded where
  /-- The bytes, from the instruction's address on. -/
  buffer : Buffer
  /-- The reference made by the instruction, if any. -/
  reference : Option TableReference := none

/-- The most locals of a function. -/
def maxLocals : Nat := 255

namespace Frame

/-- An empty buffer at an address. -/
def bufferAt (f : Frame) (address : Nat) : Buffer :=
  { order := f.target.order, start := address }

/-- A buffer that holds an opcode. -/
def opcodeAt (f : Frame) (address : Nat) (code : Opcode) : Buffer :=
  (f.bufferAt address).word f.target.opcodeWidth code.value

/-- The index of a local, counted from the last declared. -/
def localIndex (f : Frame) (hash : UInt32) : Except CompileError Nat :=
  match f.locals.idxOf? hash with
  | some position => .ok (f.locals.length - position - 1)
  | none => .error (.unknownVariable ("0x" ++ Text.hexPadded 8 hash.toNat) f.function)

/-- The import at a position. -/
def importKey (f : Frame) (entry : Nat) : Except CompileError ImportKey :=
  match f.imports.get? entry with
  | some e => .ok e.value
  | none => .error .unknownFunction

/-- The declaration of all locals behind its opcode: their number and, each aligned, their hashes
with a flag byte. -/
def localsOperand (f : Frame) (buffer : Buffer) : Except CompileError Buffer :=
  if f.locals.isEmpty then .ok buffer
  else do
    requireAtMost "locals" f.locals.length maxLocals
    let counted := buffer.byte (UInt8.ofNat f.locals.length)
    let declared := f.locals.foldl
      (fun b hash => ((b.alignTo 4).word 4 hash.toNat).byte 0) counted
    .ok (declared.alignTo f.target.opcodeWidth)

/-- The operand of a numeric constant behind its opcode. -/
def numberOperand (f : Frame) (buffer : Buffer) (value : Constant) : Buffer :=
  match value with
  | .float bits => (buffer.alignTo 4).word 4 bits.toNat
  | .int v =>
      match value.opcode f.target with
      | .getZero => buffer
      | .getByte | .getNegByte =>
          match f.target.revision, f.target.order with
          | .legacy, .big => buffer.word 1 v.natAbs
          | .legacy, .little => (buffer.alignTo 2).word 2 v.natAbs
          | .rev36, _ => buffer.word 2 v.natAbs
      | .getUnsignedShort | .getNegUnsignedShort =>
          let aligned := if f.target.isLegacy then buffer.alignTo 2 else buffer
          aligned.word 2 v.natAbs
      | _ => (buffer.alignTo 4).word 4 (v % 0x100000000).toNat

/-- An operand that the loader overwrites with an address. -/
def addressOperand (f : Frame) (buffer : Buffer) : Buffer × Nat :=
  let width := if f.target.isLittle then 4 else 2
  let aligned := buffer.alignTo width
  (aligned.append (List.replicate width 0xFF), aligned.position)

/-- The bytes and the reference of an instruction placed at an address. -/
def encode (f : Frame) (address : Nat) (i : Instruction) : Except CompileError Encoded :=
  let width := f.target.opcodeWidth
  let start := f.opcodeAt address (i.opcode f.target f.locals.length)
  match i with
  | .op _ => .ok { buffer := start }
  | .locals => do
      let buffer ← f.localsOperand start
      .ok { buffer }
  | .jump _ _ => .ok { buffer := (start.alignTo 2).word 2 0xFFFF }
  | .localVariable _ hash => do
      let index ← f.localIndex hash
      .ok { buffer := (start.byte (UInt8.ofNat index)).padTo (address + 2 * width) }
  | .number value => .ok { buffer := f.numberOperand start value }
  | .string _ entry =>
      let (buffer, operand) := f.addressOperand start
      .ok { buffer, reference := some ⟨.strings, entry, operand⟩ }
  | .debugString entry =>
      let (buffer, operand) := f.addressOperand start
      .ok { buffer, reference := some ⟨.debug, entry, operand⟩ }
  | .hash value =>
      .ok { buffer := if f.target.isLegacy then (start.alignTo 4).word 4 value.toNat
            else (start.alignTo 8).word 8 value.toNat }
  | .field _ hash => .ok { buffer := (start.alignTo 4).word 4 hash.toNat }
  | .call _ entry => do
      let key ← f.importKey entry
      let counted := start.byte key.params
      let flagged := if f.target.isLittle then counted.byte key.flags else counted
      let operand := align (address + 2 * width) (4 * width)
      let buffer := ((flagged.padTo operand).word 4 key.function.toNat).padTo (operand + 4 * width)
      .ok { buffer, reference := some ⟨.imports, entry, address⟩ }
  | .callPointer _ params | .notification _ params =>
      let size := if f.target.isLittle then width + 2 else width + 1
      .ok { buffer := (start.byte params).padTo (address + size) }
  | .functionPointer _ entry => do
      let key ← f.importKey entry
      let size := if f.target.isLittle then 8 else 4
      let aligned := start.alignTo size
      let buffer := (aligned.word 4 key.function.toNat).padTo (aligned.position + size)
      .ok { buffer, reference := some ⟨.imports, entry, address⟩ }
  | .global _ entry =>
      .ok { buffer := start.padTo (address + width + 2)
            reference := some ⟨.globals, entry, start.position⟩ }

end Frame

end GscAssembler.Code

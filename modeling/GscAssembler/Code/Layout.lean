import GscAssembler.Bytes.Crc32
import GscAssembler.Code.Encoding
import GscAssembler.Code.Function

/-!
# The layout of a function

A function is laid out in two passes.  The first places its instructions one behind the other, from
eight bytes behind the next multiple of 16, and records the references they make.  The second gives
every jump its displacement, which is counted from the end of the jump to the end of the instruction
it lands behind.
-/

namespace GscAssembler.Code

open Bytes (Buffer align crc32 slice)
open Reference (TableReference Tables)

/-- The distance of a function from the multiple of 16 before it. -/
def functionGap : Nat := 8

/-- An instruction at its place. -/
structure Placed where
  /-- The key of the instruction. -/
  key : Key
  /-- The instruction itself. -/
  instruction : Instruction
  /-- The opcode it is encoded with. -/
  opcode : Opcode
  /-- The address of its first byte. -/
  address : Nat
  /-- The number of its bytes. -/
  size : Nat
  deriving DecidableEq, Repr

/-- The address behind a placed instruction. -/
def Placed.finish (p : Placed) : Nat :=
  p.address + p.size

/-- A jump after its displacement was set. -/
structure PlacedJump where
  /-- The opcode of the jump. -/
  opcode : Opcode
  /-- The address of its first byte. -/
  address : Nat
  /-- The address from which the displacement counts. -/
  origin : Nat
  /-- The address the jump lands on. -/
  landing : Nat
  deriving DecidableEq, Repr

/-- Where a function is in the image, and what it is made of. -/
structure FunctionLayout where
  /-- The name of the function. -/
  name : String
  /-- The hash of its name. -/
  hash : UInt32
  /-- The hash of its namespace. -/
  namespaceHash : UInt32
  /-- The number of its parameters. -/
  params : UInt8
  /-- How it is exported. -/
  flags : UInt8
  /-- The address of its first instruction. -/
  address : Nat
  /-- The number of its bytes. -/
  size : Nat
  /-- The checksum of its bytes. -/
  crc : UInt32
  /-- Its instructions in order. -/
  instructions : List Placed
  /-- Its jumps in order. -/
  jumps : List PlacedJump
  /-- The references it makes, in order. -/
  references : List TableReference
  deriving DecidableEq, Repr

/-- The work of the first pass so far. -/
structure Placement where
  /-- The image up to the last instruction placed. -/
  image : Buffer
  /-- The tables with the references made so far. -/
  tables : Tables
  /-- The instructions placed so far. -/
  placed : Array Placed := #[]
  /-- The references made so far. -/
  references : Array TableReference := #[]

/-- Places one instruction at the end of the image. -/
def Placement.place (frame : Frame) (p : Placement) (item : Key × Instruction) :
    Except CompileError Placement := do
  let (key, instruction) := item
  let address := p.image.position
  let encoded ← frame.encode address instruction
  let bytes := encoded.buffer.bytes
  let opcode := instruction.opcode frame.target frame.locals.length
  .ok {
    image := { p.image with bytes := p.image.bytes ++ bytes }
    tables := match encoded.reference with
      | some reference => p.tables.record reference
      | none => p.tables
    placed := p.placed.push ⟨key, instruction, opcode, address, bytes.size⟩
    references := match encoded.reference with
      | some reference => p.references.push reference
      | none => p.references }

/-- The work of the second pass so far. -/
structure Patching where
  /-- The image with the displacements set so far. -/
  image : Buffer
  /-- The jumps seen so far. -/
  jumps : Array PlacedJump := #[]

/-- Sets the displacement of a jump.  Other instructions are passed over. -/
def Patching.patch (frame : Frame) (placed : List Placed) (p : Patching) (item : Placed) :
    Except CompileError Patching :=
  match item.instruction with
  | .jump code target =>
      match target.bind fun key => placed.find? (·.key = key) with
      | none => .error (.unresolvedJump frame.function)
      | some landing =>
          let displacement : Int := landing.finish - item.finish
          if displacement < -0x8000 ∨ 0x8000 ≤ displacement then
            .error (.jumpOutOfRange frame.function displacement)
          else
            let operand := align (item.address + frame.target.opcodeWidth) 2
            .ok {
              image := p.image.patchWord operand 2 (displacement % 0x10000).toNat
              jumps := p.jumps.push ⟨code, item.address, item.finish, landing.finish⟩ }
  | _ => .ok p

/-- Where the next function starts in an image of the given length. -/
def functionStart (length : Nat) : Nat :=
  align length 16 + functionGap

namespace ScriptFunction

/-- What the instructions of a function are encoded with. -/
def frame (f : ScriptFunction) (tables : Tables) : Frame :=
  { target := f.target, function := f.name, locals := f.locals.toList, imports := tables.imports }

/-- Lays a function out at the end of an image. -/
def layOut (f : ScriptFunction) (image : Buffer) (tables : Tables) :
    Except CompileError (FunctionLayout × Buffer × Tables) := do
  let frame := f.frame tables
  let start := functionStart image.position
  let placement ← f.instructions.foldlM (Placement.place frame)
    { image := image.padTo start, tables }
  let placed := placement.placed.toList
  let patching ← placed.foldlM (Patching.patch frame placed) { image := placement.image }
  let size := patching.image.position - start
  let layout : FunctionLayout := {
    name := f.name, hash := f.hash, namespaceHash := f.namespaceHash
    params := f.params, flags := f.flags
    address := start, size
    crc := crc32 (slice patching.image.bytes start size)
    instructions := placed
    jumps := patching.jumps.toList
    references := placement.references.toList }
  .ok (layout, patching.image, placement.tables)

end ScriptFunction

end GscAssembler.Code

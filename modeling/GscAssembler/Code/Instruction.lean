import GscAssembler.Code.Chain
import GscAssembler.Code.Constant

/-!
# Instructions

An instruction is an operation with its operands.  Table entries are named by their position and
jump targets by the key of the instruction they land behind, so an instruction has no address until
its function is laid out.
-/

namespace GscAssembler.Code

open Number (Constant)

/-- An operation with its operands. -/
inductive Instruction where
  /-- An operation without operands. -/
  | op (code : Opcode)
  /-- The declaration of a function's local variables. -/
  | locals
  /-- A jump to whatever follows the target instruction. -/
  | jump (code : Opcode) (target : Option Key)
  /-- An operation on a local variable, given by the hash of its name. -/
  | localVariable (code : Opcode) (hash : UInt32)
  /-- Pushes a numeric constant. -/
  | number (value : Constant)
  /-- Pushes an entry of the string table. -/
  | string (code : Opcode) (entry : Nat)
  /-- Pushes an entry of the developer string table. -/
  | debugString (entry : Nat)
  /-- Pushes a hash value. -/
  | hash (value : UInt64)
  /-- Accesses a field of the object on top of the stack. -/
  | field (code : Opcode) (hash : UInt32)
  /-- Calls an entry of the import table. -/
  | call (code : Opcode) (entry : Nat)
  /-- Calls the function pointer on top of the stack. -/
  | callPointer (code : Opcode) (params : UInt8)
  /-- Pushes a pointer to an entry of the import table. -/
  | functionPointer (code : Opcode) (entry : Nat)
  /-- Pushes an entry of the table of global objects. -/
  | global (code : Opcode) (entry : Nat)
  /-- An event operation that carries its number of parameters. -/
  | notification (code : Opcode) (params : UInt8)
  deriving DecidableEq, Repr

namespace Instruction

/-- The opcode an instruction is encoded with, for a number of declared locals. -/
def opcode (target : Target) (localCount : Nat) : Instruction → Opcode
  | op code | jump code _ | localVariable code _ | string code _ | field code _ | call code _
  | callPointer code _ | functionPointer code _ | global code _ | notification code _ => code
  | locals => if localCount = 0 then .checkClearParams else .safeCreateLocalVariables
  | number value => value.opcode target
  | debugString _ => .getString
  | hash _ => .getHash

/-- A jump with another target; any other instruction as it is. -/
def retarget (after : Key) : Instruction → Instruction
  | jump code _ => jump code (some after)
  | other => other

end Instruction

end GscAssembler.Code

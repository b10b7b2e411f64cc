import GscAssembler.Code.Opcode
import GscAssembler.Error
import GscAssembler.Number.Decimal
import GscAssembler.Target

/-!
# Numeric constants

A constant is pushed by the smallest operation that can hold it.  Small integers are stored as their
absolute value, and the operation tells the sign.
-/

namespace GscAssembler.Number.Constant

open Code (Opcode)

/-- The operation that pushes a constant. -/
def opcode (target : Target) : Constant → Opcode
  | float _ => .getFloat
  | int value =>
      if value = 0 then .getZero
      else if value.natAbs ≤ 0xFF then if 0 < value then .getByte else .getNegByte
      else if value.natAbs ≤ 0xFFFF then
        if 0 < value then .getUnsignedShort else .getNegUnsignedShort
      else if 0 < value ∧ !target.isLegacy then .getUnsignedInteger
      else .getInteger

/-- Accepts a constant that has 32 bits, with or without sign. -/
def checked : Constant → Except CompileError Constant
  | float bits => .ok (float bits)
  | int value =>
      if value < -0x80000000 ∨ 0x100000000 ≤ value then .error (.badNumber (toString value))
      else .ok (int value)

end GscAssembler.Number.Constant

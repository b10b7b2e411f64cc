import GscAssembler.Code.Builtin
import GscAssembler.Code.Context
import GscAssembler.Code.Instruction
import Mathlib

/-!
# The operands of an opcode

On each revision an opcode determines the operands that follow it.  `Opcode.shape` lists them, and
`Instruction.Emittable` says that an instruction pairs its opcode with the operands of its shape.
Lowering emits no other instructions, which is what makes its code readable without knowing where it
came from.
-/

namespace GscAssembler.Code

open Text (lookupFolded)

/-- What stands behind an opcode. -/
inductive Shape where
  /-- Nothing. -/
  | bare
  /-- The number of the locals and their hashes. -/
  | locals
  /-- A displacement. -/
  | jump
  /-- The index of a local. -/
  | localIndex
  /-- A number of one byte. -/
  | byte
  /-- A number of two bytes. -/
  | short
  /-- A number of four bytes. -/
  | word
  /-- An address that the loader fills in. -/
  | address
  /-- A hash value. -/
  | hash
  /-- The hash of a field. -/
  | field
  /-- The parameter count, flags and hash of an imported function. -/
  | call
  /-- A parameter count. -/
  | count
  /-- The hash of an imported function. -/
  | pointer
  /-- A global object that the loader fills in. -/
  | global
  deriving DecidableEq, Repr

/-- What stands behind an opcode on a revision.  Only the event operations differ: the newer machine
counts their parameters. -/
def Opcode.shape (revision : Revision) : Opcode → Shape
  | .safeCreateLocalVariables => .locals
  | .jump | .jumpOnFalse | .jumpOnTrue | .jumpOnFalseExpr | .jumpOnTrueExpr => .jump
  | .evalLocalVariableCached | .evalLocalVariableRefCached | .setWaittillVariableFieldCached
  | .firstArrayKeyCached | .setNextArrayKeyCached | .setLocalVariableCached
  | .evalLocalVariableDefined => .localIndex
  | .getByte | .getNegByte => .byte
  | .getUnsignedShort | .getNegUnsignedShort => .short
  | .getInteger | .getUnsignedInteger | .getFloat => .word
  | .getString | .getIString => .address
  | .getHash => .hash
  | .evalFieldVariable | .evalFieldVariableRef | .castAndEvalFieldVariable => .field
  | .scriptFunctionCall | .scriptMethodCall | .scriptThreadCall | .scriptMethodThreadCall => .call
  | .scriptFunctionCallPointer | .scriptMethodCallPointer | .scriptThreadCallPointer
  | .scriptMethodThreadCallPointer => .count
  | .waitTill | .waitTillMatch | .endOn | .endOnCallback | .waittillTimeout =>
      match revision with
      | .legacy => .bare
      | .rev36 => .count
  | .getFunction | .getApiFunction => .pointer
  | .getGlobalObject | .getGlobalObjectRef => .global
  | _ => .bare

/-- Whether an instruction is a jump. -/
def Instruction.isJump : Instruction → Bool
  | .jump _ _ => true
  | _ => false

/-- The jumps that depend on a value. -/
def Opcode.isConditional : Opcode → Bool
  | .jumpOnFalse | .jumpOnTrue | .jumpOnFalseExpr | .jumpOnTrueExpr => true
  | _ => false

/-- Whether an instruction other than a jump or the declaration of the locals has the operands of its
opcode, on a revision that has the table it refers to. -/
def Instruction.Emittable (revision : Revision) : Instruction → Prop
  | .op code => code.shape revision = .bare
  | .locals | .jump _ _ => False
  | .localVariable code _ => code.shape revision = .localIndex
  | .number value => value.checked = .ok value
  | .string code _ => code.shape revision = .address
  | .debugString _ => revision = .legacy
  | .hash value => revision = .legacy → value.toNat < 2 ^ 32
  | .field code _ => code.shape revision = .field
  | .call code _ => code.shape revision = .call
  | .callPointer code _ | .notification code _ => code.shape revision = .count
  | .functionPointer code _ => code.shape revision = .pointer
  | .global code _ => code.shape revision = .global ∧ revision = .rev36

/-! ## Contexts of calls -/

theorem Context.has_isPointer (c : Context) : c.has .isPointer = c.bits.toBitVec[5] := by
  have hbit : ∀ b : BitVec 8, (UInt8.ofBitVec b &&& 32 == 32) = b[5] := by decide +kernel
  exact hbit c.bits.toBitVec

@[simp] theorem Context.has_isPointer_adding (c d : Context) :
    (c.adding d).has .isPointer = (c.has .isPointer || d.has .isPointer) := by
  simp [has_isPointer, adding]

/-! ## The tables of operations -/

theorem mem_of_lookupFolded {α : Type} {table : List (String × α)} {name : String} {value : α}
    (h : lookupFolded table name = some value) : ∃ key, (key, value) ∈ table := by
  obtain ⟨⟨key, found⟩, hfind, rfl⟩ := Option.map_eq_some_iff.mp h
  exact ⟨key, List.mem_of_find?_eq_some hfind⟩

theorem shape_mathOp? {token : String} {code : Opcode} (h : mathOp? token = some code)
    (revision : Revision) : code.shape revision = .bare := by
  obtain ⟨key, hmem⟩ := mem_of_lookupFolded h
  have hall : ∀ entry ∈ mathTable, entry.2.shape revision = .bare := by
    cases revision <;> decide
  exact hall _ hmem

theorem shape_compareOp? {token : String} {code : Opcode} (h : compareOp? token = some code)
    (revision : Revision) : code.shape revision = .bare := by
  obtain ⟨key, hmem⟩ := mem_of_lookupFolded h
  have hall : ∀ entry ∈ compareTable, entry.2.shape revision = .bare := by
    cases revision <;> decide
  exact hall _ hmem

theorem shape_builtinCall? {revision : Revision} {name : String} {code : Opcode}
    (h : builtinCall? revision name = some code) : code.shape revision = .bare := by
  obtain ⟨key, hmem⟩ := mem_of_lookupFolded h
  have hall : ∀ entry ∈ callTable revision, entry.2.shape revision = .bare := by
    cases revision <;> decide
  exact hall _ hmem

/-- Event methods are plain operations on the legacy machine; on the newer one all but `notify`
count their parameters. -/
theorem shape_notifier? {revision : Revision} {name : String} {code : Opcode}
    (h : notifier? revision name = some code) :
    code.shape revision = if revision = .legacy ∨ code = .notify then .bare else .count := by
  obtain ⟨key, hmem⟩ := mem_of_lookupFolded h
  have hall : ∀ entry ∈ notifierTable revision, entry.2.shape revision =
      if revision = .legacy ∨ entry.2 = .notify then .bare else .count := by
    cases revision <;> decide
  exact hall _ hmem

/-- What the push of a builtin object needs of the revision. -/
def BuiltinObject.Available (revision : Revision) : BuiltinObject → Prop
  | .op code => code.shape revision = .bare
  | .one => True
  | .global => revision = .rev36

theorem available_builtinObject? {revision : Revision} {name : String} {isRef : Bool}
    {object : BuiltinObject} (h : builtinObject? revision name isRef = some object) :
    object.Available revision := by
  have hall : ∀ entry ∈ objectTable revision, entry.2.Available revision := by
    cases revision <;> simp [objectTable, BuiltinObject.Available, Opcode.shape]
  simp only [builtinObject?] at h
  split at h
  · rename_i found hfound
    obtain rfl : found = object := by simpa using h
    obtain ⟨key, hmem⟩ := mem_of_lookupFolded hfound
    exact hall _ hmem
  · cases revision with
    | legacy => simp [globalObjects] at h
    | rev36 =>
        obtain rfl : .global = object := by simpa using (Option.ite_none_right_eq_some.mp h).2
        rfl

end GscAssembler.Code

import GscAssembler.Script
import GscAssembler.SyntaxTree.Node

/-!
# Emitting code for one function

Lowering turns the tree of a function into instructions.  It works on the function under construction
and on the script around it, whose tables and names it extends, and stops at the first error.  This
module holds the single steps; what is built from them is in the modules that follow.
-/

namespace GscAssembler.Lowering

open Code (Context Instruction Key LoopJump Opcode ScriptFunction)
open Number (Constant)
open Reference (ImportKey Tables)

/-- What lowering works on. -/
structure State where
  /-- The script around the function. -/
  script : Script
  /-- The function under construction. -/
  function : ScriptFunction

/-- A piece of lowering: extends the state, or stops with an error. -/
abbrev Lower := StateT State (Except CompileError)

/-! ## The script -/

/-- What code is made for. -/
def getTarget : Lower Target := do
  return (← get).script.target

/-- Whether code is made for the legacy machine. -/
def isLegacy : Lower Bool := do
  return (← getTarget).isLegacy

/-- The revision of the machine that code is made for. -/
def getRevision : Lower Revision := do
  return (← getTarget).revision

/-- The hash of the script's namespace. -/
def getNamespace : Lower UInt32 := do
  return (← get).script.namespaceHash

/-- The 32-bit hash of a name, which the script remembers. -/
def hashName (name : String) : Lower UInt32 := fun s => do
  let (hash, script) ← s.script.hash name
  return (hash, { s with script })

/-- The 64-bit hash of a name, which the script remembers. -/
def hashName64 (name : String) : Lower UInt64 := fun s => do
  let (hash, script) ← s.script.hash64 name
  return (hash, { s with script })

/-- Changes the script's tables. -/
def modifyTables (f : Tables → Nat × Tables) : Lower Nat := fun s =>
  let (entry, tables) := f s.script.tables
  return (entry, { s with script := { s.script with tables } })

/-- The entry of a text in the string table. -/
def internString (text : String) : Lower Nat :=
  modifyTables fun t =>
    let (entry, strings) := t.strings.add text
    (entry, { t with strings })

/-- The entry of a hash in the table of developer strings. -/
def internDebugString (hash : UInt32) : Lower Nat :=
  modifyTables fun t =>
    let (entry, debug) := t.debug.add hash
    (entry, { t with debug })

/-- The entry of a hash in the table of global objects. -/
def internGlobal (hash : UInt32) : Lower Nat :=
  modifyTables fun t =>
    let (entry, globals) := t.globals.add hash
    (entry, { t with globals })

/-- The entry of an import. -/
def internImport (key : ImportKey) : Lower Nat :=
  modifyTables fun t =>
    let (entry, imports) := t.imports.add key
    (entry, { t with imports })

/-! ## The function -/

/-- Changes the function. -/
def modifyFunction (f : ScriptFunction → ScriptFunction) : Lower Unit :=
  modify fun s => { s with function := f s.function }

/-- Changes the function by something that may fail. -/
def updateFunction {α : Type} (f : ScriptFunction → Except CompileError (α × ScriptFunction)) :
    Lower α := fun s => do
  let (result, function) ← f s.function
  return (result, { s with function })

/-- Appends an instruction. -/
def emit (i : Instruction) : Lower Key := fun s =>
  let (key, function) := s.function.add i
  return (key, { s with function })

/-- Appends an operation without operands. -/
def emitOp (code : Opcode) : Lower Unit :=
  discard (emit (.op code))

/-- Appends a numeric constant. -/
def emitNumber (value : Constant) : Lower Unit :=
  discard (updateFunction fun f => f.addNumber value)

/-- Appends the evaluation of a local. -/
def emitEval (hash : UInt32) (context : Context) : Lower Unit :=
  discard (updateFunction fun f => .ok (f.addEval hash context))

/-- Appends the test whether a local is defined. -/
def emitIsDefined (hash : UInt32) : Lower Unit := do
  if ← isLegacy then
    emitEval hash .plain
    emitOp .isDefined
  else discard (updateFunction fun f => .ok (f.addIsDefined hash))

/-- Appends an assignment of the stack's top to a local. -/
def emitStore (hash : UInt32) : Lower Unit := do
  if ← isLegacy then
    emitEval hash .isRef
    emitOp .setVariableField
  else discard (updateFunction fun f => .ok (f.addAssign hash))

/-- Appends a push of a text. -/
def emitString (code : Opcode) (text : String) : Lower Unit := do
  let entry ← internString text
  discard (emit (.string code entry))

/-- Appends a push of a developer string. -/
def emitDebugString (hash : UInt32) : Lower Unit := do
  let entry ← internDebugString hash
  discard (emit (.debugString entry))

/-- Appends a push of a global object. -/
def emitGlobal (code : Opcode) (hash : UInt32) : Lower Unit := do
  let entry ← internGlobal hash
  discard (emit (.global code entry))

/-- Appends a call of an import. -/
def emitCall (code : Opcode) (key : ImportKey) : Lower Unit := do
  let entry ← internImport key
  discard (emit (.call code entry))

/-- Appends a push of a pointer to an import. -/
def emitFunctionPointer (code : Opcode) (key : ImportKey) : Lower Unit := do
  let entry ← internImport key
  discard (emit (.functionPointer code entry))

/-- Declares a local by its name. -/
def declare (name : String) : Lower UInt32 := do
  let hash ← hashName name
  modifyFunction fun f => f.addLocal hash
  return hash

/-- The hash of a local that must be declared. -/
def declaredLocal (name : String) : Lower UInt32 := do
  let hash ← hashName name
  let f := (← get).function
  if f.hasLocal hash then return hash else throw (.unknownVariable name f.name)

/-! ## Jumps -/

/-- The last instruction so far. -/
def lastKey : Lower Key := do
  return (← get).function.lastKey

/-- Appends a jump that has no target yet. -/
def emitJump (code : Opcode) : Lower Key :=
  emit (.jump code none)

/-- Lets a jump land directly behind an instruction. -/
def setTarget (jump after : Key) : Lower Unit :=
  modifyFunction fun f => f.setTarget jump after

/-- Lets a jump land on whatever is emitted next. -/
def land (jump : Key) : Lower Unit := do
  let last ← lastKey
  setTarget jump last

/-- Opens a loop or switch. -/
def enterLoop : Lower Unit :=
  modifyFunction fun f => f.enterLoop

/-- Closes the innermost loop or switch. -/
def exitLoop (header : Option Key) (footer : Key) : Lower Unit :=
  updateFunction fun f =>
    match f.exitLoop header footer with
    | (none, f) => .ok ((), f)
    | (some error, _) => .error error

end GscAssembler.Lowering

import GscAssembler.Code.Context
import GscAssembler.Code.Instruction
import GscAssembler.Reference.Tables

/-!
# Functions under construction

A `ScriptFunction` is an exported function: what its export entry says, the locals it declares, and
the chain of its instructions.  The chain starts with the declaration of the locals, which cannot be
removed; locals may be declared at any time before the layout.

While code is emitted, the function also keeps the loops and switches that are open.  A `break` or
`continue` is a jump that waits in the scope it leaves until that scope is closed.
-/

namespace GscAssembler.Code

open Number (Constant)
open Reference (ImportKey Tables)

/-- A jump out of a loop or to its next round. -/
inductive LoopJump where
  /-- Leaves the loop. -/
  | leave
  /-- Goes on with the next round. -/
  | next
  deriving DecidableEq, Repr

/-- The synthetic locals of one loop over an array. -/
structure ForeachLocals where
  /-- Holds the array. -/
  array : UInt32
  /-- Reserved by the newer machine. -/
  iterator : UInt32
  /-- Holds the current key. -/
  key : UInt32
  /-- Holds the key of the next round, on the newer machine. -/
  nextKey : UInt32
  deriving DecidableEq, Repr

/-- A jump that waits for its scope to be closed. -/
structure PendingJump where
  /-- Where the jump goes. -/
  kind : LoopJump
  /-- The jump instruction. -/
  jump : Key
  deriving DecidableEq, Repr

/-- An exported function and its code. -/
structure ScriptFunction where
  /-- The name of the function. -/
  name : String
  /-- The hash of its name. -/
  hash : UInt32
  /-- The hash of its namespace. -/
  namespaceHash : UInt32
  /-- The number of its parameters. -/
  params : UInt8
  /-- How it is exported. -/
  flags : UInt8
  /-- What its code is made for. -/
  target : Target
  /-- Its instructions. -/
  chain : Chain Instruction
  /-- The declaration of its locals. -/
  head : Key
  /-- The hashes of its locals, in the order of their declaration. -/
  locals : Array UInt32 := #[]
  /-- The jumps that wait in each open loop or switch, the innermost first. -/
  scopes : List (List PendingJump) := []
  /-- The variables reserved for switches, the next first. -/
  switchKeys : List UInt32 := []
  /-- The variables reserved for loops over arrays, the next first. -/
  foreachKeys : List ForeachLocals := []

namespace ScriptFunction

/-- A function without code. -/
def create (target : Target) (name : String) (hash namespaceHash : UInt32)
    (params flags : UInt8) : ScriptFunction :=
  let (head, chain) := Chain.empty.push Instruction.locals
  { name, hash, namespaceHash, params, flags, target, chain, head }

/-- Whether a local is declared. -/
def hasLocal (f : ScriptFunction) (hash : UInt32) : Bool :=
  f.locals.contains hash

/-- Declares a local; declaring it again changes nothing. -/
def addLocal (f : ScriptFunction) (hash : UInt32) : ScriptFunction :=
  if f.hasLocal hash then f else { f with locals := f.locals.push hash }

/-- Reserves a variable for a switch. -/
def pushSwitchKey (f : ScriptFunction) (hash : UInt32) : ScriptFunction :=
  { f with switchKeys := hash :: f.switchKeys }

/-- Takes the variable reserved last for a switch. -/
def popSwitchKey (f : ScriptFunction) : Except CompileError (UInt32 × ScriptFunction) :=
  match f.switchKeys with
  | [] => .error (.unbalancedSyntheticLocals "switch")
  | hash :: rest => .ok (hash, { f with switchKeys := rest })

/-- Reserves the variables of a loop over an array. -/
def pushForeachLocals (f : ScriptFunction) (locals : ForeachLocals) : ScriptFunction :=
  { f with foreachKeys := locals :: f.foreachKeys }

/-- Takes the variables reserved last for a loop over an array. -/
def popForeachLocals (f : ScriptFunction) : Except CompileError (ForeachLocals × ScriptFunction) :=
  match f.foreachKeys with
  | [] => .error (.unbalancedSyntheticLocals "foreach")
  | locals :: rest => .ok (locals, { f with foreachKeys := rest })

/-! ## Instructions -/

/-- Appends an instruction. -/
def add (f : ScriptFunction) (i : Instruction) : Key × ScriptFunction :=
  let (key, chain) := f.chain.push i
  (key, { f with chain })

/-- Inserts an instruction directly behind another, if that is there. -/
def insert (f : ScriptFunction) (after : Key) (i : Instruction) : Option Key × ScriptFunction :=
  let (key, chain) := f.chain.insertAfter after i
  (key, { f with chain })

/-- Takes an instruction out, if it is there.  The declaration of the locals stays. -/
def remove (f : ScriptFunction) (key : Key) : Option Instruction × ScriptFunction :=
  if key = f.head then (none, f)
  else
    let (removed, chain) := f.chain.remove key
    (removed, { f with chain })

/-- The instruction of a key. -/
def get? (f : ScriptFunction) (key : Key) : Option Instruction :=
  f.chain.get? key

/-- The instructions in order. -/
def instructions (f : ScriptFunction) : List (Key × Instruction) :=
  f.chain.toList

/-- The last instruction.  A jump behind it lands on whatever is emitted next. -/
def lastKey (f : ScriptFunction) : Key :=
  f.chain.last.getD f.head

/-- Lets a jump land directly behind an instruction. -/
def setTarget (f : ScriptFunction) (jump after : Key) : ScriptFunction :=
  { f with chain := f.chain.modify jump (Instruction.retarget after) }

/-- Appends an operation without operands. -/
def addOp (f : ScriptFunction) (code : Opcode) : Key × ScriptFunction :=
  f.add (.op code)

/-- Appends a jump that has no target yet. -/
def addJump (f : ScriptFunction) (code : Opcode) : Key × ScriptFunction :=
  f.add (.jump code none)

/-- Appends a constant that has 32 bits. -/
def addNumber (f : ScriptFunction) (value : Constant) :
    Except CompileError (Key × ScriptFunction) := do
  let value ← value.checked
  .ok (f.add (.number value))

/-- The operation that evaluates a local in a context. -/
def evalOpcode (target : Target) (context : Context) : Opcode :=
  if target.isLegacy && context.has .waittill then .setWaittillVariableFieldCached
  else if context.has .isRef then .evalLocalVariableRefCached
  else .evalLocalVariableCached

/-- Appends the evaluation of a local, for its value or as a reference. -/
def addEval (f : ScriptFunction) (hash : UInt32) (context : Context) : Key × ScriptFunction :=
  f.add (.localVariable (evalOpcode f.target context) hash)

/-- Appends an assignment of the stack's top to a local, on the newer machine. -/
def addAssign (f : ScriptFunction) (hash : UInt32) : Key × ScriptFunction :=
  f.add (.localVariable .setLocalVariableCached hash)

/-- Appends the test whether a local is defined, on the newer machine. -/
def addIsDefined (f : ScriptFunction) (hash : UInt32) : Key × ScriptFunction :=
  f.add (.localVariable .evalLocalVariableDefined hash)

/-! ## Loops and switches -/

/-- Opens a loop or switch. -/
def enterLoop (f : ScriptFunction) : ScriptFunction :=
  { f with scopes := [] :: f.scopes }

/-- Appends a jump out of, or to the next round of, the loop that many levels outward; zero and one
both mean the innermost. -/
def addLoopJump (f : ScriptFunction) (kind : LoopJump) (levels : Nat) :
    Except CompileError (Key × ScriptFunction) :=
  let outward := max levels 1 - 1
  if f.scopes.length ≤ outward then
    .error (.malformedNode "jumpStatement" "break or continue outside of a loop")
  else
    let (jump, f) := f.addJump .jump
    .ok (jump, { f with scopes := f.scopes.modify outward (· ++ [⟨kind, jump⟩]) })

/-- Settles the jumps that waited in a scope just closed: those that leave it land behind `footer`,
those to its next round behind `header`.  A scope without a header hands the latter on to the scope
around it; the first one that finds no scope ends the work with an error. -/
def settle (header : Option Key) (footer : Key) :
    List PendingJump → ScriptFunction → Option CompileError × ScriptFunction
  | [], f => (none, f)
  | ⟨.leave, jump⟩ :: rest, f => settle header footer rest (f.setTarget jump footer)
  | ⟨.next, jump⟩ :: rest, f =>
      match header, f.scopes with
      | some header, _ => settle (some header) footer rest (f.setTarget jump header)
      | none, outer :: scopes =>
          settle none footer rest { f with scopes := (outer ++ [⟨.next, jump⟩]) :: scopes }
      | none, [] => (some (.malformedNode "jumpStatement" "continue outside of a loop"), f)

/-- Closes the innermost loop or switch. -/
def exitLoop (f : ScriptFunction) (header : Option Key) (footer : Key) :
    Option CompileError × ScriptFunction :=
  match f.scopes with
  | [] => (none, f)
  | pending :: outer => settle header footer pending { f with scopes := outer }

end ScriptFunction

end GscAssembler.Code

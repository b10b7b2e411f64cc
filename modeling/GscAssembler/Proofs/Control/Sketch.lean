import GscAssembler.Lowering.Script
import GscAssembler.Proofs.Control.Program

/-!
# The structured program of a tree

`sketchFunction` reads the tree of a function as a structured program.  It has a rule for every kind
of node, like the lowering of the tree, and the rules agree in what they hash, declare and look up,
so they use the same names, table entries and variables.  They differ in the control flow: no rule
here knows of keys, jump targets or open loops.  A branch, a loop or a switch is made of the programs
of its parts.

A `Sketch` is a piece of this reading.  It works on the same state as lowering, of which it leaves
the code untouched, and gives a program besides its result; the programs of consecutive sketches are
run one after the other.
-/

namespace GscAssembler.Control

open Code (BuiltinObject Context ForeachLocals Instruction Opcode ScriptFunction)
open Lowering
open Number (Constant)
open Reference (ImportKey)
open SyntaxTree (Node)
open Text (asciiLower)

/-- A piece of reading a tree: extends the state and gives a program, or stops with an error. -/
structure Sketch (α : Type) where
  /-- Reads on in a state. -/
  run : State → Except CompileError ((α × Program) × State)

namespace Sketch

variable {α β : Type}

/-- Gives a result and the empty program. -/
def done (a : α) : Sketch α where
  run s := .ok ((a, .nothing), s)

/-- Continues a sketch by another. -/
def continueWith (x : Sketch α) (f : α → Sketch β) : Sketch β where
  run s := do
    let ((a, first), s) ← x.run s
    let ((b, second), s) ← (f a).run s
    return ((b, .sequence first second), s)

instance : Monad Sketch where
  pure := done
  bind := continueWith

/-- Stops with an error. -/
def fail (e : CompileError) : Sketch α where
  run _ := .error e

/-- A step that concerns the names, tables and variables only. -/
def silent (x : Lower α) : Sketch α where
  run s := do
    let (a, s) ← x s
    return ((a, .nothing), s)

instance : MonadLift Lower Sketch where
  monadLift := silent

/-- Puts the program of a sketch into a larger one. -/
def wrap (f : Program → Program) (x : Sketch Unit) : Sketch Unit where
  run s := do
    let (((), p), s) ← x.run s
    return (((), f p), s)

/-- Puts the programs of two sketches into a larger one. -/
def join (f : Program → Program → Program) (x y : Sketch Unit) : Sketch Unit where
  run s := do
    let (((), p), s) ← x.run s
    let (((), q), s) ← y.run s
    return (((), f p q), s)

end Sketch

/-- Runs a program where the sketch stands. -/
def write (p : Program) : Sketch Unit where
  run s := .ok (((), p), s)

/-! ## Instructions -/

/-- Executes an operation without operands. -/
def writeOp (code : Opcode) : Sketch Unit :=
  write (.instruction (.op code))

/-- Pushes a numeric constant. -/
def writeNumber (value : Constant) : Sketch Unit := do
  let value ← (value.checked : Except CompileError Constant)
  write (.instruction (.number value))

/-- What the code of the function is made for. -/
def functionTarget : Lower Target := do
  return (← get).function.target

/-- Evaluates a local. -/
def writeEval (hash : UInt32) (context : Context) : Sketch Unit := do
  let target ← functionTarget
  write (.instruction (.localVariable (ScriptFunction.evalOpcode target context) hash))

/-- Tests whether a local is defined. -/
def writeIsDefined (hash : UInt32) : Sketch Unit := do
  if ← isLegacy then
    writeEval hash .plain
    writeOp .isDefined
  else write (.instruction (.localVariable .evalLocalVariableDefined hash))

/-- Assigns the stack's top to a local. -/
def writeStore (hash : UInt32) : Sketch Unit := do
  if ← isLegacy then
    writeEval hash .isRef
    writeOp .setVariableField
  else write (.instruction (.localVariable .setLocalVariableCached hash))

/-- Pushes a text. -/
def writeString (code : Opcode) (text : String) : Sketch Unit := do
  let entry ← internString text
  write (.instruction (.string code entry))

/-- Pushes a developer string. -/
def writeDebugString (hash : UInt32) : Sketch Unit := do
  let entry ← internDebugString hash
  write (.instruction (.debugString entry))

/-- Pushes a global object. -/
def writeGlobal (code : Opcode) (hash : UInt32) : Sketch Unit := do
  let entry ← internGlobal hash
  write (.instruction (.global code entry))

/-- Calls an import. -/
def writeCall (code : Opcode) (key : ImportKey) : Sketch Unit := do
  let entry ← internImport key
  write (.instruction (.call code entry))

/-- Pushes a pointer to an import. -/
def writeFunctionPointer (code : Opcode) (key : ImportKey) : Sketch Unit := do
  let entry ← internImport key
  write (.instruction (.functionPointer code entry))

/-! ## Control flow -/

/-- Runs the body unless the jump is taken. -/
def skipping (code : Opcode) (body : Sketch Unit) : Sketch Unit :=
  body.wrap (.skip code)

/-- Runs the body, or if the jump is taken, the other sketch. -/
def choosing (code : Opcode) (body otherwise : Sketch Unit) : Sketch Unit :=
  .join (.choose code) body otherwise

/-- Runs rounds of the body until the test fails; without a test, until the body leaves the loop.
With a step, each round ends with it. -/
def looping (start : Sketch Unit) (test : Option (Sketch Unit)) (body : Sketch Unit)
    (step : Option (Sketch Unit)) : Sketch Unit where
  run s := do
    let (((), start), s) ← start.run s
    let (((), testing), s) ← (test.getD (pure ())).run s
    let (((), body), s) ← body.run s
    let (((), stepping), s) ← (step.getD (pure ())).run s
    return (((), .loop start testing body stepping test.isSome step.isSome), s)

/-- A branch of a switch. -/
inductive SketchedBranch where
  /-- Runs its statements if the value equals that of the switch. -/
  | case (value : Sketch Unit) (body : List (Sketch Unit))
  /-- Runs its statements if no branch before it left the switch. -/
  | default (body : List (Sketch Unit))

/-- Compares the value of a branch with that of the switch. -/
def branchTest (key : UInt32) (value : Sketch Unit) : Sketch Unit := do
  value
  writeEval key .plain
  writeOp .equal

/-- The branches of a switch up to the default one. -/
def branching (key : UInt32) : List SketchedBranch → Sketch Unit
  | [] => return
  | .default body :: _ => body.forM id
  | .case value [] :: rest => .join .emptyCase (branchTest key value) (branching key rest)
  | .case value (first :: others) :: rest => {
      run := fun s => do
        let (((), test), s) ← (branchTest key value).run s
        let (((), body), s) ← ((first :: others).forM id : Sketch Unit).run s
        let (((), rest), s) ← (branching key rest).run s
        return (((), .case test body rest), s) }

/-- Compares a value with the branches one after the other. -/
def switching (key : UInt32) (value : Sketch Unit) (branches : List SketchedBranch) :
    Sketch Unit :=
  .wrap .switch do
    value
    writeStore key
    branching key branches

/-- Runs `body` if the condition holds. -/
def sketchIfThen (condition body : Sketch Unit) : Sketch Unit := do
  condition
  skipping .jumpOnFalse body

/-- Runs `body` if the condition holds, and `otherwise` if it does not. -/
def sketchIfThenElse (condition body otherwise : Sketch Unit) : Sketch Unit := do
  condition
  choosing .jumpOnFalse body otherwise

/-- Decides a logical connective by its left side, if the jump is taken, or else by its right. -/
def sketchShortCircuit (left : Sketch Unit) (code : Opcode) (right : Sketch Unit) :
    Sketch Unit := do
  left
  skipping code do
    right
    unless ← isLegacy do writeOp .castBool

/-- Keeps the value of `left` if it is defined, and takes that of `right` if it is not. -/
def sketchOrElse (temp : UInt32) (left right : Sketch Unit) : Sketch Unit := do
  left
  writeStore temp
  writeEval temp .plain
  writeOp .isDefined
  choosing .jumpOnFalse (writeEval temp .plain) right

/-- Accesses a field of an object if the object is defined. -/
def sketchDefinedAccess (temp : UInt32) (object : Sketch Unit) (code : Opcode) (field : UInt32) :
    Sketch Unit := do
  object
  writeStore temp
  writeEval temp .plain
  writeOp .isDefined
  choosing .jumpOnFalse
    (do
      writeEval temp .plain
      writeOp .castFieldObject
      write (.instruction (.field code field)))
    (writeOp .getUndefined)

/-- Gives a parameter its default if it is not defined. -/
def sketchDefaultParameter (hash : UInt32) (value : Sketch Unit) : Sketch Unit := do
  writeIsDefined hash
  skipping .jumpOnTrue do
    value
    writeStore hash

/-- Runs the body for every element of an array. -/
def sketchForeachLoop (locals : ForeachLocals) (key value : UInt32) (collection body : Sketch Unit) :
    Sketch Unit := do
  let legacy ← isLegacy
  collection
  writeStore locals.array
  if legacy then
    writeEval locals.array .plain
    writeOp .firstArrayKey
  else write (.instruction (.localVariable .firstArrayKeyCached locals.array))
  writeStore key
  looping (pure ()) (some (writeIsDefined key))
    (do
      writeEval key .plain
      writeEval locals.array .plain
      writeOp .evalArray
      writeStore value
      unless legacy do
        writeEval key .plain
        writeEval locals.array .plain
        write (.instruction (.localVariable .setNextArrayKeyCached locals.nextKey))
      body)
    (some do
      if legacy then
        writeEval key .plain
        writeEval locals.array .plain
        writeOp .nextArrayKey
      else writeEval locals.nextKey .plain
      writeStore key)

/-! ## Nodes with their parts -/

/-- A node together with its program, and its parts. -/
inductive Sketched where
  /-- A node, its sketched children, and its program in a context. -/
  | mk (node : Node) (parts : List Sketched) (program : Context → Sketch Unit)

namespace Sketched

/-- The node. -/
def node : Sketched → Node
  | mk node _ _ => node

/-- The sketched children. -/
def parts : Sketched → List Sketched
  | mk _ parts _ => parts

/-- The program of the node in a context. -/
def sketch : Sketched → Context → Sketch Unit
  | mk _ _ program => program

/-- The program that computes the value of the node. -/
def sketchValue (f : Sketched) : Sketch Unit :=
  f.sketch .plain

/-- Whether the node is of a kind. -/
def is (f : Sketched) (kind : String) : Bool :=
  f.node.is kind

end Sketched

/-- A node with its sketched children. -/
structure Composite where
  /-- The node. -/
  node : Node
  /-- Its sketched children. -/
  parts : List Sketched

/-- The part at a position, which must be there. -/
def Composite.part (c : Composite) (position : Nat) : Except CompileError Sketched :=
  match c.parts[position]? with
  | some part => .ok part
  | none => .error (c.node.malformed "missing child")

/-- The first part of a kind. -/
def Composite.findPart? (c : Composite) (kind : String) : Option Sketched :=
  c.parts.find? (·.is kind)

/-- What a node was made of. -/
def Sketched.composite (f : Sketched) : Composite :=
  ⟨f.node, f.parts⟩

/-- Computes the values of several nodes in order. -/
def sketchValues (parts : List Sketched) : Sketch Unit :=
  parts.forM Sketched.sketchValue

/-- For each name of a macro, the program of its expression. -/
structure SketchedMacros where
  /-- The program of the macro of a name. -/
  program? : String → Option (Context → Sketch Unit)

/-! ## Expressions -/

/-- Calls an engine function with one argument. -/
def sketchEngineCall (key : ImportKey) (argument : Sketch Unit) : Sketch Unit := do
  writeOp .preScriptCall
  argument
  writeCall .scriptFunctionCall key

/-- Pushes a builtin object. -/
def sketchBuiltin (name : String) (object : BuiltinObject) (isRef : Bool) : Sketch Unit := do
  match object with
  | .op code => writeOp code
  | .one => writeNumber (.int 1)
  | .global =>
      let hash ← hashName name
      writeGlobal (if isRef then .getGlobalObjectRef else .getGlobalObject) hash

/-- An identifier stands for a macro, else for a builtin object, else for a local. -/
def sketchIdentifier (macros : SketchedMacros) (n : Node) (context : Context) : Sketch Unit := do
  let name ← n.text
  match macros.program? (asciiLower name) with
  | some program => program context
  | none =>
      let isRef := context.has .isRef
      match Code.builtinObject? (← getRevision) name isRef with
      | some object => sketchBuiltin name object isRef
      | none =>
          let hash ← declaredLocal name
          writeEval hash context

/-- Pushes an object, as the base of a field access or the owner of a method. -/
def sketchObject (f : Sketched) (context : Context) : Sketch Unit := do
  let isRef := context.has .isRef
  match ← namedObject? (← getRevision) f.node isRef with
  | some (name, object) => sketchBuiltin name object isRef
  | none =>
      f.sketchValue
      if isRef then writeOp .castFieldObject

/-- A field of an object. -/
def sketchField (c : Composite) (context : Context) : Sketch Unit := do
  let object ← c.part 0
  let field ← hashName (← c.node.text)
  let target ← getTarget
  sketchObject object (if target.isLegacy then context.adding .isRef else context)
  write (.instruction (.field (fieldOpcode target context) field))

/-- A field of an object that may be undefined. -/
def sketchDefinedField (c : Composite) (context : Context) : Sketch Unit := do
  let object ← c.part 0
  let field ← hashName (← c.node.text)
  let temp ← declare definedTemp
  let code : Opcode :=
    if context.has .isRef then .evalFieldVariableRef else .evalFieldVariable
  sketchDefinedAccess temp (sketchObject object context) code field

/-- An element of an array.  The index is evaluated first. -/
def sketchElement (c : Composite) (context : Context) : Sketch Unit := do
  let index ← c.part 1
  let array ← c.part 0
  index.sketchValue
  array.sketch context
  writeOp (if context.has .isRef then .evalArrayRef else .evalArray)

/-- A value followed by an operation on it. -/
def sketchUnary (code : Opcode) (c : Composite) : Sketch Unit := do
  let operand ← c.part 0
  operand.sketchValue
  writeOp code

/-- Two values followed by an operation on them. -/
def sketchBinary (lookup : String → Option Opcode) (c : Composite) : Sketch Unit := do
  let token ← c.node.text
  match lookup token with
  | none => .fail (.unknownOperator token)
  | some code =>
      let left ← c.part 0
      let right ← c.part 1
      left.sketchValue
      right.sketchValue
      writeOp code

/-- A logical expression.  With one part it is that part, and without any it is nothing. -/
def sketchBoolean (c : Composite) (context : Context) : Sketch Unit := do
  match c.parts with
  | [] => return
  | [only] => only.sketch context
  | left :: right :: _ =>
      let token ← c.node.text
      match connective? token with
      | none => .fail (.unknownOperator token)
      | some (tested, code) =>
          let leftSide := do
            left.sketchValue
            if tested then writeOp .isDefined
          sketchShortCircuit leftSide code right.sketchValue

/-- The left value if it is defined, else the right one. -/
def sketchCoalesce (c : Composite) : Sketch Unit := do
  let temp ← declare coalesceTemp
  let left ← c.part 0
  let right ← c.part 1
  sketchOrElse temp left.sketchValue right.sketchValue

/-- A test of a value's type. -/
def sketchTypeTest (c : Composite) (inverted : Bool) : Sketch Unit := do
  let operand ← c.part 0
  let type := asciiLower (← c.node.text)
  match type with
  | "true" | "false" =>
      operand.sketchValue
      writeNumber (.int (if type = "true" then 1 else 0))
      writeOp .superEqual
  | "defined" =>
      operand.sketchValue
      writeOp .isDefined
  | "undefined" =>
      operand.sketchValue
      writeOp .isDefined
      writeOp .boolNot
  | "float" | "functionptr" | "string" | "array" | "vec" | "int" =>
      let key ← engineImport ("is" ++ type)
      sketchEngineCall key operand.sketchValue
  | _ => .fail (.unknownOperator ("is " ++ type))
  if inverted then writeOp .boolNot

/-- A conversion of a value, which is a call of the function of that name. -/
def sketchCast (c : Composite) : Sketch Unit := do
  let type := asciiLower (← c.node.text)
  match type with
  | "int" | "float" | "istring" =>
      let key ← engineImport type
      let operand ← c.part 0
      sketchEngineCall key operand.sketchValue
  | _ => .fail (.unknownOperator ("as " ++ type))

/-- A developer string, which is an ordinary string on the newer machine. -/
def sketchDebugString (n : Node) : Sketch Unit := do
  match ← getRevision with
  | .legacy =>
      let hash ← hashName (← n.text)
      writeDebugString hash
  | .rev36 => writeString .getString (← n.text)

/-- A hash value written in hexadecimal. -/
def sketchHashed (n : Node) : Sketch Unit := do
  let token ← n.text
  match Name.hashToken? (← getRevision) token with
  | some value => write (.instruction (.hash value))
  | none => .fail (.badHash token)

/-- The hash of a text. -/
def sketchCanonicalHash (n : Node) : Sketch Unit := do
  let value ← hashName64 (← n.text)
  write (.instruction (.hash value))

/-- A number. -/
def sketchNumber (n : Node) : Sketch Unit := do
  let value ← numberConstant n
  writeNumber value

/-- A vector, whose last component is evaluated first. -/
def sketchVector (c : Composite) : Sketch Unit := do
  let x ← c.part 0
  let y ← c.part 1
  let z ← c.part 2
  z.sketchValue
  y.sketchValue
  x.sketchValue
  writeOp .vector

/-- A pointer to a function, in the script's namespace unless another is named. -/
def sketchFunctionPointer (c : Composite) : Sketch Unit := do
  let function ← hashName (← c.node.text)
  let own ← getNamespace
  let namespaceHash ← match c.findPart? "namespace" with
    | some part => do hashName (← part.node.text)
    | none => pure own
  let flags := if namespaceHash = own then importIsRef ||| importNeedsResolver else importIsRef
  let code : Opcode := if ← isLegacy then .getFunction else .getApiFunction
  writeFunctionPointer code { function, namespaceHash, params := 0, flags }

/-! ## Statements -/

/-- A branch on a condition.  A conditional expression needs both of its sides. -/
def sketchIf (c : Composite) (needsElse : Bool) : Sketch Unit := do
  match c.parts[2]? with
  | none =>
      if needsElse then .fail (c.node.malformed "missing else branch")
      let condition ← c.part 0
      let body ← c.part 1
      sketchIfThen condition.sketchValue body.sketchValue
  | some otherwise =>
      let condition ← c.part 0
      let body ← c.part 1
      sketchIfThenElse condition.sketchValue body.sketchValue otherwise.sketchValue

/-- A loop that tests before each round. -/
def sketchWhile (c : Composite) : Sketch Unit := do
  let condition ← c.part 0
  let body ← c.part 1
  looping (pure ()) (some condition.sketchValue) body.sketchValue none

/-- A counting loop.  An empty condition always holds. -/
def sketchFor (c : Composite) : Sketch Unit := do
  let start ← c.part 0
  let condition ← c.part 1
  let step ← c.part 2
  let body ← c.part 3
  let test := if condition.is "empty" then none else some condition.sketchValue
  looping start.sketchValue test body.sketchValue (some step.sketchValue)

/-- A loop over the values of an array, or over its keys and values. -/
def sketchForeach (c : Composite) (withKey : Bool) : Sketch Unit := do
  let locals ← updateFunction fun function => function.popForeachLocals
  let offset := if withKey then 1 else 0
  let key ← if withKey then namedLocal (← c.part 0).node else pure locals.key
  let value ← namedLocal (← c.part offset).node
  let collection ← c.part (offset + 1)
  let body ← c.part (offset + 2)
  sketchForeachLoop locals key value collection.sketchValue body.sketchValue

/-- The first default branch moved behind all others. -/
def lastDefault (branches : List Sketched) : List Sketched :=
  match branches.findIdx? (·.is "default") with
  | none => branches
  | some position => branches.eraseIdx position ++ branches[position]?.toList

/-- A branch of a switch by its node. -/
def sketchBranch (f : Sketched) : SketchedBranch :=
  if f.is "default" then .default (f.parts.map Sketched.sketchValue)
  else
    match f.parts with
    | [] => .case (.fail (f.node.malformed "missing child")) []
    | value :: body => .case value.sketchValue (body.map Sketched.sketchValue)

/-- A switch. -/
def sketchSwitch (c : Composite) : Sketch Unit := do
  let key ← updateFunction fun function => function.popSwitchKey
  let value ← c.part 0
  let branches := c.parts.drop 1
  match branches.find? fun b => !b.is "case" && !b.is "default" with
  | some other => .fail (.unsupportedNode other.node.kind)
  | none => switching key value.sketchValue ((lastDefault branches).map sketchBranch)

/-- A jump out of a loop.  One level, or none, is the innermost loop or switch. -/
def sketchLoopJump (n : Node) : Sketch Unit := do
  let kind ← Lowering.loopJump n
  let levels ← loopLevels n
  write (.loopJump kind (max levels 1 - 1))

/-- A return, with a value or without. -/
def sketchReturn (c : Composite) : Sketch Unit := do
  match c.parts with
  | [] => writeOp .endFunction
  | value :: _ =>
      value.sketchValue
      writeOp .returnValue

/-- Assigns the stack's top to a target. -/
def sketchAssignTo (target : Sketched) : Sketch Unit := do
  target.sketch .isRef
  writeOp .setVariableField

/-- Assigns the elements of an array one by one, from a position on. -/
def sketchElements (target : Sketched) : (position : Nat) → List Sketched → Sketch Unit
  | _, [] => return
  | position, element :: rest => do
      element.sketchValue
      writeNumber (.int position)
      target.sketch .isRef
      writeOp .evalArrayRef
      writeOp .setVariableField
      sketchElements target (position + 1) rest

/-- An assignment by any operator. -/
def sketchAssignment (c : Composite) : Sketch Unit := do
  let token ← c.node.text
  let target ← c.part 0
  match token with
  | "++" =>
      target.sketch .isRef
      writeOp .inc
  | "--" =>
      target.sketch .isRef
      writeOp .dec
  | "=" =>
      let value ← c.part 1
      if value.is "shortHandArray" then
        writeOp .getEmptyArray
        sketchAssignTo target
        sketchElements target 0 value.parts
      else
        value.sketchValue
        sketchAssignTo target
  | "??=" =>
      let temp ← declare coalesceTemp
      let value ← c.part 1
      sketchOrElse temp target.sketchValue value.sketchValue
      sketchAssignTo target
  | _ =>
      match compoundOp? token with
      | none => .fail (.unknownOperator token)
      | some code =>
          let value ← c.part 1
          target.sketchValue
          value.sketchValue
          writeOp code
          sketchAssignTo target

/-! ## Calls -/

/-- The parts of a call. -/
structure SketchedCall where
  /-- The arguments. -/
  arguments : List Sketched
  /-- The object of a method. -/
  caller : Option Sketched
  /-- The function pointer of a call through one. -/
  pointer : Option Sketched
  /-- The namespace of the function, if it is named. -/
  namespaceName : Option String
  /-- Whether the call starts a thread. -/
  threaded : Bool

/-- The first part of the part of a kind, if there is such a part. -/
def Composite.innerPart? (c : Composite) (kind : String) : Except CompileError (Option Sketched) :=
  match c.findPart? kind with
  | some part => do return some (← part.composite.part 0)
  | none => return none

/-- Takes a call apart. -/
def sketchedCall (c : Composite) : Except CompileError SketchedCall := do
  let arguments := ((c.findPart? "arguments").map Sketched.parts).getD []
  let caller ← c.innerPart? "caller"
  let pointer ← c.innerPart? "pointer"
  let namespaceName ← match c.findPart? "namespace" with
    | some part => do pure (some (← part.node.text))
    | none => pure none
  requireAtMost "call parameters" arguments.length maxParameters
  return { arguments, caller, pointer, namespaceName, threaded := (c.findPart? "thread").isSome }

namespace SketchedCall

/-- The context of a call, with what its parts say about it. -/
def context (p : SketchedCall) (outer : Context) : Context :=
  let withCaller := if p.caller.isSome then outer.adding .hasCaller else outer
  let withThread := if p.threaded then withCaller.adding .threaded else withCaller
  if p.pointer.isSome then withThread.adding .isPointer else withThread

/-- Computes the arguments, the last first. -/
def sketchArguments (p : SketchedCall) : Sketch Unit :=
  sketchValues p.arguments.reverse

/-- Computes what a call pushes before its operation: the arguments and the object. -/
def sketchOperands (p : SketchedCall) : Sketch Unit := do
  writeOp .preScriptCall
  p.sketchArguments
  p.caller.forM Sketched.sketchValue

end SketchedCall

/-- An event method of an object. -/
def sketchNotifier (code : Opcode) (p : SketchedCall) (caller : Sketched) (context : Context) :
    Sketch Unit := do
  match ← getRevision, code with
  | .legacy, .waitTill =>
      match p.arguments with
      | [] => .fail (.malformedNode "call" "waittill without an event")
      | event :: bound =>
          event.sketchValue
          sketchObject caller .plain
          writeOp code
          bound.forM fun f => f.sketch .waittill
          writeOp .clearParams
  | _, .notify =>
      writeOp .preScriptCall
      p.sketchArguments
      sketchObject caller .plain
      writeOp code
  | .legacy, _ =>
      p.sketchArguments
      sketchObject caller .plain
      writeOp code
  | .rev36, _ =>
      p.sketchArguments
      sketchObject caller .plain
      write (.instruction (.notification code (UInt8.ofNat p.arguments.length)))
      let awaits := code = .waitTill || code = .waitTillMatch || code = .waittillTimeout
      if awaits && context.has .decTop then writeOp .decTop

/-- A call of a builtin name: an event method if it has an object, else a builtin function. -/
def sketchBuiltinCall (name : String) (p : SketchedCall) (context : Context) : Sketch Unit := do
  let revision ← getRevision
  match p.caller with
  | none =>
      match Code.builtinCall? revision name with
      | none => .fail (.unknownBuiltin name)
      | some code =>
          p.sketchArguments
          writeOp code
  | some caller =>
      match Code.notifier? revision name with
      | none => .fail (.unknownBuiltin name)
      | some code => sketchNotifier code p caller context

/-- A call through a function pointer. -/
def sketchPointerCall (p : SketchedCall) (pointer : Sketched) (context : Context) :
    Sketch Unit := do
  p.sketchOperands
  pointer.sketchValue
  write (.instruction (.callPointer (callOpcode context) (UInt8.ofNat p.arguments.length)))

/-- A call of an import. -/
def sketchNamedCall (name : String) (p : SketchedCall) (context : Context) : Sketch Unit := do
  let namespaceHash ← match p.namespaceName with
    | some namespaceName => hashName namespaceName
    | none => getNamespace
  let function ← hashName name
  let flags ← callFlags name namespaceHash context
  p.sketchOperands
  writeCall (callOpcode context)
    { function, namespaceHash, params := UInt8.ofNat p.arguments.length, flags }

/-- A call of any sort. -/
def sketchCall (c : Composite) (outer : Context) : Sketch Unit := do
  let p ← sketchedCall c
  let context := p.context outer
  let dropResult : Sketch Unit := do
    if context.has .decTop then writeOp .decTop
  match p.pointer with
  | some pointer =>
      sketchPointerCall p pointer context
      dropResult
  | none =>
      let name := asciiLower (← c.node.text)
      let plain := p.namespaceName.isNone && !context.has .threaded
      if plain && isBuiltinName (← getRevision) name then sketchBuiltinCall name p context
      else
        sketchNamedCall name p context
        dropResult

/-! ## Trees -/

/-- The rule of a kind. -/
def sketchKind (macros : SketchedMacros) (c : Composite) (context : Context) : Kind → Sketch Unit
  | .sequence => c.parts.forM fun part => part.sketch context
  | .ifStatement => sketchIf c false
  | .conditional => sketchIf c true
  | .whileStatement => sketchWhile c
  | .forStatement => sketchFor c
  | .foreachSingle => sketchForeach c false
  | .foreachDouble => sketchForeach c true
  | .switchStatement => sketchSwitch c
  | .jumpStatement => sketchLoopJump c.node
  | .returnStatement => sketchReturn c
  | .wait => sketchUnary .wait c
  | .waitTillFrameEnd => writeOp .waitTillFrameEnd
  | .simpleCall => do (← c.part 0).sketch .decTop
  | .call => sketchCall c context
  | .assignment => sketchAssignment c
  | .shortHandArray => .fail (c.node.malformed "array shorthand outside of an assignment")
  | .identifier => sketchIdentifier macros c.node context
  | .directAccess => sketchField c context
  | .definedAccess => sketchDefinedField c context
  | .element => sketchElement c context
  | .booleanExpression => sketchBoolean c context
  | .boolNot => sketchUnary .boolNot c
  | .size => sketchUnary .sizeOf c
  | .relationalExpression => sketchBinary Code.compareOp? c
  | .expression => sketchBinary Code.mathOp? c
  | .coalesce => sketchCoalesce c
  | .typeComparison => sketchTypeTest c false
  | .typeComparisonInverted => sketchTypeTest c true
  | .castOp => sketchCast c
  | .stringLiteral => do writeString .getString (← c.node.text)
  | .localizedString => do writeString .getIString (← c.node.text)
  | .debugString => sketchDebugString c.node
  | .hashedString => sketchHashed c.node
  | .canonicalHash => sketchCanonicalHash c.node
  | .numberLiteral => sketchNumber c.node
  | .vector => sketchVector c
  | .newArray => writeOp .getEmptyArray
  | .functionPointer => sketchFunctionPointer c

/-- The program of a node by the rule of its kind. -/
def Composite.sketch (macros : SketchedMacros) (c : Composite) (context : Context) : Sketch Unit :=
  match Kind.ofName? c.node.kind with
  | some kind => sketchKind macros c context kind
  | none => .fail (.unsupportedNode c.node.kind)

mutual

/-- A tree with its program. -/
def sketched (macros : SketchedMacros) : Node → Sketched
  | .mk kind text value children =>
      let node := Node.mk kind text value children
      let parts := sketchedAll macros children
      .mk node parts (Composite.sketch macros ⟨node, parts⟩)

/-- Several trees with their programs. -/
def sketchedAll (macros : SketchedMacros) : List Node → List Sketched
  | [] => []
  | n :: rest => sketched macros n :: sketchedAll macros rest

end

/-- The program of a tree in a context. -/
def sketchNode (macros : SketchedMacros) (n : Node) (context : Context) : Sketch Unit :=
  (sketched macros n).sketch context

/-- The macros of a table while some of them are being expanded. -/
def sketchedExpansions (table : MacroTable) :
    (depth : Nat) → (expanding : List String) → SketchedMacros
  | 0, _ => ⟨fun name => (table.lookup name).map fun _ _ => .silent cyclicMacro⟩
  | depth + 1, expanding =>
      ⟨fun name => (table.lookup name).map fun expression context =>
        if name ∈ expanding then .silent cyclicMacro
        else sketchNode (sketchedExpansions table depth (name :: expanding)) expression context⟩

/-- The macros of a table where none is being expanded. -/
def sketchedMacros (table : MacroTable) : SketchedMacros :=
  sketchedExpansions table table.length []

/-- The program of a function's code: the defaults of its parameters, its body, and its end. -/
def sketchBody (macros : SketchedMacros) (parameters : List Node) (body : Node) : Sketch Unit := do
  let defaults ← declareParameters parameters
  collectLocals body
  defaults.forM fun (hash, value) => sketchDefaultParameter hash (sketchNode macros value .plain)
  sketchNode macros body .plain
  writeOp .endFunction

/-- The program of the function of a node, which starts with the declaration of its locals. -/
def sketchFunction (macros : SketchedMacros) (n : Node) (script : Script) :
    Except CompileError Program := do
  let name := asciiLower (← n.text)
  let parameters := ((n.findChild? "parameters").map Node.children).getD []
  match n.findChild? "block" with
  | none => throw (n.malformed "missing function body")
  | some body =>
      requireAtMost "parameters" parameters.length maxParameters
      let (hash, script) ← script.hash name
      let function := ScriptFunction.create script.target name hash script.namespaceHash
        (UInt8.ofNat parameters.length) (exportFlags n)
      let (((), program), _) ← (sketchBody macros parameters body).run { script, function }
      return .sequence (.instruction .locals) program

end GscAssembler.Control

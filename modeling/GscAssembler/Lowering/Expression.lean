import GscAssembler.Code.Builtin
import GscAssembler.Lowering.Control
import GscAssembler.Lowering.Fragment
import GscAssembler.Number.Shortest

/-!
# Expressions

The rules for identifiers, literals, operators and accesses to fields and elements.  In the context
of a reference, an expression leaves what can be assigned to instead of its value.
-/

namespace GscAssembler.Lowering

open Code (BuiltinObject Context Opcode)
open Number (Constant)
open Reference (ImportKey)
open Text (asciiLower)
open SyntaxTree (Node)

/-! ## Import flags -/

/-- The import is used as a value, or starts a thread. -/
def importIsRef : UInt8 := 1
/-- The import is called as a function. -/
def importIsFunction : UInt8 := 2
/-- The import is called as a method. -/
def importIsMethod : UInt8 := 4
/-- The import is a developer function. -/
def importIsDebug : UInt8 := 16
/-- The import may be in the script's own namespace. -/
def importNeedsResolver : UInt8 := 32

/-- The kind of a call on the newer machine. -/
def rev36CallKind (method threaded : Bool) : UInt8 :=
  match method, threaded with
  | false, false => 2
  | false, true => 3
  | true, false => 5
  | true, true => 6

/-- The flags of an import that is called in a context. -/
def callFlags (name : String) (namespaceHash : UInt32) (context : Context) : Lower UInt8 := do
  let script := (← get).script
  let inScript := namespaceHash = script.namespaceHash
  let method := context.has .hasCaller
  let threaded := context.has .threaded
  let kind := match script.target.revision with
    | .legacy =>
        (if method then importIsMethod else importIsFunction) |||
        (if threaded then importIsRef else 0) |||
        (if inScript && script.settings.flagDeveloperCalls && Code.isDeveloperFunction name then
          importIsDebug else 0)
    | .rev36 => rev36CallKind method threaded
  return if inScript then kind ||| importNeedsResolver else kind

/-- The import of an engine function with one parameter, in the script's own namespace. -/
def engineImport (name : String) : Lower ImportKey := do
  let function ← hashName name
  let namespaceHash ← getNamespace
  let flags ← callFlags name namespaceHash .plain
  return { function, namespaceHash, params := 1, flags }

/-- Appends the call of an engine function with one argument. -/
def callEngine (key : ImportKey) (argument : Lower Unit) : Lower Unit := do
  emitOp .preScriptCall
  argument
  emitCall .scriptFunctionCall key

/-! ## Names -/

/-- Appends a push of a builtin object. -/
def emitBuiltin (name : String) (object : BuiltinObject) (isRef : Bool) : Lower Unit := do
  match object with
  | .op code => emitOp code
  | .one => emitNumber (.int 1)
  | .global =>
      let hash ← hashName name
      emitGlobal (if isRef then .getGlobalObjectRef else .getGlobalObject) hash

/-- An identifier stands for a macro, else for a builtin object, else for a local. -/
def lowerIdentifier (macros : Macros) (n : Node) (context : Context) : Lower Unit := do
  let name ← n.text
  match macros.code? (asciiLower name) with
  | some code => code context
  | none =>
      let isRef := context.has .isRef
      match Code.builtinObject? (← getRevision) name isRef with
      | some object => emitBuiltin name object isRef
      | none =>
          let hash ← declaredLocal name
          emitEval hash context

/-- The builtin object that a node names, if it is an identifier and names one. -/
def namedObject? (revision : Revision) (n : Node) (isRef : Bool) :
    Except CompileError (Option (String × BuiltinObject)) :=
  if n.is "identifier" then do
    let name ← n.text
    return (Code.builtinObject? revision name isRef).map fun object => (name, object)
  else return none

/-- Pushes an object, as the base of a field access or the owner of a method. -/
def lowerObject (f : Fragment) (context : Context) : Lower Unit := do
  let isRef := context.has .isRef
  match ← namedObject? (← getRevision) f.node isRef with
  | some (name, object) => emitBuiltin name object isRef
  | none =>
      f.lowerValue
      if isRef then emitOp .castFieldObject

/-! ## Fields and elements -/

/-- The operation that accesses a field in a context. -/
def fieldOpcode (target : Target) (context : Context) : Opcode :=
  if context.has .isRef then .evalFieldVariableRef
  else if target.isLegacy then .evalFieldVariable
  else .castAndEvalFieldVariable

/-- A field of an object. -/
def lowerField (c : Construct) (context : Context) : Lower Unit := do
  let object ← c.part 0
  let field ← hashName (← c.node.text)
  let target ← getTarget
  lowerObject object (if target.isLegacy then context.adding .isRef else context)
  discard (emit (.field (fieldOpcode target context) field))

/-- The variable that holds the object of an access that may be undefined. -/
def definedTemp : String := "$defined"

/-- A field of an object that may be undefined. -/
def lowerDefinedField (c : Construct) (context : Context) : Lower Unit := do
  let object ← c.part 0
  let field ← hashName (← c.node.text)
  let temp ← declare definedTemp
  let code : Opcode :=
    if context.has .isRef then .evalFieldVariableRef else .evalFieldVariable
  definedAccess temp (lowerObject object context) code field

/-- An element of an array.  The index is evaluated first. -/
def lowerElement (c : Construct) (context : Context) : Lower Unit := do
  let index ← c.part 1
  let array ← c.part 0
  index.lowerValue
  array.lower context
  emitOp (if context.has .isRef then .evalArrayRef else .evalArray)

/-! ## Operators -/

/-- A value followed by an operation on it. -/
def lowerUnary (code : Opcode) (c : Construct) : Lower Unit := do
  let operand ← c.part 0
  operand.lowerValue
  emitOp code

/-- Two values followed by an operation on them. -/
def lowerBinary (lookup : String → Option Opcode) (c : Construct) : Lower Unit := do
  let token ← c.node.text
  match lookup token with
  | none => throw (.unknownOperator token)
  | some code =>
      let left ← c.part 0
      let right ← c.part 1
      left.lowerValue
      right.lowerValue
      emitOp code

/-- The jump of a logical connective, and whether its left side is only tested for being defined. -/
def connective? (token : String) : Option (Bool × Opcode) :=
  let (tested, bare) := match token.toList with
    | '?' :: rest => (true, String.ofList rest)
    | _ => (false, token)
  match bare with
  | "&&" | "and" => some (tested, .jumpOnFalseExpr)
  | "||" | "or" => some (tested, .jumpOnTrueExpr)
  | _ => none

/-- A logical expression.  With one part it is that part, and without any it is nothing. -/
def lowerBoolean (c : Construct) (context : Context) : Lower Unit := do
  match c.parts with
  | [] => return
  | [only] => only.lower context
  | left :: right :: _ =>
      let token ← c.node.text
      match connective? token with
      | none => throw (.unknownOperator token)
      | some (tested, code) =>
          let leftSide := do
            left.lowerValue
            if tested then emitOp .isDefined
          shortCircuit leftSide code right.lowerValue

/-- The variable that holds the left side of a coalescing operator. -/
def coalesceTemp : String := "$coalesce"

/-- The left value if it is defined, else the right one. -/
def lowerCoalesce (c : Construct) : Lower Unit := do
  let temp ← declare coalesceTemp
  let left ← c.part 0
  let right ← c.part 1
  coalesce temp left.lowerValue right.lowerValue

/-- A test of a value's type. -/
def lowerTypeTest (c : Construct) (inverted : Bool) : Lower Unit := do
  let operand ← c.part 0
  let type := asciiLower (← c.node.text)
  match type with
  | "true" | "false" =>
      operand.lowerValue
      emitNumber (.int (if type = "true" then 1 else 0))
      emitOp .superEqual
  | "defined" =>
      operand.lowerValue
      emitOp .isDefined
  | "undefined" =>
      operand.lowerValue
      emitOp .isDefined
      emitOp .boolNot
  | "float" | "functionptr" | "string" | "array" | "vec" | "int" =>
      let key ← engineImport ("is" ++ type)
      callEngine key operand.lowerValue
  | _ => throw (.unknownOperator ("is " ++ type))
  if inverted then emitOp .boolNot

/-- A conversion of a value, which is a call of the function of that name. -/
def lowerCast (c : Construct) : Lower Unit := do
  let type := asciiLower (← c.node.text)
  match type with
  | "int" | "float" | "istring" =>
      let key ← engineImport type
      let operand ← c.part 0
      callEngine key operand.lowerValue
  | _ => throw (.unknownOperator ("as " ++ type))

/-! ## Literals -/

/-- A developer string, which is an ordinary string on the newer machine. -/
def lowerDebugString (n : Node) : Lower Unit := do
  match ← getRevision with
  | .legacy =>
      let hash ← hashName (← n.text)
      emitDebugString hash
  | .rev36 => emitString .getString (← n.text)

/-- A hash value written in hexadecimal. -/
def lowerHashed (n : Node) : Lower Unit := do
  let token ← n.text
  match Name.hashToken? (← getRevision) token with
  | some value => discard (emit (.hash value))
  | none => throw (.badHash token)

/-- The hash of a text. -/
def lowerCanonicalHash (n : Node) : Lower Unit := do
  let value ← hashName64 (← n.text)
  discard (emit (.hash value))

/-- The constant of a number node: its number, or else its text read as one. -/
def numberConstant (n : Node) : Except CompileError Constant :=
  match n.value?, n.text? with
  | some (.int value), _ => .ok (.int value)
  | some (.double bits), _ =>
      match Number.narrow bits with
      | some single => .ok (.float single)
      | none => .error (.badNumber (Number.doubleText bits))
  | none, some token =>
      match Number.readToken? token with
      | some value => .ok value
      | none => .error (.badNumber token)
  | none, none => .error (n.malformed "missing number value")

/-- A number. -/
def lowerNumber (n : Node) : Lower Unit := do
  let value ← numberConstant n
  emitNumber value

/-- A vector, whose last component is evaluated first. -/
def lowerVector (c : Construct) : Lower Unit := do
  let x ← c.part 0
  let y ← c.part 1
  let z ← c.part 2
  z.lowerValue
  y.lowerValue
  x.lowerValue
  emitOp .vector

/-- A pointer to a function, in the script's namespace unless another is named. -/
def lowerFunctionPointer (c : Construct) : Lower Unit := do
  let function ← hashName (← c.node.text)
  let own ← getNamespace
  let namespaceHash ← match c.findPart? "namespace" with
    | some part => do hashName (← part.node.text)
    | none => pure own
  let flags := if namespaceHash = own then importIsRef ||| importNeedsResolver else importIsRef
  let code : Opcode := if ← isLegacy then .getFunction else .getApiFunction
  emitFunctionPointer code { function, namespaceHash, params := 0, flags }

end GscAssembler.Lowering

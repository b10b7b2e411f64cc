import GscAssembler.Lowering.Expression

/-!
# Calls

A call names a function or goes through a pointer; it may be a method of an object and may start a
thread.  Builtin functions and event methods have operations of their own and are no imports.
Arguments are evaluated last to first.
-/

namespace GscAssembler.Lowering

open Code (Context Opcode)
open Reference (ImportKey)
open Text (asciiLower)

/-- The most parameters of a function or call. -/
def maxParameters : Nat := 255

/-- The operation of a call in a context. -/
def callOpcode (context : Context) : Opcode :=
  match context.has .hasCaller, context.has .threaded, context.has .isPointer with
  | true, true, false => .scriptMethodThreadCall
  | true, false, false => .scriptMethodCall
  | false, true, false => .scriptThreadCall
  | false, false, false => .scriptFunctionCall
  | true, true, true => .scriptMethodThreadCallPointer
  | true, false, true => .scriptMethodCallPointer
  | false, true, true => .scriptThreadCallPointer
  | false, false, true => .scriptFunctionCallPointer

/-- The parts of a call. -/
structure CallParts where
  /-- The arguments. -/
  arguments : List Fragment
  /-- The object of a method. -/
  caller : Option Fragment
  /-- The function pointer of a call through one. -/
  pointer : Option Fragment
  /-- The namespace of the function, if it is named. -/
  namespaceName : Option String
  /-- Whether the call starts a thread. -/
  threaded : Bool

/-- The first part of the part of a kind, if there is such a part. -/
def innerPart? (c : Construct) (kind : String) : Except CompileError (Option Fragment) :=
  match c.findPart? kind with
  | some part => do return some (← part.construct.part 0)
  | none => return none

/-- Takes a call apart. -/
def callParts (c : Construct) : Except CompileError CallParts := do
  let arguments := ((c.findPart? "arguments").map Fragment.parts).getD []
  let caller ← innerPart? c "caller"
  let pointer ← innerPart? c "pointer"
  let namespaceName ← match c.findPart? "namespace" with
    | some part => do pure (some (← part.node.text))
    | none => pure none
  requireAtMost "call parameters" arguments.length maxParameters
  return { arguments, caller, pointer, namespaceName, threaded := (c.findPart? "thread").isSome }

/-- The context of a call, with what its parts say about it. -/
def CallParts.context (p : CallParts) (outer : Context) : Context :=
  let withCaller := if p.caller.isSome then outer.adding .hasCaller else outer
  let withThread := if p.threaded then withCaller.adding .threaded else withCaller
  if p.pointer.isSome then withThread.adding .isPointer else withThread

/-- Emits the arguments, the last first. -/
def CallParts.lowerArguments (p : CallParts) : Lower Unit :=
  lowerValues p.arguments.reverse

/-- An event method of an object. -/
def lowerNotifier (code : Opcode) (p : CallParts) (caller : Fragment) (context : Context) :
    Lower Unit := do
  match ← getRevision, code with
  | .legacy, .waitTill =>
      match p.arguments with
      | [] => throw (.malformedNode "call" "waittill without an event")
      | event :: bound =>
          event.lowerValue
          lowerObject caller .plain
          emitOp code
          bound.forM fun f => f.lower .waittill
          emitOp .clearParams
  | _, .notify =>
      emitOp .preScriptCall
      p.lowerArguments
      lowerObject caller .plain
      emitOp code
  | .legacy, _ =>
      p.lowerArguments
      lowerObject caller .plain
      emitOp code
  | .rev36, _ =>
      p.lowerArguments
      lowerObject caller .plain
      discard (emit (.notification code (UInt8.ofNat p.arguments.length)))
      let awaits := code = .waitTill || code = .waitTillMatch || code = .waittillTimeout
      if awaits && context.has .decTop then emitOp .decTop

/-- A call of a builtin name: an event method if it has an object, else a builtin function. -/
def lowerBuiltinCall (name : String) (p : CallParts) (context : Context) : Lower Unit := do
  let revision ← getRevision
  match p.caller with
  | none =>
      match Code.builtinCall? revision name with
      | none => throw (.unknownBuiltin name)
      | some code =>
          p.lowerArguments
          emitOp code
  | some caller =>
      match Code.notifier? revision name with
      | none => throw (.unknownBuiltin name)
      | some code => lowerNotifier code p caller context

/-- Emits what a call pushes before its operation: the arguments and the object. -/
def CallParts.lowerOperands (p : CallParts) : Lower Unit := do
  emitOp .preScriptCall
  p.lowerArguments
  p.caller.forM Fragment.lowerValue

/-- A call through a function pointer. -/
def lowerPointerCall (p : CallParts) (pointer : Fragment) (context : Context) : Lower Unit := do
  p.lowerOperands
  pointer.lowerValue
  discard (emit (.callPointer (callOpcode context) (UInt8.ofNat p.arguments.length)))

/-- A call of an import. -/
def lowerNamedCall (name : String) (p : CallParts) (context : Context) : Lower Unit := do
  let namespaceHash ← match p.namespaceName with
    | some namespaceName => hashName namespaceName
    | none => getNamespace
  let function ← hashName name
  let flags ← callFlags name namespaceHash context
  p.lowerOperands
  emitCall (callOpcode context)
    { function, namespaceHash, params := UInt8.ofNat p.arguments.length, flags }

/-- Whether a name is that of a builtin function or an event method. -/
def isBuiltinName (revision : Revision) (name : String) : Bool :=
  (Code.builtinCall? revision name).isSome || (Code.notifier? revision name).isSome

/-- A call of any sort. -/
def lowerCall (c : Construct) (outer : Context) : Lower Unit := do
  let p ← callParts c
  let context := p.context outer
  let dropResult : Lower Unit := do
    if context.has .decTop then emitOp .decTop
  match p.pointer with
  | some pointer =>
      lowerPointerCall p pointer context
      dropResult
  | none =>
      let name := asciiLower (← c.node.text)
      let plain := p.namespaceName.isNone && !context.has .threaded
      if plain && isBuiltinName (← getRevision) name then lowerBuiltinCall name p context
      else
        lowerNamedCall name p context
        dropResult

end GscAssembler.Lowering

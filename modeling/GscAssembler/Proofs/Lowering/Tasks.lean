import GscAssembler.Proofs.Lowering.Macros

/-!
# Lowering by a stack of tasks

A tree can also be lowered without recursion.  A machine keeps a stack of pending tasks.  It takes the
topmost one, emits what code it can, and puts tasks for the parts back: a node stands for its code,
and a continuation for the rest of a construct whose first parts have been lowered.  The machine also
keeps the macros that are being expanded.

Positions in lists are looked up as they come: where a list has no such position, the machine stops
with a fault of its own and not with an error of the tree.
-/

namespace GscAssembler.Lowering

open Code (Context ForeachLocals Key Opcode)
open Reference (ImportKey)
open SyntaxTree (Node)
open Text (asciiLower)

variable {α : Type}

/-! ## Tasks -/

/-- The rest of a construct whose first parts have been lowered. -/
inductive Continuation where
  /-- Emits an operation. -/
  | op (code : Opcode)
  /-- Emits a number. -/
  | number (value : Int)
  /-- Assigns to a local. -/
  | store (hash : UInt32)
  /-- Accesses a field. -/
  | field (code : Opcode) (hash : UInt32)
  /-- Pushes an object, as the base of a field access or the owner of a method. -/
  | object (n : Node) (context : Context)
  /-- Calls an import. -/
  | call (code : Opcode) (key : ImportKey)
  /-- Calls through a function pointer. -/
  | callPointer (code : Opcode) (params : UInt8)
  /-- Calls an event method. -/
  | notification (code : Opcode) (params : UInt8)
  /-- Lets a jump land on whatever is emitted next. -/
  | land (jump : Key)
  /-- Goes on behind the condition of a branch. -/
  | branch (body : Node) (otherwise : Option Node)
  /-- Goes on behind the first side of a branch. -/
  | otherwise (skip : Key) (n : Node)
  /-- Goes on behind the left side of a logical connective. -/
  | shortCircuit (code : Opcode) (right : Node)
  /-- Goes on behind the object of an access that may be undefined. -/
  | definedAccess (temp field : UInt32) (context : Context)
  /-- Goes on behind the left side of a coalescing operator. -/
  | coalesce (temp : UInt32) (right : Node)
  /-- Gives a parameter its default. -/
  | defaultParameter (hash : UInt32) (value : Node)
  /-- Goes on behind the condition of a loop. -/
  | whileBody (header : Key) (body : Node)
  /-- Goes on behind the start of a counting loop. -/
  | forHeader (condition step body : Node)
  /-- Goes on behind the condition of a counting loop. -/
  | forBody (header : Key) (tested : Bool) (step body : Node)
  /-- Goes on behind the body of a counting loop. -/
  | forStep (header : Key) (exit : Option Key) (step : Node)
  /-- Goes on behind the array of a loop over one. -/
  | foreachBody (locals : ForeachLocals) (key value : UInt32) (body : Node)
  /-- Goes on behind the body of a loop over an array. -/
  | foreachStep (locals : ForeachLocals) (key : UInt32) (header exit : Key)
  /-- Jumps back to the start of a loop and closes it. -/
  | closeLoop (header : Key) (exit : Option Key) (continueAt : Key)
  /-- Goes on behind the value of a switch. -/
  | switchStore (key : UInt32) (branches : List Node)
  /-- Goes on with a branch of a switch. -/
  | switchCase (key : UInt32) (branches : List Node) (position : Nat) (falling : List Key)
  /-- Goes on behind the value of a branch. -/
  | switchTest (key : UInt32) (branches : List Node) (position : Nat) (falling : List Key)
  /-- Closes a switch. -/
  | switchEnd

/-- A unit of pending work. -/
inductive Task where
  /-- Lowers a node in a context. -/
  | node (n : Node) (context : Context)
  /-- Goes on with a construct. -/
  | resume (k : Continuation)
  /-- Ends the expansion of a macro. -/
  | endMacro

/-- Tasks for the values of several nodes. -/
def Task.values (nodes : List Node) : List Task :=
  nodes.map (.node · .plain)

/-! ## What can go wrong -/

/-- Why the machine stops early. -/
inductive Fault where
  /-- The tree cannot be lowered. -/
  | error (e : CompileError)
  /-- A position was looked up that a list does not have. -/
  | outOfRange
  deriving DecidableEq

/-- A step of the machine: like a piece of lowering, but it may also look up a wrong position. -/
abbrev Attempt := StateT State (Except Fault)

/-- A piece of lowering as a step of the machine. -/
def perform (x : Lower α) : Attempt α := fun s =>
  (x s).mapError .error

instance : MonadLift Lower Attempt := ⟨perform⟩

/-- The items of a list from a position on, which must not lie behind its end. -/
def suffixFrom (items : List α) (position : Nat) : Attempt (List α) :=
  if position ≤ items.length then return items.drop position else throw .outOfRange

/-- The item of a list at a position, which must be there. -/
def itemAt (items : List α) (position : Nat) : Attempt α :=
  match items[position]? with
  | some item => return item
  | none => throw .outOfRange

/-! ## The tasks of a call -/

/-- The nodes of a call. -/
structure CallNodes where
  /-- The arguments. -/
  arguments : List Node
  /-- The object of a method. -/
  caller : Option Node
  /-- The function pointer of a call through one. -/
  pointer : Option Node
  /-- The namespace of the function, if it is named. -/
  namespaceName : Option String
  /-- Whether the call starts a thread. -/
  threaded : Bool

/-- The first child of the child of a kind, if there is such a child. -/
def innerChild? (n : Node) (kind : String) : Except CompileError (Option Node) :=
  match n.findChild? kind with
  | some child => do return some (← child.child 0)
  | none => return none

/-- Takes a call apart. -/
def callNodes (n : Node) : Except CompileError CallNodes := do
  let arguments := ((n.findChild? "arguments").map Node.children).getD []
  let caller ← innerChild? n "caller"
  let pointer ← innerChild? n "pointer"
  let namespaceName ← match n.findChild? "namespace" with
    | some child => do pure (some (← child.text))
    | none => pure none
  requireAtMost "call parameters" arguments.length maxParameters
  return { arguments, caller, pointer, namespaceName, threaded := (n.findChild? "thread").isSome }

namespace CallNodes

/-- The context of a call, with what its nodes say about it. -/
def context (p : CallNodes) (outer : Context) : Context :=
  let withCaller := if p.caller.isSome then outer.adding .hasCaller else outer
  let withThread := if p.threaded then withCaller.adding .threaded else withCaller
  if p.pointer.isSome then withThread.adding .isPointer else withThread

/-- The number of parameters. -/
def params (p : CallNodes) : UInt8 :=
  UInt8.ofNat p.arguments.length

/-- Tasks for the arguments, the last first. -/
def reversed (p : CallNodes) : List Task :=
  Task.values p.arguments.reverse

/-- Tasks for what a call pushes before its operation. -/
def operands (p : CallNodes) : List Task :=
  .resume (.op .preScriptCall) :: p.reversed ++ Task.values p.caller.toList

end CallNodes

/-- The tasks of an event method. -/
def planNotifier (code : Opcode) (p : CallNodes) (caller : Node) (context : Context) :
    Attempt (List Task) := do
  match ← getRevision, code with
  | .legacy, .waitTill =>
      match p.arguments with
      | [] => throw (.error (.malformedNode "call" "waittill without an event"))
      | event :: bound =>
          return .node event .plain :: .resume (.object caller .plain) :: .resume (.op code) ::
            (bound.map (Task.node · .waittill) ++ [Task.resume (.op .clearParams)])
  | _, .notify =>
      return .resume (.op .preScriptCall) ::
        (p.reversed ++ [Task.resume (.object caller .plain), .resume (.op code)])
  | .legacy, _ =>
      return p.reversed ++ [Task.resume (.object caller .plain), .resume (.op code)]
  | .rev36, _ =>
      let awaits := code = .waitTill || code = .waitTillMatch || code = .waittillTimeout
      let drop := if awaits && context.has .decTop then [Task.resume (.op .decTop)] else []
      return p.reversed ++
        Task.resume (.object caller .plain) :: .resume (.notification code p.params) :: drop

/-- The tasks of a call of a builtin name. -/
def planBuiltinCall (name : String) (p : CallNodes) (context : Context) :
    Attempt (List Task) := do
  let revision ← getRevision
  match p.caller with
  | none =>
      match Code.builtinCall? revision name with
      | none => throw (.error (.unknownBuiltin name))
      | some code => return p.reversed ++ [.resume (.op code)]
  | some caller =>
      match Code.notifier? revision name with
      | none => throw (.error (.unknownBuiltin name))
      | some code => planNotifier code p caller context

/-- Tasks that drop the result of a call where it is not used. -/
def dropTasks (context : Context) : List Task :=
  if context.has .decTop then [.resume (.op .decTop)] else []

/-- The tasks of a call of an import. -/
def planNamedCall (name : String) (p : CallNodes) (context : Context) : Attempt (List Task) := do
  let namespaceHash ← match p.namespaceName with
    | some namespaceName => hashName namespaceName
    | none => getNamespace
  let function ← hashName name
  let flags ← callFlags name namespaceHash context
  let key := { function, namespaceHash, params := p.params, flags }
  return p.operands ++ [.resume (.call (callOpcode context) key)] ++ dropTasks context

/-- The tasks of a call that was taken apart. -/
def planCallOf (n : Node) (p : CallNodes) (context : Context) : Attempt (List Task) :=
  match p.pointer with
  | some pointer =>
      return p.operands ++
        [.node pointer .plain, .resume (.callPointer (callOpcode context) p.params)] ++
        dropTasks context
  | none => do
      let name := asciiLower (← n.text)
      let plain := p.namespaceName.isNone && !context.has .threaded
      if plain && isBuiltinName (← getRevision) name then planBuiltinCall name p context
      else planNamedCall name p context

/-- The tasks of a call of any sort. -/
def planCall (n : Node) (outer : Context) : Attempt (List Task) := do
  let p ← callNodes n
  planCallOf n p (p.context outer)

/-! ## The tasks of expressions -/

/-- Pushes a builtin object or a local, for a name that is no macro's. -/
def planName (n : Node) (context : Context) : Attempt (List Task) := do
  let name ← n.text
  let isRef := context.has .isRef
  match Code.builtinObject? (← getRevision) name isRef with
  | some object => emitBuiltin name object isRef
  | none => emitEval (← declaredLocal name) context
  return []

/-- The tasks of a field access. -/
def planField (n : Node) (context : Context) : Attempt (List Task) := do
  let object ← n.child 0
  let field ← hashName (← n.text)
  let target ← getTarget
  let inner := if target.isLegacy then context.adding .isRef else context
  return [.resume (.object object inner), .resume (.field (fieldOpcode target context) field)]

/-- The tasks of a field access whose object may be undefined. -/
def planDefinedField (n : Node) (context : Context) : Attempt (List Task) := do
  let object ← n.child 0
  let field ← hashName (← n.text)
  let temp ← declare definedTemp
  return [.resume (.object object context), .resume (.definedAccess temp field context)]

/-- The tasks of an access to an element. -/
def planElement (n : Node) (context : Context) : Attempt (List Task) := do
  let index ← n.child 1
  let array ← n.child 0
  let code : Opcode := if context.has .isRef then .evalArrayRef else .evalArray
  return [.node index .plain, .node array context, .resume (.op code)]

/-- The tasks of an operation on one value. -/
def planUnary (code : Opcode) (n : Node) : Attempt (List Task) := do
  let operand ← n.child 0
  return [.node operand .plain, .resume (.op code)]

/-- The tasks of an operation on two values. -/
def planBinary (lookup : String → Option Opcode) (n : Node) : Attempt (List Task) := do
  let token ← n.text
  match lookup token with
  | none => throw (.error (.unknownOperator token))
  | some code =>
      let left ← n.child 0
      let right ← n.child 1
      return [.node left .plain, .node right .plain, .resume (.op code)]

/-- The tasks of a logical expression. -/
def planBoolean (n : Node) (context : Context) : Attempt (List Task) := do
  match n.children with
  | [] => return []
  | [only] => return [.node only context]
  | left :: right :: _ =>
      let token ← n.text
      match connective? token with
      | none => throw (.error (.unknownOperator token))
      | some (tested, code) =>
          let test := if tested then [Task.resume (.op .isDefined)] else []
          return .node left .plain :: test ++ [.resume (.shortCircuit code right)]

/-- The tasks of a coalescing operator. -/
def planCoalesce (n : Node) : Attempt (List Task) := do
  let temp ← declare coalesceTemp
  let left ← n.child 0
  let right ← n.child 1
  return [.node left .plain, .resume (.coalesce temp right)]

/-- The tasks of a call of an engine function with one argument. -/
def engineTasks (key : ImportKey) (argument : Node) : List Task :=
  [.resume (.op .preScriptCall), .node argument .plain, .resume (.call .scriptFunctionCall key)]

/-- The tasks of a test of a value's type. -/
def planTypeTest (n : Node) (inverted : Bool) : Attempt (List Task) := do
  let operand ← n.child 0
  let type := asciiLower (← n.text)
  let negation := if inverted then [Task.resume (.op .boolNot)] else []
  match type with
  | "true" | "false" =>
      return .node operand .plain :: .resume (.number (if type = "true" then 1 else 0)) ::
        .resume (.op .superEqual) :: negation
  | "defined" => return .node operand .plain :: .resume (.op .isDefined) :: negation
  | "undefined" =>
      return .node operand .plain :: .resume (.op .isDefined) :: .resume (.op .boolNot) :: negation
  | "float" | "functionptr" | "string" | "array" | "vec" | "int" =>
      let key ← engineImport ("is" ++ type)
      return engineTasks key operand ++ negation
  | _ => throw (.error (.unknownOperator ("is " ++ type)))

/-- The tasks of a conversion. -/
def planCast (n : Node) : Attempt (List Task) := do
  let type := asciiLower (← n.text)
  match type with
  | "int" | "float" | "istring" =>
      let key ← engineImport type
      let operand ← n.child 0
      return engineTasks key operand
  | _ => throw (.error (.unknownOperator ("as " ++ type)))

/-- The tasks of a vector. -/
def planVector (n : Node) : Attempt (List Task) := do
  let x ← n.child 0
  let y ← n.child 1
  let z ← n.child 2
  return [.node z .plain, .node y .plain, .node x .plain, .resume (.op .vector)]

/-- Pushes a pointer to a function. -/
def planFunctionPointer (n : Node) : Attempt (List Task) := do
  let function ← hashName (← n.text)
  let own ← getNamespace
  let namespaceHash ← match n.findChild? "namespace" with
    | some child => do hashName (← child.text)
    | none => pure own
  let flags := if namespaceHash = own then importIsRef ||| importNeedsResolver else importIsRef
  let code : Opcode := if ← isLegacy then .getFunction else .getApiFunction
  emitFunctionPointer code { function, namespaceHash, params := 0, flags }
  return []

/-! ## The tasks of statements -/

/-- The tasks of a branch. -/
def planIf (n : Node) (needsElse : Bool) : Attempt (List Task) := do
  let otherwise := n.children[2]?
  if needsElse && otherwise.isNone then throw (.error (n.malformed "missing else branch"))
  let condition ← n.child 0
  let body ← n.child 1
  return [.node condition .plain, .resume (.branch body otherwise)]

/-- The tasks of a loop that tests before each round. -/
def planWhile (n : Node) : Attempt (List Task) := do
  let condition ← n.child 0
  let body ← n.child 1
  enterLoop
  let header ← lastKey
  return [.node condition .plain, .resume (.whileBody header body)]

/-- The tasks of a counting loop. -/
def planFor (n : Node) : Attempt (List Task) := do
  let start ← n.child 0
  let condition ← n.child 1
  let step ← n.child 2
  let body ← n.child 3
  enterLoop
  return [.node start .plain, .resume (.forHeader condition step body)]

/-- The tasks of a loop over an array. -/
def planForeach (n : Node) (withKey : Bool) : Attempt (List Task) := do
  let locals ← updateFunction fun function => function.popForeachLocals
  let offset := if withKey then 1 else 0
  let key ← if withKey then namedLocal (← n.child 0) else pure locals.key
  let value ← namedLocal (← n.child offset)
  let collection ← n.child (offset + 1)
  let body ← n.child (offset + 2)
  return [.node collection .plain, .resume (.foreachBody locals key value body)]

/-- The first default branch moved behind all others. -/
def defaultNodeLast (branches : List Node) : List Node :=
  match branches.findIdx? (·.is "default") with
  | none => branches
  | some position => branches.eraseIdx position ++ branches[position]?.toList

/-- The tasks of a switch. -/
def planSwitch (n : Node) : Attempt (List Task) := do
  let key ← updateFunction fun function => function.popSwitchKey
  let value ← n.child 0
  let branches ← suffixFrom n.children 1
  match branches.find? fun b => !b.is "case" && !b.is "default" with
  | some other => throw (.error (.unsupportedNode other.kind))
  | none =>
      enterLoop
      return [.node value .plain, .resume (.switchStore key (defaultNodeLast branches))]

/-- The tasks of a return. -/
def planReturn (n : Node) : Attempt (List Task) := do
  match n.children with
  | [] =>
      emitOp .endFunction
      return []
  | value :: _ => return [.node value .plain, .resume (.op .returnValue)]

/-- Tasks that assign the stack's top to a target. -/
def assignTasks (target : Node) : List Task :=
  [.node target .isRef, .resume (.op .setVariableField)]

/-- Tasks that assign the elements of an array one by one, from a position on. -/
def elementTasks (target : Node) : (position : Nat) → List Node → List Task
  | _, [] => []
  | position, element :: rest =>
      [.node element .plain, .resume (.number position), .node target .isRef,
        .resume (.op .evalArrayRef), .resume (.op .setVariableField)] ++
      elementTasks target (position + 1) rest

/-- The tasks of an assignment by any operator. -/
def planAssignment (n : Node) : Attempt (List Task) := do
  let token ← n.text
  let target ← n.child 0
  match token with
  | "++" => return [.node target .isRef, .resume (.op .inc)]
  | "--" => return [.node target .isRef, .resume (.op .dec)]
  | "=" =>
      let value ← n.child 1
      if value.is "shortHandArray" then
        return .resume (.op .getEmptyArray) :: assignTasks target ++
          elementTasks target 0 value.children
      else return .node value .plain :: assignTasks target
  | "??=" =>
      let temp ← declare coalesceTemp
      let value ← n.child 1
      return .node target .plain :: .resume (.coalesce temp value) :: assignTasks target
  | _ =>
      match compoundOp? token with
      | none => throw (.error (.unknownOperator token))
      | some code =>
          let value ← n.child 1
          return .node target .plain :: .node value .plain :: .resume (.op code) ::
            assignTasks target

/-! ## Steps -/

/-- Begins with a node of a kind that names no macro: emits what comes first, and plans the rest. -/
def Kind.plan (n : Node) (context : Context) : Kind → Attempt (List Task)
  | .sequence => return n.children.map (.node · context)
  | .ifStatement => planIf n false
  | .conditional => planIf n true
  | .whileStatement => planWhile n
  | .forStatement => planFor n
  | .foreachSingle => planForeach n false
  | .foreachDouble => planForeach n true
  | .switchStatement => planSwitch n
  | .jumpStatement => do
      lowerLoopJump n
      return []
  | .returnStatement => planReturn n
  | .wait => planUnary .wait n
  | .waitTillFrameEnd => do
      emitOp .waitTillFrameEnd
      return []
  | .simpleCall => do return [.node (← n.child 0) .decTop]
  | .call => planCall n context
  | .assignment => planAssignment n
  | .shortHandArray => throw (.error (n.malformed "array shorthand outside of an assignment"))
  | .identifier => planName n context
  | .directAccess => planField n context
  | .definedAccess => planDefinedField n context
  | .element => planElement n context
  | .booleanExpression => planBoolean n context
  | .boolNot => planUnary .boolNot n
  | .size => planUnary .sizeOf n
  | .relationalExpression => planBinary Code.compareOp? n
  | .expression => planBinary Code.mathOp? n
  | .coalesce => planCoalesce n
  | .typeComparison => planTypeTest n false
  | .typeComparisonInverted => planTypeTest n true
  | .castOp => planCast n
  | .stringLiteral => do
      emitString .getString (← n.text)
      return []
  | .localizedString => do
      emitString .getIString (← n.text)
      return []
  | .debugString => do
      lowerDebugString n
      return []
  | .hashedString => do
      lowerHashed n
      return []
  | .canonicalHash => do
      lowerCanonicalHash n
      return []
  | .numberLiteral => do
      lowerNumber n
      return []
  | .vector => planVector n
  | .newArray => do
      emitOp .getEmptyArray
      return []
  | .functionPointer => planFunctionPointer n

/-- Begins with a node that names no macro. -/
def planNode (n : Node) (context : Context) : Attempt (List Task) :=
  match Kind.ofName? n.kind with
  | some kind => kind.plan n context
  | none => throw (.error (.unsupportedNode n.kind))

/-- Emits what a loop over an array does before its body, and yields the start of its rounds and the
jump that leaves it. -/
def openForeach (legacy : Bool) (locals : ForeachLocals) (key value : UInt32) :
    Lower (Key × Key) := do
  emitStore locals.array
  if legacy then
    emitEval locals.array .plain
    emitOp .firstArrayKey
  else discard (emit (.localVariable .firstArrayKeyCached locals.array))
  emitStore key
  enterLoop
  let header ← lastKey
  emitIsDefined key
  let exit ← emitJump .jumpOnFalse
  emitEval key .plain
  emitEval locals.array .plain
  emitOp .evalArray
  emitStore value
  unless legacy do
    emitEval key .plain
    emitEval locals.array .plain
    discard (emit (.localVariable .setNextArrayKeyCached locals.nextKey))
  return (header, exit)

/-- Emits what a loop over an array does behind its body. -/
def closeForeach (legacy : Bool) (locals : ForeachLocals) (key : UInt32)
    (header exit continueAt : Key) : Lower Unit := do
  if legacy then
    emitEval key .plain
    emitEval locals.array .plain
    emitOp .nextArrayKey
  else emitEval locals.nextKey .plain
  emitStore key
  closeLoop header (some exit) continueAt

/-- Emits what a coalescing operator does behind its left side, and yields the jump over the right. -/
def keepDefined (temp : UInt32) : Lower Key := do
  emitStore temp
  emitEval temp .plain
  emitOp .isDefined
  let undefined ← emitJump .jumpOnFalse
  emitEval temp .plain
  let done ← emitJump .jump
  setTarget undefined done
  return done

/-- Lets several jumps land on whatever is emitted next. -/
def landAll (jumps : List Key) : Lower Unit :=
  jumps.forM land

/-- Goes on with a construct: emits what comes next, and plans the rest. -/
def planRest : Continuation → Attempt (List Task)
  | .op code => do
      emitOp code
      return []
  | .number value => do
      emitNumber (.int value)
      return []
  | .store hash => do
      emitStore hash
      return []
  | .field code hash => do
      discard (emit (.field code hash))
      return []
  | .object n context => do
      let isRef := context.has .isRef
      match ← namedObject? (← getRevision) n isRef with
      | some (name, object) =>
          emitBuiltin name object isRef
          return []
      | none =>
          let cast := if isRef then [Task.resume (.op .castFieldObject)] else []
          return .node n .plain :: cast
  | .call code key => do
      emitCall code key
      return []
  | .callPointer code params => do
      discard (emit (.callPointer code params))
      return []
  | .notification code params => do
      discard (emit (.notification code params))
      return []
  | .land jump => do
      land jump
      return []
  | .branch body otherwise => do
      let skip ← emitJump .jumpOnFalse
      match otherwise with
      | some otherwise => return [.node body .plain, .resume (.otherwise skip otherwise)]
      | none => return [.node body .plain, .resume (.land skip)]
  | .otherwise skip n => do
      let done ← emitJump .jump
      setTarget skip done
      return [.node n .plain, .resume (.land done)]
  | .shortCircuit code right => do
      let decided ← emitJump code
      let cast := if ← isLegacy then [] else [Task.resume (.op .castBool)]
      return .node right .plain :: cast ++ [.resume (.land decided)]
  | .definedAccess temp field context => do
      let code : Opcode :=
        if context.has .isRef then .evalFieldVariableRef else .evalFieldVariable
      definedAccess temp (pure ()) code field
      return []
  | .coalesce temp right => do
      let done ← keepDefined temp
      return [.node right .plain, .resume (.land done)]
  | .defaultParameter hash value => do
      emitIsDefined hash
      let given ← emitJump .jumpOnTrue
      return [.node value .plain, .resume (.store hash), .resume (.land given)]
  | .whileBody header body => do
      let exit ← emitJump .jumpOnFalse
      return [.node body .plain, .resume (.closeLoop header (some exit) header)]
  | .forHeader condition step body => do
      let header ← lastKey
      if condition.is "empty" then return [.resume (.forBody header false step body)]
      else return [.node condition .plain, .resume (.forBody header true step body)]
  | .forBody header tested step body => do
      let exit ← if tested then some <$> emitJump .jumpOnFalse else pure none
      return [.node body .plain, .resume (.forStep header exit step)]
  | .forStep header exit step => do
      let continueAt ← lastKey
      return [.node step .plain, .resume (.closeLoop header exit continueAt)]
  | .foreachBody locals key value body => do
      let legacy ← isLegacy
      let ends ← openForeach legacy locals key value
      return [.node body .plain, .resume (.foreachStep locals key ends.1 ends.2)]
  | .foreachStep locals key header exit => do
      let continueAt ← lastKey
      let legacy ← isLegacy
      closeForeach legacy locals key header exit continueAt
      return []
  | .closeLoop header exit continueAt => do
      closeLoop header exit continueAt
      return []
  | .switchStore key branches => do
      emitStore key
      return [.resume (.switchCase key branches 0 [])]
  | .switchCase key branches position falling =>
      match branches[position]? with
      | none => do
          landAll falling
          closeSwitch
          return []
      | some branch =>
          if branch.is "default" then do
            landAll falling
            return Task.values branch.children ++ [.resume .switchEnd]
          else do
            let value ← branch.child 0
            return [.node value .plain, .resume (.switchTest key branches position falling)]
  | .switchTest key branches position falling => do
      let branch ← itemAt branches position
      emitEval key .plain
      emitOp .equal
      if 1 < branch.children.length then
        let skip ← emitJump .jumpOnFalse
        landAll falling
        let body ← suffixFrom branch.children 1
        return Task.values body ++
          [.resume (.land skip), .resume (.switchCase key branches (position + 1) [])]
      else
        let taken ← emitJump .jumpOnTrue
        return [.resume (.switchCase key branches (position + 1) (falling ++ [taken]))]
  | .switchEnd => do
      closeSwitch
      return []

/-- The macro that a node names, with its expression. -/
def MacroTable.named? (table : MacroTable) (n : Node) : Option (String × Node) :=
  if n.is "identifier" then
    n.text?.bind fun text => (table.lookup (asciiLower text)).map (asciiLower text, ·)
  else none

/-- Takes on a task: yields the tasks to be done next, and the macros that are being expanded. -/
def Task.start (table : MacroTable) (expanding : List String) :
    Task → Attempt (List Task × List String)
  | .node n context =>
      match table.named? n with
      | some (name, expression) =>
          if name ∈ expanding then throw (.error cyclicError)
          else return ([.node expression context, .endMacro], name :: expanding)
      | none => do return (← planNode n context, expanding)
  | .resume k => do return (← planRest k, expanding)
  | .endMacro => return ([], expanding.tail)

/-- The machine between two steps. -/
structure Machine where
  /-- What is being lowered. -/
  state : State
  /-- The macros that are being expanded, the innermost first. -/
  expanding : List String
  /-- The pending tasks, the next first. -/
  tasks : List Task

namespace Machine

/-- One step of the machine.  Without tasks it rests. -/
def step (table : MacroTable) (m : Machine) : Except Fault Machine :=
  match m.tasks with
  | [] => .ok m
  | task :: rest => do
      let ((next, expanding), state) ← task.start table m.expanding m.state
      return ⟨state, expanding, next ++ rest⟩

/-- Several steps of the machine. -/
def run (table : MacroTable) : (steps : Nat) → Machine → Except Fault Machine
  | 0, m => .ok m
  | steps + 1, m => do run table steps (← m.step table)

end Machine

end GscAssembler.Lowering

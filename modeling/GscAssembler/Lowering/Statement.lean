import GscAssembler.Lowering.Expression

/-!
# Statements

The rules for branches, loops, switches, jumps out of them, and assignments.  What a statement needs
of its node is checked before any of its parts emits code.
-/

namespace GscAssembler.Lowering

open Code (Context LoopJump Opcode)
open SyntaxTree (Literal Node)

/-- A branch on a condition.  A conditional expression needs both of its sides. -/
def lowerIf (c : Construct) (needsElse : Bool) : Lower Unit := do
  match c.parts[2]? with
  | none =>
      if needsElse then throw (c.node.malformed "missing else branch")
      let condition ← c.part 0
      let body ← c.part 1
      ifThen condition.lowerValue body.lowerValue
  | some otherwise =>
      let condition ← c.part 0
      let body ← c.part 1
      ifThenElse condition.lowerValue body.lowerValue otherwise.lowerValue

/-- A loop that tests before each round. -/
def lowerWhile (c : Construct) : Lower Unit := do
  let condition ← c.part 0
  let body ← c.part 1
  whileLoop condition.lowerValue body.lowerValue

/-- A counting loop.  An empty condition always holds. -/
def lowerFor (c : Construct) : Lower Unit := do
  let start ← c.part 0
  let condition ← c.part 1
  let step ← c.part 2
  let body ← c.part 3
  let test := if condition.is "empty" then none else some condition.lowerValue
  forLoop start.lowerValue test step.lowerValue body.lowerValue

/-- The hash of the local that a node names. -/
def namedLocal (n : Node) : Lower UInt32 := do
  let name ← n.text
  declaredLocal name

/-- A loop over the values of an array, or over its keys and values. -/
def lowerForeach (c : Construct) (withKey : Bool) : Lower Unit := do
  let locals ← updateFunction fun function => function.popForeachLocals
  let offset := if withKey then 1 else 0
  let key ← if withKey then namedLocal (← c.part 0).node else pure locals.key
  let value ← namedLocal (← c.part offset).node
  let collection ← c.part (offset + 1)
  let body ← c.part (offset + 2)
  foreachLoop locals key value collection.lowerValue body.lowerValue

/-- The first default branch moved behind all others. -/
def defaultLast (branches : List Fragment) : List Fragment :=
  match branches.findIdx? (·.is "default") with
  | none => branches
  | some position => branches.eraseIdx position ++ branches[position]?.toList

/-- A branch of a switch by its node. -/
def switchBranch (f : Fragment) : SwitchBranch :=
  if f.is "default" then .default (f.parts.map Fragment.lowerValue)
  else
    match f.parts with
    | [] => .case (throw (f.node.malformed "missing child")) []
    | value :: body => .case value.lowerValue (body.map Fragment.lowerValue)

/-- A switch. -/
def lowerSwitch (c : Construct) : Lower Unit := do
  let key ← updateFunction fun function => function.popSwitchKey
  let value ← c.part 0
  let branches := c.parts.drop 1
  match branches.find? fun b => !b.is "case" && !b.is "default" with
  | some other => throw (.unsupportedNode other.node.kind)
  | none => switchOn key value.lowerValue ((defaultLast branches).map switchBranch)

/-- The direction of a jump out of a loop. -/
def loopJump (n : Node) : Except CompileError LoopJump := do
  match ← n.text with
  | "break" => return .leave
  | "continue" => return .next
  | _ => throw (n.malformed "expected break or continue")

/-- How many loops a jump leaves. -/
def loopLevels (n : Node) : Except CompileError Nat :=
  match n.value? with
  | none => .ok 1
  | some (.int value) =>
      if 0 ≤ value then .ok value.toNat else .error (n.malformed "bad loop count")
  | some (.double _) => .error (n.malformed "bad loop count")

/-- A jump out of a loop. -/
def lowerLoopJump (n : Node) : Lower Unit := do
  let kind ← loopJump n
  let levels ← loopLevels n
  discard (updateFunction fun f => f.addLoopJump kind levels)

/-- A return, with a value or without. -/
def lowerReturn (c : Construct) : Lower Unit := do
  match c.parts with
  | [] => emitOp .endFunction
  | value :: _ =>
      value.lowerValue
      emitOp .returnValue

/-! ## Assignments -/

/-- Assigns the stack's top to a target. -/
def assignTo (target : Fragment) : Lower Unit := do
  target.lower .isRef
  emitOp .setVariableField

/-- Assigns the elements of an array one by one, from a position on. -/
def assignElements (target : Fragment) : (position : Nat) → List Fragment → Lower Unit
  | _, [] => return
  | position, element :: rest => do
      element.lowerValue
      emitNumber (.int position)
      target.lower .isRef
      emitOp .evalArrayRef
      emitOp .setVariableField
      assignElements target (position + 1) rest

/-- The operation of an operator that also assigns, such as `+=`. -/
def compoundOp? (token : String) : Option Opcode :=
  match token.toList.reverse with
  | '=' :: rest => Code.mathOp? (String.ofList rest.reverse)
  | _ => none

/-- An assignment by any operator. -/
def lowerAssignment (c : Construct) : Lower Unit := do
  let token ← c.node.text
  let target ← c.part 0
  match token with
  | "++" =>
      target.lower .isRef
      emitOp .inc
  | "--" =>
      target.lower .isRef
      emitOp .dec
  | "=" =>
      let value ← c.part 1
      if value.is "shortHandArray" then
        emitOp .getEmptyArray
        assignTo target
        assignElements target 0 value.parts
      else
        value.lowerValue
        assignTo target
  | "??=" =>
      let temp ← declare coalesceTemp
      let value ← c.part 1
      coalesce temp target.lowerValue value.lowerValue
      assignTo target
  | _ =>
      match compoundOp? token with
      | none => throw (.unknownOperator token)
      | some code =>
          let value ← c.part 1
          target.lowerValue
          value.lowerValue
          emitOp code
          assignTo target

end GscAssembler.Lowering

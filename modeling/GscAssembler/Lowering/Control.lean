import GscAssembler.Lowering.State

/-!
# Control flow

The constructs that emit jumps, each built from the pieces of code it consists of.  A construct is
always laid out in the order of its evaluation, so a jump forward lands on whatever is emitted after
its piece, and a jump backward behind whatever was emitted before it.
-/

namespace GscAssembler.Lowering

open Code (ForeachLocals Instruction Key Opcode)

/-- Runs `body` if the condition holds. -/
def ifThen (condition body : Lower Unit) : Lower Unit := do
  condition
  let skip ← emitJump .jumpOnFalse
  body
  land skip

/-- Runs `body` if the condition holds, and `otherwise` if it does not. -/
def ifThenElse (condition body otherwise : Lower Unit) : Lower Unit := do
  condition
  let skip ← emitJump .jumpOnFalse
  body
  let done ← emitJump .jump
  setTarget skip done
  otherwise
  land done

/-- Decides a logical connective by its left side, if the jump is taken, or else by its right. -/
def shortCircuit (left : Lower Unit) (code : Opcode) (right : Lower Unit) : Lower Unit := do
  left
  let decided ← emitJump code
  right
  unless ← isLegacy do emitOp .castBool
  land decided

/-- Keeps the value of `left` if it is defined, and takes that of `right` if it is not. -/
def coalesce (temp : UInt32) (left right : Lower Unit) : Lower Unit := do
  left
  emitStore temp
  emitEval temp .plain
  emitOp .isDefined
  let undefined ← emitJump .jumpOnFalse
  emitEval temp .plain
  let done ← emitJump .jump
  setTarget undefined done
  right
  land done

/-- Accesses a field of an object if the object is defined. -/
def definedAccess (temp : UInt32) (object : Lower Unit) (code : Opcode) (field : UInt32) :
    Lower Unit := do
  object
  emitStore temp
  emitEval temp .plain
  emitOp .isDefined
  let undefined ← emitJump .jumpOnFalse
  emitEval temp .plain
  emitOp .castFieldObject
  discard (emit (.field code field))
  let done ← emitJump .jump
  setTarget undefined done
  emitOp .getUndefined
  land done

/-- Gives a parameter its default if it is not defined. -/
def defaultParameter (hash : UInt32) (value : Lower Unit) : Lower Unit := do
  emitIsDefined hash
  let given ← emitJump .jumpOnTrue
  value
  emitStore hash
  land given

/-- Jumps back to the start of a loop and closes it. -/
def closeLoop (header : Key) (exit : Option Key) (continueAt : Key) : Lower Unit := do
  let back ← emitJump .jump
  setTarget back header
  if let some exit := exit then setTarget exit back
  exitLoop (some continueAt) back

/-- Tests the condition before each run of the body. -/
def whileLoop (condition body : Lower Unit) : Lower Unit := do
  enterLoop
  let header ← lastKey
  condition
  let exit ← emitJump .jumpOnFalse
  body
  closeLoop header (some exit) header

/-- Appends the test of a loop, unless it has none. -/
def loopTest : Option (Lower Unit) → Lower (Option Key)
  | some condition => do
      condition
      return some (← emitJump .jumpOnFalse)
  | none => return none

/-- Runs `start` once, and then the body and the step as long as the condition holds. -/
def forLoop (start : Lower Unit) (condition : Option (Lower Unit)) (step body : Lower Unit) :
    Lower Unit := do
  enterLoop
  start
  let header ← lastKey
  let exit ← loopTest condition
  body
  let continueAt ← lastKey
  step
  closeLoop header exit continueAt

/-- Runs the body for every element of an array. -/
def foreachLoop (locals : ForeachLocals) (key value : UInt32) (collection body : Lower Unit) :
    Lower Unit := do
  let legacy ← isLegacy
  collection
  emitStore locals.array
  if legacy then
    emitEval locals.array .plain
    emitOp .firstArrayKey
  else discard (emit (.localVariable .firstArrayKeyCached locals.array))
  emitStore key
  enterLoop
  let header ← lastKey
  emitIsDefined key
  let exit ← emitJump .jumpOnFalse
  emitEval key .plain
  emitEval locals.array .plain
  emitOp .evalArray
  emitStore value
  unless legacy do
    emitEval key .plain
    emitEval locals.array .plain
    discard (emit (.localVariable .setNextArrayKeyCached locals.nextKey))
  body
  let continueAt ← lastKey
  if legacy then
    emitEval key .plain
    emitEval locals.array .plain
    emitOp .nextArrayKey
  else emitEval locals.nextKey .plain
  emitStore key
  closeLoop header (some exit) continueAt

/-- A branch of a switch. -/
inductive SwitchBranch where
  /-- Runs its statements if the value equals that of the switch.  Without statements, it falls
  through to the next branch that has some. -/
  | case (value : Lower Unit) (body : List (Lower Unit))
  /-- Runs its statements if no branch before it was taken. -/
  | default (body : List (Lower Unit))

/-- Closes a switch. -/
def closeSwitch : Lower Unit := do
  let footer ← lastKey
  exitLoop none footer

/-- Appends the branches of a switch up to the default one.  `falling` are the jumps of branches
without statements that wait for the next branch with some. -/
def switchBranches (key : UInt32) : List SwitchBranch → (falling : List Key) → Lower Unit
  | [], falling => do
      falling.forM land
      closeSwitch
  | .default body :: _, falling => do
      falling.forM land
      body.forM id
      closeSwitch
  | .case value body :: rest, falling => do
      value
      emitEval key .plain
      emitOp .equal
      match body with
      | [] =>
          let taken ← emitJump .jumpOnTrue
          switchBranches key rest (falling ++ [taken])
      | _ :: _ =>
          let skip ← emitJump .jumpOnFalse
          falling.forM land
          body.forM id
          land skip
          switchBranches key rest []

/-- Compares a value with the branches one after the other. -/
def switchOn (key : UInt32) (value : Lower Unit) (branches : List SwitchBranch) : Lower Unit := do
  enterLoop
  value
  emitStore key
  switchBranches key branches []

end GscAssembler.Lowering

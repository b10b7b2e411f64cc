import GscAssembler.Proofs.Code.Shape
import GscAssembler.Proofs.Control.Sketch

/-!
# Lowering follows the structured program

`Follows target known x y learned` says that the piece of lowering `x` and the sketch `y` are built
alike from the steps of lowering.  It is the only thing that has to be shown of every lowering rule.
All that is true of lowering in general is then proved by induction on this relation: one case for
each way to emit an instruction and for each construct of control flow.  The steps that neither emit
code nor open a scope are `Silent`.

Two side conditions are part of the relation, since only the rules can guarantee them.  Instructions
are `Emittable` on the revision of the target.  And they name no locals but those of the list
`known`, which were declared, or found to be declared, on the way; `learned` lists the locals that
are known once the result of the piece is.
-/

namespace GscAssembler.Control

open Code (Context ForeachLocals Instruction Key LoopJump Opcode ScriptFunction)
open Lowering
open Number (Constant)
open Reference (ImportKey)

variable {α β : Type}

/-! ## Steps without code -/

/-- The locals that a loop over an array uses. -/
def usedLocals (revision : Revision) (locals : ForeachLocals) : List UInt32 :=
  match revision with
  | .legacy => [locals.array, locals.key]
  | .rev36 => [locals.array, locals.key, locals.nextKey]

/-- Nothing is learned from a result. -/
def nothingLearned (_ : α) : List UInt32 := []

/-- The steps of lowering that neither emit code nor touch the open scopes. -/
inductive Silent (target : Target) :
    {α : Type} → (known : List UInt32) → Lower α → (learned : α → List UInt32) → Prop where
  | pure {α : Type} {known : List UInt32} {learned : α → List UInt32} (a : α)
      (h : learned a ⊆ known) : Silent target known (pure a) learned
  | throw {α : Type} {known : List UInt32} {learned : α → List UInt32} (e : CompileError) :
      Silent target known (throw e) learned
  | bind {α β : Type} {known : List UInt32} {x : Lower α} {f : α → Lower β}
      {learned : α → List UInt32} {later : β → List UInt32} (hx : Silent target known x learned)
      (hf : ∀ a, Silent target (learned a ++ known) (f a) later) :
      Silent target known (x >>= f) later
  | atTarget {α : Type} {known : List UInt32} {f : Target → Lower α} {learned : α → List UInt32}
      (h : Silent target known (f target) learned) :
      Silent target known (getTarget >>= f) learned
  | namespaceHash {known : List UInt32} : Silent target known getNamespace nothingLearned
  | hash {known : List UInt32} (name : String) :
      Silent target known (hashName name) nothingLearned
  | declare {known : List UInt32} (name : String) :
      Silent target known (declare name) fun hash => [hash]
  | declaredLocal {known : List UInt32} (name : String) :
      Silent target known (declaredLocal name) fun hash => [hash]
  | callFlags {known : List UInt32} (name : String) (namespaceHash : UInt32) (context : Context) :
      Silent target known (callFlags name namespaceHash context) nothingLearned
  | popSwitchKey {known : List UInt32} :
      Silent target known (updateFunction fun f => f.popSwitchKey) fun hash => [hash]
  | popForeachLocals {known : List UInt32} :
      Silent target known (updateFunction fun f => f.popForeachLocals)
        (usedLocals target.revision)
  | reserve {known : List UInt32} {switches : List UInt32} {foreaches : List ForeachLocals}
      (hswitches : switches ⊆ known)
      (hforeaches : ∀ locals ∈ foreaches, usedLocals target.revision locals ⊆ known) :
      Silent target known (modifyFunction fun f =>
        { f with
          switchKeys := switches ++ f.switchKeys
          foreachKeys := foreaches ++ f.foreachKeys }) nothingLearned

theorem Silent.except {target : Target} {known : List UInt32} (e : Except CompileError α) :
    Silent target known (liftM e) nothingLearned := by
  cases e with
  | error e => exact .throw e
  | ok a => exact .pure a (List.nil_subset _)

theorem Silent.atLegacy {target : Target} {known : List UInt32} {f : Bool → Lower α}
    {learned : α → List UInt32} (h : Silent target known (f target.isLegacy) learned) :
    Silent target known (isLegacy >>= f) learned :=
  .atTarget (f := fun t => f t.isLegacy) h

theorem Silent.discard {target : Target} {known : List UInt32} {x : Lower α}
    {learned : α → List UInt32} (h : Silent target known x learned) :
    Silent target known (discard x) nothingLearned :=
  .bind h fun _ => .pure () (List.nil_subset _)

/-! ## Constructs of control flow -/

/-- Runs the body unless the jump is taken. -/
def skipOver (code : Opcode) (body : Lower Unit) : Lower Unit := do
  let skip ← emitJump code
  body
  land skip

/-- Runs the body, or if the jump is taken, the other piece. -/
def chooseBetween (code : Opcode) (body otherwise : Lower Unit) : Lower Unit := do
  let skip ← emitJump code
  body
  let done ← emitJump .jump
  setTarget skip done
  otherwise
  land done

/-- Runs rounds of the body until the test fails; without a test, until the body leaves the loop.
With a step, each round ends with it. -/
def loopThrough (start : Lower Unit) (test : Option (Lower Unit)) (body : Lower Unit)
    (step : Option (Lower Unit)) : Lower Unit := do
  enterLoop
  start
  let header ← lastKey
  let exit ← loopTest test
  body
  match step with
  | none => closeLoop header exit header
  | some step =>
      let continueAt ← lastKey
      step
      closeLoop header exit continueAt

theorem ifThen_eq (condition body : Lower Unit) :
    ifThen condition body = (do condition; skipOver .jumpOnFalse body) := rfl

theorem ifThenElse_eq (condition body otherwise : Lower Unit) :
    ifThenElse condition body otherwise =
      (do condition; chooseBetween .jumpOnFalse body otherwise) := rfl

theorem shortCircuit_eq (left : Lower Unit) (code : Opcode) (right : Lower Unit) :
    shortCircuit left code right =
      (do left; skipOver code (do right; unless ← isLegacy do emitOp .castBool)) := by
  simp only [shortCircuit, skipOver, bind_assoc]
  refine bind_congr fun _ => bind_congr fun decided => bind_congr fun _ => bind_congr fun legacy => ?_
  cases legacy <;> simp

theorem coalesce_eq (temp : UInt32) (left right : Lower Unit) :
    coalesce temp left right =
      (do
        left
        emitStore temp
        emitEval temp .plain
        emitOp .isDefined
        chooseBetween .jumpOnFalse (emitEval temp .plain) right) := rfl

theorem definedAccess_eq (temp : UInt32) (object : Lower Unit) (code : Opcode) (field : UInt32) :
    Lowering.definedAccess temp object code field =
      (do
        object
        emitStore temp
        emitEval temp .plain
        emitOp .isDefined
        chooseBetween .jumpOnFalse
          (do
            emitEval temp .plain
            emitOp .castFieldObject
            discard (emit (.field code field)))
          (emitOp .getUndefined)) := by
  simp only [Lowering.definedAccess, chooseBetween, bind_assoc]

theorem defaultParameter_eq (hash : UInt32) (value : Lower Unit) :
    defaultParameter hash value =
      (do emitIsDefined hash; skipOver .jumpOnTrue (do value; emitStore hash)) := by
  simp only [defaultParameter, skipOver, bind_assoc]

theorem whileLoop_eq (condition body : Lower Unit) :
    whileLoop condition body = loopThrough (pure ()) (some condition) body none := by
  simp only [whileLoop, loopThrough, loopTest, bind_assoc, pure_bind]

theorem forLoop_eq (start : Lower Unit) (test : Option (Lower Unit)) (step body : Lower Unit) :
    forLoop start test step body = loopThrough start test body (some step) := rfl

theorem foreachLoop_eq (locals : ForeachLocals) (key value : UInt32) (collection body : Lower Unit) :
    foreachLoop locals key value collection body =
      (do
        let legacy ← isLegacy
        collection
        emitStore locals.array
        if legacy then
          emitEval locals.array .plain
          emitOp .firstArrayKey
        else discard (emit (.localVariable .firstArrayKeyCached locals.array))
        emitStore key
        loopThrough (pure ()) (some (emitIsDefined key))
          (do
            emitEval key .plain
            emitEval locals.array .plain
            emitOp .evalArray
            emitStore value
            unless legacy do
              emitEval key .plain
              emitEval locals.array .plain
              discard (emit (.localVariable .setNextArrayKeyCached locals.nextKey))
            body)
          (some do
            if legacy then
              emitEval key .plain
              emitEval locals.array .plain
              emitOp .nextArrayKey
            else emitEval locals.nextKey .plain
            emitStore key)) := by
  refine bind_congr fun legacy => ?_
  cases legacy <;> simp [loopThrough, loopTest]

/-! ## Pieces of lowering and their sketches -/

/-- A branch of a switch, with the sketch of each of its pieces.  The default branch has no value. -/
structure PairedBranch where
  /-- The value that the branch is taken for. -/
  value : Option (Lower Unit × Sketch Unit)
  /-- Its statements. -/
  body : List (Lower Unit × Sketch Unit)

namespace PairedBranch

/-- The branch as it is lowered. -/
def lowered (b : PairedBranch) : SwitchBranch :=
  match b.value with
  | some value => .case value.1 (b.body.map (·.1))
  | none => .default (b.body.map (·.1))

/-- The branch as it is sketched. -/
def sketched (b : PairedBranch) : SketchedBranch :=
  match b.value with
  | some value => .case value.2 (b.body.map (·.2))
  | none => .default (b.body.map (·.2))

end PairedBranch

/-- Whether an instruction refers to no table, and to no local but the known ones. -/
def OnlyNames (known : List UInt32) : Instruction → Prop
  | .localVariable _ hash => hash ∈ known
  | .string _ _ | .debugString _ | .call _ _ | .functionPointer _ _ | .global _ _ => False
  | _ => True

/-- Lowering and sketch are built alike. -/
inductive Follows (target : Target) :
    {α : Type} → (known : List UInt32) → Lower α → Sketch α → (learned : α → List UInt32) → Prop where
  | silent {α : Type} {known : List UInt32} {x : Lower α} {learned : α → List UInt32}
      (h : Silent target known x learned) : Follows target known x (.silent x) learned
  | bind {α β : Type} {known : List UInt32} {x : Lower α} {y : Sketch α} {f : α → Lower β}
      {g : α → Sketch β} {learned : α → List UInt32} {later : β → List UInt32}
      (hx : Follows target known x y learned)
      (hf : ∀ a, Follows target (learned a ++ known) (f a) (g a) later) :
      Follows target known (x >>= f) (y >>= g) later
  | atTarget {α : Type} {known : List UInt32} {f : Target → Lower α} {g : Target → Sketch α}
      {learned : α → List UInt32} (h : Follows target known (f target) (g target) learned) :
      Follows target known (getTarget >>= f) (.silent getTarget >>= g) learned
  | emit {known : List UInt32} (i : Instruction) (hemittable : i.Emittable target.revision)
      (hnames : OnlyNames known i) :
      Follows target known (discard (emit i)) (write (.instruction i)) nothingLearned
  | eval {known : List UInt32} {hash : UInt32} (context : Context) (hknown : hash ∈ known) :
      Follows target known (emitEval hash context) (writeEval hash context) nothingLearned
  | number {known : List UInt32} (value : Constant) :
      Follows target known (emitNumber value) (writeNumber value) nothingLearned
  | canonicalHash {known : List UInt32} (name : String) :
      Follows target known (do discard (Lowering.emit (.hash (← hashName64 name))))
        (do write (.instruction (.hash (← hashName64 name)))) nothingLearned
  | string {known : List UInt32} {code : Opcode} (text : String)
      (hcode : code.shape target.revision = .address) :
      Follows target known (emitString code text) (writeString code text) nothingLearned
  | debugString {known : List UInt32} (hash : UInt32) (hrevision : target.revision = .legacy) :
      Follows target known (emitDebugString hash) (writeDebugString hash) nothingLearned
  | global {known : List UInt32} {code : Opcode} (hash : UInt32)
      (hcode : code.shape target.revision = .global) (hrevision : target.revision = .rev36) :
      Follows target known (emitGlobal code hash) (writeGlobal code hash) nothingLearned
  | call {known : List UInt32} {code : Opcode} (key : ImportKey)
      (hcode : code.shape target.revision = .call) :
      Follows target known (emitCall code key) (writeCall code key) nothingLearned
  | functionPointer {known : List UInt32} {code : Opcode} (key : ImportKey)
      (hcode : code.shape target.revision = .pointer) :
      Follows target known (emitFunctionPointer code key) (writeFunctionPointer code key)
        nothingLearned
  | skip {known : List UInt32} {code : Opcode} {body : Lower Unit} {body' : Sketch Unit}
      (hcode : code.isConditional) (hbody : Follows target known body body' nothingLearned) :
      Follows target known (skipOver code body) (skipping code body') nothingLearned
  | choose {known : List UInt32} {code : Opcode} {body otherwise : Lower Unit}
      {body' otherwise' : Sketch Unit} (hcode : code.isConditional)
      (hbody : Follows target known body body' nothingLearned)
      (hotherwise : Follows target known otherwise otherwise' nothingLearned) :
      Follows target known (chooseBetween code body otherwise) (choosing code body' otherwise')
        nothingLearned
  | loop {known : List UInt32} {start body : Lower Unit} {start' body' : Sketch Unit}
      (test step : Option (Lower Unit × Sketch Unit))
      (hstart : Follows target known start start' nothingLearned)
      (htest : ∀ p ∈ test, Follows target known p.1 p.2 nothingLearned)
      (hbody : Follows target known body body' nothingLearned)
      (hstep : ∀ p ∈ step, Follows target known p.1 p.2 nothingLearned) :
      Follows target known (loopThrough start (test.map (·.1)) body (step.map (·.1)))
        (looping start' (test.map (·.2)) body' (step.map (·.2))) nothingLearned
  | switch {known : List UInt32} {key : UInt32} {value : Lower Unit} {value' : Sketch Unit}
      (branches : List PairedBranch) (hknown : key ∈ known)
      (hvalue : Follows target known value value' nothingLearned)
      (hvalues : ∀ b ∈ branches, ∀ p ∈ b.value, Follows target known p.1 p.2 nothingLearned)
      (hbodies : ∀ b ∈ branches, ∀ p ∈ b.body, Follows target known p.1 p.2 nothingLearned) :
      Follows target known (switchOn key value (branches.map (·.lowered)))
        (switching key value' (branches.map (·.sketched))) nothingLearned
  | loopJump {known : List UInt32} (kind : LoopJump) (levels : Nat) :
      Follows target known (discard (updateFunction fun f => f.addLoopJump kind levels))
        (write (.loopJump kind (max levels 1 - 1))) nothingLearned

end GscAssembler.Control

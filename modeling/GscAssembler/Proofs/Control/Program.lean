import GscAssembler.Code.Function
import Mathlib

/-!
# Structured programs

A `Program` is code whose control flow is still visible: branches, loops and switches are built from
the programs they consist of, and no instruction knows of any other.  `Program.run` is its meaning.
Where a machine would look at a value to decide a branch, a run asks an oracle: the next of a list of
bits tells whether the conditional jump of the construct is taken.

A run has a `Result`: the instructions that were executed, the bits that are left, and how the run
ended.  Loops take one unit of fuel for each round; a run that has no fuel left is `cut` off and
shows what was executed until then.

## Jumps out of loops

A `break` or `continue` ends everything inside the scope it concerns.  It is counted outward: number
zero is the innermost loop or switch around the jump, and every scope that the jump leaves takes one
off the number.  A switch has no next round of its own, so a `continue` that arrives there concerns
the scope around it.
-/

namespace GscAssembler.Control

open Code (Instruction LoopJump Opcode)

/-- Code with visible control flow. -/
inductive Program where
  /-- Does nothing. -/
  | nothing
  /-- Executes one instruction, which is not a jump. -/
  | instruction (i : Instruction)
  /-- Runs two programs one after the other. -/
  | sequence (first second : Program)
  /-- Runs the body unless the conditional jump is taken. -/
  | skip (code : Opcode) (body : Program)
  /-- Runs the body, or if the conditional jump is taken, the other program. -/
  | choose (code : Opcode) (body otherwise : Program)
  /-- Runs the start once, and then rounds of test, body and step.  Without a test (`tested`) only
  the body can end the loop; without a step (`stepped`) a `continue` goes on with the next test. -/
  | loop (start test body step : Program) (tested stepped : Bool)
  /-- Runs the body as the inside of a switch. -/
  | switch (body : Program)
  /-- A branch of a switch: runs the body if the test lets it, and then the other branches. -/
  | case (test body rest : Program)
  /-- A branch without statements: if the test lets it, goes on with the statements of the next
  branch that has some. -/
  | emptyCase (test rest : Program)
  /-- Leaves a scope, or goes on with its next round. -/
  | loopJump (kind : LoopJump) (outward : Nat)
  deriving DecidableEq, Repr

/-- How a run ended. -/
inductive Outcome where
  /-- It came to its end. -/
  | normal
  /-- It leaves the scope of the given number. -/
  | leave (outward : Nat)
  /-- It goes on with the next round of the scope of the given number. -/
  | next (outward : Nat)
  /-- It executed an instruction that ends the function. -/
  | halted
  /-- It needed a bit where there was none. -/
  | starved
  /-- It was cut off. -/
  | cut
  deriving DecidableEq, Repr

/-- The outcome of a jump out of a loop. -/
def Outcome.ofJump : LoopJump → Nat → Outcome
  | .leave, outward => .leave outward
  | .next, outward => .next outward

/-- What a run did. -/
structure Result where
  /-- The instructions executed. -/
  trace : List Instruction
  /-- The bits that are left. -/
  bits : List Bool
  /-- How the run ended. -/
  outcome : Outcome
  deriving DecidableEq, Repr

/-- A piece of a run: what happens for the bits that are left. -/
abbrev Run := List Bool → Result

/-- Whether an instruction ends the function. -/
def stops (i : Instruction) : Bool :=
  i = .op .endFunction || i = .op .returnValue

/-- The run that does nothing. -/
def Run.nothing : Run := fun bits => ⟨[], bits, .normal⟩

/-- A result with instructions that were executed before. -/
def Result.after (trace : List Instruction) (r : Result) : Result :=
  { r with trace := trace ++ r.trace }

/-- Goes on with another run, unless the first one ended otherwise than by coming to its end. -/
def Result.andThen (r : Result) (next : Run) : Result :=
  match r.outcome with
  | .normal => (next r.bits).after r.trace
  | _ => r

/-- Asks the oracle whether a conditional jump is taken. -/
def ask (taken passed : Run) : Run
  | [] => ⟨[], [], .starved⟩
  | true :: bits => taken bits
  | false :: bits => passed bits

/-- What a part of a loop makes of its result: `normally` is what follows the part, `next` what a
`continue` goes on with. -/
def Result.inLoop (r : Result) (normally next : Run) : Result :=
  match r.outcome with
  | .normal => (normally r.bits).after r.trace
  | .next 0 => (next r.bits).after r.trace
  | .leave 0 => { r with outcome := .normal }
  | .leave (outward + 1) => { r with outcome := .leave outward }
  | .next (outward + 1) => { r with outcome := .next outward }
  | .halted | .starved | .cut => r

/-- What a switch makes of the result of its inside. -/
def Result.inSwitch (r : Result) : Result :=
  match r.outcome with
  | .leave 0 => { r with outcome := .normal }
  | .leave (outward + 1) => { r with outcome := .leave outward }
  | .next (outward + 1) => { r with outcome := .next outward }
  | .normal | .next 0 | .halted | .starved | .cut => r

/-- The rounds of a loop, from the start of a round or (`atStep`) from its step.  One unit of fuel
takes the loop from the start of a round to that of the next. -/
def rounds (round step : Run) (stepped : Bool) : (fuel : Nat) → (atStep : Bool) → Run
  | 0, _, bits => ⟨[], bits, .cut⟩
  | fuel + 1, atStep, bits =>
      let again := rounds round step stepped fuel
      let finishing : Run := fun bits => (step bits).inLoop (again false) (again stepped)
      if atStep then finishing bits
      else (round bits).inLoop finishing (if stepped then finishing else again false)

namespace Program

/-- Runs a program.  `entered` means that the first branch with statements, if the program is a list
of branches, is taken without a test. -/
def run (fuel : Nat) : Program → (entered : Bool) → Run
  | nothing, _ => .nothing
  | instruction i, _ => fun bits => ⟨[i], bits, if stops i then .halted else .normal⟩
  | sequence first second, _ => fun bits => (first.run fuel false bits).andThen (second.run fuel false)
  | skip _ body, _ => ask .nothing (body.run fuel false)
  | choose _ body otherwise, _ => ask (otherwise.run fuel false) (body.run fuel false)
  | loop start test body step tested stepped, _ => fun bits =>
      let leaving : Run := fun bits => ⟨[], bits, .leave 0⟩
      let round : Run := fun bits =>
        if tested then (test.run fuel false bits).andThen (ask leaving (body.run fuel false))
        else body.run fuel false bits
      let again := rounds round (step.run fuel false) stepped fuel
      (start.run fuel false bits).inLoop (again false) (again stepped)
  | switch body, _ => fun bits => (body.run fuel false bits).inSwitch
  | case test body rest, entered => fun bits =>
      let taken : Run := fun bits => (body.run fuel false bits).andThen (rest.run fuel false)
      if entered then taken bits
      else (test.run fuel false bits).andThen (ask (rest.run fuel false) taken)
  | emptyCase test rest, entered => fun bits =>
      if entered then rest.run fuel true bits
      else (test.run fuel false bits).andThen (ask (rest.run fuel true) (rest.run fuel false))
  | loopJump kind outward, _ => fun bits => ⟨[], bits, .ofJump kind outward⟩

end Program

end GscAssembler.Control

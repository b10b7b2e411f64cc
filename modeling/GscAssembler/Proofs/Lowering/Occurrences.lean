import GscAssembler.Proofs.Code.Paths
import GscAssembler.Proofs.Lowering.Termination

/-!
# Synthetic variables and who uses them

Switches, loops over arrays, coalescing operators and accesses that may be undefined keep values in
variables that no script names.  Here stands which variables those are, and to which occurrence of a
construct each instruction belongs: the machine keeps a log of the tasks it does and of the number of
instructions that each appends, and the tasks of a construct carry its variables.
-/

namespace GscAssembler

/-- The hash of a name, unless it is refused. -/
def Name.hash? (revision : Revision) (name : String) : Option UInt32 :=
  match ({} : Name.Registry).hash revision name with
  | .ok (hash, _) => some hash
  | .error _ => none

/-- The hash of a name does not depend on the names that are remembered. -/
theorem Name.hash?_of_hash {r r' : Name.Registry} {revision : Revision} {name : String}
    {hash : UInt32} (h : r.hash revision name = .ok (hash, r')) :
    Name.hash? revision name = some hash := by
  unfold Name.Registry.hash at h
  unfold Name.hash? Name.Registry.hash
  cases hliteral : literal? revision name with
  | none =>
      rw [hliteral] at h
      cases h
      rfl
  | some value =>
      rw [hliteral] at h
      dsimp only at h ⊢
      by_cases hsmall : value.toNat < 0x100000000
      · rw [if_pos hsmall] at h ⊢
        cases h
        rfl
      · rw [if_neg hsmall] at h
        cases h

/-- The synthetic variables of a loop over an array, on the legacy machine or the newer one. -/
def Code.ForeachLocals.variables (legacy : Bool) (locals : ForeachLocals) : List UInt32 :=
  if legacy then [locals.array, locals.key]
  else [locals.array, locals.iterator, locals.key, locals.nextKey]

namespace Lowering

open Code (Fact ForeachLocals Instruction Key ScriptFunction)
open SyntaxTree (Node)

/-! ## Occurrences -/

/-- An occurrence of a construct that has synthetic variables, or uses one that all its like share.  The
latter are told apart by the number of the task that emits their code. -/
inductive Occurrence where
  /-- A switch. -/
  | switch (key : UInt32)
  /-- A loop over an array. -/
  | foreach (locals : ForeachLocals)
  /-- A coalescing operator. -/
  | coalesce (task : Nat) (temp : UInt32)
  /-- An access that may be undefined. -/
  | definedAccess (task : Nat) (temp : UInt32)
  deriving DecidableEq

/-- The synthetic variables that an occurrence uses. -/
def Occurrence.variables (legacy : Bool) : Occurrence → List UInt32
  | .switch key => [key]
  | .foreach locals => locals.variables legacy
  | .coalesce _ temp | .definedAccess _ temp => [temp]

/-- The occurrence that the code of a task belongs to. -/
def Task.occurrence? (number : Nat) : Task → Option Occurrence
  | .resume (.switchStore key _) | .resume (.switchTest key ..) => some (.switch key)
  | .resume (.foreachBody locals ..) | .resume (.foreachStep locals ..) => some (.foreach locals)
  | .resume (.coalesce temp _) => some (.coalesce number temp)
  | .resume (.definedAccess temp ..) => some (.definedAccess number temp)
  | _ => none

/-- The switch or loop over an array whose variables a task is the first to use. -/
def Task.opens? : Task → Option Occurrence
  | .resume (.switchStore key _) => some (.switch key)
  | .resume (.foreachBody locals ..) => some (.foreach locals)
  | _ => none

/-- The names of a script's own variables that a task looks up. -/
def Task.names : Task → List String
  | .node n _ =>
      match Kind.ofName? n.kind with
      | some .identifier => n.text?.toList
      | some .foreachSingle => (n.children.take 1).filterMap Node.text?
      | some .foreachDouble => (n.children.take 2).filterMap Node.text?
      | _ => []
  | _ => []

/-! ## The log of the machine -/

/-- A task that was done, and the number of instructions it appended. -/
structure Done where
  /-- The task. -/
  task : Task
  /-- The number of instructions. -/
  emitted : Nat

/-- The tasks that the machine does in a number of steps. -/
def Machine.log (table : MacroTable) : (steps : Nat) → Machine → List Done
  | 0, _ => []
  | steps + 1, m =>
      match m.tasks, m.step table with
      | task :: _, .ok m' =>
          ⟨task, m'.state.function.chain.size - m.state.function.chain.size⟩ ::
            Machine.log table steps m'
      | _, _ => []

/-- The tasks that the machine does for the body of a function. -/
def Machine.logBody (table : MacroTable) (steps : Nat) (parameters : List Node) (body : Node)
    (s : State) : List Done :=
  match perform (declareAll parameters body) s with
  | .ok (defaults, s) => Machine.log table steps ⟨s, [], bodyTasks defaults body⟩
  | .error _ => []

/-- The occurrences that the instructions of a log belong to, in their order. -/
def sources (log : List Done) : List (Option Occurrence) :=
  log.zipIdx.flatMap fun entry =>
    List.replicate entry.1.emitted (entry.1.task.occurrence? entry.2)

/-- The occurrence that an instruction of a lowered function belongs to.  The first one declares the
locals and belongs to no task. -/
def occurrenceAt (log : List Done) (k : Key) : Option Occurrence :=
  (none :: sources log).getD k.slot none

/-- The switches and loops over arrays of a log. -/
def openings (log : List Done) : List Occurrence :=
  log.filterMap fun entry => entry.task.opens?

theorem sources_concat (log : List Done) (entry : Done) :
    sources (log ++ [entry]) =
      sources log ++ List.replicate entry.emitted (entry.task.occurrence? log.length) := by
  simp [sources, List.zipIdx_append]

theorem openings_concat (log : List Done) (entry : Done) :
    openings (log ++ [entry]) = openings log ++ entry.task.opens?.toList := by
  cases h : entry.task.opens? <;> simp [openings, h]

/-! ## Names -/

/-- Whether a node is a switch or a loop over an array, which needs synthetic variables. -/
def needsSwitch? (n : Node) : Option Bool :=
  match n.kind with
  | "switchStatement" => some true
  | "foreachSingle" | "foreachDouble" => some false
  | _ => none

/-- The names of the synthetic variables of a switch or loop over an array, by its number. -/
def constructNames (revision : Revision) (isSwitch : Bool) (index : Nat) : List String :=
  let purposes := if isSwitch then ["switch"] else
    match revision with
    | .legacy => ["array", "key"]
    | .rev36 => ["array", "iterator", "key", "next"]
  purposes.map fun what => "$" ++ what ++ toString index

/-- The names of the synthetic variables that are reserved for the switches and loops over arrays of a
tree, which are numbered in reading order. -/
def reservedNames (revision : Revision) (body : Node) : List String :=
  ((body.preorder 0).filterMap fun entry => needsSwitch? entry.2).zipIdx.flatMap fun entry =>
    constructNames revision entry.1 entry.2

/-- The names of the variables that the tasks of a log share. -/
def sharedNames (log : List Done) : List String :=
  let isCoalesce (entry : Done) := match entry.task with
    | .resume (.coalesce ..) => true
    | _ => false
  let isDefinedAccess (entry : Done) := match entry.task with
    | .resume (.definedAccess ..) => true
    | _ => false
  (if log.any isCoalesce then [coalesceTemp] else []) ++
    if log.any isDefinedAccess then [definedTemp] else []

/-- The hashes of the synthetic variables of a function. -/
def syntheticHashes (revision : Revision) (body : Node) (log : List Done) : List UInt32 :=
  (reservedNames revision body ++ sharedNames log).filterMap (Name.hash? revision)

/-- The names of a script's own variables in a function: those of its parameters, and those that its
tasks look up. -/
def ownNames (parameters : List Node) (log : List Done) : List String :=
  parameters.filterMap Node.text? ++ log.flatMap fun entry => entry.task.names

end Lowering

end GscAssembler

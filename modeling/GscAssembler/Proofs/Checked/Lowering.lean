import GscAssembler.Proofs.Checked.Assemble
import GscAssembler.Proofs.Lowering.Termination

/-!
# Lowering with checks

Lowering looks positions up in two places.  In the tree it does so for the branches of a switch, task
by task; the machine of tasks stops at a position that is not there.  In the function under
construction it does so when it appends to the chain of instructions, and when it leaves loops; a
`Program` lists the steps of lowering, and each of them can be done with checks.

Either way comes to no breach, and neither does assembling the image of what was lowered: for every
tree the compiler ends with an image or with an error (`compileTree_never_breaches`).
-/

namespace GscAssembler.Checked

open Code
open Lowering
open SyntaxTree (Node)

variable {α β : Type}

/-- A piece of lowering with checks. -/
abbrev Watched := StateT State Checks

/-! ## Steps with checks -/

/-- Whether the opcode of an instruction is that of a jump, if the instruction is one. -/
def jumpsAsJump : Instruction → Bool
  | .jump code _ => code.isJump
  | _ => true

/-- Appends an instruction.  A jump must have an operation that jumps. -/
def emit (i : Instruction) : Watched Key := fun s => do
  require (jumpsAsJump i) .unexpected
  let (key, chain) ← push s.function.chain i
  return (key, { s with function := { s.function with chain } })

/-- Appends a jump out of loops.  There must be a loop for it to wait in, at a depth that is counted
from the outermost. -/
def loopJump (kind : LoopJump) (levels : Nat) : Watched Key := fun s => do
  let outward ← difference (max levels 1) 1
  if s.function.scopes.length ≤ outward then
    throw (.error (.malformedNode "jumpStatement" "break or continue outside of a loop"))
  else do
    let depth ← difference (← difference s.function.scopes.length 1) outward
    require (depth < s.function.scopes.length) .outside
    let (jump, s) ← emit (.jump .jump none) s
    let scopes := s.function.scopes.modify outward (· ++ [⟨kind, jump⟩])
    return (jump, { s with function := { s.function with scopes } })

/-- Takes a step of lowering. -/
def step : Step β → Watched β
  | .emit i => emit i
  | .number value => fun s => do emit (.number (← plain value.checked)) s
  | .eval hash context => fun s =>
      emit (.localVariable (ScriptFunction.evalOpcode s.function.target context) hash) s
  | .loopJump kind levels => loopJump kind levels
  | other => fun s => plain (other.run s)

/-- A sequence of steps, each of which may depend on what the ones before it gave. -/
inductive Program (α : Type) : Type 1 where
  /-- No more steps. -/
  | done (a : α) : Program α
  /-- An error. -/
  | fail (e : CompileError) : Program α
  /-- A step, and what follows it. -/
  | next {β : Type} (first : Step β) (rest : β → Program α) : Program α

namespace Program

/-- Takes the steps of a program. -/
def run : Program α → Lower α
  | .done a => pure a
  | .fail e => throw e
  | .next first rest => first.run >>= fun b => (rest b).run

/-- Takes the steps of a program with their checks. -/
def watched : Program α → Watched α
  | .done a => pure a
  | .fail e => throw (.error e)
  | .next first rest => step first >>= fun b => (rest b).watched

end Program

/-- Moves the first default branch of a switch, which must be there, behind all others. -/
def defaultLast (branches : List Fragment) : Checks (List Fragment) :=
  match branches.findIdx? (·.is "default") with
  | none => return branches
  | some position =>
      match branches[position]? with
      | none => throw (.breach .outside)
      | some branch => return branches.eraseIdx position ++ [branch]

/-! ## Scripts with checks -/

/-- A way to lower the bodies of functions: for the macros of a script, the parameters and the body
of a function. -/
abbrev Lowerer := MacroTable → List Node → Node → Watched Unit

/-- Lowers by a number of steps of the machine of tasks, which must be enough. -/
def byTasks (steps : MacroTable → List Node → Node → State → Nat) : Lowerer :=
  fun table parameters body s =>
    match Machine.runBody table (steps table parameters body s) parameters body s with
    | .ok m => do
        require (m.tasks.isEmpty) .unexpected
        return ((), m.state)
    | .error (.error e) => throw (.error e)
    | .error .outOfRange => throw (.breach .outside)

/-- Lowers the function of a node. -/
def lowerFunction (lower : List Node → Node → Watched Unit) (n : Node) (script : Script) :
    Checks (ScriptFunction × Script) := do
  let start ← plain (Control.startOf n script)
  let _locals ← push Chain.empty Instruction.locals
  let lowered ← lower (Control.parametersOf n) start.1 start.2
  return (lowered.2.function, lowered.2.script)

/-- Lowers a function of a script and exports it. -/
def addFunction (lower : List Node → Node → Watched Unit) (script : Script) (n : Node) :
    Checks Script := do
  let (function, script) ← lowerFunction lower n script
  let (_, added) ← plain (script.addFunction function)
  let _exported ← push script.functions function
  return added

/-- Lowers the tree of a script. -/
def buildScript (lower : Lowerer) (settings : Settings) (root : Node) : Checks Script := do
  if !root.is "script" then throw (.error (root.malformed "expected a script node"))
  let script := Script.create settings
  let script ← match root.findChild? "namespace" with
    | some n => do plain (script.setNamespace (← plain n.text))
    | none => pure script
  let outline ← plain (root.children.foldlM Outline.add { script })
  outline.functions.reverse.foldlM (addFunction (lower outline.macroTable)) outline.script

/-- Lowers the tree of a script and assembles its image. -/
def compileTree (lower : Lowerer) (settings : Settings) (root : Node) : Checks CompiledScript := do
  let script ← buildScript lower settings root
  compile script

/-! ## Steps come to no breach -/

/-- Whether the free slots of the function under construction are those that hold nothing. -/
def Tidy (s : State) : Prop :=
  s.function.chain.FreeSlots

theorem freeSlots_settle (header : Option Key) (footer : Key) (pending : List PendingJump)
    (f : ScriptFunction) (h : f.chain.FreeSlots) :
    (ScriptFunction.settle header footer pending f).2.chain.FreeSlots := by
  fun_induction ScriptFunction.settle header footer pending f with
  | case1 f => exact h
  | case2 header jump rest f ih => exact ih (h.modify ..)
  | case3 jump rest f header ih => exact ih (h.modify ..)
  | case4 jump rest f outer scopes hscopes ih => exact ih h
  | case5 jump rest f hscopes => exact h

theorem freeSlots_exitLoop (f : ScriptFunction) (header : Option Key) (footer : Key)
    (h : f.chain.FreeSlots) : (f.exitLoop header footer).2.chain.FreeSlots := by
  unfold ScriptFunction.exitLoop
  split
  · exact h
  · exact freeSlots_settle header footer _ _ h

theorem chain_addLocal (f : ScriptFunction) (hash : UInt32) : (f.addLocal hash).chain = f.chain := by
  unfold ScriptFunction.addLocal
  split <;> rfl

/-- Every step keeps track of the free slots. -/
theorem tidy_of_run {first : Step β} {s s' : State} {b : β} (h : first.run s = .ok (b, s'))
    (hs : Tidy s) : Tidy s' := by
  cases first with
  | hash name =>
      obtain ⟨names, -, rfl⟩ := Control.hashName_eq_ok.mp h
      exact hs
  | hash64 name =>
      obtain ⟨names, -, rfl⟩ := Control.hashName64_eq_ok.mp h
      exact hs
  | addLocal hash =>
      cases h
      change (s.function.addLocal hash).chain.FreeSlots
      rwa [chain_addLocal]
  | switchKey =>
      obtain ⟨f, hf, rfl⟩ := updateFunction_eq_ok.mp h
      unfold ScriptFunction.popSwitchKey at hf
      split at hf <;> cases hf
      exact hs
  | foreachLocals =>
      obtain ⟨f, hf, rfl⟩ := updateFunction_eq_ok.mp h
      unfold ScriptFunction.popForeachLocals at hf
      split at hf <;> cases hf
      exact hs
  | emit i =>
      cases h
      exact hs.push i
  | number value =>
      rw [Step.run] at h
      obtain ⟨f, hf, rfl⟩ := updateFunction_eq_ok.mp h
      obtain ⟨checked, -, hf⟩ := Control.except_bind_eq_ok.mp hf
      cases hf
      exact hs.push _
  | eval hash context =>
      rw [Step.run] at h
      obtain ⟨f, hf, rfl⟩ := updateFunction_eq_ok.mp h
      cases hf
      exact hs.push _
  | setTarget jump after =>
      cases h
      exact hs.modify ..
  | loopJump kind levels =>
      rw [Step.run] at h
      obtain ⟨f, hf, rfl⟩ := updateFunction_eq_ok.mp h
      unfold ScriptFunction.addLoopJump at hf
      dsimp only at hf
      split at hf <;> cases hf
      exact hs.push _
  | exitLoop header footer =>
      rw [Step.run] at h
      obtain ⟨f, hf, rfl⟩ := updateFunction_eq_ok.mp h
      have hexit := freeSlots_exitLoop s.function header footer hs
      split at hf
      case h_1 hresult =>
          cases hf
          rw [hresult] at hexit
          exact hexit
      case h_2 => cases hf
  | _ =>
      cases h
      exact hs

theorem emit_eq_ok {i : Instruction} (hjump : jumpsAsJump i) {s : State} (hs : Tidy s) :
    emit i s = .ok ((s.function.add i).1, { s with function := (s.function.add i).2 }) := by
  unfold emit
  rw [require_eq_ok hjump, push_eq_ok hs]
  rfl

theorem loopJump_eq_plain (kind : LoopJump) (levels : Nat) {s : State} (hs : Tidy s) :
    loopJump kind levels s = plain ((Step.loopJump kind levels).run s) := by
  unfold loopJump Step.run updateFunction ScriptFunction.addLoopJump
  rw [difference_eq_ok (Nat.le_max_right ..), ok_bind]
  by_cases hout : s.function.scopes.length ≤ max levels 1 - 1
  · simp only [hout, if_true]
    rfl
  · have hdepth : s.function.scopes.length - 1 - (max levels 1 - 1) < s.function.scopes.length := by
      omega
    simp only [hout, if_false]
    rw [difference_eq_ok (by omega), ok_bind, difference_eq_ok (by omega), ok_bind,
      require_eq_ok hdepth, ok_bind, emit_eq_ok rfl hs]
    rfl

theorem isJump_of_shape {code : Opcode} (h : code.shape .legacy = .jump) : code.isJump := by
  revert h
  cases code <;> decide

theorem jumpsAsJump_of_permitted {i : Instruction} {cycle : Prop}
    (h : (Step.emit i).Permitted (.all cycle)) : jumpsAsJump i := by
  cases i with
  | jump code target => exact isJump_of_shape h.1
  | _ => rfl

/-- Every step that lowering takes comes to no breach. -/
theorem agrees_step {first : Step β} {cycle : Prop} (h : first.Permitted (.all cycle)) {s : State}
    (hs : Tidy s) : Agrees (step first s) (first.run s) fun r => Tidy r.2 := by
  refine ⟨?_, fun r hr => tidy_of_run hr hs⟩
  cases first with
  | emit i => exact emit_eq_ok (jumpsAsJump_of_permitted h) hs
  | number value =>
      change (plain value.checked >>= fun checked => emit (.number checked) s) = plain
        (value.checked >>= _ >>= _)
      cases value.checked with
      | error e => rfl
      | ok checked => exact emit_eq_ok (i := .number checked) rfl hs
  | eval hash context => exact emit_eq_ok (i := .localVariable _ hash) rfl hs
  | loopJump kind levels => exact loopJump_eq_plain kind levels hs
  | _ => rfl

theorem yields_all {cycle : Prop} (first : Step β) (b : β) : first.Yields (.all cycle) b := by
  cases first <;> trivial

/-- Whatever is made of steps is what some program does, and the program comes to no breach. -/
theorem exists_program {cycle given : Prop} {result : α → Prop} {x : Lower α}
    (hx : Composed (.all cycle) result given x) (hgiven : given) :
    ∃ program : Program α, program.run = x ∧
      ∀ s, Tidy s → Agrees (program.watched s) (x s) fun _ => True := by
  induction hx with
  | @pure _ a => exact ⟨.done a, rfl, fun _ _ => .ok trivial⟩
  | @throw _ e => exact ⟨.fail e, rfl, fun _ _ => .error⟩
  | @step _ _ first rest hfirst _ ih =>
      -- What follows the step has a program for each value that the step may give.
      choose programs hrun hwatched using fun b => ih b ⟨hgiven, yields_all first b⟩
      refine ⟨.next first programs, ?_, fun s hs => ?_⟩
      · rw [Program.run, funext hrun]
      · exact (agrees_step (hfirst hgiven) hs).bind fun r _ hr => hwatched r.1 r.2 hr

/-! ## Bodies come to no breach -/

/-- The machine of tasks finds every position that it looks up. -/
theorem exists_byTasks : ∃ steps, ∀ table parameters body s,
    byTasks steps table parameters body s =
      plain (lowerBody (macrosOf table) parameters body s) := by
  choose steps hrun using exists_runBody
  refine ⟨steps, fun table parameters body s => ?_⟩
  unfold byTasks
  rw [hrun, perform]
  cases lowerBody (macrosOf table) parameters body s with
  | error e => rfl
  | ok r => rfl

/-- The bodies of functions are lowered by programs, which come to no breach. -/
theorem exists_programs : ∃ programs : MacroTable → List Node → Node → Program Unit,
    ∀ table parameters body,
      (programs table parameters body).run = lowerBody (macrosOf table) parameters body ∧
      ∀ s, Tidy s → (programs table parameters body).watched s =
        plain (lowerBody (macrosOf table) parameters body s) := by
  have hprogram := fun table parameters body =>
    exists_program (orderly_lowerBody table parameters body).composed trivial
  choose programs hrun hwatched using hprogram
  exact ⟨programs, fun table parameters body =>
    ⟨hrun table parameters body, fun s hs => (hwatched table parameters body s hs).eq_plain⟩⟩

theorem defaultLast_eq_ok (branches : List Fragment) :
    defaultLast branches = .ok (Lowering.defaultLast branches) := by
  unfold defaultLast Lowering.defaultLast
  cases hposition : branches.findIdx? (·.is "default") with
  | none => rfl
  | some position =>
      obtain ⟨hlt, -⟩ := List.findIdx?_eq_some_iff_getElem.mp hposition
      simp only [List.getElem?_eq_getElem hlt]
      rfl

/-! ## Scripts come to no breach -/

section Scripts

variable {lower : Lowerer} (hlower : ∀ table parameters body s, Tidy s →
  lower table parameters body s = plain (lowerBody (macrosOf table) parameters body s))
include hlower

theorem agrees_lowerFunction (table : MacroTable) (n : Node) (script : Script) :
    Agrees (lowerFunction (lower table) n script) (Lowering.lowerFunction (macrosOf table) n script)
      fun r => r.2.functions = script.functions := by
  rw [Control.lowerFunction_eq]
  refine .plain_bind fun start hstart => ?_
  obtain ⟨name, hash, names, -, -, -, hs⟩ := Control.startOf_eq_ok (s := start.2) hstart
  -- The body is lowered behind the declaration of the locals, in a chain that is new.
  have htidy : Tidy start.2 := hs ▸ Chain.freeSlots_empty.push _
  have hbody : Agrees (lower table (Control.parametersOf n) start.1 start.2)
      (lowerBody (macrosOf table) (Control.parametersOf n) start.1 start.2)
      fun r => r.2.script.functions = script.functions := by
    refine ⟨hlower _ _ _ _ htidy, fun r hr => ?_⟩
    rw [(orderly_lowerBody table (Control.parametersOf n) start.1).script_eq hr, hs]
  rw [push_eq_ok Chain.freeSlots_empty]
  exact hbody.bind fun r _ hr => .ok hr

theorem agrees_addFunction (table : MacroTable) {script : Script} (hs : script.functions.FreeSlots)
    (n : Node) : Agrees (addFunction (lower table) script n)
      (Lowering.addFunction (macrosOf table) script n) fun script => script.functions.FreeSlots := by
  refine (agrees_lowerFunction hlower table n script).bind fun r _ hr => ?_
  refine .plain_bind fun added hadded => ?_
  have hfree : r.2.functions.FreeSlots := hr ▸ hs
  rw [push_eq_ok hfree]
  unfold Script.addFunction at hadded
  split at hadded <;> cases hadded
  exact .ok (hfree.push r.1)

/-- The functions that the items of a script outline are lowered without a breach. -/
theorem agrees_outline (items : List Node) {script : Script} (hs : script.functions.FreeSlots) :
    Agrees
      (plain (items.foldlM Outline.add { script }) >>= fun outline =>
        outline.functions.reverse.foldlM (addFunction (lower outline.macroTable)) outline.script)
      (items.foldlM Outline.add { script } >>= fun outline =>
        outline.functions.reverse.foldlM (Lowering.addFunction (macrosOf outline.macroTable))
          outline.script)
      fun script => script.functions.FreeSlots := by
  refine .plain_bind fun outline houtline => ?_
  obtain ⟨hscript, -, -⟩ := Control.foldlM_add_eq_ok items houtline
  have hfree : outline.script.functions.FreeSlots := by rwa [hscript]
  exact .foldlM _ hfree fun script hs n _ => agrees_addFunction hlower outline.macroTable hs n

omit hlower in
theorem functions_setNamespace {script script' : Script} {name : String}
    (h : script.setNamespace name = .ok script') : script'.functions = script.functions := by
  obtain ⟨⟨hash, hashed⟩, hhash, h⟩ := Control.except_bind_eq_ok.mp h
  obtain ⟨⟨_, names⟩, -, hhashed⟩ := Control.except_bind_eq_ok.mp hhash
  cases hhashed
  cases h
  rfl

theorem agrees_buildScript (settings : Settings) (root : Node) :
    Agrees (buildScript lower settings root) (Lowering.buildScript settings root)
      fun script => script.functions.FreeSlots := by
  have hempty : (Script.create settings).functions.FreeSlots := Chain.freeSlots_empty
  unfold buildScript Lowering.buildScript
  cases root.is "script" with
  | false => exact .error
  | true =>
      cases root.findChild? "namespace" with
      | none => exact agrees_outline hlower root.children hempty
      | some n =>
          refine .plain_bind fun name _ => ?_
          refine .plain_bind fun script hscript => ?_
          exact agrees_outline hlower root.children (functions_setNamespace hscript ▸ hempty)

/-- A script is compiled without a breach if the bodies of its functions are lowered without one. -/
theorem compileTree_eq_plain (settings : Settings) (root : Node) :
    compileTree lower settings root = plain (Lowering.compileTree settings root) :=
  ((agrees_buildScript hlower settings root).bind fun script _ _ => agrees_compile script).eq_plain

end Scripts

end GscAssembler.Checked

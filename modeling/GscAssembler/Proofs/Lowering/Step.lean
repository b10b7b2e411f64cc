import GscAssembler.Proofs.Control.Steps

/-!
# The steps of lowering

All that lowering does to its state, it does by the steps listed here: it asks for something, hashes a
name, enters something in a table, or changes the function under construction.  Each step says what
becomes of the state, and the error it may stop with.
-/

namespace GscAssembler.Lowering

open Code (Context ForeachLocals Instruction Key LoopJump ScriptFunction)
open Number (Constant)
open Reference (ImportKey)

variable {β : Type}

/-- The error of a macro that leads back to itself. -/
def cyclicError : CompileError :=
  .malformedNode "globals" "macro expands to itself"

/-- A single step of lowering, by the type of what it gives. -/
inductive Step : Type → Type where
  /-- Asks for the revision. -/
  | revision : Step Revision
  /-- Asks for the namespace of the script. -/
  | ownNamespace : Step UInt32
  /-- Asks for the flags of an import. -/
  | callFlags (name : String) (namespaceHash : UInt32) (context : Context) : Step UInt8
  /-- Hashes a name. -/
  | hash (name : String) : Step UInt32
  /-- Hashes a path or canonical value. -/
  | hash64 (name : String) : Step UInt64
  /-- Asks for the name of the function. -/
  | functionName : Step String
  /-- Asks whether a local is declared. -/
  | hasLocal (hash : UInt32) : Step Bool
  /-- Declares a local. -/
  | addLocal (hash : UInt32) : Step Unit
  /-- Reserves synthetic variables. -/
  | reserve (switches : List UInt32) (foreaches : List ForeachLocals) : Step Unit
  /-- Takes the variable of a switch. -/
  | switchKey : Step UInt32
  /-- Takes the variables of a loop over an array. -/
  | foreachLocals : Step ForeachLocals
  /-- Enters a text in the string table. -/
  | internString (text : String) : Step Nat
  /-- Enters a hash in the table of developer strings. -/
  | internDebugString (hash : UInt32) : Step Nat
  /-- Enters a hash in the table of global objects. -/
  | internGlobal (hash : UInt32) : Step Nat
  /-- Enters an import. -/
  | internImport (key : ImportKey) : Step Nat
  /-- Appends an instruction. -/
  | emit (i : Instruction) : Step Key
  /-- Appends a numeric constant. -/
  | number (value : Constant) : Step Key
  /-- Appends the evaluation of a local. -/
  | eval (hash : UInt32) (context : Context) : Step Key
  /-- Asks for the last instruction. -/
  | lastKey : Step Key
  /-- Lets a jump land behind an instruction. -/
  | setTarget (jump after : Key) : Step Unit
  /-- Opens a loop or switch. -/
  | enterLoop : Step Unit
  /-- Appends a jump out of loops. -/
  | loopJump (kind : LoopJump) (levels : Nat) : Step Key
  /-- Closes a loop or switch. -/
  | exitLoop (header : Option Key) (footer : Key) : Step Unit

namespace Step

/-- Takes a step. -/
def run : Step β → Lower β
  | .revision => getRevision
  | .ownNamespace => getNamespace
  | .callFlags name owner context => Lowering.callFlags name owner context
  | .hash name => hashName name
  | .hash64 name => hashName64 name
  | .functionName => do return (← get).function.name
  | .hasLocal name => do return (← get).function.hasLocal name
  | .addLocal name => modifyFunction fun f => f.addLocal name
  | .reserve switches foreaches => modifyFunction fun f =>
      { f with
        switchKeys := switches ++ f.switchKeys
        foreachKeys := foreaches ++ f.foreachKeys }
  | .switchKey => updateFunction fun f => f.popSwitchKey
  | .foreachLocals => updateFunction fun f => f.popForeachLocals
  | .internString text => Lowering.internString text
  | .internDebugString text => Lowering.internDebugString text
  | .internGlobal object => Lowering.internGlobal object
  | .internImport key => Lowering.internImport key
  | .emit i => Lowering.emit i
  | .number value => updateFunction fun f => f.addNumber value
  | .eval name context => updateFunction fun f => .ok (f.addEval name context)
  | .lastKey => Lowering.lastKey
  | .setTarget jump after => Lowering.setTarget jump after
  | .enterLoop => Lowering.enterLoop
  | .loopJump kind levels => updateFunction fun f => f.addLoopJump kind levels
  | .exitLoop header footer => Lowering.exitLoop header footer

end Step

/-! ## What every step does -/

theorem updateFunction_eq_ok {f : ScriptFunction → Except CompileError (β × ScriptFunction)}
    {s s' : State} {b : β} : updateFunction f s = .ok (b, s') ↔
      ∃ function, f s.function = .ok (b, function) ∧ s' = { s with function } := by
  change (f s.function).bind _ = _ ↔ _
  cases f s.function with
  | error e => simp [Except.bind]
  | ok r =>
      simp only [Except.bind, pure, Except.pure, Except.ok.injEq, Prod.mk.injEq]
      constructor
      · rintro ⟨rfl, rfl⟩
        exact ⟨r.2, rfl, rfl⟩
      · rintro ⟨function, rfl, rfl⟩
        exact ⟨rfl, rfl⟩

theorem updateFunction_eq_error {f : ScriptFunction → Except CompileError (β × ScriptFunction)}
    {s : State} {e : CompileError} :
    updateFunction f s = .error e ↔ f s.function = .error e := by
  change (f s.function).bind _ = _ ↔ _
  cases f s.function with
  | error e => simp [Except.bind]
  | ok r => simp [Except.bind, pure, Except.pure]

/-- What a step changes in the script are the tables and the remembered names. -/
theorem Step.script_eq {step : Step β} {s s' : State} {b : β} (h : step.run s = .ok (b, s')) :
    s'.script = { s.script with tables := s'.script.tables, names := s'.script.names } := by
  cases step with
  | hash name =>
      obtain ⟨names, -, rfl⟩ := Control.hashName_eq_ok.mp h
      rfl
  | hash64 name =>
      obtain ⟨names, -, rfl⟩ := Control.hashName64_eq_ok.mp h
      rfl
  | switchKey | foreachLocals | number | eval | loopJump | exitLoop =>
      rw [run] at h
      obtain ⟨function, -, rfl⟩ := updateFunction_eq_ok.mp h
      rfl
  | _ =>
      cases h
      rfl

theorem hash_ne_cyclic (script : Script) (name : String) :
    script.hash name ≠ .error cyclicError := by
  unfold Script.hash Name.Registry.hash cyclicError
  intro h
  split at h <;> try split at h
  all_goals cases h

theorem hash64_ne_cyclic (script : Script) (name : String) :
    script.hash64 name ≠ .error cyclicError := by
  unfold Script.hash64 Name.Registry.hash64 cyclicError
  intro h
  split at h <;> try split at h
  all_goals cases h

theorem settle_fst_ne_cyclic (header : Option Key) (footer : Key)
    (pending : List Code.PendingJump) (f : ScriptFunction) :
    (ScriptFunction.settle header footer pending f).1 ≠ some cyclicError := by
  fun_induction ScriptFunction.settle header footer pending f with
  | case1 f => exact nofun
  | case2 header jump rest f ih => exact ih
  | case3 jump rest f header ih => exact ih
  | case4 jump rest f outer scopes hscopes ih => exact ih
  | case5 jump rest f hscopes =>
      intro h
      exact absurd (CompileError.malformedNode.inj (Option.some.inj h)).1 (by decide)

/-- No step makes the error of a cyclic macro. -/
theorem Step.run_ne_cyclic (step : Step β) (s : State) : step.run s ≠ .error cyclicError := by
  intro h
  cases step with
  | hash name =>
      rcases Control.except_bind_eq_error.mp (show (s.script.hash name).bind _ = _ from h) with
        h | ⟨r, -, h⟩
      · exact hash_ne_cyclic _ _ h
      · cases h
  | hash64 name =>
      rcases Control.except_bind_eq_error.mp (show (s.script.hash64 name).bind _ = _ from h) with
        h | ⟨r, -, h⟩
      · exact hash64_ne_cyclic _ _ h
      · cases h
  | switchKey =>
      rw [run, updateFunction_eq_error] at h
      unfold ScriptFunction.popSwitchKey at h
      split at h <;> cases h
  | foreachLocals =>
      rw [run, updateFunction_eq_error] at h
      unfold ScriptFunction.popForeachLocals at h
      split at h <;> cases h
  | number value =>
      rw [run, updateFunction_eq_error] at h
      cases value with
      | float bits => cases h
      | int value =>
          simp only [ScriptFunction.addNumber, Constant.checked] at h
          split at h <;> cases h
  | eval =>
      rw [run, updateFunction_eq_error] at h
      cases h
  | loopJump kind levels =>
      rw [run, updateFunction_eq_error] at h
      simp only [ScriptFunction.addLoopJump] at h
      split at h
      · exact absurd (CompileError.malformedNode.inj (Except.error.inj h)).1 (by decide)
      · cases h
  | exitLoop header footer =>
      rw [run] at h
      have h := updateFunction_eq_error.mp h
      cases hresult : s.function.exitLoop header footer with
      | mk error f =>
          rw [hresult] at h
          cases error with
          | none => cases h
          | some e =>
              cases Except.error.inj h
              unfold ScriptFunction.exitLoop at hresult
              split at hresult
              · cases hresult
              · exact settle_fst_ne_cyclic _ _ _ _ (congrArg Prod.fst hresult)
  | _ => cases h

end GscAssembler.Lowering

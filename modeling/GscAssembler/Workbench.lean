import GscAssembler.Lowering.State

/-!
# Workbenches

A script need not come from a syntax tree.  On a `Workbench` it is put together by hand: beside the
script lies a list of functions, each either part of the script or loose, and code can be emitted
into all of them.  The workbench remembers the keys of the instructions it has emitted into each
function, so that later edits can refer to them by position.
-/

namespace GscAssembler

open Code (Key ScriptFunction)
open Lowering (Lower)

/-- A function on a workbench. -/
structure Workpiece where
  /-- The function itself, unless it is part of the script. -/
  loose : Option ScriptFunction
  /-- The key under which it is exported, or was last. -/
  exported : Option Key := none
  /-- The keys of its instructions in the order of their emission. -/
  handles : Array Key

/-- A script and the functions that are worked on. -/
structure Workbench where
  /-- The script. -/
  script : Script
  /-- The functions. -/
  pieces : Array Workpiece := #[]

namespace Workbench

/-- The workbench of a script, with its functions in the order of their export. -/
def ofScript (script : Script) : Workbench :=
  let pieces := script.functions.toList.map fun (key, f) =>
    ({ loose := none, exported := some key, handles := f.chain.keys.toArray } : Workpiece)
  { script, pieces := pieces.toArray }

/-- A function of the workbench. -/
def function? (w : Workbench) (position : Nat) : Option ScriptFunction := do
  let piece ← w.pieces[position]?
  match piece.loose with
  | some f => some f
  | none => w.script.functions.get? (← piece.exported)

/-- Replaces a function where it lies. -/
def replace (w : Workbench) (position : Nat) (f : ScriptFunction) : Workbench :=
  match w.pieces[position]? with
  | some ⟨none, some key, _⟩ =>
      { w with script := { w.script with functions := w.script.functions.modify key fun _ => f } }
  | _ => { w with pieces := w.pieces.modify position fun piece => { piece with loose := some f } }

/-- Lays a loose function onto the workbench. -/
def addLoose (w : Workbench) (f : ScriptFunction) (handles : Array Key) : Nat × Workbench :=
  (w.pieces.size, { w with pieces := w.pieces.push { loose := some f, handles } })

/-- Works on a function. -/
def work {α : Type} (w : Workbench) (position : Nat) (act : Lower α) :
    Except CompileError (α × Workbench) :=
  match w.function? position with
  | none => .error .unknownFunction
  | some function => do
      let (result, s) ← act { script := w.script, function }
      return (result, { w with script := s.script }.replace position s.function)

/-- Remembers the keys of instructions of a function. -/
def keep (w : Workbench) (position : Nat) (keys : Array Key) : Workbench :=
  { w with
    pieces := w.pieces.modify position fun piece => { piece with handles := piece.handles ++ keys } }

/-- The keys remembered for a function. -/
def handles (w : Workbench) (position : Nat) : Array Key :=
  (w.pieces[position]?.map Workpiece.handles).getD #[]

/-- Exports a loose function. -/
def publish (w : Workbench) (position : Nat) : Except CompileError (Key × Workbench) :=
  match w.function? position with
  | none => .error .unknownFunction
  | some f => do
      let (key, script) ← w.script.addFunction f
      let pieces := w.pieces.modify position fun piece =>
        { piece with loose := none, exported := some key }
      return (key, { script, pieces })

/-- Takes a function out of the script. -/
def withdraw (w : Workbench) (position : Nat) : Except CompileError (ScriptFunction × Workbench) :=
  match w.pieces[position]?.bind Workpiece.exported with
  | none => .error .unknownFunction
  | some key => do
      let (f, script) ← w.script.removeFunction key
      let pieces := w.pieces.modify position fun piece => { piece with loose := some f }
      return (f, { script, pieces })

end Workbench

end GscAssembler

import GscAssembler.Image.Assemble
import GscAssembler.Lowering.Locals
import GscAssembler.Lowering.Node

/-!
# Lowering a script

A script's tree lists its namespace, the scripts it includes, its macros and its functions.  All but
the functions are taken in first, in whatever order they stand; then the functions are lowered one
after the other.
-/

namespace GscAssembler.Lowering

open Code (ScriptFunction)
open Text (asciiLower)
open SyntaxTree (Node)

/-- The function runs when the script is loaded. -/
def exportAutoexec : UInt8 := 2

/-- The function is not seen by other scripts. -/
def exportPrivate : UInt8 := 4

/-- The export flags of a function node. -/
def exportFlags (n : Node) : UInt8 :=
  (if (n.findChild? "autoexec").isSome then exportAutoexec else 0) |||
  (if (n.findChild? "private").isSome then exportPrivate else 0)

/-- Declares the parameters of a function, and lists those that have a default. -/
def declareParameters : List Node → Lower (List (UInt32 × Node))
  | [] => return []
  | parameter :: rest => do
      let hash ← declare (← parameter.text)
      let others ← declareParameters rest
      match parameter.children with
      | [] => return others
      | value :: _ => return (hash, value) :: others

/-- Emits the code of a function: the defaults of its parameters, its body, and its end. -/
def lowerBody (macros : Macros) (parameters : List Node) (body : Node) : Lower Unit := do
  let defaults ← declareParameters parameters
  collectLocals body
  defaults.forM fun (hash, value) => defaultParameter hash (lowerNode macros value .plain)
  lowerNode macros body .plain
  emitOp .endFunction

/-- Lowers the function of a node. -/
def lowerFunction (macros : Macros) (n : Node) (script : Script) :
    Except CompileError (ScriptFunction × Script) := do
  let name := asciiLower (← n.text)
  let parameters := ((n.findChild? "parameters").map Node.children).getD []
  match n.findChild? "block" with
  | none => throw (n.malformed "missing function body")
  | some body =>
      requireAtMost "parameters" parameters.length maxParameters
      let (hash, script) ← script.hash name
      let function := ScriptFunction.create script.target name hash script.namespaceHash
        (UInt8.ofNat parameters.length) (exportFlags n)
      let ((), s) ← (lowerBody macros parameters body).run { script, function }
      return (s.function, s.script)

/-- What was taken in of a script's tree. -/
structure Outline where
  /-- The script, with its namespace and includes. -/
  script : Script
  /-- The macros. -/
  macroTable : MacroTable := []
  /-- The names of the functions. -/
  names : List String := []
  /-- The nodes of the functions, last first. -/
  functions : List Node := []

/-- Takes in one item of a script. -/
def Outline.add (o : Outline) (item : Node) : Except CompileError Outline := do
  match item.kind with
  | "namespace" => return o
  | "includes" =>
      let path ← item.text
      return { o with script := (o.script.addInclude path).2 }
  | "globals" =>
      let name := asciiLower (← item.text)
      let expression ← item.child 0
      return { o with macroTable := o.macroTable.define name expression }
  | "function" =>
      let name := asciiLower (← item.text)
      if name ∈ o.names then throw (.duplicateFunction name)
      return { o with names := name :: o.names, functions := item :: o.functions }
  | kind => throw (.unsupportedNode kind)

/-- Lowers a function of a script and exports it. -/
def addFunction (macros : Macros) (script : Script) (n : Node) : Except CompileError Script := do
  let (function, script) ← lowerFunction macros n script
  let (_, script) ← script.addFunction function
  return script

/-- Lowers the tree of a script. -/
def buildScript (settings : Settings) (root : Node) : Except CompileError Script := do
  if !root.is "script" then throw (root.malformed "expected a script node")
  let script := Script.create settings
  let script ← match root.findChild? "namespace" with
    | some n => do script.setNamespace (← n.text)
    | none => pure script
  let outline ← root.children.foldlM Outline.add { script }
  outline.functions.reverse.foldlM (addFunction (macrosOf outline.macroTable)) outline.script

/-- Lowers the tree of a script and assembles its image. -/
def compileTree (settings : Settings) (root : Node) : Except CompileError CompiledScript := do
  let script ← buildScript settings root
  script.compile

end GscAssembler.Lowering

import GscAssembler.Lowering.State
import GscAssembler.Text.Ascii

/-!
# The locals of a function

Before a function is lowered, its body is searched for the locals it needs: variables that are
assigned or bound by a wait, and the synthetic variables of its loops over arrays and its switches.
The search follows reading order, so the synthetic variables are reserved in the order in which
lowering asks for them.
-/

namespace GscAssembler.Lowering

open Code (ForeachLocals)
open SyntaxTree (Node)

/-- The synthetic variables reserved so far. -/
structure Reserved where
  /-- The number of the next construct that needs synthetic variables. -/
  next : Nat := 0
  /-- The variables of the switches, in reading order. -/
  switches : Array UInt32 := #[]
  /-- The variables of the loops over arrays, in reading order. -/
  foreaches : Array ForeachLocals := #[]

/-- Declares a synthetic variable, which is named for its purpose and numbered. -/
def declareSynthetic (what : String) (index : Nat) : Lower UInt32 :=
  declare ("$" ++ what ++ toString index)

/-- Declares a node's text as a local, if the node is an identifier. -/
def declareIdentifier (n : Node) : Lower Unit := do
  if n.is "identifier" then
    let name ← n.text
    discard (declare name)

mutual

/-- Declares all identifiers of a tree, its last parts first. -/
def declareBound : Node → Lower Unit
  | .mk kind text value children => do
      declareIdentifier (.mk kind text value children)
      declareBoundReversed children

/-- Declares all identifiers of several trees, the last first. -/
def declareBoundReversed : List Node → Lower Unit
  | [] => return
  | n :: rest => do
      declareBoundReversed rest
      declareBound n

end

/-- Reserves the variables of a loop over an array. -/
def reserveForeach (r : Reserved) : Lower Reserved := do
  let array ← declareSynthetic "array" r.next
  let locals ←
    if ← isLegacy then
      let key ← declareSynthetic "key" r.next
      pure { array, iterator := 0, key, nextKey := 0 }
    else
      let iterator ← declareSynthetic "iterator" r.next
      let key ← declareSynthetic "key" r.next
      let nextKey ← declareSynthetic "next" r.next
      pure { array, iterator, key, nextKey }
  return { r with next := r.next + 1, foreaches := r.foreaches.push locals }

/-- Reserves the variable of a switch. -/
def reserveSwitch (r : Reserved) : Lower Reserved := do
  let key ← declareSynthetic "switch" r.next
  return { r with next := r.next + 1, switches := r.switches.push key }

/-- Declares what a single node needs. -/
def reserveFor (n : Node) (r : Reserved) : Lower Reserved := do
  match n.kind with
  | "setVariableField" =>
      n.children.head?.forM declareIdentifier
      return r
  | "foreachSingle" =>
      let r ← reserveForeach r
      (n.children.take 1).forM declareIdentifier
      return r
  | "foreachDouble" =>
      let r ← reserveForeach r
      (n.children.take 2).forM declareIdentifier
      return r
  | "switchStatement" => reserveSwitch r
  | "call" =>
      if n.text?.any (Text.equalsIgnoringAsciiCase · "waittill") then
        if let some arguments := n.findChild? "arguments" then
          declareBoundReversed (arguments.children.drop 1)
      return r
  | _ => return r

mutual

/-- Declares what a tree needs, in reading order. -/
def reserve : Node → Reserved → Lower Reserved
  | .mk kind text value children, r => do
      let r ← reserveFor (.mk kind text value children) r
      reserveAll children r

/-- Declares what several trees need. -/
def reserveAll : List Node → Reserved → Lower Reserved
  | [], r => return r
  | n :: rest, r => do
      let r ← reserve n r
      reserveAll rest r

end

/-- Declares the locals of a function's body and reserves its synthetic variables. -/
def collectLocals (body : Node) : Lower Unit := do
  let r ← reserve body {}
  modifyFunction fun f =>
    { f with
      switchKeys := r.switches.toList ++ f.switchKeys
      foreachKeys := r.foreaches.toList ++ f.foreachKeys }

end GscAssembler.Lowering

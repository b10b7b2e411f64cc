import GscAssembler.Lowering.State

/-!
# Fragments

A `Fragment` is a node that knows how to emit its code in a context.  A lowering rule is given a
`Construct`, which is a node with the fragments of its children: it decides in which order, how often
and in which contexts the parts emit their code, but never looks at how they do it.
-/

namespace GscAssembler.Lowering

open Code (Context)
open SyntaxTree (Node)

/-- A node together with the code it emits, and its parts. -/
inductive Fragment where
  /-- A node, the fragments of its children, and the code it emits in a context. -/
  | mk (node : Node) (parts : List Fragment) (code : Context → Lower Unit)

namespace Fragment

/-- The node of a fragment. -/
def node : Fragment → Node
  | mk node _ _ => node

/-- The fragments of a node's children. -/
def parts : Fragment → List Fragment
  | mk _ parts _ => parts

/-- Emits the code of a fragment in a context. -/
def lower : Fragment → Context → Lower Unit
  | mk _ _ code => code

/-- Emits the code of a fragment for its value. -/
def lowerValue (f : Fragment) : Lower Unit :=
  f.lower .plain

/-- Whether a fragment's node is of a kind. -/
def is (f : Fragment) (kind : String) : Bool :=
  f.node.is kind

end Fragment

/-- A node with the fragments of its children: all that the rule of its kind can see. -/
structure Construct where
  /-- The node. -/
  node : Node
  /-- The fragments of its children. -/
  parts : List Fragment

namespace Construct

/-- The part at a position, which must be there. -/
def part (c : Construct) (position : Nat) : Except CompileError Fragment :=
  match c.parts[position]? with
  | some part => .ok part
  | none => .error (c.node.malformed "missing child")

/-- The first part of a kind. -/
def findPart? (c : Construct) (kind : String) : Option Fragment :=
  c.parts.find? (·.is kind)

end Construct

/-- What a fragment was made of. -/
def Fragment.construct (f : Fragment) : Construct :=
  ⟨f.node, f.parts⟩

/-- Emits the values of several fragments in order. -/
def lowerValues (fragments : List Fragment) : Lower Unit :=
  fragments.forM Fragment.lowerValue

/-- What a rule knows of a script's macros: for each name of a macro, the code of its expression. -/
structure Macros where
  /-- The code of the macro of a name. -/
  code? : String → Option (Context → Lower Unit)

end GscAssembler.Lowering

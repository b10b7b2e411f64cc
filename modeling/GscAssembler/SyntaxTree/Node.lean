import GscAssembler.Error
import GscAssembler.Number.Decimal

/-!
# Syntax trees

A script comes as a tree of nodes.  Each has a kind, and may have the text of a token, a number and
children.  What a kind expects of the others is checked where the node is used: `Node.text`,
`Node.child` and `Node.malformed` name the node in their errors.
-/

namespace GscAssembler.SyntaxTree

open Number (Constant)

/-- The number of a node: an integer of 64 bits, or a double by its bits. -/
inductive Literal where
  /-- An integer. -/
  | int (value : Int)
  /-- A double. -/
  | double (bits : UInt64)
  deriving DecidableEq, Repr

/-- A node of a syntax tree. -/
inductive Node where
  /-- A node by its kind, token text, number and children. -/
  | mk (kind : String) (text : Option String) (value : Option Literal) (children : List Node)

namespace Node

/-- The kind of a node. -/
def kind : Node → String
  | mk kind _ _ _ => kind

/-- The token text of a node, if it has one. -/
def text? : Node → Option String
  | mk _ text _ _ => text

/-- The number of a node, if it has one. -/
def value? : Node → Option Literal
  | mk _ _ value _ => value

/-- The children of a node. -/
def children : Node → List Node
  | mk _ _ _ children => children

/-- An error about the shape of a node. -/
def malformed (n : Node) (reason : String) : CompileError :=
  .malformedNode n.kind reason

/-- The token text, which must be there. -/
def text (n : Node) : Except CompileError String :=
  match n.text? with
  | some text => .ok text
  | none => .error (n.malformed "missing token text")

/-- The child at a position, which must be there. -/
def child (n : Node) (position : Nat) : Except CompileError Node :=
  match n.children[position]? with
  | some child => .ok child
  | none => .error (n.malformed "missing child")

/-- Whether a node is of a kind. -/
def is (n : Node) (kind : String) : Bool :=
  n.kind == kind

/-- The first child of a kind. -/
def findChild? (n : Node) (kind : String) : Option Node :=
  n.children.find? (·.is kind)

mutual

/-- A node and all below it in reading order, each with its depth. -/
def preorder (depth : Nat) : Node → List (Nat × Node)
  | mk kind text value children =>
      (depth, mk kind text value children) :: preorderAll (depth + 1) children

/-- The nodes of several trees in reading order, each with its depth. -/
def preorderAll (depth : Nat) : List Node → List (Nat × Node)
  | [] => []
  | n :: rest => preorder depth n ++ preorderAll depth rest

end

end Node

end GscAssembler.SyntaxTree

import GscAssembler.Json.Reader
import GscAssembler.SyntaxTree.Node

/-!
# Reading syntax trees

A node is written as an object with the fields `kind`, `text`, `value` and `children`, or as an array
of them in this order.  Only the kind is required, the others may be missing, and the array may stop
early.  Unknown fields are passed over, whatever they hold; a known field must not be repeated.
-/

namespace GscAssembler.SyntaxTree

open Number (Decimal fitsInt64 ofDigits)

/-- The number that a numeral denotes: an integer if it is written as one and has 64 bits, else a
double.  A minus sign before zero makes a double, and too large a number is refused. -/
def Literal.ofDecimal? (d : Decimal) : Option Literal :=
  let whole : Int := ofDigits d.whole
  let value := if d.negative then -whole else whole
  if d.plain && fitsInt64 value && !(d.negative && whole == 0) then some (.int value)
  else d.scaledDouble?.map .double

/-- The fields of a node as far as they were read. -/
structure Draft where
  /-- The kind, once read. -/
  kind : Option String := none
  /-- The token text, once read. -/
  text : Option (Option String) := none
  /-- The number, once read. -/
  value : Option (Option Literal) := none
  /-- The children, once read. -/
  children : Option (List Node) := none

namespace Draft

/-- Reads the kind. -/
def takeKind (d : Draft) : Json → Option Draft
  | .string (some kind) => if d.kind.isNone then some { d with kind := some kind } else none
  | _ => none

/-- Reads the token text. -/
def takeText (d : Draft) (json : Json) : Option Draft :=
  if d.text.isSome then none
  else match json with
    | .null => some { d with text := some none }
    | .string (some text) => some { d with text := some (some text) }
    | _ => none

/-- Reads the number. -/
def takeValue (d : Draft) (json : Json) : Option Draft :=
  if d.value.isSome then none
  else match json with
    | .null => some { d with value := some none }
    | .number numeral => do
        let literal ← Literal.ofDecimal? numeral
        some { d with value := some (some literal) }
    | _ => none

/-- Takes over the children. -/
def takeChildren (d : Draft) (children : List Node) : Option Draft :=
  if d.children.isSome then none else some { d with children := some children }

/-- The finished node. -/
def node? (d : Draft) : Option Node := do
  let kind ← d.kind
  some (.mk kind (d.text.getD none) (d.value.getD none) (d.children.getD []))

end Draft

mutual

/-- The node that a value describes. -/
def Node.ofJson? : Json → Option Node
  | .object fields => do
      let draft ← Node.readFields fields {}
      draft.node?
  | .array [kind] => do
      let draft ← Draft.takeKind {} kind
      draft.node?
  | .array [kind, text] => do
      let draft ← Draft.takeKind {} kind
      let draft ← draft.takeText text
      draft.node?
  | .array [kind, text, value] => do
      let draft ← Draft.takeKind {} kind
      let draft ← draft.takeText text
      let draft ← draft.takeValue value
      draft.node?
  | .array [kind, text, value, .array items] => do
      let draft ← Draft.takeKind {} kind
      let draft ← draft.takeText text
      let draft ← draft.takeValue value
      let children ← Node.ofItems? items
      let draft ← draft.takeChildren children
      draft.node?
  | _ => none

/-- The nodes that several values describe. -/
def Node.ofItems? : List Json → Option (List Node)
  | [] => some []
  | item :: rest => do
      let first ← Node.ofJson? item
      let others ← Node.ofItems? rest
      some (first :: others)

/-- Reads the fields of a node. -/
def Node.readFields : List (Option String × Json) → Draft → Option Draft
  | [], draft => some draft
  | (none, _) :: _, _ => none
  | (some "kind", json) :: rest, draft => do
      let draft ← draft.takeKind json
      Node.readFields rest draft
  | (some "text", json) :: rest, draft => do
      let draft ← draft.takeText json
      Node.readFields rest draft
  | (some "value", json) :: rest, draft => do
      let draft ← draft.takeValue json
      Node.readFields rest draft
  | (some "children", .array items) :: rest, draft => do
      let children ← Node.ofItems? items
      let draft ← draft.takeChildren children
      Node.readFields rest draft
  | (some name, _) :: rest, draft =>
      if name = "children" then none else Node.readFields rest draft

end

/-- Reads a syntax tree from its text. -/
def Node.read (text : String) : Except CompileError Node :=
  match (Json.parse? text).bind Node.ofJson? with
  | some node => .ok node
  | none => .error .badTree

end GscAssembler.SyntaxTree

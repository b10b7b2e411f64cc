import GscAssembler.Lowering.Call
import GscAssembler.Lowering.Statement

/-!
# Lowering a tree

Every kind of node has one rule.  A tree is lowered from its leaves up: the fragments of a node's
children are made first, and the rule of the node's kind turns them into the fragment of the node
itself.  Macros are lowered where their names stand; a macro that leads back to itself is an error.
-/

namespace GscAssembler.Lowering

open Code (Context)
open SyntaxTree (Node)

/-- The kinds of nodes that have a rule. -/
inductive Kind where
  /-- Children one after the other. -/
  | sequence
  /-- A branch on a condition. -/
  | ifStatement
  /-- A choice between two values. -/
  | conditional
  /-- A loop that tests before each round. -/
  | whileStatement
  /-- A counting loop. -/
  | forStatement
  /-- A loop over the values of an array. -/
  | foreachSingle
  /-- A loop over the keys and values of an array. -/
  | foreachDouble
  /-- A switch. -/
  | switchStatement
  /-- A jump out of a loop. -/
  | jumpStatement
  /-- A return. -/
  | returnStatement
  /-- A pause. -/
  | wait
  /-- A pause until the frame ends. -/
  | waitTillFrameEnd
  /-- A call whose result is dropped. -/
  | simpleCall
  /-- A call. -/
  | call
  /-- An assignment. -/
  | assignment
  /-- The elements of an array, which only an assignment takes. -/
  | shortHandArray
  /-- A name. -/
  | identifier
  /-- A field of an object. -/
  | directAccess
  /-- A field of an object that may be undefined. -/
  | definedAccess
  /-- An element of an array. -/
  | element
  /-- A logical expression. -/
  | booleanExpression
  /-- A negation. -/
  | boolNot
  /-- The size of a value. -/
  | size
  /-- A comparison. -/
  | relationalExpression
  /-- An arithmetic expression. -/
  | expression
  /-- A value with a replacement if it is undefined. -/
  | coalesce
  /-- A test of a type. -/
  | typeComparison
  /-- A negated test of a type. -/
  | typeComparisonInverted
  /-- A conversion. -/
  | castOp
  /-- A string. -/
  | stringLiteral
  /-- A localized string. -/
  | localizedString
  /-- A developer string. -/
  | debugString
  /-- A hash value. -/
  | hashedString
  /-- The hash of a text. -/
  | canonicalHash
  /-- A number. -/
  | numberLiteral
  /-- A vector. -/
  | vector
  /-- An empty array. -/
  | newArray
  /-- A pointer to a function. -/
  | functionPointer
  deriving DecidableEq, Repr

/-- The names under which the kinds appear in trees. -/
def kindNames : List (String × Kind) :=
  [("script", .sequence), ("block", .sequence), ("blockContent", .sequence),
   ("statement", .sequence), ("statementBlock", .sequence), ("declaration", .sequence),
   ("parenExpr", .sequence), ("empty", .sequence),
   ("ifStatement", .ifStatement), ("conditionalStatement", .conditional),
   ("whileStatement", .whileStatement), ("forStatement", .forStatement),
   ("foreachSingle", .foreachSingle), ("foreachDouble", .foreachDouble),
   ("switchStatement", .switchStatement), ("jumpStatement", .jumpStatement),
   ("return", .returnStatement), ("wait", .wait), ("waitTillFrameEnd", .waitTillFrameEnd),
   ("simpleCall", .simpleCall), ("call", .call), ("setVariableField", .assignment),
   ("shortHandArray", .shortHandArray), ("identifier", .identifier),
   ("directAccess", .directAccess), ("definedAccess", .definedAccess), ("array", .element),
   ("booleanExpression", .booleanExpression), ("boolNot", .boolNot), ("size", .size),
   ("relationalExpression", .relationalExpression), ("expression", .expression),
   ("undefined_coalesce", .coalesce), ("typeComparison", .typeComparison),
   ("typeComparisonInverted", .typeComparisonInverted), ("castOp", .castOp),
   ("stringLiteral", .stringLiteral), ("iString", .localizedString),
   ("debugString", .debugString), ("hashedString", .hashedString),
   ("canonHashed", .canonicalHash), ("numberLiteral", .numberLiteral), ("vector", .vector),
   ("newArray", .newArray), ("getFunction", .functionPointer)]

/-- The kind of a name. -/
def Kind.ofName? (name : String) : Option Kind :=
  kindNames.lookup name

/-- The rule of a kind. -/
def Kind.rule (macros : Macros) (c : Construct) (context : Context) : Kind → Lower Unit
  | .sequence => c.parts.forM fun part => part.lower context
  | .ifStatement => lowerIf c false
  | .conditional => lowerIf c true
  | .whileStatement => lowerWhile c
  | .forStatement => lowerFor c
  | .foreachSingle => lowerForeach c false
  | .foreachDouble => lowerForeach c true
  | .switchStatement => lowerSwitch c
  | .jumpStatement => lowerLoopJump c.node
  | .returnStatement => lowerReturn c
  | .wait => lowerUnary .wait c
  | .waitTillFrameEnd => emitOp .waitTillFrameEnd
  | .simpleCall => do (← c.part 0).lower .decTop
  | .call => lowerCall c context
  | .assignment => lowerAssignment c
  | .shortHandArray => throw (c.node.malformed "array shorthand outside of an assignment")
  | .identifier => lowerIdentifier macros c.node context
  | .directAccess => lowerField c context
  | .definedAccess => lowerDefinedField c context
  | .element => lowerElement c context
  | .booleanExpression => lowerBoolean c context
  | .boolNot => lowerUnary .boolNot c
  | .size => lowerUnary .sizeOf c
  | .relationalExpression => lowerBinary Code.compareOp? c
  | .expression => lowerBinary Code.mathOp? c
  | .coalesce => lowerCoalesce c
  | .typeComparison => lowerTypeTest c false
  | .typeComparisonInverted => lowerTypeTest c true
  | .castOp => lowerCast c
  | .stringLiteral => do emitString .getString (← c.node.text)
  | .localizedString => do emitString .getIString (← c.node.text)
  | .debugString => lowerDebugString c.node
  | .hashedString => lowerHashed c.node
  | .canonicalHash => lowerCanonicalHash c.node
  | .numberLiteral => lowerNumber c.node
  | .vector => lowerVector c
  | .newArray => emitOp .getEmptyArray
  | .functionPointer => lowerFunctionPointer c

/-- The code of a construct, by the rule of its node's kind. -/
def Construct.lower (macros : Macros) (c : Construct) (context : Context) : Lower Unit :=
  match Kind.ofName? c.node.kind with
  | some kind => kind.rule macros c context
  | none => throw (.unsupportedNode c.node.kind)

mutual

/-- The fragment of a tree. -/
def fragment (macros : Macros) : Node → Fragment
  | .mk kind text value children =>
      let node := Node.mk kind text value children
      let parts := fragments macros children
      .mk node parts (Construct.lower macros ⟨node, parts⟩)

/-- The fragments of several trees. -/
def fragments (macros : Macros) : List Node → List Fragment
  | [] => []
  | n :: rest => fragment macros n :: fragments macros rest

end

/-- Lowers a tree in a context. -/
def lowerNode (macros : Macros) (n : Node) (context : Context) : Lower Unit :=
  (fragment macros n).lower context

/-! ## Macros -/

/-- The macros of a script: names in lower case with the expressions they stand for. -/
abbrev MacroTable := List (String × Node)

/-- Defines a macro, in place of an earlier one of that name. -/
def MacroTable.define (table : MacroTable) (name : String) (expression : Node) : MacroTable :=
  (name, expression) :: table.filter (·.1 ≠ name)

/-- Stops at a macro that leads back to itself. -/
def cyclicMacro : Lower Unit :=
  throw (.malformedNode "globals" "macro expands to itself")

/-- The macros of a table while some of them are being expanded.  At most `depth` more can be
expanded inside one another before a name must repeat. -/
def expansions (table : MacroTable) : (depth : Nat) → (expanding : List String) → Macros
  | 0, _ => ⟨fun name => (table.lookup name).map fun _ _ => cyclicMacro⟩
  | depth + 1, expanding =>
      ⟨fun name => (table.lookup name).map fun expression context =>
        if name ∈ expanding then cyclicMacro
        else lowerNode (expansions table depth (name :: expanding)) expression context⟩

/-- The macros of a table where none is being expanded. -/
def macrosOf (table : MacroTable) : Macros :=
  expansions table table.length []

end GscAssembler.Lowering

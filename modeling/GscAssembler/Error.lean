/-!
# Reasons why a script cannot be assembled

Every operation that can fail names its reason as a `CompileError`.  The wording shown to a user is
produced in one place, by `CompileError.message`, so the rest of the library only ever decides
*which* reason applies.
-/

namespace GscAssembler

/-- Why a syntax tree could not be lowered, or a script not be laid out as an image. -/
inductive CompileError where
  /-- A node kind that has no lowering rule. -/
  | unsupportedNode (kind : String)
  /-- An operator token without an operation. -/
  | unknownOperator (token : String)
  /-- A local variable that the function never declares. -/
  | unknownVariable (name function : String)
  /-- A builtin operation that does not exist under this name. -/
  | unknownBuiltin (name : String)
  /-- A second function of the same name. -/
  | duplicateFunction (name : String)
  /-- A function or import that the script does not have. -/
  | unknownFunction
  /-- A jump without a live target at layout time. -/
  | unresolvedJump (function : String)
  /-- A loop or switch for which no synthetic variable was reserved. -/
  | unbalancedSyntheticLocals (what : String)
  /-- A node of a known kind in a wrong shape. -/
  | malformedNode (kind reason : String)
  /-- A hash literal that holds no hash value. -/
  | badHash (text : String)
  /-- A number that the image cannot hold. -/
  | badNumber (text : String)
  /-- A count above what the image format can express. -/
  | capacityExceeded (what : String) (count limit : Nat)
  /-- A jump whose displacement needs more than 16 bits. -/
  | jumpOutOfRange (function : String) (displacement : Int)
  /-- A text that is no syntax tree. -/
  | badTree
  deriving DecidableEq, Repr

namespace CompileError

/-- The sentence shown for an error. -/
def message : CompileError → String
  | unsupportedNode kind => s!"unsupported node kind '{kind}'"
  | unknownOperator token => s!"unknown operator '{token}'"
  | unknownVariable name function => s!"unknown variable '{name}' in function '{function}'"
  | unknownBuiltin name => s!"'{name}' is not a builtin"
  | duplicateFunction name => s!"function '{name}' is defined more than once"
  | unknownFunction => "function does not belong to this script"
  | unresolvedJump function => s!"unresolved jump target in function '{function}'"
  | unbalancedSyntheticLocals what => s!"no synthetic {what} variable is available"
  | malformedNode kind reason => s!"malformed '{kind}' node: {reason}"
  | badHash text => s!"'{text}' is not a hash value"
  | badNumber text => s!"'{text}' is not a valid number"
  | capacityExceeded what count limit => s!"too many {what}: {count} (the limit is {limit})"
  | jumpOutOfRange function displacement =>
      s!"jump of {displacement} bytes in function '{function}' does not fit in 16 bits"
  | badTree => "failed to read syntax tree: "

end CompileError

/-- Accepts a count up to its limit and reports any larger one. -/
def requireAtMost (what : String) (count limit : Nat) : Except CompileError Unit :=
  if count > limit then .error (.capacityExceeded what count limit) else .ok ()

end GscAssembler

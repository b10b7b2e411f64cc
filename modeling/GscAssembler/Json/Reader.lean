import GscAssembler.Json.Token
import GscAssembler.Json.Value

/-!
# Reading JSON

Tokens are read one after the other against a stack of the arrays and objects that are still open, so
the depth of a value is not limited.  A text must hold exactly one value.
-/

namespace GscAssembler.Json

/-- An array or object that is still open. -/
inductive Open where
  /-- An array with the items read so far, last first. -/
  | array (reversed : List Json)
  /-- An object with the fields read so far, last first, and the name of the next. -/
  | object (reversed : List (Option String × Json)) (name : Option String)

/-- What may come next. -/
inductive Expected where
  /-- A value. -/
  | value
  /-- A value, or the end of an empty array. -/
  | valueOrClose
  /-- The name of a field. -/
  | name
  /-- The name of a field, or the end of an empty object. -/
  | nameOrClose
  /-- The mark behind the name of a field. -/
  | colon
  /-- A comma, or the end of the innermost array or object. -/
  | commaOrClose
  /-- Nothing. -/
  | nothing (result : Json)

/-- A reader: what is still open, innermost first, and what may come next. -/
structure Reader where
  /-- The arrays and objects that are still open, innermost first. -/
  stack : List Open := []
  /-- What may come next. -/
  expected : Expected := .value

namespace Reader

/-- Puts a finished value where it belongs. -/
def complete (stack : List Open) (value : Json) : Reader :=
  match stack with
  | [] => ⟨[], .nothing value⟩
  | .array reversed :: rest => ⟨.array (value :: reversed) :: rest, .commaOrClose⟩
  | .object reversed name :: rest =>
      ⟨.object ((name, value) :: reversed) none :: rest, .commaOrClose⟩

/-- Takes a token that starts or is a value. -/
def takeValue (stack : List Open) : Token → Option Reader
  | .null => some (complete stack .null)
  | .bool value => some (complete stack (.bool value))
  | .number value => some (complete stack (.number value))
  | .string text => some (complete stack (.string text))
  | .openArray => some ⟨.array [] :: stack, .valueOrClose⟩
  | .openObject => some ⟨.object [] none :: stack, .nameOrClose⟩
  | _ => none

/-- Takes a token that ends the innermost array or object. -/
def takeClose : List Open → Token → Option Reader
  | .array reversed :: rest, .closeArray => some (complete rest (.array reversed.reverse))
  | .object reversed _ :: rest, .closeObject => some (complete rest (.object reversed.reverse))
  | _, _ => none

/-- Takes the name of a field. -/
def takeName : List Open → Token → Option Reader
  | .object reversed _ :: rest, .string name => some ⟨.object reversed name :: rest, .colon⟩
  | _, _ => none

/-- Takes a comma. -/
def takeComma : List Open → Token → Option Reader
  | .array reversed :: rest, .comma => some ⟨.array reversed :: rest, .value⟩
  | .object reversed name :: rest, .comma => some ⟨.object reversed name :: rest, .name⟩
  | _, _ => none

/-- Takes one token. -/
def step (r : Reader) (t : Token) : Option Reader :=
  match r.expected with
  | .value => takeValue r.stack t
  | .valueOrClose => takeValue r.stack t <|> takeClose r.stack t
  | .name => takeName r.stack t
  | .nameOrClose => takeName r.stack t <|> takeClose r.stack t
  | .colon => if t = .colon then some { r with expected := .value } else none
  | .commaOrClose => takeComma r.stack t <|> takeClose r.stack t
  | .nothing _ => none

end Reader

/-- The value that a text holds. -/
def parse? (text : String) : Option Json := do
  let tokens ← tokenize? text
  let r ← tokens.foldlM Reader.step {}
  match r.expected with
  | .nothing result => some result
  | _ => none

end GscAssembler.Json

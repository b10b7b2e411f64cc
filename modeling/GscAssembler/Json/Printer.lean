import GscAssembler.Json.Value
import GscAssembler.Text.Hex

/-!
# Writing JSON

Values are written on one line without blanks.  Only quotation marks, backslashes and control
characters are escaped.
-/

namespace GscAssembler.Json

open Number (Decimal)

/-- A character as it is written in a string. -/
def escapeChar (c : Char) : List Char :=
  match c with
  | '"' => ['\\', '"']
  | '\\' => ['\\', '\\']
  | '\n' => ['\\', 'n']
  | '\r' => ['\\', 'r']
  | '\t' => ['\\', 't']
  | _ =>
      if c.toNat = 8 then ['\\', 'b']
      else if c.toNat = 12 then ['\\', 'f']
      else if c.toNat < 0x20 then ['\\', 'u'] ++ Text.hexFixed 4 c.toNat
      else [c]

/-- A text in quotation marks. -/
def quote (text : String) : String :=
  String.ofList ('"' :: text.toList.flatMap escapeChar ++ ['"'])

/-- A numeral as it is written. -/
def renderNumber (d : Decimal) : String :=
  let digits (ds : List Nat) : String := String.join (ds.map fun d => toString d)
  let sign := if d.negative then "-" else ""
  let fraction := if d.fraction.isEmpty then "" else "." ++ digits d.fraction
  let exponent := if d.exponent = 0 then "" else "e" ++ toString d.exponent
  sign ++ digits d.whole ++ fraction ++ exponent

/-- A string as it is written; one without a text is written as null. -/
def renderText : Option String → String
  | some text => quote text
  | none => "null"

mutual

/-- A value on one line. -/
def render : Json → String
  | .null => "null"
  | .bool value => if value then "true" else "false"
  | .number value => renderNumber value
  | .string text => renderText text
  | .array items => "[" ++ String.intercalate "," (renderItems items) ++ "]"
  | .object fields => "\x7b" ++ String.intercalate "," (renderFields fields) ++ "\x7d"

/-- The items of an array. -/
def renderItems : List Json → List String
  | [] => []
  | item :: rest => render item :: renderItems rest

/-- The fields of an object. -/
def renderFields : List (Option String × Json) → List String
  | [] => []
  | (name, value) :: rest => (renderText name ++ ":" ++ render value) :: renderFields rest

end

end GscAssembler.Json

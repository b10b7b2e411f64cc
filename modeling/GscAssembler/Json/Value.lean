import GscAssembler.Number.Decimal

/-!
# JSON values

Syntax trees are handed over as JSON.  A value keeps its numerals as they are written and its fields
in order, repeated ones included, so that a reader may judge both.
-/

namespace GscAssembler

open Number (Decimal)

/-- A JSON value. -/
inductive Json where
  /-- The null value. -/
  | null
  /-- A truth value. -/
  | bool (value : Bool)
  /-- A number, as it is written. -/
  | number (value : Decimal)
  /-- A string.  One that holds half of a surrogate pair has no text. -/
  | string (text : Option String)
  /-- A list of values. -/
  | array (items : List Json)
  /-- Named values.  The names are strings, too. -/
  | object (fields : List (Option String × Json))

namespace Json

/-- A text as a value. -/
def ofString (text : String) : Json :=
  .string (some text)

/-- A natural number as a value. -/
def ofNat (n : Nat) : Json :=
  .number ⟨false, (Nat.toDigits 10 n).map fun c => c.toNat - 48, [], 0, true⟩

/-- An integer as a value. -/
def ofInt (n : Int) : Json :=
  .number ⟨decide (n < 0), (Nat.toDigits 10 n.natAbs).map fun c => c.toNat - 48, [], 0, true⟩

/-- Texts as names of values. -/
def ofFields (fields : List (String × Json)) : Json :=
  .object (fields.map fun (name, value) => (some name, value))

/-- The first field of a name. -/
def field? (name : String) : Json → Option Json
  | .object fields => (fields.find? fun field => field.1 == some name).map (·.2)
  | _ => none

/-- The integer that a value is written as. -/
def int? : Json → Option Int
  | .number d =>
      let whole : Int := Number.ofDigits d.whole
      if d.plain then some (if d.negative then -whole else whole) else none
  | _ => none

/-- The text of a string. -/
def text? : Json → Option String
  | .string text => text
  | _ => none

/-- The items of an array. -/
def items? : Json → Option (List Json)
  | .array items => some items
  | _ => none

/-- The named fields of an object. -/
def fields? : Json → Option (List (String × Json))
  | .object fields => some (fields.filterMap fun (name, value) => name.map fun name => (name, value))
  | _ => none

end Json

end GscAssembler

import GscAssembler.Number.Decimal
import GscAssembler.Text.Hex

/-!
# JSON tokens

A text is cut into tokens by passing over its characters once.  The scanner remembers what it is in
the middle of: a string, an escape sequence in one, a numeral or a word.  Numerals and words end at
the first character that cannot belong to them, and are judged as a whole then.
-/

namespace GscAssembler.Json

open Number (Decimal takeDigits readExponent?)

/-- A token of JSON text. -/
inductive Token where
  /-- A square bracket that opens an array. -/
  | openArray
  /-- A square bracket that closes an array. -/
  | closeArray
  /-- A brace that opens an object. -/
  | openObject
  /-- A brace that closes an object. -/
  | closeObject
  /-- The mark between the name and the value of a field. -/
  | colon
  /-- The mark between items. -/
  | comma
  /-- The null value. -/
  | null
  /-- A truth value. -/
  | bool (value : Bool)
  /-- A number. -/
  | number (value : Decimal)
  /-- A string; one with half of a surrogate pair has no text. -/
  | string (text : Option String)
  deriving DecidableEq

/-- A string as far as it was scanned. -/
structure Partial where
  /-- The characters, last first. -/
  reversed : List Char := []
  /-- Whether half of a surrogate pair has stood alone. -/
  broken : Bool := false
  /-- The first half of a surrogate pair, when its second half may follow. -/
  pendingHigh : Option Nat := none

namespace Partial

/-- Gives up on a first half that was not followed by a second one. -/
def settled (p : Partial) : Partial :=
  match p.pendingHigh with
  | some _ => { p with broken := true, pendingHigh := none }
  | none => p

/-- Appends a character. -/
def push (p : Partial) (c : Char) : Partial :=
  let p := p.settled
  { p with reversed := c :: p.reversed }

/-- Appends a UTF-16 unit that was written as an escape. -/
def pushUnit (p : Partial) (unit : Nat) : Partial :=
  if 0xDC00 ≤ unit ∧ unit < 0xE000 then
    match p.pendingHigh with
    | some high =>
        let code := 0x10000 + (high - 0xD800) * 0x400 + (unit - 0xDC00)
        { p with reversed := Char.ofNat code :: p.reversed, pendingHigh := none }
    | none => { p with broken := true }
  else if 0xD800 ≤ unit ∧ unit < 0xDC00 then { p.settled with pendingHigh := some unit }
  else p.push (Char.ofNat unit)

/-- The finished string. -/
def text? (p : Partial) : Option String :=
  let p := p.settled
  if p.broken then none else some (String.ofList p.reversed.reverse)

end Partial

/-- What the scanner is in the middle of. -/
inductive Mode where
  /-- Nothing: a token may start. -/
  | between
  /-- A string. -/
  | inString (p : Partial)
  /-- An escape sequence of a string. -/
  | inEscape (p : Partial)
  /-- A numeric escape, of which some digits are still to come. -/
  | inUnit (p : Partial) (missing value : Nat)
  /-- A numeral, last character first. -/
  | inNumber (reversed : List Char)
  /-- A word, last character first. -/
  | inWord (reversed : List Char)

/-- A scanner: the tokens found, last first, and what it is in the middle of. -/
structure Scanner where
  /-- The tokens, last first. -/
  reversed : List Token := []
  /-- What the scanner is in the middle of. -/
  mode : Mode := .between

/-- Reads a numeral by the rules of JSON: no superfluous zero in front, and digits on both sides of a
point. -/
def readNumber? (written : List Char) : Option Decimal := do
  let (negative, unsigned) := match written with
    | '-' :: rest => (true, rest)
    | _ => (false, written)
  let (whole, afterWhole) := takeDigits unsigned
  match whole with
  | [] | 0 :: _ :: _ => none
  | _ =>
      match afterWhole with
      | '.' :: rest =>
          match takeDigits rest with
          | ([], _) => none
          | (fraction, afterFraction) =>
              let exponent ← readExponent? afterFraction
              some ⟨negative, whole, fraction, exponent, false⟩
      | _ =>
          let exponent ← readExponent? afterWhole
          some ⟨negative, whole, [], exponent, afterWhole.isEmpty⟩

/-- The token that a word stands for. -/
def readWord? (word : List Char) : Option Token :=
  match String.ofList word with
  | "null" => some .null
  | "true" => some (.bool true)
  | "false" => some (.bool false)
  | _ => none

/-- Whether a character may stand in a numeral. -/
def isNumberChar (c : Char) : Bool :=
  c.isDigit || c == '-' || c == '+' || c == '.' || c == 'e' || c == 'E'

/-- The token of a single character. -/
def punctuation? : Char → Option Token
  | '[' => some .openArray
  | ']' => some .closeArray
  | '\x7b' => some .openObject
  | '\x7d' => some .closeObject
  | ':' => some .colon
  | ',' => some .comma
  | _ => none

/-- The character that an escape of one letter stands for. -/
def escaped? : Char → Option Char
  | '"' => some '"'
  | '\\' => some '\\'
  | '/' => some '/'
  | 'b' => some (Char.ofNat 8)
  | 'f' => some (Char.ofNat 12)
  | 'n' => some '\n'
  | 'r' => some '\r'
  | 't' => some '\t'
  | _ => none

namespace Scanner

/-- Appends a token. -/
def emit (s : Scanner) (t : Token) : Scanner :=
  { reversed := t :: s.reversed, mode := .between }

/-- Takes a character where a token may start. -/
def start (s : Scanner) (c : Char) : Option Scanner :=
  match punctuation? c with
  | some t => some (s.emit t)
  | none =>
      if c = ' ' ∨ c = '\t' ∨ c = '\n' ∨ c = '\r' then some s
      else if c = '"' then some { s with mode := .inString {} }
      else if c.isDigit || c == '-' then some { s with mode := .inNumber [c] }
      else if c.isLower then some { s with mode := .inWord [c] }
      else none

/-- Ends a numeral or word. -/
def flush (s : Scanner) : Option Scanner :=
  match s.mode with
  | .inNumber reversed => (readNumber? reversed.reverse).map fun d => s.emit (.number d)
  | .inWord reversed => (readWord? reversed.reverse).map s.emit
  | _ => some s

/-- Takes one character. -/
def step (s : Scanner) (c : Char) : Option Scanner :=
  match s.mode with
  | .between => s.start c
  | .inString p =>
      if c = '"' then some (s.emit (.string p.text?))
      else if c = '\\' then some { s with mode := .inEscape p }
      else if c.toNat < 0x20 then none
      else some { s with mode := .inString (p.push c) }
  | .inEscape p =>
      if c = 'u' then some { s with mode := .inUnit p 4 0 }
      else (escaped? c).map fun c => { s with mode := .inString (p.push c) }
  | .inUnit p missing value => do
      let digit ← Text.hexValue? c
      let value := value * 16 + digit
      match missing with
      | 0 | 1 => some { s with mode := .inString (p.pushUnit value) }
      | missing + 1 => some { s with mode := .inUnit p missing value }
  | .inNumber reversed =>
      if isNumberChar c then some { s with mode := .inNumber (c :: reversed) }
      else s.flush.bind (·.start c)
  | .inWord reversed =>
      if c.isLower then some { s with mode := .inWord (c :: reversed) }
      else s.flush.bind (·.start c)

/-- The tokens of a text that has ended. -/
def tokens? (s : Scanner) : Option (List Token) := do
  let s ← s.flush
  match s.mode with
  | .between => some s.reversed.reverse
  | _ => none

end Scanner

/-- The tokens of a text. -/
def tokenize? (text : String) : Option (List Token) := do
  let s ← text.toList.foldlM Scanner.step {}
  s.tokens?

end GscAssembler.Json

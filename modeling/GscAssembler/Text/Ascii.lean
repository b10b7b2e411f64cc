/-!
# Case in script names

Names are compared in two ways.  Hashing and name look-up fold the letters `A` to `Z` only
(`asciiLower`).  The tables of builtin names compare under full case folding, where a few characters
outside ASCII fold to ASCII letters: `ſ` to `s`, the Kelvin sign to `k`, `ß` to `ss`, and the Latin
ligatures to the letters they join.  Since every builtin name is ASCII, these are the only
characters beyond ASCII that can occur in a matching name (`foldsTo`).
-/

namespace GscAssembler.Text

/-- The text with `A` to `Z` replaced by `a` to `z`. -/
def asciiLower (s : String) : String :=
  s.map Char.toLower

/-- Equality up to the case of ASCII letters. -/
def equalsIgnoringAsciiCase (a b : String) : Bool :=
  asciiLower a == asciiLower b

/-- The UTF-8 bytes of a text. -/
def utf8 (s : String) : List UInt8 :=
  s.toUTF8.data.toList

/-- An ASCII capital letter as its small letter; any other byte as it is. -/
def lowerByte (b : UInt8) : UInt8 :=
  if 65 ≤ b ∧ b ≤ 90 then b + 32 else b

/-- The case folding of a character, as far as it consists of ASCII characters alone. -/
def foldChar (c : Char) : Option (List Char) :=
  if c.toNat < 128 then some [c.toLower]
  else match c.toNat with
    | 0xDF | 0x1E9E => some ['s', 's']
    | 0x17F => some ['s']
    | 0x212A => some ['k']
    | 0xFB00 => some ['f', 'f']
    | 0xFB01 => some ['f', 'i']
    | 0xFB02 => some ['f', 'l']
    | 0xFB03 => some ['f', 'f', 'i']
    | 0xFB04 => some ['f', 'f', 'l']
    | 0xFB05 | 0xFB06 => some ['s', 't']
    | _ => none

/-- The case folding of a text, or nothing if it leaves ASCII. -/
def foldAscii (s : String) : Option (List Char) :=
  (s.toList.mapM foldChar).map List.flatten

/-- Whether `name` is the ASCII name `key` up to full case folding. -/
def foldsTo (name key : String) : Bool :=
  foldAscii name == some (key.toList.map Char.toLower)

/-- The first value listed under a name, compared under full case folding. -/
def lookupFolded {α : Type} (table : List (String × α)) (name : String) : Option α :=
  (table.find? fun entry => foldsTo name entry.1).map (·.2)

end GscAssembler.Text

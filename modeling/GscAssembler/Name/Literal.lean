import GscAssembler.Target
import GscAssembler.Text.Ascii
import GscAssembler.Text.Hex

/-!
# Hash literals

A name such as `func_1a2b3c4d` stands for the hash value that its digits spell.  Which stems make a
literal depends on the revision.  The first stem that leaves any text decides: if that text is not
hexadecimal, the name is an ordinary one.
-/

namespace GscAssembler.Name

open Text (asciiLower readHex64)

/-- The stems of hash literals, in the order in which they are tried. -/
def literalStems : Revision → List String
  | .legacy => ["function_", "func_", "namespace_", "var_", "hash_"]
  | .rev36 => ["func_", "function_", "namespace_", "var_", "event_", "hash_", "script_"]

/-- The text behind a stem, if the stem is there and does not end the name. -/
def behindStem? (name : List Char) (stem : String) : Option (List Char) :=
  match stem.toList.isPrefixOf? name with
  | none | some [] => none
  | some digits => some digits

/-- The hash value that a name spells out, if it is a hash literal. -/
def literal? (revision : Revision) (name : String) : Option UInt64 := do
  let digits ← (literalStems revision).findSome? (behindStem? (asciiLower name).toList)
  let value ← readHex64 digits
  some (UInt64.ofNat value)

/-- The value of a hashed-string token: hexadecimal digits, which `hash_` may precede.  The legacy
machine only has room for 32 bits. -/
def hashToken? (revision : Revision) (token : String) : Option UInt64 := do
  let folded := (asciiLower token).toList
  let digits := ("hash_".toList.isPrefixOf? folded).getD folded
  let value ← readHex64 digits
  if revision = .rev36 ∨ value < 0x100000000 then some (UInt64.ofNat value) else none

end GscAssembler.Name

import GscAssembler.Error
import GscAssembler.Name.Hash
import GscAssembler.Name.Literal
import Std.Data.TreeMap

/-!
# The registry of hashed names

Whenever a name is hashed, its text is remembered under the hash, so that an image can be accompanied
by a list of the names in it.  The first text seen for a hash stays, hash literals are never
remembered, and a refused name changes nothing.
-/

namespace GscAssembler.Name

open Text (asciiLower)

/-- The texts of all names hashed so far, by their hash. -/
structure Registry where
  /-- The remembered texts. -/
  names : Std.TreeMap UInt64 String := {}

namespace Registry

/-- Remembers the text of a hash, unless there is one already. -/
def remember (r : Registry) (hash : UInt64) (name : String) : Registry :=
  { names := r.names.insertIfNew hash (asciiLower name) }

/-- Hashes a name that is not a literal. -/
def hashName (r : Registry) (revision : Revision) (name : String) : UInt32 × Registry :=
  let hash := identifierHash revision name
  (hash, r.remember hash.toUInt64 name)

/-- The 32-bit hash of an identifier.  A hash literal stands for its own value, which must have 32
bits. -/
def hash (r : Registry) (revision : Revision) (name : String) :
    Except CompileError (UInt32 × Registry) :=
  match literal? revision name with
  | some value =>
      if value.toNat < 0x100000000 then .ok (value.toUInt32, r) else .error (.badHash name)
  | none => .ok (r.hashName revision name)

/-- The 64-bit hash of a script path or canonical value; on the legacy machine, the 32-bit hash of
an identifier. -/
def hash64 (r : Registry) (revision : Revision) (name : String) :
    Except CompileError (UInt64 × Registry) :=
  match literal? revision name with
  | some value =>
      if revision = .legacy ∧ 0x100000000 ≤ value.toNat then .error (.badHash name)
      else .ok (value, r)
  | none =>
      match revision with
      | .legacy =>
          let (hash, registry) := r.hashName revision name
          .ok (hash.toUInt64, registry)
      | .rev36 =>
          let hash := pathHash name
          .ok (hash, r.remember hash name)

/-- The remembered texts in increasing order of their hashes. -/
def entries (r : Registry) : List (UInt64 × String) :=
  r.names.toList

end Registry

end GscAssembler.Name

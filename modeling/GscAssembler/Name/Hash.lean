import GscAssembler.Target
import GscAssembler.Text.Ascii

/-!
# Name hashes

Images never store identifiers, only their hashes, and all hashes ignore the case of ASCII letters.
The legacy machine uses the 32-bit multiplicative hash `hash32`; the newer one uses `mixHash32` for
identifiers and the 63-bit `pathHash` for script paths and canonical values.
-/

namespace GscAssembler.Name

open Text (utf8 lowerByte)

/-- The bytes of a name with its ASCII letters in lower case. -/
def foldedBytes (name : String) : List UInt8 :=
  (utf8 name).map lowerByte

/-- The start value of both 32-bit hashes. -/
def hashSeed : UInt32 := 0x4B9ACE2F

/-- The multiplier of the legacy hash. -/
def hashFactor : UInt32 := 0x1000193

/-- The identifier hash of the legacy machine. -/
def hash32 (name : String) : UInt32 :=
  (foldedBytes name).foldl (fun hash b => (b.toUInt32 ^^^ hash) * hashFactor) hashSeed * hashFactor

/-- One byte of the newer machine's identifier hash. -/
def mixByte (hash : UInt32) (b : UInt8) : UInt32 :=
  let sum := b.toUInt32 + hash
  let mixed := sum ^^^ (sum <<< 10)
  mixed + (mixed >>> 6)

/-- The identifier hash of the newer machine. -/
def mixHash32 (name : String) : UInt32 :=
  let nine := (foldedBytes name).foldl mixByte hashSeed * 9
  (0x8001 : UInt32) * (nine ^^^ (nine >>> 11))

/-- FNV-1a with the given offset basis and prime. -/
def fnv1a64With (bytes : List UInt8) (offset prime : UInt64) : UInt64 :=
  bytes.foldl (fun hash b => (hash ^^^ b.toUInt64) * prime) offset

/-- FNV-1a with its standard constants. -/
def fnv1a64 (bytes : List UInt8) : UInt64 :=
  fnv1a64With bytes 0xCBF29CE484222325 0x100000001B3

/-- The hash of script paths and canonical values on the newer machine: FNV-1a without its top
bit. -/
def pathHash (name : String) : UInt64 :=
  0x7FFFFFFFFFFFFFFF &&& fnv1a64 (foldedBytes name)

/-- The identifier hash of a revision. -/
def identifierHash : Revision → String → UInt32
  | .legacy => hash32
  | .rev36 => mixHash32

end GscAssembler.Name

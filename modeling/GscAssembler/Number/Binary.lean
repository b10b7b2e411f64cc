/-!
# Binary floating-point numbers by their bits

Scripts carry single-precision numbers and syntax trees double-precision ones.  Both are kept as bit
patterns, and every rounding is done in exact integer arithmetic: a rational number is scaled to the
unit of its binade, rounded to the nearest integer with ties to even, and placed in the pattern.

A pattern is ordered like its number.  So the exponent field need not be looked at when a
significand is rounded up to the next power of two: the carry runs into it by itself.
-/

namespace GscAssembler.Number

/-- A binary interchange format, by the sizes of its significand and of its exponent field. -/
structure BinaryFormat where
  /-- Bits of the significand, the implicit leading one included. -/
  precision : Nat
  /-- Bits of the exponent field. -/
  exponentBits : Nat
  deriving DecidableEq, Repr

/-- Single precision. -/
def binary32 : BinaryFormat := ⟨24, 8⟩

/-- Double precision. -/
def binary64 : BinaryFormat := ⟨53, 11⟩

/-- The quotient rounded to the nearest integer, ties to even. -/
def roundHalfEven (num den : Nat) : Nat :=
  let quotient := num / den
  let rest := num % den
  if 2 * rest < den then quotient
  else if den < 2 * rest then quotient + 1
  else quotient + quotient % 2

/-- The largest `e` with `2 ^ e ≤ num / den`, for positive arguments. -/
def floorLog2 (num den : Nat) : Int :=
  let estimate : Int := num.log2 - den.log2
  let below := if 0 ≤ estimate then num < den * Nat.pow 2 estimate.toNat
    else num * Nat.pow 2 (-estimate).toNat < den
  if below then estimate - 1 else estimate

namespace BinaryFormat

variable (format : BinaryFormat)

/-- One unit of the exponent field, which is also the least normal pattern. -/
def step : Nat := Nat.pow 2 (format.precision - 1)

/-- The exponent of the unit in the last place of the least numbers. -/
def minExponent : Int :=
  2 - (Nat.pow 2 (format.exponentBits - 1) : Nat) - (format.precision - 1)

/-- The pattern of infinity. -/
def infinity : Nat := (Nat.pow 2 format.exponentBits - 1) * format.step

/-- The weight of the sign bit. -/
def signBit : Nat := Nat.pow 2 (format.precision - 1 + format.exponentBits)

/-- The pattern of the number nearest to `num / den`, infinity if it is too large. -/
def roundRatio (num den : Nat) : Nat :=
  if num = 0 then 0 else
    let unit := max format.minExponent (floorLog2 num den - (format.precision - 1))
    let significand := if 0 ≤ unit then roundHalfEven num (den * Nat.pow 2 unit.toNat)
      else roundHalfEven (num * Nat.pow 2 (-unit).toNat) den
    min format.infinity ((unit - format.minExponent).toNat * format.step + significand)

/-- The significand of a finite pattern. -/
def significand (magnitude : Nat) : Nat :=
  if magnitude < format.step then magnitude else magnitude % format.step + format.step

/-- The exponent of the unit of a finite pattern's significand. -/
def unitExponent (magnitude : Nat) : Int :=
  format.minExponent + (magnitude / format.step - 1 : Nat)

/-- `significand * 2 ^ exponent` as a fraction. -/
def scaled (significand : Nat) (exponent : Int) : Nat × Nat :=
  (significand * Nat.pow 2 exponent.toNat, Nat.pow 2 (-exponent).toNat)

/-- The value of a finite pattern as a fraction. -/
def ratio (magnitude : Nat) : Nat × Nat :=
  scaled (format.significand magnitude) (format.unitExponent magnitude)

/-- The correctly rounded product of two finite patterns. -/
def mul (a b : Nat) : Nat :=
  let (num, den) := scaled (format.significand a * format.significand b)
    (format.unitExponent a + format.unitExponent b)
  format.roundRatio num den

/-- The correctly rounded quotient of two finite patterns, the second positive. -/
def div (a b : Nat) : Nat :=
  let (num, den) := scaled (format.significand a) (format.unitExponent a - format.unitExponent b)
  format.roundRatio num (den * format.significand b)

/-- The power of ten nearest to `10 ^ exponent`. -/
def powerOfTen (exponent : Nat) : Nat :=
  format.roundRatio (Nat.pow 10 exponent) 1

/-- The pattern with its sign bit set as given. -/
def signed (negative : Bool) (magnitude : Nat) : Nat :=
  if negative then format.signBit + magnitude else magnitude

/-- Whether the sign bit of a pattern is set. -/
def isNegative (bits : Nat) : Bool :=
  format.signBit ≤ bits

/-- A pattern without its sign bit. -/
def magnitude (bits : Nat) : Nat :=
  bits % format.signBit

end BinaryFormat

/-- A double-precision number rounded to single precision, or nothing if that is not finite. -/
def narrow (bits : UInt64) : Option UInt32 :=
  let magnitude := binary64.magnitude bits.toNat
  let (num, den) := binary64.ratio magnitude
  let rounded := binary32.roundRatio num den
  if magnitude < binary64.infinity ∧ rounded < binary32.infinity then
    some (UInt32.ofNat (binary32.signed (binary64.isNegative bits.toNat) rounded))
  else none

end GscAssembler.Number

import GscAssembler.Number.Binary

/-!
# Decimal numerals

A numeral in a syntax tree file and a numeral in a script token are read by different rules.

* In a file, the leading digits are gathered into a 64-bit significand, which is rounded to double
  precision and then scaled by one rounded multiplication or division with a power of ten
  (`Decimal.scaledDouble?`).  Digits that no longer fit are dropped, and only counted if they stand
  before the point.
* In a token, an integer in the range of 64 bits is taken exactly, and any other numeral is rounded
  once to single precision (`readToken?`).
-/

namespace GscAssembler.Number

/-- A decimal numeral by its parts. -/
structure Decimal where
  /-- Whether a minus sign precedes the numeral. -/
  negative : Bool
  /-- The digits before the point. -/
  whole : List Nat
  /-- The digits after the point. -/
  fraction : List Nat
  /-- The power of ten written behind the digits. -/
  exponent : Int
  /-- Whether the numeral has neither a point nor an exponent. -/
  plain : Bool
  deriving DecidableEq, Repr

/-- The number that a list of decimal digits spells. -/
def ofDigits (digits : List Nat) : Nat :=
  digits.foldl (fun value digit => value * 10 + digit) 0

/-- The value of a decimal digit. -/
def digitValue? (c : Char) : Option Nat :=
  if '0' ≤ c ∧ c ≤ '9' then some (c.toNat - 48) else none

/-- The digits that a text starts with, and what follows them. -/
def takeDigits : List Char → List Nat × List Char
  | [] => ([], [])
  | c :: rest =>
      match digitValue? c with
      | some digit =>
          let (digits, after) := takeDigits rest
          (digit :: digits, after)
      | none => ([], c :: rest)

/-- Appends digits to a significand while it keeps within 64 bits; also counts the digits left. -/
def gather (significand : Nat) : List Nat → Nat × Nat
  | [] => (significand, 0)
  | digit :: rest =>
      let next := significand * 10 + digit
      if next < 0x10000000000000000 then gather next rest else (significand, rest.length + 1)

namespace Decimal

/-- Scales a double by a power of ten, or gives nothing if the result is not finite. -/
def scale? (magnitude : Nat) (exponent : Int) : Option Nat :=
  if magnitude = 0 then some 0
  else if 308 < exponent then none
  else if 0 ≤ exponent then
    let product := binary64.mul magnitude (binary64.powerOfTen exponent.toNat)
    if product < binary64.infinity then some product else none
  else if -308 ≤ exponent then
    some (binary64.div magnitude (binary64.powerOfTen (-exponent).toNat))
  else if -616 ≤ exponent then
    let first := binary64.div magnitude (binary64.powerOfTen 308)
    some (binary64.div first (binary64.powerOfTen (-exponent - 308).toNat))
  else some 0

/-- The double that a numeral of a syntax tree file denotes, or nothing if it is too large. -/
def scaledDouble? (d : Decimal) : Option UInt64 :=
  let (leading, dropped) := gather 0 d.whole
  let (significand, unread) := gather leading d.fraction
  let exponent : Int := d.exponent + dropped - (d.fraction.length - unread : Nat)
  (scale? (binary64.roundRatio significand 1) exponent).map fun magnitude =>
    UInt64.ofNat (binary64.signed d.negative magnitude)

/-- The single-precision number nearest to a numeral, or nothing if that is not finite. -/
def nearestSingle? (d : Decimal) : Option UInt32 :=
  let digits := ofDigits (d.whole ++ d.fraction)
  let exponent : Int := d.exponent - d.fraction.length
  let size : Int := (Nat.toDigits 10 digits).length + exponent
  let magnitude :=
    if digits = 0 ∨ size < -100 then 0
    else if 100 < size then binary32.infinity
    else binary32.roundRatio (digits * Nat.pow 10 exponent.toNat) (Nat.pow 10 (-exponent).toNat)
  if magnitude < binary32.infinity then
    some (UInt32.ofNat (binary32.signed d.negative magnitude))
  else none

end Decimal

/-- A sign at the start of a text, if there is one, and the rest. -/
def takeSign : List Char → Bool × List Char
  | '-' :: rest => (true, rest)
  | '+' :: rest => (false, rest)
  | rest => (false, rest)

/-- Reads an exponent, which is the letter `e`, a sign or none, and at least one digit. -/
def readExponent? : List Char → Option Int
  | [] => some 0
  | c :: rest =>
      if c = 'e' ∨ c = 'E' then
        let (negative, unsigned) := takeSign rest
        match takeDigits unsigned with
        | ([], _) => none
        | (digits, []) =>
            let value : Int := ofDigits digits
            some (if negative then -value else value)
        | (_, _ :: _) => none
      else none

/-- Reads a whole token as a numeral: a sign or none, digits with at most one point among or around
them, and an exponent or none. -/
def readNumeral? (token : List Char) : Option Decimal := do
  let (negative, unsigned) := takeSign token
  let (whole, afterWhole) := takeDigits unsigned
  let (pointed, fraction, afterFraction) := match afterWhole with
    | '.' :: rest =>
        let (fraction, after) := takeDigits rest
        (true, fraction, after)
    | _ => (false, [], afterWhole)
  if whole.isEmpty && fraction.isEmpty then none
  else
    let exponent ← readExponent? afterFraction
    some ⟨negative, whole, fraction, exponent, !pointed && afterFraction.isEmpty⟩

/-- A number as a script constant: an integer, or a single-precision number by its bits. -/
inductive Constant where
  /-- An integer. -/
  | int (value : Int)
  /-- A single-precision number. -/
  | float (bits : UInt32)
  deriving DecidableEq, Repr

/-- Whether an integer has 64 bits with sign. -/
def fitsInt64 (value : Int) : Bool :=
  -0x8000000000000000 ≤ value ∧ value < 0x8000000000000000

/-- The constant that a number token denotes: an integer of 64 bits exactly, any other numeral
rounded to single precision. -/
def readToken? (token : String) : Option Constant := do
  let numeral ← readNumeral? token.toList
  let whole : Int := ofDigits numeral.whole
  let value := if numeral.negative then -whole else whole
  if numeral.plain && fitsInt64 value then some (.int value)
  else numeral.nearestSingle?.map .float

end GscAssembler.Number

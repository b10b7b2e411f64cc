import GscAssembler.Number.Binary

/-!
# The shortest decimal text of a double

A double is shown with the fewest digits that still round to it, and of those the nearest to it.
For each number of digits, the two neighbours of the value on that decimal grid are tried; the first
grid on which one of them rounds to the double decides.  The digits are written without an exponent.
-/

namespace GscAssembler.Number

/-- The largest `e` with `10 ^ e ≤ num / den`, for positive arguments. -/
def floorLog10 (num den : Nat) : Int :=
  if den ≤ num then ((Nat.toDigits 10 (num / den)).length : Int) - 1
  else -((Nat.toDigits 10 (den / num)).length : Int)

/-- The decimal `digits * 10 ^ exponent` as a fraction. -/
def decimalRatio (digits : Nat) (exponent : Int) : Nat × Nat :=
  (digits * Nat.pow 10 exponent.toNat, Nat.pow 10 (-exponent).toNat)

/-- Whether a decimal rounds to the given double. -/
def readsBack (magnitude digits : Nat) (exponent : Int) : Bool :=
  let (num, den) := decimalRatio digits exponent
  binary64.roundRatio num den = magnitude

/-- The neighbour of a double on the grid of multiples of `10 ^ exponent` that reads back and is
nearest to it, if there is one; of two equally near, the larger. -/
def neighbour? (magnitude : Nat) (exponent : Int) : Option Nat :=
  let (num, den) := binary64.ratio magnitude
  let (gridNum, gridDen) := decimalRatio 1 exponent
  let scaledNum := num * gridDen
  let scaledDen := den * gridNum
  let below := scaledNum / scaledDen
  let lowerFirst := 2 * (scaledNum % scaledDen) < scaledDen
  let candidates := if lowerFirst then [below, below + 1] else [below + 1, below]
  candidates.find? fun digits => readsBack magnitude digits exponent

/-- Tries grids of `digits + 1` and more digits, at most `more` of them. -/
def shortestFrom (magnitude : Nat) (top : Int) : (more digits : Nat) → Nat × Int
  | 0, digits =>
      let exponent := top - digits
      ((neighbour? magnitude exponent).getD 0, exponent)
  | more + 1, digits =>
      let exponent := top - digits
      match neighbour? magnitude exponent with
      | some found => (found, exponent)
      | none => shortestFrom magnitude top more (digits + 1)

/-- The digits of a positive finite double and the power of ten that scales them.  A value just below
a power of ten may be rounded up to it, which leaves one zero to take off. -/
def shortest (magnitude : Nat) : Nat × Int :=
  let (num, den) := binary64.ratio magnitude
  let (digits, exponent) := shortestFrom magnitude (floorLog10 num den) 17 0
  if digits % 10 = 0 then (digits / 10, exponent + 1) else (digits, exponent)

/-- The decimal `digits * 10 ^ exponent` written without an exponent. -/
def positional (digits : Nat) (exponent : Int) : String :=
  let text := Nat.toDigits 10 digits
  let places := (-exponent).toNat
  let shown :=
    if 0 ≤ exponent then text ++ List.replicate exponent.toNat '0'
    else if places < text.length then
      text.take (text.length - places) ++ ['.'] ++ text.drop (text.length - places)
    else ['0', '.'] ++ List.replicate (places - text.length) '0' ++ text
  String.ofList shown

/-- The text of a finite double. -/
def doubleText (bits : UInt64) : String :=
  let magnitude := binary64.magnitude bits.toNat
  let sign := if binary64.isNegative bits.toNat then "-" else ""
  if magnitude = 0 then sign ++ "0"
  else
    let (digits, exponent) := shortest magnitude
    sign ++ positional digits exponent

end GscAssembler.Number

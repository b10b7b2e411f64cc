/-!
# Hexadecimal numbers in text

Hash values are shown in lowercase hexadecimal, either bare or padded with zeros, and hash literals
in scripts are read from it.
-/

namespace GscAssembler.Text

/-- The lowercase hexadecimal digit of a number below 16. -/
def hexDigit (n : Nat) : Char :=
  if n < 10 then Char.ofNat (48 + n) else Char.ofNat (87 + n)

/-- The last `width` hexadecimal digits of `n`, most significant first. -/
def hexFixed : (width : Nat) → (n : Nat) → List Char
  | 0, _ => []
  | width + 1, n => hexFixed width (n / 16) ++ [hexDigit (n % 16)]

/-- The number of hexadecimal digits of `n`; zero has one. -/
def hexLength (n : Nat) : Nat :=
  if n = 0 then 1 else n.log2 / 4 + 1

/-- `n` in hexadecimal without leading zeros. -/
def hex (n : Nat) : String :=
  String.ofList (hexFixed (hexLength n) n)

/-- `n` in hexadecimal with at least `width` digits. -/
def hexPadded (width n : Nat) : String :=
  String.ofList (hexFixed (max width (hexLength n)) n)

/-- The value of a hexadecimal digit of either case. -/
def hexValue? (c : Char) : Option Nat :=
  if '0' ≤ c ∧ c ≤ '9' then some (c.toNat - 48)
  else if 'a' ≤ c ∧ c ≤ 'f' then some (c.toNat - 87)
  else if 'A' ≤ c ∧ c ≤ 'F' then some (c.toNat - 55)
  else none

/-- Reads hexadecimal digits onto a number already read, as long as the result has 64 bits. -/
def readHexDigits (value : Nat) : List Char → Option Nat
  | [] => some value
  | c :: rest => do
      let digit ← hexValue? c
      let next := value * 16 + digit
      if next < 0x10000000000000000 then readHexDigits next rest else none

/-- Reads a 64-bit number: at least one hexadecimal digit, which a plus sign may precede. -/
def readHex64 : List Char → Option Nat
  | [] => none
  | ['+'] => none
  | '+' :: digits => readHexDigits 0 digits
  | digits => readHexDigits 0 digits

/-- The bytes written as two hexadecimal digits each. -/
def hexBytes (bytes : List UInt8) : String :=
  String.ofList (bytes.flatMap fun b => hexFixed 2 b.toNat)

/-- Reads bytes written as two hexadecimal digits each. -/
def readHexBytes? : List Char → Option (List UInt8)
  | [] => some []
  | [_] => none
  | high :: low :: rest => do
      let upper ← hexValue? high
      let lower ← hexValue? low
      let bytes ← readHexBytes? rest
      some (UInt8.ofNat (upper * 16 + lower) :: bytes)

end GscAssembler.Text

/-!
# The CRC-32 checksum

The checksum stamped on every exported function: the reflected polynomial `0xEDB88320`, with the
register starting from and finally combined with all ones.
-/

namespace GscAssembler.Bytes

/-- The polynomial, least significant bit first. -/
def crcPolynomial : UInt32 := 0xEDB88320

/-- Shifts the register by a number of bits. -/
def crcShift : (bits : Nat) → UInt32 → UInt32
  | 0, register => register
  | bits + 1, register =>
      crcShift bits (if register &&& 1 = 1 then (register >>> 1) ^^^ crcPolynomial
        else register >>> 1)

/-- Feeds one byte to the register. -/
def crcByte (register : UInt32) (b : UInt8) : UInt32 :=
  crcShift 8 (register ^^^ b.toUInt32)

/-- The CRC-32 of a byte string. -/
def crc32 (bytes : List UInt8) : UInt32 :=
  bytes.foldl crcByte 0xFFFFFFFF ^^^ 0xFFFFFFFF

end GscAssembler.Bytes

import GscAssembler.Bytes.Align
import GscAssembler.Bytes.Order
import GscAssembler.Text.Ascii

/-!
# Byte buffers with addresses

A `Buffer` collects bytes for a region of an image.  It knows the address of its first byte, so
alignment is always meant on absolute addresses, and a whole image is a buffer that starts at zero.
Words are written in the buffer's byte order and cut to their width.
-/

namespace GscAssembler.Bytes

/-- Bytes that are being written from an address on. -/
structure Buffer where
  /-- The order of the bytes of a word. -/
  order : ByteOrder
  /-- The address of the first byte. -/
  start : Nat := 0
  /-- The bytes written so far. -/
  bytes : Array UInt8 := #[]
  deriving DecidableEq, Repr

/-- A number of zero bytes. -/
def zeros (count : Nat) : Array UInt8 :=
  Array.replicate count 0

/-- The bytes with those from `position` on replaced, as far as they exist. -/
def overwrite (bytes : Array UInt8) (position : Nat) : List UInt8 → Array UInt8
  | [] => bytes
  | b :: rest => overwrite (bytes.setIfInBounds position b) (position + 1) rest

/-- The `count` bytes from `position` on, fewer at the end. -/
def slice (bytes : Array UInt8) (position count : Nat) : List UInt8 :=
  (bytes.extract position (position + count)).toList

namespace Buffer

/-- The address of the next byte. -/
def position (b : Buffer) : Nat :=
  b.start + b.bytes.size

/-- Appends bytes as they are. -/
def append (b : Buffer) (bytes : List UInt8) : Buffer :=
  { b with bytes := b.bytes.appendList bytes }

/-- Appends one byte. -/
def byte (b : Buffer) (value : UInt8) : Buffer :=
  { b with bytes := b.bytes.push value }

/-- Appends a word of `width` bytes. -/
def word (b : Buffer) (width value : Nat) : Buffer :=
  b.append (b.order.bytes width value)

/-- Appends a text in UTF-8 and a zero byte. -/
def text (b : Buffer) (s : String) : Buffer :=
  (b.append (Text.utf8 s)).byte 0

/-- Sets the length so that the next byte has the given address: zero bytes are added, or bytes
beyond that address dropped. -/
def padTo (b : Buffer) (address : Nat) : Buffer :=
  let size := address - b.start
  if b.bytes.size ≤ size then { b with bytes := b.bytes ++ zeros (size - b.bytes.size) }
  else { b with bytes := b.bytes.take size }

/-- Adds zero bytes up to a multiple of `alignment`. -/
def alignTo (b : Buffer) (alignment : Nat) : Buffer :=
  b.padTo (align b.position alignment)

/-- Replaces the bytes from an address on. -/
def patch (b : Buffer) (address : Nat) (bytes : List UInt8) : Buffer :=
  { b with bytes := overwrite b.bytes (address - b.start) bytes }

/-- Replaces the word of `width` bytes at an address. -/
def patchWord (b : Buffer) (address width value : Nat) : Buffer :=
  b.patch address (b.order.bytes width value)

/-- The word of `width` bytes at an address. -/
def readWord (b : Buffer) (address width : Nat) : Nat :=
  b.order.value (slice b.bytes (address - b.start) width)

end Buffer

end GscAssembler.Bytes

/-!
# Words as bytes

A word of `width` bytes is written with its least significant byte first or last.  `ByteOrder.bytes`
takes any natural number and keeps what fits the width; `ByteOrder.value` reads the bytes back.
-/

namespace GscAssembler.Bytes

/-- The order in which the bytes of a word are stored. -/
inductive ByteOrder where
  /-- The least significant byte comes first. -/
  | little
  /-- The most significant byte comes first. -/
  | big
  deriving DecidableEq, Repr

/-- The `width` low bytes of a number, least significant first. -/
def lowBytes : (width : Nat) → (value : Nat) → List UInt8
  | 0, _ => []
  | width + 1, value => UInt8.ofNat value :: lowBytes width (value / 256)

/-- The number that bytes spell, least significant first. -/
def ofLowBytes : List UInt8 → Nat
  | [] => 0
  | b :: rest => b.toNat + 256 * ofLowBytes rest

namespace ByteOrder

/-- A word of `width` bytes. -/
def bytes (order : ByteOrder) (width value : Nat) : List UInt8 :=
  match order with
  | little => lowBytes width value
  | big => (lowBytes width value).reverse

/-- The number that a word of bytes holds. -/
def value (order : ByteOrder) (word : List UInt8) : Nat :=
  match order with
  | little => ofLowBytes word
  | big => ofLowBytes word.reverse

end ByteOrder

@[simp] theorem length_lowBytes (width value : Nat) : (lowBytes width value).length = width := by
  induction width generalizing value with
  | zero => rfl
  | succ width ih => simp [lowBytes, ih]

@[simp] theorem ByteOrder.length_bytes (order : ByteOrder) (width value : Nat) :
    (order.bytes width value).length = width := by
  cases order <;> simp [ByteOrder.bytes]

end GscAssembler.Bytes

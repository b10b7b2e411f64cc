/-!
# Chains

A `Chain` is a sequence whose elements keep their `Key` while others are inserted before or removed
behind them.  Elements live in slots that are linked both ways.  A removed element's slot is used
again for a later one, but under the next generation, so a key that was once removed never finds
anything again.

`Chain.toList` is the sequence a chain stands for.
-/

namespace GscAssembler.Code

/-- The name of an element of a chain: a slot, and how often that slot was emptied before. -/
structure Key where
  /-- The position of the slot. -/
  slot : Nat
  /-- How often the slot had been emptied when the key was made. -/
  generation : Nat
  deriving DecidableEq, Repr

/-- A place for one element, linked to the elements before and after it. -/
structure Slot (α : Type) where
  /-- The element, if the slot is in use. -/
  value : Option α
  /-- How often the slot was emptied. -/
  generation : Nat
  /-- The element before this one. -/
  prev : Option Key
  /-- The element after this one. -/
  next : Option Key

/-- A sequence of elements with lasting keys. -/
structure Chain (α : Type) where
  /-- All slots that were ever used. -/
  slots : Array (Slot α) := #[]
  /-- The slots without an element, the last emptied first. -/
  free : List Nat := []
  /-- The key of the first element. -/
  first : Option Key := none
  /-- The key of the last element. -/
  last : Option Key := none
  /-- The number of elements. -/
  size : Nat := 0

namespace Chain

variable {α : Type}

/-- The chain without elements. -/
def empty : Chain α := {}

/-- The slot of a key, as long as the key's element is there. -/
def slot? (c : Chain α) (key : Key) : Option (Slot α) :=
  c.slots[key.slot]?.filter fun slot => slot.generation == key.generation && slot.value.isSome

/-- The element of a key. -/
def get? (c : Chain α) (key : Key) : Option α :=
  (c.slot? key).bind Slot.value

/-- The key after a key. -/
def next? (c : Chain α) (key : Key) : Option Key :=
  (c.slot? key).bind Slot.next

/-- The key before a key. -/
def prev? (c : Chain α) (key : Key) : Option Key :=
  (c.slot? key).bind Slot.prev

/-- Whether a key's element is there. -/
def isLive (c : Chain α) (key : Key) : Bool :=
  (c.slot? key).isSome

/-- Changes the slot of a key, as long as the key's element is there. -/
def modifySlot (c : Chain α) (key : Key) (f : Slot α → Slot α) : Chain α :=
  if c.isLive key then { c with slots := c.slots.modify key.slot f } else c

/-- Changes the element of a key, as long as it is there. -/
def modify (c : Chain α) (key : Key) (f : α → α) : Chain α :=
  c.modifySlot key fun slot => { slot with value := slot.value.map f }

/-- Lets the element of a key, or the start of the chain, be followed by `next`. -/
def linkNext (c : Chain α) (key : Option Key) (next : Option Key) : Chain α :=
  match key with
  | some key => c.modifySlot key fun slot => { slot with next := next }
  | none => { c with first := next }

/-- Lets the element of a key, or the end of the chain, be preceded by `prev`. -/
def linkPrev (c : Chain α) (key : Option Key) (prev : Option Key) : Chain α :=
  match key with
  | some key => c.modifySlot key fun slot => { slot with prev := prev }
  | none => { c with last := prev }

/-- Puts an element between two neighbours into the slot that was emptied last, or into a new one;
the neighbours are not told yet. -/
def allocate (c : Chain α) (value : α) (prev next : Option Key) : Key × Chain α :=
  match c.free with
  | slot :: free =>
      let generation := (c.slots[slot]?.map Slot.generation).getD 0
      (⟨slot, generation⟩,
        { c with
          slots := c.slots.setIfInBounds slot ⟨some value, generation, prev, next⟩
          free := free
          size := c.size + 1 })
  | [] =>
      (⟨c.slots.size, 0⟩,
        { c with
          slots := c.slots.push ⟨some value, 0, prev, next⟩
          size := c.size + 1 })

/-- Appends an element. -/
def push (c : Chain α) (value : α) : Key × Chain α :=
  let last := c.last
  let (key, c) := c.allocate value last none
  (key, { c.linkNext last (some key) with last := some key })

/-- Inserts an element directly behind the one of a key; does nothing if that is not there. -/
def insertAfter (c : Chain α) (after : Key) (value : α) : Option Key × Chain α :=
  match c.slot? after with
  | none => (none, c)
  | some slot =>
      let next := slot.next
      let (key, c) := c.allocate value (some after) next
      (some key, (c.linkNext (some after) (some key)).linkPrev next (some key))

/-- Takes an element out; does nothing if it is not there. -/
def remove (c : Chain α) (key : Key) : Option α × Chain α :=
  match c.slot? key with
  | none => (none, c)
  | some slot =>
      let c := (c.linkNext slot.prev slot.next).linkPrev slot.next slot.prev
      (slot.value,
        { c with
          slots := c.slots.modify key.slot fun slot => ⟨none, slot.generation + 1, none, none⟩
          free := key.slot :: c.free
          size := c.size - 1 })

/-- Follows the links from a key on, for at most `count` elements.  The keys passed on the way are
kept in reverse. -/
def walk (c : Chain α) : (count : Nat) → Option Key → (passed : List Key) → List Key
  | 0, _, passed | _ + 1, none, passed => passed.reverse
  | count + 1, some key, passed => c.walk count (c.next? key) (key :: passed)

/-- The keys of all elements in order. -/
def keys (c : Chain α) : List Key :=
  c.walk c.size c.first []

/-- All elements with their keys, in order. -/
def toList (c : Chain α) : List (Key × α) :=
  c.keys.filterMap fun key => (c.get? key).map fun value => (key, value)

end Chain

end GscAssembler.Code

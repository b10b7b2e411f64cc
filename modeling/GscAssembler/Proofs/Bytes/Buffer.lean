import GscAssembler.Bytes.Buffer
import Mathlib

/-!
# Writing is appending

Every operation that writes to a buffer appends a list of bytes, and the list is known beforehand:
words and texts spell it out, and filling up appends zeros as long as nothing has to be dropped.  Two
writes one after the other are one write of both lists, so whatever a longer piece of code writes is
again `b.append bytes` for one list.

The second half is about what reading finds.  `slice` is read off the list of bytes, is not affected
by what is appended later, and a patch changes the slices it covers and no other.
-/

namespace GscAssembler.Bytes

/-! ## Words -/

theorem ofLowBytes_lowBytes (width value : Nat) :
    ofLowBytes (lowBytes width value) = value % 256 ^ width := by
  induction width generalizing value with
  | zero => simp [lowBytes, ofLowBytes, Nat.mod_one]
  | succ width ih =>
      have hbyte : (UInt8.ofNat value).toNat = value % 256 := by simp
      rw [lowBytes, ofLowBytes, ih, hbyte, Nat.pow_succ, Nat.mul_comm (256 ^ width) 256,
        Nat.mod_mul]

theorem ByteOrder.value_bytes (order : ByteOrder) (width value : Nat) :
    order.value (order.bytes width value) = value % 256 ^ width := by
  cases order <;> simp [ByteOrder.value, ByteOrder.bytes, ofLowBytes_lowBytes]

/-! ## Alignment -/

/-- Moving an address by a multiple of the alignment moves the next boundary along. -/
theorem align_add_of_dvd {shift alignment : Nat} (value : Nat) (h : alignment ∣ shift)
    (hpos : 0 < alignment) : align (value + shift) alignment = align value alignment + shift := by
  obtain ⟨k, rfl⟩ := h
  unfold align
  have hsum : value + alignment * k + (alignment - 1) = value + (alignment - 1) + alignment * k := by
    omega
  rw [hsum, Nat.add_mul_div_left _ _ hpos, Nat.add_mul, Nat.mul_comm k]

theorem sectionPadding_dvd (base raw : Nat) :
    sectionAlignment ∣ base + (raw + sectionPadding base raw) := by
  have hle : base + raw ≤ align (base + raw) sectionAlignment := le_align (by decide)
  have hsum : base + (raw + sectionPadding base raw) = align (base + raw) sectionAlignment := by
    unfold sectionPadding
    omega
  rw [hsum]
  exact dvd_align _ _

/-! ## Appending -/

namespace Buffer

theorem ext_toList {b c : Buffer} (horder : b.order = c.order) (hstart : b.start = c.start)
    (hbytes : b.bytes.toList = c.bytes.toList) : b = c := by
  obtain ⟨order, start, bytes⟩ := b
  obtain ⟨order', start', bytes'⟩ := c
  have : bytes = bytes' := Array.ext' hbytes
  simp_all

@[simp] theorem order_append (b : Buffer) (l : List UInt8) : (b.append l).order = b.order := rfl

@[simp] theorem start_append (b : Buffer) (l : List UInt8) : (b.append l).start = b.start := rfl

@[simp] theorem toList_append (b : Buffer) (l : List UInt8) :
    (b.append l).bytes.toList = b.bytes.toList ++ l := by
  simp [append]

@[simp] theorem size_append (b : Buffer) (l : List UInt8) :
    (b.append l).bytes.size = b.bytes.size + l.length := by
  rw [← Array.length_toList, toList_append, List.length_append, Array.length_toList]

@[simp] theorem position_append (b : Buffer) (l : List UInt8) :
    (b.append l).position = b.position + l.length := by
  simp [position, Nat.add_assoc]

@[simp] theorem append_append (b : Buffer) (l m : List UInt8) :
    (b.append l).append m = b.append (l ++ m) :=
  ext_toList rfl rfl (by simp)

@[simp] theorem append_nil (b : Buffer) : b.append [] = b :=
  ext_toList rfl rfl (by simp)

theorem byte_eq_append (b : Buffer) (v : UInt8) : b.byte v = b.append [v] :=
  ext_toList rfl rfl (by simp [byte])

theorem word_eq_append (b : Buffer) (width value : Nat) :
    b.word width value = b.append (b.order.bytes width value) := rfl

theorem text_eq_append (b : Buffer) (s : String) : b.text s = b.append (Text.utf8 s ++ [0]) := by
  rw [text, byte_eq_append, append_append]

theorem padTo_eq_append {b : Buffer} {address : Nat} (h : b.position ≤ address) :
    b.padTo address = b.append (List.replicate (address - b.position) 0) := by
  have hle : b.bytes.size ≤ address - b.start := by
    unfold position at h
    omega
  have hcount : address - b.start - b.bytes.size = address - b.position := by
    unfold position
    omega
  refine ext_toList ?_ ?_ ?_ <;> simp [padTo, hle, zeros, hcount]

theorem alignTo_eq_append (b : Buffer) {alignment : Nat} (h : 0 < alignment) :
    b.alignTo alignment =
      b.append (List.replicate (align b.position alignment - b.position) 0) :=
  padTo_eq_append (le_align h)

@[simp] theorem position_byte (b : Buffer) (v : UInt8) : (b.byte v).position = b.position + 1 := by
  simp [byte_eq_append]

@[simp] theorem position_word (b : Buffer) (width value : Nat) :
    (b.word width value).position = b.position + width := by
  simp [word_eq_append]

theorem length_utf8 (s : String) : (Text.utf8 s).length = s.utf8ByteSize := by
  simp [Text.utf8]

@[simp] theorem position_text (b : Buffer) (s : String) :
    (b.text s).position = b.position + (s.utf8ByteSize + 1) := by
  simp [text_eq_append, length_utf8]

theorem position_padTo {b : Buffer} {address : Nat} (h : b.position ≤ address) :
    (b.padTo address).position = address := by
  rw [padTo_eq_append h, position_append, List.length_replicate]
  omega

theorem position_alignTo (b : Buffer) {alignment : Nat} (h : 0 < alignment) :
    (b.alignTo alignment).position = align b.position alignment :=
  position_padTo (le_align h)

@[simp] theorem order_padTo (b : Buffer) (address : Nat) : (b.padTo address).order = b.order := by
  unfold padTo
  dsimp only
  split <;> rfl

@[simp] theorem start_padTo (b : Buffer) (address : Nat) : (b.padTo address).start = b.start := by
  unfold padTo
  dsimp only
  split <;> rfl

@[simp] theorem start_patch (b : Buffer) (address : Nat) (l : List UInt8) :
    (b.patch address l).start = b.start := rfl

end Buffer

/-! ## Slices -/

theorem slice_eq_take_drop (bytes : Array UInt8) (position count : Nat) :
    slice bytes position count = (bytes.toList.drop position).take count := by
  simp [slice, List.extract_eq_take_drop]

theorem getElem?_slice (bytes : Array UInt8) (position : Nat) {count i : Nat} (h : i < count) :
    (slice bytes position count)[i]? = bytes[position + i]? := by
  rw [slice_eq_take_drop, List.getElem?_take_of_lt h, List.getElem?_drop, Array.getElem?_toList]

/-- A list that stands between two others is read as it is. -/
theorem slice_between {bytes : Array UInt8} {before l after : List UInt8}
    (h : bytes.toList = before ++ l ++ after) : slice bytes before.length l.length = l := by
  rw [slice_eq_take_drop, h, List.append_assoc, List.drop_left, List.take_left]

/-- A slice of a slice. -/
theorem slice_slice {bytes : Array UInt8} {position count offset inner : Nat}
    (h : offset + inner ≤ count) :
    ((slice bytes position count).drop offset).take inner =
      slice bytes (position + offset) inner := by
  rw [slice_eq_take_drop, slice_eq_take_drop, List.drop_take, List.drop_drop, List.take_take,
    Nat.min_eq_left (by omega)]

/-- A part of what was read is read on its own. -/
theorem slice_of_slice_eq {bytes : Array UInt8} {position count : Nat} {before l after : List UInt8}
    (h : slice bytes position count = before ++ l ++ after) :
    slice bytes (position + before.length) l.length = l := by
  have hlength : before.length + l.length ≤ count := by
    have := congrArg List.length h
    simp only [slice_eq_take_drop, List.length_take, List.length_append] at this
    omega
  rw [← slice_slice hlength, h, List.append_assoc, List.drop_left, List.take_left]

/-! ## Patches -/

@[simp] theorem size_overwrite (l : List UInt8) :
    ∀ (bytes : Array UInt8) (position : Nat), (overwrite bytes position l).size = bytes.size := by
  induction l with
  | nil => intro bytes position; rfl
  | cons b rest ih => intro bytes position; simp [overwrite, ih]

theorem getElem?_overwrite_of_outside (l : List UInt8) :
    ∀ (bytes : Array UInt8) {position i : Nat}, i < position ∨ position + l.length ≤ i →
      (overwrite bytes position l)[i]? = bytes[i]? := by
  induction l with
  | nil => intro bytes position i _; rfl
  | cons b rest ih =>
      intro bytes position i hout
      rw [List.length_cons] at hout
      rw [overwrite, ih _ (by omega), Array.getElem?_setIfInBounds_ne (by omega)]

theorem getElem?_overwrite_of_inside (l : List UInt8) :
    ∀ (bytes : Array UInt8) {position : Nat} (i : Nat), position + l.length ≤ bytes.size →
      i < l.length → (overwrite bytes position l)[position + i]? = l[i]? := by
  induction l with
  | nil => intro bytes position i _ hi; simp at hi
  | cons b rest ih =>
      intro bytes position i hsize hi
      rw [List.length_cons] at hsize hi
      cases i with
      | zero =>
          rw [overwrite, Nat.add_zero, getElem?_overwrite_of_outside _ _ (by omega)]
          simp [show position < bytes.size by omega]
      | succ i =>
          rw [overwrite, show position + (i + 1) = position + 1 + i by omega,
            ih _ i (by simp; omega) (by omega)]
          rfl

theorem overwrite_append (first second : Array UInt8) (l : List UInt8) :
    ∀ offset, overwrite (first ++ second) (first.size + offset) l =
      first ++ overwrite second offset l := by
  induction l generalizing second with
  | nil => intro offset; rfl
  | cons b rest ih =>
      intro offset
      have hset : (first ++ second).setIfInBounds (first.size + offset) b =
          first ++ second.setIfInBounds offset b := by
        apply Array.ext'
        simp
      rw [overwrite, overwrite, hset, Nat.add_assoc, ih]

/-- A list that stands between two others is replaced by one of its length. -/
theorem overwrite_between (new : List UInt8) :
    ∀ (before : List UInt8) {old : List UInt8} (after : List UInt8), old.length = new.length →
      overwrite (before ++ old ++ after).toArray before.length new =
        (before ++ new ++ after).toArray := by
  induction new with
  | nil =>
      intro before old after hlength
      obtain rfl : old = [] := List.eq_nil_of_length_eq_zero hlength
      rfl
  | cons n rest ih =>
      intro before old after hlength
      obtain ⟨o, old, rfl⟩ := List.exists_cons_of_length_eq_add_one hlength
      have hset : (before ++ o :: old ++ after).toArray.setIfInBounds before.length n =
          (before ++ [n] ++ old ++ after).toArray := by
        simp
      have hrest := ih (before ++ [n]) after (by simpa using hlength)
      rw [overwrite, hset]
      simpa using hrest

theorem slice_overwrite_of_outside (bytes : Array UInt8) {position count at_ : Nat}
    (l : List UInt8) (h : position + count ≤ at_ ∨ at_ + l.length ≤ position) :
    slice (overwrite bytes at_ l) position count = slice bytes position count := by
  rw [slice_eq_take_drop, slice_eq_take_drop]
  apply List.ext_getElem?
  intro i
  rw [List.getElem?_take, List.getElem?_take, List.getElem?_drop, List.getElem?_drop]
  split
  · rename_i hi
    have := getElem?_overwrite_of_outside l bytes (by omega : position + i < at_ ∨ _)
    simpa using this
  · rfl

theorem slice_overwrite_self {bytes : Array UInt8} {position : Nat} {l : List UInt8}
    (h : position + l.length ≤ bytes.size) :
    slice (overwrite bytes position l) position l.length = l := by
  rw [slice_eq_take_drop]
  apply List.ext_getElem?
  intro i
  rw [List.getElem?_take, List.getElem?_drop]
  split
  · rename_i hi
    have := getElem?_overwrite_of_inside l bytes i h hi
    simpa using this
  · rename_i hi
    simp [Nat.le_of_not_lt hi]

namespace Buffer

/-- What was appended last to an image is read behind what was there before. -/
theorem slice_append_self {b : Buffer} (hstart : b.start = 0) (l : List UInt8) :
    slice (b.append l).bytes b.position l.length = l := by
  have hposition : b.position = b.bytes.toList.length := by simp [position, hstart]
  rw [hposition]
  exact slice_between (by simp : _ = b.bytes.toList ++ l ++ [])

@[simp] theorem size_patch (b : Buffer) (address : Nat) (l : List UInt8) :
    (b.patch address l).bytes.size = b.bytes.size := by
  simp [patch]

/-- Replacing the first of the bytes that were appended last. -/
theorem patch_append {b : Buffer} {old new : List UInt8} (after : List UInt8)
    (h : old.length = new.length) :
    (b.append (old ++ after)).patch b.position new = b.append (new ++ after) := by
  have hoffset : b.position - b.start = b.bytes.toList.length := by simp [position]
  have hbytes : (b.append (old ++ after)).bytes = (b.bytes.toList ++ old ++ after).toArray :=
    Array.ext' (by simp)
  refine ext_toList rfl rfl ?_
  rw [patch, start_append, hoffset, hbytes, overwrite_between new _ after h]
  simp

@[simp] theorem position_patch (b : Buffer) (address : Nat) (l : List UInt8) :
    (b.patch address l).position = b.position := by
  simp [position]

@[simp] theorem order_patchWord (b : Buffer) (address width value : Nat) :
    (b.patchWord address width value).order = b.order := rfl

@[simp] theorem start_patchWord (b : Buffer) (address width value : Nat) :
    (b.patchWord address width value).start = b.start := rfl

@[simp] theorem position_patchWord (b : Buffer) (address width value : Nat) :
    (b.patchWord address width value).position = b.position :=
  position_patch ..

end Buffer

end GscAssembler.Bytes

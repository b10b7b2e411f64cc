import GscAssembler.Proofs.Code.Jumps
import GscAssembler.Proofs.Code.Shape

/-!
# Reading code

`decodeFunction` reads the instructions of a function one behind the other, as a debugger would: it
sees the bytes of an image, where the function starts and how long it is, and nothing else.  The opcode
tells what stands behind it (`Opcode.shape`), and what stands there tells where the next instruction
starts.  The declaration of the locals, which comes first, gives their indices a meaning.

Reading an instruction is the inverse of `Frame.code` (`readOperand_of_holds`, `readOperand_jump`), if
the instruction has the operands of its opcode and finds what it names.
-/

namespace GscAssembler.Code

open Bytes (ByteOrder align slice)
open Number (Constant)
open Reference (ImportKey Tables)

/-! ## The decoder -/

/-- What was read behind an opcode. -/
inductive Operand where
  /-- Nothing. -/
  | nothing
  /-- The hashes of the locals. -/
  | locals (hashes : List UInt32)
  /-- The address that a jump lands on. -/
  | jump (landing : Int)
  /-- The hash of the local with the index that was read. -/
  | localVariable (hash : UInt32)
  /-- The bits of a number, or its absolute value if the opcode tells the sign. -/
  | number (value : Nat)
  /-- An address that the loader fills in. -/
  | address
  /-- A hash value. -/
  | hash (value : UInt64)
  /-- The hash of a field. -/
  | field (hash : UInt32)
  /-- An imported function: the hash of its name, its parameter count, and its flags if there is room
  for them. -/
  | call (function : UInt32) (params : UInt8) (flags : Option UInt8)
  /-- A parameter count. -/
  | count (params : UInt8)
  /-- The hash of the name of an imported function. -/
  | pointer (function : UInt32)
  /-- A global object that the loader fills in. -/
  | global
  deriving DecidableEq, Repr

/-- An instruction that was read. -/
structure Decoded where
  /-- Its opcode. -/
  opcode : Opcode
  /-- The address of its first byte. -/
  address : Nat
  /-- The number of its bytes. -/
  size : Nat
  /-- What stands behind the opcode. -/
  operand : Operand
  deriving DecidableEq, Repr

section Decoder

variable (target : Target) (image : Array UInt8)

/-- The word at an address. -/
def wordAt (address width : Nat) : Nat :=
  target.order.value (slice image address width)

/-- The byte at an address. -/
def byteAt (address : Nat) : UInt8 :=
  UInt8.ofNat (wordAt target image address 1)

/-- The hashes of so many locals that are declared from an address on, and where these end. -/
def readLocals : (count : Nat) → (address : Nat) → List UInt32 × Nat
  | 0, address => ([], address)
  | count + 1, address =>
      let (hashes, finish) := readLocals count (align address 4 + 5)
      (UInt32.ofNat (wordAt target image (align address 4) 4) :: hashes, finish)

/-- What stands behind an opcode, from an address on, and where it ends. -/
def readOperand (locals : List UInt32) (address : Nat) : Shape → Option (Operand × Nat)
  | .bare => some (.nothing, address)
  | .locals =>
      let (hashes, finish) := readLocals target image (byteAt target image address).toNat (address + 1)
      some (.locals hashes, align finish target.opcodeWidth)
  | .jump =>
      let position := align address 2
      let displacement := (BitVec.ofNat 16 (wordAt target image position 2)).toInt
      some (.jump (position + 2 + displacement), position + 2)
  | .localIndex => do
      -- indices count from the local that was declared last
      let hash ← locals.reverse[(byteAt target image address).toNat]?
      return (.localVariable hash, address + target.opcodeWidth)
  | .byte =>
      match target.revision, target.order with
      | .legacy, .big => some (.number (wordAt target image address 1), address + 1)
      | .legacy, .little =>
          some (.number (wordAt target image (align address 2) 2), align address 2 + 2)
      | .rev36, _ => some (.number (wordAt target image address 2), address + 2)
  | .short =>
      let position := if target.isLegacy then align address 2 else address
      some (.number (wordAt target image position 2), position + 2)
  | .word => some (.number (wordAt target image (align address 4) 4), align address 4 + 4)
  | .address =>
      some (.address, align address (2 * target.opcodeWidth) + 2 * target.opcodeWidth)
  | .hash =>
      let width := if target.isLegacy then 4 else 8
      some (.hash (UInt64.ofNat (wordAt target image (align address width) width)),
        align address width + width)
  | .field =>
      some (.field (UInt32.ofNat (wordAt target image (align address 4) 4)), align address 4 + 4)
  | .call =>
      let position := align (address + target.opcodeWidth) (4 * target.opcodeWidth)
      let flags := if target.isLittle then some (byteAt target image (address + 1)) else none
      some (.call (UInt32.ofNat (wordAt target image position 4)) (byteAt target image address) flags,
        position + 4 * target.opcodeWidth)
  | .count => some (.count (byteAt target image address), address + target.opcodeWidth)
  | .pointer =>
      let position := align address (4 * target.opcodeWidth)
      some (.pointer (UInt32.ofNat (wordAt target image position 4)),
        position + 4 * target.opcodeWidth)
  | .global => some (.global, address + 2)

/-- The instruction at an address of a function with some locals. -/
def decodeAt (locals : List UInt32) (address : Nat) : Option Decoded := do
  let opcode ← Opcode.ofValue? (wordAt target image address target.opcodeWidth)
  let (operand, finish) ←
    readOperand target image locals (address + target.opcodeWidth) (opcode.shape target.revision)
  return ⟨opcode, address, finish - address, operand⟩

/-- The locals that are declared behind an instruction. -/
def Decoded.declared (d : Decoded) (locals : List UInt32) : List UInt32 :=
  match d.operand with
  | .locals hashes => hashes
  | _ => locals

/-- At most so many instructions, from an address to the end of a function. -/
def decodeFrom (finish : Nat) :
    (most : Nat) → (locals : List UInt32) → (address : Nat) → Option (List Decoded)
  | 0, _, address => if address = finish then some [] else none
  | most + 1, locals, address =>
      if address = finish then some []
      else do
        let first ← decodeAt target image locals address
        let rest ← decodeFrom finish most (first.declared locals) (address + first.size)
        return first :: rest

/-- The instructions of a function of so many bytes.  No instruction is shorter than a byte. -/
def decodeFunction (start size : Nat) : Option (List Decoded) :=
  decodeFrom target image (start + size) size [] start

end Decoder

/-! ## Bytes in an image -/

/-- Whether bytes stand in an image at an address. -/
def Holds (image : Array UInt8) (address : Nat) (l : List UInt8) : Prop :=
  slice image address l.length = l

section Holds

variable {target : Target} {image : Array UInt8} {address : Nat} {l m : List UInt8}

theorem Holds.left (h : Holds image address (l ++ m)) : Holds image address l :=
  @Bytes.slice_of_slice_eq image address _ [] l m h

theorem Holds.right (h : Holds image address (l ++ m)) : Holds image (address + l.length) m :=
  @Bytes.slice_of_slice_eq image address _ l m [] (by rwa [List.append_nil])

theorem Holds.aligned {alignment : Nat} (hpos : 0 < alignment)
    (h : Holds image address (padding address alignment ++ l)) :
    Holds image (align address alignment) l :=
  length_padding address hpos ▸ h.right

theorem wordAt_of_holds {width value : Nat} (hvalue : value < 256 ^ width)
    (h : Holds image address (target.order.bytes width value)) :
    wordAt target image address width = value := by
  rw [Holds, ByteOrder.length_bytes] at h
  rw [wordAt, h, ByteOrder.value_bytes, Nat.mod_eq_of_lt hvalue]

theorem byteAt_of_holds {b : UInt8} (h : Holds image address (b :: l)) :
    byteAt target image address = b := by
  have hfirst : slice image address 1 = [b] := (h.left (l := [b]) (m := l) :)
  rw [byteAt, wordAt, hfirst]
  cases target.order <;> simp [ByteOrder.value, Bytes.ofLowBytes]

end Holds

/-! ## What an instruction carries -/

/-- What a numeric constant leaves behind its opcode. -/
def constantOperand : Constant → Operand
  | .float bits => .number bits.toNat
  | .int value =>
      if value = 0 then .nothing
      else .number (if value.natAbs ≤ 0xFFFF then value.natAbs else (value % 2 ^ 32).toNat)

/-- The import at a position, if there is one. -/
def Frame.import? (f : Frame) (entry : Nat) : Option ImportKey :=
  (f.imports.get? entry).map (·.value)

/-- What stands behind the opcode of an instruction, which lands where it is told if it is a jump. -/
def Frame.operandOf (f : Frame) (landing : Option Nat) : Instruction → Operand
  | .op _ => .nothing
  | .locals => if f.locals.isEmpty then .nothing else .locals f.locals
  | .jump _ _ => (landing.map fun (address : Nat) => Operand.jump address).getD .nothing
  | .localVariable _ hash => .localVariable hash
  | .number value => constantOperand value
  | .string _ _ | .debugString _ => .address
  | .hash value => .hash value
  | .field _ hash => .field hash
  | .call _ entry => ((f.import? entry).map fun key => Operand.call key.function key.params
      (if f.target.isLittle then some key.flags else none)).getD .nothing
  | .callPointer _ params | .notification _ params => .count params
  | .functionPointer _ entry =>
      ((f.import? entry).map fun key => Operand.pointer key.function).getD .nothing
  | .global _ _ => .global

theorem ofValue?_value (code : Opcode) : Opcode.ofValue? code.value = some code := by
  cases code <;> decide +kernel

theorem value_lt (code : Opcode) : code.value < 256 := by
  obtain ⟨hlt, -⟩ := Array.getElem?_eq_some_iff.mp (ofValue?_value code)
  exact Nat.lt_of_lt_of_le hlt (by decide +kernel)

section Reading

variable {f : Frame} {image : Array UInt8} {address : Nat}

theorem readLocals_of_holds (locals : List UInt32) : ∀ {address},
    Holds image address (declarations f.target.order address locals) →
    readLocals f.target image locals.length address =
      (locals, declarationsEnd address locals.length) := by
  induction locals with
  | nil => intro address _; rfl
  | cons hash rest ih =>
      intro address h
      rw [declarations, List.append_assoc] at h
      have haligned := h.aligned (by decide)
      have hword := wordAt_of_holds hash.toNat_lt haligned.left
      have hrest : Holds image (align address 4 + 5)
          (declarations f.target.order (align address 4 + 5) rest) := by
        simpa [Nat.add_assoc] using haligned.right.right (l := [0])
      simp only [List.length_cons, readLocals, ih hrest, hword, UInt32.ofNat_toNat, declarationsEnd]

/-- The operations that push an integer, by its size. -/
theorem opcode_int (target : Target) (v : Int) :
    (v = 0 ∧ (Constant.int v).opcode target = .getZero) ∨
    (v ≠ 0 ∧ v.natAbs ≤ 0xFF ∧ ((Constant.int v).opcode target = .getByte ∨
      (Constant.int v).opcode target = .getNegByte)) ∨
    (v ≠ 0 ∧ 0xFF < v.natAbs ∧ v.natAbs ≤ 0xFFFF ∧
      ((Constant.int v).opcode target = .getUnsignedShort ∨
        (Constant.int v).opcode target = .getNegUnsignedShort)) ∨
    (v ≠ 0 ∧ 0xFFFF < v.natAbs ∧ ((Constant.int v).opcode target = .getUnsignedInteger ∨
      (Constant.int v).opcode target = .getInteger)) := by
  by_cases hzero : v = 0
  · exact .inl ⟨hzero, if_pos hzero⟩
  by_cases hbyte : v.natAbs ≤ 0xFF
  · refine .inr (.inl ⟨hzero, hbyte, ?_⟩)
    simp only [Constant.opcode, if_neg hzero, if_pos hbyte]
    split <;> simp
  by_cases hshort : v.natAbs ≤ 0xFFFF
  · refine .inr (.inr (.inl ⟨hzero, Nat.lt_of_not_le hbyte, hshort, ?_⟩))
    simp only [Constant.opcode, if_neg hzero, if_neg hbyte, if_pos hshort]
    split <;> simp
  · refine .inr (.inr (.inr ⟨hzero, Nat.lt_of_not_le hshort, ?_⟩))
    simp only [Constant.opcode, if_neg hzero, if_neg hbyte, if_neg hshort]
    split <;> simp

theorem readOperand_number (value : Constant) (locals : List UInt32)
    (h : Holds image address (f.constantBytes address value)) :
    readOperand f.target image locals address ((value.opcode f.target).shape f.target.revision) =
      some (constantOperand value, constantEnd f.target address value) := by
  cases value with
  | float bits =>
      have hword := wordAt_of_holds bits.toNat_lt (h.aligned (by decide))
      simp only [Constant.opcode, Opcode.shape, readOperand, hword, constantOperand, constantEnd]
  | int v =>
      rcases opcode_int f.target v with ⟨hzero, hop⟩ | ⟨hzero, hbyte, hop⟩ | ⟨hzero, -, hshort, hop⟩ |
        ⟨hzero, hlong, hop⟩
      · simp only [constantOperand, constantEnd, hop, if_pos hzero, Opcode.shape, readOperand]
      · have hsize : v.natAbs ≤ 0xFFFF := by omega
        rcases hop with hop | hop <;>
        · simp only [Frame.constantBytes, hop] at h
          simp only [constantOperand, constantEnd, hop, if_neg hzero, if_pos hsize, Opcode.shape,
            readOperand]
          split at h
          case h_1 hrevision horder =>
            simp only [hrevision, horder, wordAt_of_holds (by omega) h]
          case h_2 hrevision horder =>
            simp only [hrevision, horder, wordAt_of_holds (by omega) (h.aligned (by decide))]
          case h_3 hrevision =>
            simp only [hrevision, wordAt_of_holds (by omega) h]
      · rcases hop with hop | hop <;>
        · simp only [Frame.constantBytes, hop] at h
          simp only [constantOperand, constantEnd, hop, if_neg hzero, if_pos hshort, Opcode.shape,
            readOperand]
          split at h
          case isTrue hlegacy =>
            simp only [hlegacy, if_true, wordAt_of_holds (by omega) (h.aligned (by decide))]
          case isFalse hlegacy =>
            simp only [hlegacy, Bool.false_eq_true, if_false, wordAt_of_holds (by omega) h]
      · have hlarge : ¬ v.natAbs ≤ 0xFFFF := by omega
        have hword : (v % 2 ^ 32).toNat < 256 ^ 4 := by omega
        rcases hop with hop | hop <;>
        · simp only [Frame.constantBytes, hop] at h
          simp only [constantOperand, constantEnd, hop, if_neg hzero, if_neg hlarge, Opcode.shape,
            readOperand, wordAt_of_holds hword (h.aligned (by decide))]

/-- Whether an instruction other than a jump can be read: it has the operands of its opcode. -/
def Instruction.Readable (revision : Revision) (i : Instruction) : Prop :=
  i = .locals ∨ i.Emittable revision

theorem import?_of_lt {entry : Nat} (h : entry < f.imports.size) :
    f.import? entry = some (f.importAt entry) := by
  have hsome : f.imports.get? entry = some f.imports.entries[entry] := by
    simp [Reference.Table.get?, Reference.Table.size] at h ⊢
  simp [Frame.import?, Frame.importAt, hsome]

/-- The index of a local leads back to it. -/
theorem getElem?_localIndex {locals : List UInt32} (hcount : locals.length ≤ maxLocals)
    {hash : UInt32} (h : hash ∈ locals) :
    locals.reverse[(UInt8.ofNat (locals.length - locals.idxOf hash - 1)).toNat]? = some hash := by
  have hlt := List.idxOf_lt_length_of_mem h
  have hbyte : (UInt8.ofNat (locals.length - locals.idxOf hash - 1)).toNat =
      locals.length - 1 - locals.idxOf hash := by
    simp only [maxLocals] at hcount
    simp only [UInt8.toNat_ofNat']
    omega
  rw [hbyte, List.getElem?_reverse (by omega)]
  rw [show locals.length - 1 - (locals.length - 1 - locals.idxOf hash) = locals.idxOf hash by omega]
  exact List.getElem?_idxOf h

/-- What stands behind the opcode of an instruction is read back.  Only the declaration of the locals
can be read before they are known. -/
theorem readOperand_of_holds {i : Instruction} {locals : List UInt32}
    (hlocals : i ≠ .locals → locals = f.locals) (hreadable : i.Readable f.target.revision)
    (haccepts : f.Accepts i) (hcount : f.locals.length ≤ maxLocals) (landing : Option Nat)
    (h : Holds image (address + f.target.opcodeWidth)
      (f.operand (address + f.target.opcodeWidth) i)) :
    readOperand f.target image locals (address + f.target.opcodeWidth)
        ((i.opcode f.target f.locals.length).shape f.target.revision) =
      some (f.operandOf landing i, i.finish f.target f.locals.length address) := by
  have hwidth := f.target.opcodeWidth_pos
  have htwice : address + 2 * f.target.opcodeWidth =
      address + f.target.opcodeWidth + f.target.opcodeWidth := by omega
  cases i with
  | op code =>
      have hshape : code.shape f.target.revision = .bare := hreadable.resolve_left (by simp)
      simp only [Instruction.opcode, hshape, readOperand, Frame.operandOf, Instruction.finish]
  | locals =>
      by_cases hempty : f.locals = []
      · simp [Instruction.opcode, hempty, Opcode.shape, readOperand, Frame.operandOf,
          Instruction.finish]
      · have hlength : f.locals.length ≠ 0 := fun h => hempty (List.length_eq_zero_iff.mp h)
        have hbyte : (UInt8.ofNat f.locals.length).toNat = f.locals.length := by
          simp only [maxLocals] at hcount
          simp only [UInt8.toNat_ofNat']
          omega
        have hisEmpty : f.locals.isEmpty = false := by simpa using hempty
        simp only [Frame.operand, hisEmpty, Bool.false_eq_true, if_false, List.cons_append] at h
        have hdeclared : readLocals f.target image f.locals.length
            (address + f.target.opcodeWidth + 1) = (f.locals, _) :=
          readLocals_of_holds f.locals (h.right (l := [_])).left
        simp only [Instruction.opcode, hlength, if_false, Opcode.shape, readOperand,
          byteAt_of_holds h, hbyte, hdeclared, Frame.operandOf, hisEmpty, Bool.false_eq_true,
          Instruction.finish]
  | jump code target => exact absurd hreadable (by simp [Instruction.Readable, Instruction.Emittable])
  | localVariable code hash =>
      have hshape : code.shape f.target.revision = .localIndex := hreadable.resolve_left (by simp)
      rw [hlocals (by simp)]
      simp only [Instruction.opcode, hshape, readOperand, byteAt_of_holds h,
        getElem?_localIndex hcount haccepts, Frame.operandOf, Instruction.finish, htwice]
      rfl
  | number value => exact readOperand_number value locals h
  | string code entry =>
      have hshape : code.shape f.target.revision = .address := hreadable.resolve_left (by simp)
      simp only [Instruction.opcode, hshape, readOperand, Frame.operandOf, Instruction.finish]
  | debugString entry =>
      simp only [Instruction.opcode, Opcode.shape, readOperand, Frame.operandOf, Instruction.finish]
  | hash value =>
      have hvalue : f.target.revision = .legacy → value.toNat < 2 ^ 32 :=
        hreadable.resolve_left (by simp)
      cases hlegacy : f.target.isLegacy with
      | true =>
          simp only [Frame.operand, hlegacy, if_true] at h
          have hword := wordAt_of_holds (hvalue (of_decide_eq_true hlegacy)) (h.aligned (by decide))
          simp only [Instruction.opcode, Opcode.shape, readOperand, hlegacy, if_true, hword,
            UInt64.ofNat_toNat, Frame.operandOf, Instruction.finish]
      | false =>
          simp only [Frame.operand, hlegacy, Bool.false_eq_true, if_false] at h
          have hword := wordAt_of_holds value.toNat_lt (h.aligned (by decide))
          simp only [Instruction.opcode, Opcode.shape, readOperand, hlegacy, Bool.false_eq_true,
            if_false, hword, UInt64.ofNat_toNat, Frame.operandOf, Instruction.finish]
  | field code hash =>
      have hshape : code.shape f.target.revision = .field := hreadable.resolve_left (by simp)
      have hword := wordAt_of_holds hash.toNat_lt (h.aligned (by decide))
      simp only [Instruction.opcode, hshape, readOperand, hword, UInt32.ofNat_toNat,
        Frame.operandOf, Instruction.finish]
  | call code entry =>
      have hshape : code.shape f.target.revision = .call := hreadable.resolve_left (by simp)
      simp only [Frame.operand, List.append_assoc] at h
      have hrest := h.right
      rw [f.length_callCounts] at hrest
      have hword := wordAt_of_holds (f.importAt entry).function.toNat_lt
        (hrest.aligned (by omega)).left
      have hflags : f.target.isLittle = true →
          byteAt f.target image (address + f.target.opcodeWidth + 1) = (f.importAt entry).flags := by
        intro hlittle
        simp only [Frame.callCounts, hlittle, if_true] at h
        exact byteAt_of_holds (h.right (l := [_]))
      simp only [Instruction.opcode, hshape, readOperand, hword, UInt32.ofNat_toNat,
        byteAt_of_holds h, Frame.operandOf, import?_of_lt haccepts, Instruction.finish, htwice]
      cases hlittle : f.target.isLittle with
      | true => simp [hflags hlittle]
      | false => simp
  | callPointer code params =>
      have hshape : code.shape f.target.revision = .count := hreadable.resolve_left (by simp)
      simp only [Instruction.opcode, hshape, readOperand, byteAt_of_holds h, Frame.operandOf,
        Instruction.finish, htwice]
  | functionPointer code entry =>
      have hshape : code.shape f.target.revision = .pointer := hreadable.resolve_left (by simp)
      have hword := wordAt_of_holds (f.importAt entry).function.toNat_lt
        (h.left.aligned (by omega))
      simp only [Instruction.opcode, hshape, readOperand, hword, UInt32.ofNat_toNat,
        Frame.operandOf, import?_of_lt haccepts, Instruction.finish]
      rfl
  | global code entry =>
      have hshape : code.shape f.target.revision = .global :=
        (hreadable.resolve_left (by simp)).1
      simp only [Instruction.opcode, hshape, readOperand, Frame.operandOf, Instruction.finish]
  | notification code params =>
      have hshape : code.shape f.target.revision = .count := hreadable.resolve_left (by simp)
      simp only [Instruction.opcode, hshape, readOperand, byteAt_of_holds h, Frame.operandOf,
        Instruction.finish, htwice]

/-- The displacement of a jump is read back. -/
theorem readOperand_jump {code : Opcode} (hcode : code.shape f.target.revision = .jump)
    {j : PlacedJump} (hrange : j.InRange) (locals : List UInt32)
    (horigin : j.origin = jumpOperand f.target address + 2)
    (h : Holds image (jumpOperand f.target address)
      (f.target.order.bytes 2 (j.displacement % 2 ^ 16).toNat)) :
    readOperand f.target image locals (address + f.target.opcodeWidth)
        (code.shape f.target.revision) =
      some (.jump j.landing, j.origin) := by
  rw [Holds, ByteOrder.length_bytes, jumpOperand] at h
  have hdisplacement := toInt_displacement hrange f.target.order
  have hlanding : ((align (address + f.target.opcodeWidth) 2 : Nat) : Int) + 2 + j.displacement =
      j.landing := by
    simp only [PlacedJump.displacement, horigin, jumpOperand]
    push_cast
    ring
  simp only [hcode, readOperand, wordAt, h, hdisplacement, hlanding, horigin, jumpOperand]

end Reading

end GscAssembler.Code

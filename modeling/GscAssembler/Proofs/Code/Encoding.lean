import GscAssembler.Code.Encoding
import GscAssembler.Proofs.Bytes.Buffer

/-!
# The bytes of an instruction

`Frame.code` is the list of bytes that an instruction becomes at an address: its opcode, and its
operand with the zeros that align it.  `encode_of_accepts` says that encoding gives these bytes and
the reference `Instruction.reference`, and fails for those instructions only that the frame does not
accept: uses of locals or imports that are not there, and the declaration of too many locals.

Where an instruction ends is a function of the target, the number of locals and the address alone
(`Instruction.finish`).  No alignment exceeds 8, so moving an instruction by a multiple of 8 changes
neither its bytes nor its size.
-/

namespace GscAssembler

theorem Target.opcodeWidth_pos (t : Target) : 0 < t.opcodeWidth := by
  obtain ⟨revision, order⟩ := t
  cases order <;> simp [Target.opcodeWidth]

end GscAssembler

namespace GscAssembler.Code

open Bytes (Buffer ByteOrder align)
open Number (Constant)
open Reference (ImportKey Table TableReference)

/-- The zeros between an address and the next multiple of an alignment. -/
def padding (address alignment : Nat) : List UInt8 :=
  List.replicate (align address alignment - address) 0

theorem length_padding (address : Nat) {alignment : Nat} (h : 0 < alignment) :
    address + (padding address alignment).length = align address alignment := by
  have : address ≤ align address alignment := Bytes.le_align h
  simp only [padding, List.length_replicate]
  omega

theorem padding_add_of_dvd {shift alignment : Nat} (address : Nat) (h : alignment ∣ shift)
    (hpos : 0 < alignment) : padding (address + shift) alignment = padding address alignment := by
  rw [padding, padding, Bytes.align_add_of_dvd address h hpos, Nat.add_sub_add_right]

theorem alignTo_eq_padding (b : Buffer) {alignment : Nat} (h : 0 < alignment) :
    b.alignTo alignment = b.append (padding b.position alignment) :=
  b.alignTo_eq_append h

/-! ## Operands -/

/-- The declaration of locals from an address on: each hash aligned, with a flag byte behind it. -/
def declarations (order : ByteOrder) : (address : Nat) → List UInt32 → List UInt8
  | _, [] => []
  | address, hash :: rest =>
      padding address 4 ++ order.bytes 4 hash.toNat ++ 0 ::
        declarations order (align address 4 + 5) rest

/-- Where the declaration of `count` locals ends that starts at an address. -/
def declarationsEnd : (address : Nat) → (count : Nat) → Nat
  | address, 0 => address
  | address, count + 1 => declarationsEnd (align address 4 + 5) count

namespace Frame

/-- The operand of a numeric constant from an address on. -/
def constantBytes (f : Frame) (address : Nat) (value : Constant) : List UInt8 :=
  let word := f.target.order.bytes
  match value with
  | .float bits => padding address 4 ++ word 4 bits.toNat
  | .int v =>
      match value.opcode f.target with
      | .getZero => []
      | .getByte | .getNegByte =>
          match f.target.revision, f.target.order with
          | .legacy, .big => word 1 v.natAbs
          | .legacy, .little => padding address 2 ++ word 2 v.natAbs
          | .rev36, _ => word 2 v.natAbs
      | .getUnsignedShort | .getNegUnsignedShort =>
          (if f.target.isLegacy then padding address 2 else []) ++ word 2 v.natAbs
      | _ => padding address 4 ++ word 4 (v % 2 ^ 32).toNat

/-- The import at a position, or one without meaning. -/
def importAt (f : Frame) (entry : Nat) : ImportKey :=
  ((f.imports.get? entry).map (·.value)).getD ⟨0, 0, 0, 0⟩

/-- The parameter count of a call, and its flags where the opcode leaves room for them. -/
def callCounts (f : Frame) (key : ImportKey) : List UInt8 :=
  key.params :: if f.target.isLittle then [key.flags] else []

/-- What follows the opcode of an instruction, from an address on. -/
def operand (f : Frame) (address : Nat) : Instruction → List UInt8
  | .op _ => []
  | .locals =>
      if f.locals.isEmpty then []
      else
        UInt8.ofNat f.locals.length :: declarations f.target.order (address + 1) f.locals ++
          padding (declarationsEnd (address + 1) f.locals.length) f.target.opcodeWidth
  | .jump _ _ => padding address 2 ++ f.target.order.bytes 2 0xFFFF
  | .localVariable _ hash =>
      UInt8.ofNat (f.locals.length - f.locals.idxOf hash - 1) ::
        List.replicate (f.target.opcodeWidth - 1) 0
  | .number value => f.constantBytes address value
  | .string _ _ | .debugString _ =>
      padding address (2 * f.target.opcodeWidth) ++ List.replicate (2 * f.target.opcodeWidth) 0xFF
  | .hash value =>
      let width := if f.target.isLegacy then 4 else 8
      padding address width ++ f.target.order.bytes width value.toNat
  | .field _ hash => padding address 4 ++ f.target.order.bytes 4 hash.toNat
  | .call _ entry =>
      f.callCounts (f.importAt entry) ++
        padding (address + f.target.opcodeWidth) (4 * f.target.opcodeWidth) ++
        f.target.order.bytes 4 (f.importAt entry).function.toNat ++
        List.replicate (4 * f.target.opcodeWidth - 4) 0
  | .callPointer _ params | .notification _ params =>
      params :: List.replicate (f.target.opcodeWidth - 1) 0
  | .functionPointer _ entry =>
      padding address (4 * f.target.opcodeWidth) ++
        f.target.order.bytes 4 (f.importAt entry).function.toNat ++
        List.replicate (4 * f.target.opcodeWidth - 4) 0
  | .global _ _ => [0, 0]

/-- The bytes of an instruction at an address. -/
def code (f : Frame) (address : Nat) (i : Instruction) : List UInt8 :=
  f.target.order.bytes f.target.opcodeWidth (i.opcode f.target f.locals.length).value ++
    f.operand (address + f.target.opcodeWidth) i

/-- Whether an instruction finds everything it names. -/
def Accepts (f : Frame) : Instruction → Prop
  | .locals => f.locals.length ≤ maxLocals
  | .localVariable _ hash => hash ∈ f.locals
  | .call _ entry | .functionPointer _ entry => entry < f.imports.size
  | _ => True

end Frame

/-- The table entry that an instruction at an address refers to, and the address by which it does. -/
def Instruction.reference (target : Target) (address : Nat) : Instruction → Option TableReference
  | .string _ entry =>
      some ⟨.strings, entry, align (address + target.opcodeWidth) (2 * target.opcodeWidth)⟩
  | .debugString entry =>
      some ⟨.debug, entry, align (address + target.opcodeWidth) (2 * target.opcodeWidth)⟩
  | .call _ entry | .functionPointer _ entry => some ⟨.imports, entry, address⟩
  | .global _ entry => some ⟨.globals, entry, address + target.opcodeWidth⟩
  | _ => none

/-- Where the operand of a numeric constant ends that starts at an address. -/
def constantEnd (target : Target) (address : Nat) (value : Constant) : Nat :=
  match value with
  | .float _ => align address 4 + 4
  | .int _ =>
      match value.opcode target with
      | .getZero => address
      | .getByte | .getNegByte =>
          match target.revision, target.order with
          | .legacy, .big => address + 1
          | .legacy, .little => align address 2 + 2
          | .rev36, _ => address + 2
      | .getUnsignedShort | .getNegUnsignedShort =>
          (if target.isLegacy then align address 2 else address) + 2
      | _ => align address 4 + 4

/-- The address behind an instruction at an address, in a function with a number of locals. -/
def Instruction.finish (target : Target) (localCount address : Nat) (i : Instruction) : Nat :=
  let width := target.opcodeWidth
  match i with
  | .op _ => address + width
  | .locals =>
      if localCount = 0 then address + width
      else align (declarationsEnd (address + width + 1) localCount) width
  | .jump _ _ => align (address + width) 2 + 2
  | .localVariable _ _ | .callPointer _ _ | .notification _ _ => address + 2 * width
  | .number value => constantEnd target (address + width) value
  | .string _ _ | .debugString _ => align (address + width) (2 * width) + 2 * width
  | .hash _ =>
      if target.isLegacy then align (address + width) 4 + 4 else align (address + width) 8 + 8
  | .field _ _ => align (address + width) 4 + 4
  | .call _ _ => align (address + 2 * width) (4 * width) + 4 * width
  | .functionPointer _ _ => align (address + width) (4 * width) + 4 * width
  | .global _ _ => address + width + 2

/-! ## What encoding gives -/

namespace Frame

variable {f : Frame}

theorem opcodeAt_eq (f : Frame) (address : Nat) (code : Opcode) :
    f.opcodeAt address code =
      (f.bufferAt address).append (f.target.order.bytes f.target.opcodeWidth code.value) := rfl

@[simp] theorem position_bufferAt (f : Frame) (address : Nat) :
    (f.bufferAt address).position = address := by
  simp [bufferAt, Buffer.position]

@[simp] theorem order_bufferAt (f : Frame) (address : Nat) :
    (f.bufferAt address).order = f.target.order := rfl

theorem declare_eq_append (locals : List UInt32) :
    ∀ b : Buffer, locals.foldl (fun b hash => ((b.alignTo 4).word 4 hash.toNat).byte 0) b =
      b.append (declarations b.order b.position locals) := by
  induction locals with
  | nil => intro b; simp [declarations]
  | cons hash rest ih =>
      intro b
      rw [List.foldl_cons, ih, Buffer.byte_eq_append, Buffer.word_eq_append,
        alignTo_eq_padding b (by decide)]
      simp only [Buffer.append_append, Buffer.order_append, Buffer.position_append,
        List.length_append, List.length_singleton, ByteOrder.length_bytes, declarations,
        List.append_assoc, List.singleton_append]
      rw [← length_padding b.position (by decide : 0 < 4)]
      simp only [Nat.add_assoc]

theorem length_declarations (order : ByteOrder) (locals : List UInt32) :
    ∀ address, address + (declarations order address locals).length =
      declarationsEnd address locals.length := by
  induction locals with
  | nil => intro address; simp [declarations, declarationsEnd]
  | cons hash rest ih =>
      intro address
      have hpad := length_padding address (by decide : 0 < 4)
      rw [List.length_cons, declarationsEnd, ← ih]
      simp only [declarations, List.length_append, ByteOrder.length_bytes, List.length_cons]
      omega

theorem localsOperand_eq (f : Frame) (b : Buffer) (horder : b.order = f.target.order)
    (hcount : f.locals.length ≤ maxLocals) :
    f.localsOperand b = .ok (b.append (f.operand b.position .locals)) := by
  unfold localsOperand operand
  by_cases hempty : f.locals.isEmpty = true
  · simp [hempty]
  · have hcheck : requireAtMost "locals" f.locals.length maxLocals = .ok () := by
      simp [requireAtMost, hcount]
    simp only [hempty, hcheck, Bool.false_eq_true, if_false]
    refine congrArg Except.ok ?_
    rw [declare_eq_append, alignTo_eq_padding _ f.target.opcodeWidth_pos, Buffer.byte_eq_append]
    have hend : b.position + ((declarations f.target.order (b.position + 1) f.locals).length + 1) =
        declarationsEnd (b.position + 1) f.locals.length := by
      rw [← length_declarations f.target.order]
      omega
    simp [horder, hend]

theorem numberOperand_eq (f : Frame) (b : Buffer) (horder : b.order = f.target.order)
    (value : Constant) :
    f.numberOperand b value = b.append (f.constantBytes b.position value) := by
  unfold numberOperand constantBytes
  cases value with
  | float bits => simp [alignTo_eq_padding, Buffer.word_eq_append, horder]
  | int v =>
      dsimp only
      split <;> (try split) <;> (try split) <;>
        simp_all [alignTo_eq_padding, Buffer.word_eq_append]

/-- Operands that the loader fills in are as wide as two opcodes. -/
theorem addressOperand_eq (f : Frame) (b : Buffer) :
    f.addressOperand b =
      (b.append (padding b.position (2 * f.target.opcodeWidth) ++
        List.replicate (2 * f.target.opcodeWidth) 0xFF),
      align b.position (2 * f.target.opcodeWidth)) := by
  have hwidth : (if f.target.isLittle then 4 else 2) = 2 * f.target.opcodeWidth := by
    obtain ⟨⟨revision, order⟩, function, locals, imports⟩ := f
    cases order <;> rfl
  have hpos : 0 < 2 * f.target.opcodeWidth := by
    have := f.target.opcodeWidth_pos
    omega
  simp only [addressOperand, hwidth]
  rw [alignTo_eq_padding _ hpos, Buffer.append_append, Buffer.position_append,
    length_padding _ hpos]

theorem localIndex_of_mem {hash : UInt32} (h : hash ∈ f.locals) :
    f.localIndex hash = .ok (f.locals.length - f.locals.idxOf hash - 1) := by
  obtain ⟨position, hposition⟩ : ∃ position, f.locals.idxOf? hash = some position :=
    Option.isSome_iff_exists.mp (by simpa using h)
  simp [localIndex, List.idxOf_eq_getD_idxOf?, hposition]

theorem importKey_of_lt {entry : Nat} (h : entry < f.imports.size) :
    f.importKey entry = .ok (f.importAt entry) := by
  have hsome : f.imports.get? entry = some f.imports.entries[entry] := by
    simp [Table.get?, Table.size] at h ⊢
  simp [importKey, importAt, hsome]

/-- A parameter count behind an opcode takes as much room as another opcode. -/
theorem bytesBehind_eq (f : Frame) (address : Nat) (code : Opcode) (params : UInt8) :
    ((f.opcodeAt address code).byte params).padTo
        (address + if f.target.isLittle then f.target.opcodeWidth + 2
          else f.target.opcodeWidth + 1) =
      (f.opcodeAt address code).append (params :: List.replicate (f.target.opcodeWidth - 1) 0) := by
  have hsize : (if f.target.isLittle then f.target.opcodeWidth + 2
      else f.target.opcodeWidth + 1) = 2 * f.target.opcodeWidth := by
    obtain ⟨⟨revision, order⟩, function, locals, imports⟩ := f
    cases order <;> rfl
  have hwidth := f.target.opcodeWidth_pos
  have hfill : address + 2 * f.target.opcodeWidth - (address + (f.target.opcodeWidth + 1)) =
      f.target.opcodeWidth - 1 := by omega
  rw [hsize, opcodeAt_eq, Buffer.byte_eq_append, Buffer.append_append,
    Buffer.padTo_eq_append (by simp; omega)]
  simp [hfill]

theorem length_callCounts (f : Frame) (key : ImportKey) :
    (f.callCounts key).length = f.target.opcodeWidth := by
  obtain ⟨⟨revision, order⟩, function, locals, imports⟩ := f
  cases order <;> rfl

theorem countedCall_eq (f : Frame) (b : Buffer) (key : ImportKey) :
    (if f.target.isLittle then (b.byte key.params).byte key.flags else b.byte key.params) =
      b.append (f.callCounts key) := by
  cases hlittle : f.target.isLittle <;> simp [callCounts, Buffer.byte_eq_append, hlittle]

/-- The hash of an imported function, aligned on a field of `width` bytes that it fills in part. -/
theorem alignedHash_eq (b : Buffer) (hash : Nat) {width : Nat} (hwidth : 4 ≤ width) :
    ((b.padTo (align b.position width)).word 4 hash).padTo (align b.position width + width) =
      b.append (padding b.position width ++ b.order.bytes 4 hash ++ List.replicate (width - 4) 0) := by
  have hpos : 0 < width := by omega
  have hle : b.position ≤ align b.position width := Bytes.le_align hpos
  have hend : ((b.padTo (align b.position width)).word 4 hash).position =
      align b.position width + 4 := by
    rw [Buffer.position_word, Buffer.position_padTo hle]
  rw [Buffer.padTo_eq_append (by omega), hend, Buffer.word_eq_append, Buffer.padTo_eq_append hle]
  have hfill : align b.position width + width - (align b.position width + 4) = width - 4 := by omega
  simp [padding, hfill]

/-- Encoding an instruction that finds what it names. -/
theorem encode_of_accepts {i : Instruction} (address : Nat) (h : f.Accepts i) :
    f.encode address i =
      .ok ⟨(f.bufferAt address).append (f.code address i), i.reference f.target address⟩ := by
  have hwidth := f.target.opcodeWidth_pos
  cases i with
  | op code => simp [encode, opcodeAt_eq, Frame.code, operand, Instruction.reference]
  | locals =>
      simp only [encode]
      rw [localsOperand_eq f _ rfl h]
      simp [opcodeAt_eq, Frame.code, Instruction.reference, bind, Except.bind]
  | jump code target =>
      simp [encode, opcodeAt_eq, Frame.code, operand, Instruction.reference,
        alignTo_eq_padding, Buffer.word_eq_append]
  | localVariable code hash =>
      simp only [encode]
      rw [localIndex_of_mem h]
      simp only [bind, Except.bind, opcodeAt_eq, Buffer.byte_eq_append, Buffer.append_append]
      have hfill : address + 2 * f.target.opcodeWidth - (address + (f.target.opcodeWidth + 1)) =
          f.target.opcodeWidth - 1 := by omega
      rw [Buffer.padTo_eq_append (by simp; omega)]
      simp [Frame.code, Instruction.reference, operand, hfill]
  | number value =>
      simp only [encode]
      rw [numberOperand_eq f _ rfl]
      simp [opcodeAt_eq, Frame.code, Instruction.reference, operand]
  | string code entry =>
      simp [encode, addressOperand_eq, opcodeAt_eq, Frame.code, operand, Instruction.reference]
  | debugString entry =>
      simp [encode, addressOperand_eq, opcodeAt_eq, Frame.code, operand, Instruction.reference]
  | hash value =>
      simp only [encode, Frame.code, operand, Instruction.reference]
      split <;> simp [opcodeAt_eq, alignTo_eq_padding, Buffer.word_eq_append]
  | field code hash =>
      simp [encode, opcodeAt_eq, Frame.code, operand, Instruction.reference,
        alignTo_eq_padding, Buffer.word_eq_append]
  | call code entry =>
      simp only [encode]
      rw [importKey_of_lt h]
      simp only [bind, Except.bind, Instruction.reference]
      rw [countedCall_eq]
      generalize hstart : (f.opcodeAt address _).append (f.callCounts (f.importAt entry)) = start
      have hposition : start.position = address + 2 * f.target.opcodeWidth := by
        simp [← hstart, opcodeAt_eq, length_callCounts]
        omega
      rw [← hposition, alignedHash_eq _ _ (by omega), hposition]
      simp [← hstart, opcodeAt_eq, Frame.code, operand, Nat.add_assoc, ← Nat.two_mul]
  | callPointer code params =>
      simp only [encode, bytesBehind_eq]
      simp [opcodeAt_eq, Frame.code, operand, Instruction.reference]
  | functionPointer code entry =>
      simp only [encode]
      rw [importKey_of_lt h]
      have hsize : (if f.target.isLittle then 8 else 4) = 4 * f.target.opcodeWidth := by
        obtain ⟨⟨revision, order⟩, function, locals, imports⟩ := f
        cases order <;> rfl
      simp only [bind, Except.bind, hsize, Instruction.reference]
      rw [Buffer.position_alignTo _ (by omega), Buffer.alignTo, alignedHash_eq _ _ (by omega)]
      simp [opcodeAt_eq, Frame.code, operand]
  | global code entry =>
      simp only [encode, opcodeAt_eq]
      rw [Buffer.padTo_eq_append (by simp)]
      simp [Frame.code, operand, Instruction.reference]
  | notification code params =>
      simp only [encode, bytesBehind_eq]
      simp [opcodeAt_eq, Frame.code, operand, Instruction.reference]

/-- An instruction that does not find what it names is an error. -/
theorem encode_of_not_accepts {i : Instruction} (address : Nat) (h : ¬ f.Accepts i) :
    ∃ e, f.encode address i = .error e ∧
      (i = .locals → e = .capacityExceeded "locals" f.locals.length maxLocals) := by
  cases i with
  | locals =>
      have hcount : f.locals.length > maxLocals := by simpa [Accepts] using h
      have hempty : f.locals.isEmpty = false := by
        cases hlocals : f.locals <;> simp_all [maxLocals]
      exact ⟨_, by simp [encode, localsOperand, hempty, requireAtMost, hcount, bind, Except.bind],
        fun _ => rfl⟩
  | localVariable code hash =>
      have hnone : f.locals.idxOf? hash = none := by simpa [Accepts] using h
      exact ⟨_, by simp only [encode, localIndex, hnone, bind, Except.bind]; rfl, by simp⟩
  | call code entry =>
      have hnone : f.imports.get? entry = none := by simpa [Accepts, Table.get?, Table.size] using h
      exact ⟨_, by simp only [encode, importKey, hnone, bind, Except.bind]; rfl, by simp⟩
  | functionPointer code entry =>
      have hnone : f.imports.get? entry = none := by simpa [Accepts, Table.get?, Table.size] using h
      exact ⟨_, by simp only [encode, importKey, hnone, bind, Except.bind]; rfl, by simp⟩
  | _ => exact absurd trivial h

theorem encode_eq_ok {address : Nat} {i : Instruction} {e : Encoded}
    (h : f.encode address i = .ok e) :
    f.Accepts i ∧ e = ⟨(f.bufferAt address).append (f.code address i),
      i.reference f.target address⟩ := by
  by_cases haccepts : f.Accepts i
  · rw [encode_of_accepts address haccepts] at h
    exact ⟨haccepts, (Except.ok.inj h).symm⟩
  · obtain ⟨error, herror, -⟩ := encode_of_not_accepts address haccepts
    rw [herror] at h
    cases h

/-! ## Sizes -/

theorem length_constantBytes (f : Frame) (address : Nat) (value : Constant) :
    address + (f.constantBytes address value).length = constantEnd f.target address value := by
  have htwo : address + ((padding address 2).length + 2) = align address 2 + 2 := by
    rw [← length_padding address (by decide), Nat.add_assoc]
  have hfour : address + ((padding address 4).length + 4) = align address 4 + 4 := by
    rw [← length_padding address (by decide), Nat.add_assoc]
  unfold constantBytes constantEnd
  cases value with
  | float bits => simp [hfour]
  | int v =>
      dsimp only
      split
      · simp
      · split <;> simp [htwo]
      · split <;> simp [htwo]
      · split <;> simp [htwo]
      · split <;> simp [htwo]
      · simp [hfour]

theorem length_operand (f : Frame) (address : Nat) (i : Instruction) :
    address + f.target.opcodeWidth + (f.operand (address + f.target.opcodeWidth) i).length =
      i.finish f.target f.locals.length address := by
  have hwidth := f.target.opcodeWidth_pos
  generalize hstart : address + f.target.opcodeWidth = start
  cases i with
  | op code => simp [operand, Instruction.finish, hstart]
  | locals =>
      simp only [operand, Instruction.finish, hstart]
      by_cases hempty : f.locals = []
      · simp [hempty]
      · have hdeclared := length_declarations f.target.order f.locals (start + 1)
        have haligned := length_padding (declarationsEnd (start + 1) f.locals.length) hwidth
        simp [hempty]
        omega
  | jump code target =>
      have haligned := length_padding start (by decide : 0 < 2)
      simp [operand, Instruction.finish, hstart]
      omega
  | localVariable code hash => simp [operand, Instruction.finish]; omega
  | number value =>
      simp only [operand, Instruction.finish, hstart]
      exact length_constantBytes f start value
  | string code entry | debugString entry =>
      have haligned := length_padding start (by omega : 0 < 2 * f.target.opcodeWidth)
      simp [operand, Instruction.finish, hstart]
      omega
  | hash value =>
      have hfour := length_padding start (by decide : 0 < 4)
      have height := length_padding start (by decide : 0 < 8)
      cases hlegacy : f.target.isLegacy <;> simp [operand, Instruction.finish, hstart, hlegacy] <;>
        omega
  | field code hash =>
      have haligned := length_padding start (by decide : 0 < 4)
      simp [operand, Instruction.finish, hstart]
      omega
  | call code entry =>
      have haligned := length_padding (start + f.target.opcodeWidth)
        (by omega : 0 < 4 * f.target.opcodeWidth)
      rw [show start + f.target.opcodeWidth = address + 2 * f.target.opcodeWidth by omega] at haligned
      simp [operand, Instruction.finish, length_callCounts]
      rw [show start + f.target.opcodeWidth = address + 2 * f.target.opcodeWidth by omega]
      omega
  | callPointer code params | notification code params =>
      simp [operand, Instruction.finish]
      omega
  | functionPointer code entry =>
      have haligned := length_padding start (by omega : 0 < 4 * f.target.opcodeWidth)
      simp [operand, Instruction.finish, hstart]
      omega
  | global code entry => simp [operand, Instruction.finish, hstart]

theorem length_code (f : Frame) (address : Nat) (i : Instruction) :
    address + (f.code address i).length = i.finish f.target f.locals.length address := by
  rw [← length_operand, code, List.length_append, ByteOrder.length_bytes, Nat.add_assoc]

end Frame

namespace Instruction

/-- An instruction is at least as long as its opcode. -/
theorem opcodeWidth_le_finish (target : Target) (localCount address : Nat) (i : Instruction) :
    address + target.opcodeWidth ≤ i.finish target localCount address := by
  have h := Frame.length_operand ⟨target, "", List.replicate localCount 0, .empty⟩ address i
  rw [List.length_replicate] at h
  exact h ▸ Nat.le_add_right _ _

theorem lt_finish (target : Target) (localCount address : Nat) (i : Instruction) :
    address < i.finish target localCount address :=
  Nat.lt_of_lt_of_le (Nat.lt_add_of_pos_right target.opcodeWidth_pos)
    (i.opcodeWidth_le_finish target localCount address)

/-- A reference lies inside its instruction. -/
theorem reference_mem_span {target : Target} {address : Nat} {i : Instruction}
    {r : TableReference} (h : i.reference target address = some r) (localCount : Nat) :
    address ≤ r.address ∧ r.address < i.finish target localCount address := by
  have hwidth := target.opcodeWidth_pos
  have haligned : address + target.opcodeWidth ≤
      align (address + target.opcodeWidth) (2 * target.opcodeWidth) :=
    Bytes.le_align (by omega)
  have hfinish := i.lt_finish target localCount address
  cases i <;> simp only [reference, Option.some.injEq, reduceCtorEq] at h <;> subst h
  case string => simp only [finish]; omega
  case debugString => simp only [finish]; omega
  case call => exact ⟨Nat.le_refl _, hfinish⟩
  case functionPointer => exact ⟨Nat.le_refl _, hfinish⟩
  case global => simp only [finish]; omega

end Instruction

/-! ## Moving code -/

/-- A multiple of 8 is one of every alignment in code. -/
theorem width_dvd_of_eight_dvd {shift : Nat} (h : 8 ∣ shift) (target : Target) :
    2 ∣ shift ∧ 4 ∣ shift ∧ target.opcodeWidth ∣ shift ∧ 2 * target.opcodeWidth ∣ shift ∧
      4 * target.opcodeWidth ∣ shift := by
  obtain ⟨revision, order⟩ := target
  cases order <;> simp only [Target.opcodeWidth] <;> omega

section Shift

variable {shift : Nat} (hshift : 8 ∣ shift)
include hshift

theorem declarations_shift (order : ByteOrder) (locals : List UInt32) :
    ∀ address, declarations order (address + shift) locals = declarations order address locals := by
  have hfour : 4 ∣ shift := by omega
  induction locals with
  | nil => intro address; rfl
  | cons hash rest ih =>
      intro address
      rw [declarations, declarations, padding_add_of_dvd address hfour (by decide),
        Bytes.align_add_of_dvd address hfour (by decide), Nat.add_right_comm, ih]

theorem declarationsEnd_shift (count : Nat) :
    ∀ address, declarationsEnd (address + shift) count = declarationsEnd address count + shift := by
  have hfour : 4 ∣ shift := by omega
  induction count with
  | zero => intro address; rfl
  | succ count ih =>
      intro address
      rw [declarationsEnd, declarationsEnd, Bytes.align_add_of_dvd address hfour (by decide),
        Nat.add_right_comm, ih]

theorem Frame.constantBytes_shift (f : Frame) (address : Nat) (value : Constant) :
    f.constantBytes (address + shift) value = f.constantBytes address value := by
  have htwo : 2 ∣ shift := by omega
  have hfour : 4 ∣ shift := by omega
  simp only [constantBytes, padding_add_of_dvd address htwo (by decide),
    padding_add_of_dvd address hfour (by decide)]

theorem Frame.operand_shift (f : Frame) (address : Nat) (i : Instruction) :
    f.operand (address + shift) i = f.operand address i := by
  have hpos := f.target.opcodeWidth_pos
  obtain ⟨htwo, hfour, hwidth, hdouble, hquadruple⟩ := width_dvd_of_eight_dvd hshift f.target
  have hcounts : address + shift + f.target.opcodeWidth = address + f.target.opcodeWidth + shift := by
    omega
  cases i <;> simp only [operand]
  case locals =>
    rw [Nat.add_right_comm, declarations_shift hshift, declarationsEnd_shift hshift,
      padding_add_of_dvd _ hwidth hpos]
  case jump => rw [padding_add_of_dvd _ htwo (by decide)]
  case number => rw [f.constantBytes_shift hshift]
  case string => rw [padding_add_of_dvd _ hdouble (by omega)]
  case debugString => rw [padding_add_of_dvd _ hdouble (by omega)]
  case hash =>
    split
    · rw [padding_add_of_dvd _ hfour (by decide)]
    · rw [padding_add_of_dvd _ hshift (by decide)]
  case field => rw [padding_add_of_dvd _ hfour (by decide)]
  case call => rw [hcounts, padding_add_of_dvd _ hquadruple (by omega)]
  case functionPointer => rw [padding_add_of_dvd _ hquadruple (by omega)]

/-- The bytes of an instruction depend on its address modulo 8 only. -/
theorem Frame.code_shift (f : Frame) (address : Nat) (i : Instruction) :
    f.code (address + shift) i = f.code address i := by
  rw [code, code, Nat.add_right_comm, f.operand_shift hshift]

theorem Instruction.reference_shift (target : Target) (address : Nat) (i : Instruction) :
    i.reference target (address + shift) =
      (i.reference target address).map fun r => { r with address := r.address + shift } := by
  have hpos := target.opcodeWidth_pos
  obtain ⟨-, -, -, hdouble, -⟩ := width_dvd_of_eight_dvd hshift target
  have haligned : align (address + shift + target.opcodeWidth) (2 * target.opcodeWidth) =
      align (address + target.opcodeWidth) (2 * target.opcodeWidth) + shift := by
    rw [Nat.add_right_comm, Bytes.align_add_of_dvd _ hdouble (by omega)]
  cases i <;> simp only [reference, Option.map_some, Option.map_none, haligned]
  case global => rw [Nat.add_right_comm]

end Shift

end GscAssembler.Code

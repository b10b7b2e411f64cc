import GscAssembler.Proofs.Checked.Operations
import GscAssembler.Proofs.Code.Jumps

/-!
# Laying out functions with checks

Encoding an instruction only ever pads forward, whatever the instruction and its address
(`encode_eq_plain`).  The displacements of jumps are written where the first pass has put bytes, and
the checksum is taken over bytes of the image; so a function is laid out without a breach
(`agrees_layOut`).
-/

namespace GscAssembler.Checked

open Bytes (Buffer slice)
open Code
open Number (Constant)
open Reference (ImportKey Tables)

/-! ## Instructions -/

/-- The index of a local, counted from the last declared. -/
def localIndex (f : Frame) (hash : UInt32) : Checks Nat :=
  match f.locals.idxOf? hash with
  | some position => do difference (← difference f.locals.length position) 1
  | none => plain (f.localIndex hash)

/-- The declaration of all locals behind its opcode. -/
def localsOperand (f : Frame) (buffer : Buffer) : Checks Buffer :=
  if f.locals.isEmpty then return buffer
  else do
    plain (requireAtMost "locals" f.locals.length maxLocals)
    let counted := buffer.byte (UInt8.ofNat f.locals.length)
    let declared ← f.locals.foldlM
      (fun b hash => do return ((← alignTo b 4).word 4 hash.toNat).byte 0) counted
    alignTo declared f.target.opcodeWidth

/-- The operand of a numeric constant behind its opcode. -/
def numberOperand (f : Frame) (buffer : Buffer) (value : Constant) : Checks Buffer :=
  match value with
  | .float bits => do return (← alignTo buffer 4).word 4 bits.toNat
  | .int v =>
      match value.opcode f.target with
      | .getZero => return buffer
      | .getByte | .getNegByte =>
          match f.target.revision, f.target.order with
          | .legacy, .big => return buffer.word 1 v.natAbs
          | .legacy, .little => do return (← alignTo buffer 2).word 2 v.natAbs
          | .rev36, _ => return buffer.word 2 v.natAbs
      | .getUnsignedShort | .getNegUnsignedShort => do
          let aligned ← if f.target.isLegacy then alignTo buffer 2 else pure buffer
          return aligned.word 2 v.natAbs
      | _ => do return (← alignTo buffer 4).word 4 (v % 0x100000000).toNat

/-- An operand that the loader overwrites with an address. -/
def addressOperand (f : Frame) (buffer : Buffer) : Checks (Buffer × Nat) := do
  let width := if f.target.isLittle then 4 else 2
  let aligned ← alignTo buffer width
  return (aligned.append (List.replicate width 0xFF), aligned.position)

/-- The bytes and the reference of an instruction placed at an address. -/
def encode (f : Frame) (address : Nat) (i : Instruction) : Checks Encoded :=
  let width := f.target.opcodeWidth
  let start := f.opcodeAt address (i.opcode f.target f.locals.length)
  match i with
  | .op _ => return { buffer := start }
  | .locals => do return { buffer := ← localsOperand f start }
  | .jump _ _ => do return { buffer := (← alignTo start 2).word 2 0xFFFF }
  | .localVariable _ hash => do
      let index ← localIndex f hash
      return { buffer := ← padTo (start.byte (UInt8.ofNat index)) (address + 2 * width) }
  | .number value => do return { buffer := ← numberOperand f start value }
  | .string _ entry => do
      let (buffer, operand) ← addressOperand f start
      return { buffer, reference := some ⟨.strings, entry, operand⟩ }
  | .debugString entry => do
      let (buffer, operand) ← addressOperand f start
      return { buffer, reference := some ⟨.debug, entry, operand⟩ }
  | .hash value => do
      let buffer ← if f.target.isLegacy then do pure ((← alignTo start 4).word 4 value.toNat)
        else do pure ((← alignTo start 8).word 8 value.toNat)
      return { buffer }
  | .field _ hash => do return { buffer := (← alignTo start 4).word 4 hash.toNat }
  | .call _ entry => do
      let key ← plain (f.importKey entry)
      let counted := start.byte key.params
      let flagged := if f.target.isLittle then counted.byte key.flags else counted
      let operand ← align (address + 2 * width) (4 * width)
      let aligned ← padTo flagged operand
      let buffer ← padTo (aligned.word 4 key.function.toNat) (operand + 4 * width)
      return { buffer, reference := some ⟨.imports, entry, address⟩ }
  | .callPointer _ params | .notification _ params => do
      let size := if f.target.isLittle then width + 2 else width + 1
      return { buffer := ← padTo (start.byte params) (address + size) }
  | .functionPointer _ entry => do
      let key ← plain (f.importKey entry)
      let size := if f.target.isLittle then 8 else 4
      let aligned ← alignTo start size
      let buffer ← padTo (aligned.word 4 key.function.toNat) (aligned.position + size)
      return { buffer, reference := some ⟨.imports, entry, address⟩ }
  | .global _ entry => do
      return { buffer := ← padTo start (address + width + 2)
               reference := some ⟨.globals, entry, start.position⟩ }

section Encoding

variable (f : Frame)

theorem localIndex_eq_plain (hash : UInt32) : localIndex f hash = plain (f.localIndex hash) := by
  unfold localIndex Frame.localIndex
  cases hfound : f.locals.idxOf? hash with
  | none => rfl
  | some position =>
      have hlt : position < f.locals.length := by
        rw [List.idxOf?, List.findIdx?_eq_some_iff_getElem] at hfound
        exact hfound.1
      dsimp only
      rw [difference_eq_ok (Nat.le_of_lt hlt)]
      exact difference_eq_ok (Nat.sub_pos_of_lt hlt)

theorem opcodeWidth_mem_alignments (target : Target) : target.opcodeWidth ∈ alignments := by
  unfold Target.opcodeWidth
  split <;> decide

theorem four_mul_opcodeWidth_mem_alignments (target : Target) :
    4 * target.opcodeWidth ∈ alignments := by
  unfold Target.opcodeWidth
  split <;> decide

theorem localsOperand_eq_plain (b : Buffer) :
    localsOperand f b = plain (f.localsOperand b) := by
  have hdeclare : (fun (b : Buffer) (hash : UInt32) => do
      return ((← alignTo b 4).word 4 hash.toNat).byte 0 : Buffer → UInt32 → Checks Buffer) =
      fun b hash => pure (((b.alignTo 4).word 4 hash.toNat).byte 0) := by
    funext b hash
    rw [alignTo_eq_ok b (by decide)]
    rfl
  unfold localsOperand Frame.localsOperand
  split
  · rfl
  · cases requireAtMost "locals" f.locals.length maxLocals with
    | error e => rfl
    | ok =>
        simp only [hdeclare, List.foldlM_pure]
        exact alignTo_eq_ok _ (opcodeWidth_mem_alignments f.target)

theorem numberOperand_eq_ok (b : Buffer) (value : Constant) :
    numberOperand f b value = .ok (f.numberOperand b value) := by
  have htwo := alignTo_eq_ok b (by decide : 2 ∈ alignments)
  have hfour := alignTo_eq_ok b (by decide : 4 ∈ alignments)
  cases value with
  | float bits =>
      simp only [numberOperand, hfour]
      rfl
  | int v =>
      simp only [numberOperand, Frame.numberOperand, htwo, hfour]
      generalize Constant.opcode f.target (.int v) = code
      split
      · rfl
      · cases f.target.revision <;> cases f.target.order <;> rfl
      · cases f.target.revision <;> cases f.target.order <;> rfl
      · cases f.target.isLegacy <;> rfl
      · cases f.target.isLegacy <;> rfl
      · simp_all

theorem addressOperand_eq_ok (b : Buffer) :
    addressOperand f b = .ok (f.addressOperand b) := by
  have hwidth : (if f.target.isLittle then 4 else 2) ∈ alignments := by split <;> decide
  simp only [addressOperand, alignTo_eq_ok b hwidth]
  rfl

theorem position_opcodeAt (address : Nat) (code : Opcode) :
    (f.opcodeAt address code).position = address + f.target.opcodeWidth := by
  simp [Frame.opcodeAt]

/-- No instruction is padded to less than is written of it. -/
theorem encode_eq_plain (address : Nat) (i : Instruction) :
    encode f address i = plain (f.encode address i) := by
  have hwidth := f.target.opcodeWidth_pos
  have hstart := position_opcodeAt f address (i.opcode f.target f.locals.length)
  have haligned {alignment : Nat} (h : alignment ∈ alignments) :=
    alignTo_eq_ok (f.opcodeAt address (i.opcode f.target f.locals.length)) h
  cases i with
  | op => rfl
  | locals =>
      simp only [encode, Frame.encode, localsOperand_eq_plain]
      cases f.localsOperand _ <;> rfl
  | jump =>
      simp only [encode, Frame.encode, haligned (by decide : 2 ∈ alignments)]
      rfl
  | localVariable code hash =>
      simp only [encode, Frame.encode, localIndex_eq_plain]
      cases f.localIndex hash with
      | error e => rfl
      | ok index =>
          rw [plain_ok]
          change (padTo _ _ >>= _) = _
          rw [padTo_eq_ok (by rw [Buffer.position_byte, hstart]; omega)]
          rfl
  | number value =>
      simp only [encode, Frame.encode, numberOperand_eq_ok]
      rfl
  | string | debugString =>
      simp only [encode, Frame.encode, addressOperand_eq_ok]
      rfl
  | hash value =>
      simp only [encode, Frame.encode, haligned (by decide : 4 ∈ alignments),
        haligned (by decide : 8 ∈ alignments)]
      cases f.target.isLegacy <;> rfl
  | field =>
      simp only [encode, Frame.encode, haligned (by decide : 4 ∈ alignments)]
      rfl
  | call code entry =>
      simp only [encode, Frame.encode]
      cases f.importKey entry with
      | error e => rfl
      | ok key =>
          have hcounted : ((f.opcodeAt address code).append (f.callCounts key)).position ≤
              Bytes.align (address + 2 * f.target.opcodeWidth) (4 * f.target.opcodeWidth) := by
            refine Nat.le_trans ?_ (Bytes.le_align (by omega))
            rw [Buffer.position_append, Frame.length_callCounts, position_opcodeAt]
            omega
          simp only [Frame.countedCall_eq,
            align_eq_ok _ (four_mul_opcodeWidth_mem_alignments f.target)]
          change (padTo ((f.opcodeAt address code).append _) _ >>= _) = _
          rw [padTo_eq_ok hcounted]
          change (padTo _ _ >>= _) = _
          rw [padTo_eq_ok (by rw [Buffer.position_word, Buffer.position_padTo hcounted]; omega)]
          rfl
  | callPointer code params | notification code params =>
      simp only [encode, Frame.encode]
      rw [padTo_eq_ok (by rw [Buffer.position_byte, hstart]; split <;> omega)]
      rfl
  | functionPointer code entry =>
      have hsize : (if f.target.isLittle then 8 else 4) ∈ alignments := by split <;> decide
      simp only [encode, Frame.encode, haligned hsize]
      cases f.importKey entry with
      | error e => rfl
      | ok key =>
          change (padTo _ _ >>= _) = _
          rw [padTo_eq_ok (by rw [Buffer.position_word]; split <;> omega)]
          rfl
  | global code entry =>
      simp only [encode, Frame.encode]
      rw [padTo_eq_ok (by rw [hstart]; omega)]
      rfl

end Encoding

/-! ## Functions -/

/-- Places one instruction at the end of the image. -/
def place (frame : Frame) (p : Placement) (item : Key × Instruction) : Checks Placement := do
  let encoded ← encode frame p.image.position item.2
  let _size ← difference encoded.buffer.position p.image.position
  plain (p.place frame item)

/-- Sets the displacement of a jump, whose operand must be in the image. -/
def patchJump (frame : Frame) (placed : List Placed) (p : Patching) (item : Placed) :
    Checks Patching := do
  let patched ← plain (p.patch frame placed item)
  if item.instruction.isJump then
    let operand ← align (item.address + frame.target.opcodeWidth) 2
    requireRange p.image operand 2
  return patched

/-- Where the next function starts in an image of the given length. -/
def functionStart (length : Nat) : Checks Nat := do
  return (← align length 16) + functionGap

/-- Lays a function out at the end of an image. -/
def layOut (f : ScriptFunction) (image : Buffer) (tables : Tables) :
    Checks (FunctionLayout × Buffer × Tables) := do
  let frame := f.frame tables
  let start ← functionStart image.position
  let padded ← padTo image start
  let placement ← f.instructions.foldlM (place frame) { image := padded, tables }
  let placed := placement.placed.toList
  let patching ← placed.foldlM (patchJump frame placed) { image := placement.image }
  let size ← difference patching.image.position start
  requireRange patching.image start size
  let layout : FunctionLayout := {
    name := f.name, hash := f.hash, namespaceHash := f.namespaceHash
    params := f.params, flags := f.flags
    address := start, size
    crc := Bytes.crc32 (slice patching.image.bytes start size)
    instructions := placed
    jumps := patching.jumps.toList
    references := placement.references.toList }
  return (layout, patching.image, placement.tables)

theorem functionStart_eq_ok (length : Nat) :
    functionStart length = .ok (Code.functionStart length) := by
  rw [functionStart, align_eq_ok _ (by decide)]
  rfl

theorem agrees_place (frame : Frame) (p : Placement) (item : Key × Instruction) :
    Agrees (place frame p item) (p.place frame item) fun _ => True := by
  refine ⟨?_, fun _ _ => trivial⟩
  unfold place
  rw [encode_eq_plain]
  cases hencoded : frame.encode p.image.position item.2 with
  | error e =>
      simp only [Placement.place, hencoded]
      rfl
  | ok encoded =>
      obtain ⟨-, rfl⟩ := Frame.encode_eq_ok hencoded
      change (difference _ _ >>= _) = _
      rw [difference_eq_ok (by simp)]
      rfl

theorem image_of_patch {frame : Frame} {placed : List Placed} {p p' : Patching} {item : Placed}
    (h : p.patch frame placed item = .ok p') :
    p'.image.start = p.image.start ∧ p'.image.position = p.image.position := by
  unfold Patching.patch at h
  split at h
  · split at h
    · cases h
    · dsimp only at h
      split at h
      · cases h
      · cases h
        exact ⟨Buffer.start_patchWord .., Buffer.position_patchWord ..⟩
  · cases h
    exact ⟨rfl, rfl⟩

theorem agrees_patchJump {frame : Frame} {placed : List Placed} {p : Patching} {item : Placed}
    (hzero : p.image.start = 0) (hrange : item.instruction.isJump →
      jumpOperand frame.target item.address + 2 ≤ p.image.position) :
    Agrees (patchJump frame placed p item) (p.patch frame placed item) fun p' =>
      p'.image.start = 0 ∧ p'.image.position = p.image.position := by
  refine ⟨?_, fun p' hp' => hzero ▸ image_of_patch hp'⟩
  unfold patchJump
  cases p.patch frame placed item with
  | error e => rfl
  | ok patched =>
      by_cases hjump : item.instruction.isJump
      · change (if _ then _ else _) = _
        rw [if_pos hjump, align_eq_ok _ (by decide)]
        change (requireRange p.image (jumpOperand frame.target item.address) 2 >>= _) = _
        rw [requireRange_eq_ok hzero (hrange hjump)]
        rfl
      · change (if _ then _ else _) = _
        rw [if_neg hjump]
        rfl

section Passes

variable {f : ScriptFunction} {tables : Tables} {start : Nat}

/-- The first pass puts the instructions of a function at their places. -/
theorem agrees_firstPass {padded : Buffer} (hzero : padded.start = 0)
    (hpadded : padded.position = start) :
    Agrees (f.instructions.foldlM (place (f.frame tables)) { image := padded, tables })
      (f.instructions.foldlM (Placement.place (f.frame tables)) { image := padded, tables })
      fun placement => placement.placed.toList = f.placedAt start ∧ placement.image.start = 0 ∧
        placement.image.position = f.endAt start := by
  have hpass : Agrees (f.instructions.foldlM (place (f.frame tables)) { image := padded, tables })
      (f.instructions.foldlM (Placement.place (f.frame tables)) { image := padded, tables })
      fun _ => True :=
    .foldlM _ trivial fun p _ item _ => agrees_place _ p item
  refine ⟨hpass.eq_plain, fun placement hplacement => ?_⟩
  have haccepts : ∀ item ∈ f.instructions, (f.frame tables).Accepts item.2 := by
    by_contra hnot
    push Not at hnot
    obtain ⟨e, he, -⟩ := foldlM_place_of_not_accepts hnot { image := padded, tables }
    rw [he] at hplacement
    cases hplacement
  have hplaced : placedFrom (f.frame tables).target (f.frame tables).locals.length start
      f.instructions = f.placedAt start := by simp [ScriptFunction.placedAt]
  rw [foldlM_place_of_accepts f.instructions _ haccepts] at hplacement
  cases hplacement
  simp only [hpadded, hplaced]
  refine ⟨by simp, hzero, ?_⟩
  rw [Buffer.position_append, hpadded, f.length_codeOf_placedAt]

/-- The second pass writes within the code of the function. -/
theorem agrees_secondPass {image : Buffer} (hzero : image.start = 0)
    (hend : image.position = f.endAt start) :
    Agrees
      ((f.placedAt start).foldlM (patchJump (f.frame tables) (f.placedAt start)) { image })
      ((f.placedAt start).foldlM (Patching.patch (f.frame tables) (f.placedAt start)) { image })
      fun p => p.image.start = 0 ∧ p.image.position = f.endAt start := by
  refine .foldlM _ ⟨hzero, hend⟩ fun p hp item hitem => ?_
  obtain ⟨hzero, hend⟩ := hp
  rw [← hend]
  refine agrees_patchJump hzero fun hjump => ?_
  obtain ⟨code, target, hinstruction⟩ : ∃ code target, item.instruction = .jump code target := by
    cases hinstruction : item.instruction with
    | jump code target => exact ⟨code, target, rfl⟩
    | _ => simp [hinstruction, Instruction.isJump] at hjump
  have hfinish := (finish_of_mem_placedFrom hitem).1
  have hspan := (span_of_mem_placedFrom hitem).2.2
  rw [hfinish, hinstruction] at hspan
  exact hend ▸ hspan

/-- A function is laid out without a breach. -/
theorem agrees_layOut (f : ScriptFunction) {image : Buffer} (tables : Tables)
    (hzero : image.start = 0) :
    Agrees (layOut f image tables) (f.layOut image tables) fun laid =>
      laid.2.1.start = 0 ∧ image.position ≤ laid.1.address ∧
        laid.1.address ≤ laid.2.1.position := by
  have hle := le_functionStart image.position
  unfold layOut
  rw [functionStart_eq_ok]
  change Agrees (padTo _ _ >>= _) _ _
  rw [padTo_eq_ok hle]
  refine (agrees_firstPass (by simpa using hzero) (Buffer.position_padTo hle)).bind ?_
  rintro placement - ⟨hplaced, hstart, hend⟩
  dsimp only
  rw [hplaced]
  refine (agrees_secondPass hstart hend).bind ?_
  rintro patching - ⟨hstart, hend⟩
  have hbehind : Code.functionStart image.position ≤ patching.image.position :=
    hend ▸ le_codeEnd f.instructions _
  rw [difference_eq_ok hbehind]
  change Agrees (requireRange _ _ _ >>= _) _ _
  rw [requireRange_eq_ok hstart (by omega)]
  exact .ok ⟨hstart, hle, hbehind⟩

end Passes

end GscAssembler.Checked

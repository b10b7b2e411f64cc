import GscAssembler.Proofs.Code.Decoder

/-!
# Reading the code of a function

In an image that holds the code of a function, every instruction is found where it was placed: the
displacements that were set afterwards changed the operands of jumps only (`holds_code`,
`holds_operand`).  So each instruction is read back at its address (`decodeAt_of_mem`), and since it
ends where the next one starts, reading one behind the other gives them all
(`decodeFunction_of_sound`).
-/

namespace GscAssembler.Code

open Bytes (ByteOrder slice)
open Reference (Tables)

/-! ## Where the code of an instruction is found -/

theorem slice_codeOf (f : Frame) {p : Placed} {items : List (Key × Instruction)} :
    ∀ {address}, p ∈ placedFrom f.target f.locals.length address items →
      slice (f.codeOf (placedFrom f.target f.locals.length address items)).toArray
          (p.address - address) (p.finish - p.address) = f.code p.address p.instruction := by
  induction items with
  | nil => intro address hp; simp [placedFrom] at hp
  | cons item rest ih =>
      intro address hp
      have hlength := f.length_code address item.2
      have hfinish := (finish_of_mem_placedFrom hp).1
      rw [Bytes.slice_eq_take_drop]
      simp only [placedFrom, Frame.codeOf, List.flatMap_cons]
      rcases List.mem_cons.mp hp with rfl | hp
      · have hcount : Placed.finish ⟨item.1, item.2, item.2.opcode f.target f.locals.length, address,
            item.2.finish f.target f.locals.length address - address⟩ - address =
            (f.code address item.2).length := by
          rw [hfinish]
          exact (Nat.eq_sub_of_add_eq' hlength).symm
        simp only [hcount, Nat.sub_self, List.drop_zero, List.take_left]
      · have hstart := (span_of_mem_placedFrom hp).1
        have hoffset : p.address - address = (f.code address item.2).length +
            (p.address - item.2.finish f.target f.locals.length address) := by omega
        rw [hoffset, List.drop_length_add_append, ← ih hp, Bytes.slice_eq_take_drop]
        rfl

/-- Of two placed instructions that are not the same, one ends before the other starts. -/
theorem eq_or_apart {target : Target} {localCount address : Nat} {items : List (Key × Instruction)}
    {p q : Placed} (hp : p ∈ placedFrom target localCount address items)
    (hq : q ∈ placedFrom target localCount address items) :
    p = q ∨ p.finish ≤ q.address ∨ q.finish ≤ p.address := by
  obtain ⟨i, hi, rfl⟩ := List.getElem_of_mem hp
  obtain ⟨j, hj, rfl⟩ := List.getElem_of_mem hq
  have hapart : (placedFrom target localCount address items).Pairwise
      fun p q => p.finish ≤ q.address := pairwise_placedFrom items address
  have hpairwise := List.pairwise_iff_getElem.mp hapart
  rcases Nat.lt_trichotomy i j with hlt | rfl | hlt
  · exact .inr (.inl (hpairwise i j hi hj hlt))
  · exact .inl rfl
  · exact .inr (.inr (hpairwise j i hj hi hlt))

namespace ScriptFunction

variable {f : ScriptFunction} {tables : Tables} {start : Nat} {image : Array UInt8} {p : Placed}
  {j : PlacedJump}

theorem slice_codeOf_placedAt (tables : Tables) (hp : p ∈ f.placedAt start) :
    slice ((f.frame tables).codeOf (f.placedAt start)).toArray (p.address - start)
      (p.finish - p.address) = (f.frame tables).code p.address p.instruction := by
  have hplaced : f.placedAt start =
      placedFrom (f.frame tables).target (f.frame tables).locals.length start f.instructions := by
    simp [placedAt]
  rw [hplaced] at hp ⊢
  exact slice_codeOf (f.frame tables) hp

/-- The operand of a jump lies behind its opcode, and outside of all other instructions. -/
theorem operand_outside (hp : p ∈ f.placedAt start) (hj : j ∈ f.jumpsAt start) :
    p.finish ≤ jumpOperand f.target j.address ∨ jumpOperand f.target j.address + 2 ≤ p.address ∨
      (p.instruction.isJump = true ∧
        p.address + f.target.opcodeWidth ≤ jumpOperand f.target j.address) := by
  obtain ⟨q, hq, hjump⟩ := exists_of_mem_jumpsAt hj
  obtain ⟨haddress, -, hfinish⟩ := finish_of_jumpOf hq hjump
  obtain ⟨-, hwidth, -, -⟩ := span_of_mem_jumpsAt hj
  rw [haddress] at hwidth ⊢
  rcases eq_or_apart hp hq with rfl | hbefore | hbehind
  · obtain ⟨code, target, landing, hinstruction, -, -⟩ := mem_of_jumpOf hjump
    exact .inr (.inr ⟨by rw [hinstruction]; rfl, hwidth⟩)
  · exact .inl (by omega)
  · exact .inr (.inl (by omega))

section Image

variable (himage : slice image start (f.endAt start - start) =
  (f.bodyAt f.target.order tables start).bytes.toList)
include himage

/-- What the body of a function has at an address, an image has that holds the body. -/
theorem slice_image_eq {address count : Nat} (hstart : start ≤ address)
    (hend : address + count ≤ f.endAt start) :
    slice image address count =
      slice (f.bodyAt f.target.order tables start).bytes (address - start) count := by
  have hinside : address - start + count ≤ f.endAt start - start := by omega
  have hshift : start + (address - start) = address := by omega
  rw [← hshift, ← Bytes.slice_slice hinside, himage, ← Bytes.slice_eq_take_drop]
  rw [hshift]

/-- An instruction other than a jump is found as it was placed. -/
theorem holds_code (hp : p ∈ f.placedAt start) (hjump : p.instruction.isJump = false) :
    Holds image p.address ((f.frame tables).code p.address p.instruction) := by
  obtain ⟨hstart, hlt, hend⟩ := span_of_mem_placedFrom hp
  have hlength : ((f.frame tables).code p.address p.instruction).length = p.finish - p.address := by
    have := (f.frame tables).length_code p.address p.instruction
    rw [(finish_of_mem_placedFrom hp).1]
    simp only [frame_target, length_frame_locals] at this
    omega
  have hcode := slice_codeOf_placedAt tables hp
  rw [Holds, hlength, slice_image_eq himage hstart (by simp only [endAt]; omega),
    slice_bodyAt_of_outside, hcode]
  intro j hj
  have hj_start := start_le_jumpOperand hj
  rcases operand_outside hp hj with hbefore | hbehind | ⟨hisJump, -⟩
  · exact .inl (by omega)
  · exact .inr (by omega)
  · rw [hjump] at hisJump
    cases hisJump

/-- The opcode of every instruction is found where it was placed. -/
theorem holds_opcode (hp : p ∈ f.placedAt start) :
    Holds image p.address (f.target.order.bytes f.target.opcodeWidth p.opcode.value) := by
  obtain ⟨hstart, hlt, hend⟩ := span_of_mem_placedFrom hp
  obtain ⟨hfinish, hopcode⟩ := finish_of_mem_placedFrom hp
  have hwidth := p.instruction.opcodeWidth_le_finish f.target f.locals.size p.address
  have hcode := slice_codeOf_placedAt tables hp
  rw [← hfinish] at hwidth
  rw [Frame.code, frame_target, length_frame_locals, ← hopcode] at hcode
  have hfirst := @Bytes.slice_of_slice_eq _ _ _ []
    (f.target.order.bytes f.target.opcodeWidth p.opcode.value) _ hcode
  rw [Holds, ByteOrder.length_bytes,
    slice_image_eq himage hstart (by simp only [endAt]; omega), slice_bodyAt_of_outside]
  · simpa using hfirst
  · intro j hj
    have hj_start := start_le_jumpOperand hj
    rcases operand_outside hp hj with hbefore | hbehind | ⟨-, hopcode⟩
    · exact .inl (by omega)
    · exact .inr (by omega)
    · exact .inl (by omega)

/-- The operand of a jump is its displacement. -/
theorem holds_operand (hj : j ∈ f.jumpsAt start) :
    Holds image (jumpOperand f.target j.address)
      (f.target.order.bytes 2 (j.displacement % 2 ^ 16).toNat) := by
  obtain ⟨-, -, horigin, hend⟩ := span_of_mem_jumpsAt hj
  rw [Holds, ByteOrder.length_bytes,
    slice_image_eq himage (start_le_jumpOperand hj) (by omega), slice_bodyAt_of_mem_jumpsAt hj]

end Image

/-! ## Reading one instruction -/

end ScriptFunction

/-- A placed instruction as it is read, among all that are placed with it. -/
def Placed.decoded (frame : Frame) (placed : List Placed) (p : Placed) : Decoded where
  opcode := p.opcode
  address := p.address
  size := p.size
  operand := frame.operandOf ((jumpOf placed p).map (·.landing)) p.instruction

/-- Whether an instruction has the operands of its opcode, or is a jump by its opcode. -/
def Instruction.Decodable (revision : Revision) (i : Instruction) : Prop :=
  i.Readable revision ∨ ∃ code target, i = .jump code target ∧ code.shape revision = .jump

namespace ScriptFunction

variable {f : ScriptFunction} {tables : Tables} {start : Nat} {image : Array UInt8} {p : Placed}

theorem decodeAt_of_mem (hsound : f.Sound tables start)
    (hcount : f.locals.size ≤ maxLocals)
    (himage : slice image start (f.endAt start - start) =
      (f.bodyAt f.target.order tables start).bytes.toList)
    (hp : p ∈ f.placedAt start) (hdecodable : p.instruction.Decodable f.target.revision)
    {locals : List UInt32} (hlocals : p.instruction ≠ .locals → locals = f.locals.toList) :
    decodeAt f.target image locals p.address =
      some (p.decoded (f.frame tables) (f.placedAt start)) := by
  obtain ⟨-, hlt, -⟩ := span_of_mem_placedFrom hp
  obtain ⟨hfinish, hopcode⟩ := finish_of_mem_placedFrom hp
  have hvalue : p.opcode.value < 256 ^ f.target.opcodeWidth :=
    Nat.lt_of_lt_of_le (value_lt p.opcode)
      (Nat.le_self_pow (Nat.ne_of_gt f.target.opcodeWidth_pos) 256)
  have hword := wordAt_of_holds hvalue (holds_opcode himage hp)
  have hread : readOperand f.target image locals (p.address + f.target.opcodeWidth)
      (p.opcode.shape f.target.revision) =
      some ((f.frame tables).operandOf ((jumpOf (f.placedAt start) p).map (·.landing)) p.instruction,
        p.finish) := by
    rcases hdecodable with hreadable | ⟨code, target, hjump, hshape⟩
    · have hisJump : p.instruction.isJump = false := by
        cases hi : p.instruction with
        | jump code target =>
            rw [hi] at hreadable
            exact absurd hreadable (by simp [Instruction.Readable, Instruction.Emittable])
        | _ => rfl
      have hholds := holds_code himage hp hisJump
      rw [Frame.code] at hholds
      have hoperand := hholds.right
      rw [ByteOrder.length_bytes] at hoperand
      have hread := readOperand_of_holds (f := f.frame tables) hlocals hreadable
        (hsound.accepts _ (f.mem_instructions_of_mem hp)) (by simpa using hcount)
        ((jumpOf (f.placedAt start) p).map (·.landing)) hoperand
      rw [length_frame_locals, frame_target, ← hopcode, ← hfinish] at hread
      exact hread
    · obtain ⟨j, hj, hrange⟩ := hsound.lands p hp code target hjump
      obtain ⟨haddress, horigin, hend⟩ := finish_of_jumpOf hp hj
      have hmem : j ∈ f.jumpsAt start := List.mem_filterMap.mpr ⟨p, hp, hj⟩
      have hholds := holds_operand himage hmem
      rw [haddress] at hholds
      have hcode : p.opcode = code := by rw [hopcode, hjump]; rfl
      have hread := readOperand_jump (f := f.frame tables) hshape hrange locals
        (horigin.trans hend) hholds
      rw [hcode, hjump, hj, ← horigin]
      exact hread
  have hsize : p.finish - p.address = p.size := by simp [Placed.finish]
  simp only [decodeAt, hword, ofValue?_value, hread, Option.bind_eq_bind, Option.bind_some, hsize]
  rfl

end ScriptFunction

/-! ## Reading one behind the other -/

theorem decodeFrom_succ {target : Target} {image : Array UInt8} {locals : List UInt32}
    {address finish : Nat} {d : Decoded} (hne : address ≠ finish)
    (hd : decodeAt target image locals address = some d) (most : Nat) :
    decodeFrom target image finish (most + 1) locals address =
      (decodeFrom target image finish most (d.declared locals) (address + d.size)).map (d :: ·) := by
  rw [decodeFrom, if_neg hne, hd]
  cases hrest : decodeFrom target image finish most (d.declared locals) (address + d.size) <;>
    simp [hrest]

section Sweep

variable {target : Target} {localCount : Nat}

theorem lt_codeEnd_cons (item : Key × Instruction) (rest : List (Key × Instruction))
    (address : Nat) : address < codeEnd target localCount address (item :: rest) :=
  Nat.lt_of_lt_of_le (item.2.lt_finish target localCount address) (le_codeEnd rest _)

/-- Reading leads from each instruction to the next, if each is read at its address and none declares
locals. -/
theorem decodeFrom_of_forall {image : Array UInt8} {locals : List UInt32}
    (decoded : Placed → Decoded) (items : List (Key × Instruction)) :
    ∀ {address most : Nat},
      (∀ p ∈ placedFrom target localCount address items,
        decodeAt target image locals p.address = some (decoded p) ∧
          (decoded p).size = p.size ∧ (decoded p).declared locals = locals) →
      items.length ≤ most →
      decodeFrom target image (codeEnd target localCount address items) most locals address =
        some ((placedFrom target localCount address items).map decoded) := by
  induction items with
  | nil => intro address most _ _; cases most <;> simp [decodeFrom, codeEnd, placedFrom]
  | cons item rest ih =>
      intro address most hall hmost
      obtain ⟨most, rfl⟩ := Nat.exists_eq_add_of_le' (Nat.le_trans (Nat.succ_pos _) hmost)
      have hlt := item.2.lt_finish target localCount address
      rw [placedFrom] at hall ⊢
      obtain ⟨hfirst, hsize, hdeclared⟩ := hall _ (List.mem_cons_self ..)
      have hnext : address + (item.2.finish target localCount address - address) =
          item.2.finish target localCount address := Nat.add_sub_cancel' (Nat.le_of_lt hlt)
      have hrest := ih (fun p hp => hall p (List.mem_cons_of_mem _ hp))
        (Nat.le_of_succ_le_succ hmost)
      rw [decodeFrom_succ (Nat.ne_of_lt (lt_codeEnd_cons item rest address)) hfirst, hdeclared, hsize,
        hnext, codeEnd, List.foldl_cons, ← codeEnd, hrest]
      rfl

/-- No instruction is shorter than a byte. -/
theorem length_le_codeEnd (items : List (Key × Instruction)) :
    ∀ address, address + items.length ≤ codeEnd target localCount address items := by
  induction items with
  | nil => intro address; exact Nat.le_refl _
  | cons item rest ih =>
      intro address
      have hlt := item.2.lt_finish target localCount address
      have hrest := ih (item.2.finish target localCount address)
      rw [codeEnd, List.foldl_cons, ← codeEnd, List.length_cons]
      omega

end Sweep

namespace ScriptFunction

variable {f : ScriptFunction} {tables : Tables} {start : Nat} {image : Array UInt8}

/-- Whether the code of a function can be read: it declares the locals first and once, and all
instructions have the operands of their opcodes. -/
structure Readable (f : ScriptFunction) : Prop where
  first : ∃ key rest, f.instructions = (key, .locals) :: rest ∧ ∀ item ∈ rest, item.2 ≠ .locals
  decodable : ∀ item ∈ f.instructions, item.2.Decodable f.target.revision

/-- The locals that are known behind an instruction of a function: after the first instruction, those
of the function. -/
theorem declared_decoded (placed : List Placed) {p : Placed} {locals : List UInt32}
    (h : if p.instruction = .locals then locals = [] else locals = f.locals.toList) :
    (p.decoded (f.frame tables) placed).declared locals = f.locals.toList := by
  simp only [Placed.decoded, Decoded.declared]
  cases hi : p.instruction with
  | locals =>
      simp only [hi, if_true] at h
      by_cases hempty : f.locals = #[] <;> simp [Frame.operandOf, frame, hempty, h]
  | number value =>
      simp only [hi, reduceCtorEq, if_false] at h
      cases value with
      | float bits => exact h
      | int v => by_cases hzero : v = 0 <;> simpa [Frame.operandOf, constantOperand, hzero] using h
  | jump code target =>
      simp only [hi, reduceCtorEq, if_false] at h
      simp only [Frame.operandOf]
      cases jumpOf placed p <;> exact h
  | call code entry | functionPointer code entry =>
      simp only [hi, reduceCtorEq, if_false] at h
      simp only [Frame.operandOf]
      cases (f.frame tables).import? entry <;> exact h
  | _ =>
      simp only [hi, reduceCtorEq, if_false] at h
      exact h

/-- Reading the code of a function gives its instructions back. -/
theorem decodeFunction_of_sound (hsound : f.Sound tables start) (hreadable : f.Readable)
    (himage : slice image start (f.endAt start - start) =
      (f.bodyAt f.target.order tables start).bytes.toList) :
    decodeFunction f.target image start (f.endAt start - start) =
      some ((f.placedAt start).map (Placed.decoded (f.frame tables) (f.placedAt start))) := by
  obtain ⟨key, rest, hitems, hrest⟩ := hreadable.first
  have hcount : f.locals.size ≤ maxLocals := by
    have := hsound.accepts (key, .locals) (by rw [hitems]; exact List.mem_cons_self ..)
    simpa [Frame.Accepts] using this
  have hread : ∀ {p : Placed} {locals : List UInt32}, p ∈ f.placedAt start →
      (p.instruction ≠ .locals → locals = f.locals.toList) →
      decodeAt f.target image locals p.address =
        some (p.decoded (f.frame tables) (f.placedAt start)) := fun hp hlocals =>
    decodeAt_of_mem hsound hcount himage hp (hreadable.decodable _ (f.mem_instructions_of_mem hp))
      hlocals
  have hlength : start + f.instructions.length ≤ codeEnd f.target f.locals.size start f.instructions :=
    length_le_codeEnd f.instructions start
  have hend : start + (f.endAt start - start) = f.endAt start :=
    Nat.add_sub_cancel' (le_codeEnd f.instructions start)
  generalize hall : f.placedAt start = all at hread
  rw [decodeFunction, hend]
  rw [placedAt, hitems, placedFrom] at hall
  rw [endAt, hitems] at hend ⊢
  rw [hitems, List.length_cons] at hlength
  -- the first instruction declares the locals, and with them known the others are read
  obtain ⟨most, hmost⟩ : ∃ most, codeEnd f.target f.locals.size start ((key, .locals) :: rest) -
      start = most + 1 := Nat.exists_eq_add_of_le' (by omega)
  have hfirst := @hread _ [] (hall ▸ List.mem_cons_self ..) (by simp)
  have hnext := Nat.add_sub_cancel' (Nat.le_of_lt
    (Instruction.lt_finish f.target f.locals.size start .locals))
  rw [hmost, decodeFrom_succ (Nat.ne_of_lt (lt_codeEnd_cons _ rest start)) hfirst,
    declared_decoded all (by simp)]
  have hread_rest : ∀ p ∈ placedFrom f.target f.locals.size
        (Instruction.finish f.target f.locals.size start .locals) rest,
      decodeAt f.target image f.locals.toList p.address =
          some (p.decoded (f.frame tables) all) ∧
        (p.decoded (f.frame tables) all).size = p.size ∧
        (p.decoded (f.frame tables) all).declared f.locals.toList = f.locals.toList := by
    intro p hp
    have hlocals : p.instruction ≠ .locals := by
      have hmem := List.mem_map_of_mem hp (f := fun p => (p.key, p.instruction))
      rw [map_placedFrom] at hmem
      exact hrest _ hmem
    exact ⟨hread (hall ▸ List.mem_cons_of_mem _ hp) fun _ => rfl, rfl,
      declared_decoded all (by simp [hlocals])⟩
  have hothers := decodeFrom_of_forall _ rest hread_rest (Nat.le_of_succ_le_succ (m := most)
    (by omega))
  simp only [Placed.decoded] at hothers ⊢
  rw [hnext, codeEnd, List.foldl_cons, ← codeEnd, hothers, ← hall]
  rfl

end ScriptFunction

end GscAssembler.Code

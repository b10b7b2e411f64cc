import GscAssembler.Proofs.Code.Edits
import GscAssembler.Proofs.Code.Sweep

/-!
# What the indices of locals denote

Locals are declared while code is emitted, and the code names them by the hash of their names.  Only
the layout turns a hash into an index, which counts from the local that was declared last.  By then all
locals are known, so it does not matter when a local was declared and when the code that names it was
emitted (`local_indices_denote`).

The declaration at the start of a function counts its locals with one byte.  A function with more of
them is refused there, and so no count and no index is ever cut off.
-/

namespace GscAssembler.Code

open Bytes (Buffer ByteOrder slice)
open Reference (Tables)

/-! ## Reading the declaration and an index -/

section Reading

variable (target : Target) (image : Array UInt8)

/-- Whether the code at an address declares these locals, in this order: an opcode says that there are
none, or another one is followed by their number and their hashes. -/
def DeclaresAt (address : Nat) (locals : List UInt32) : Prop :=
  let opcode := wordAt target image address target.opcodeWidth
  let operand := address + target.opcodeWidth
  if locals = [] then opcode = Opcode.checkClearParams.value
  else opcode = Opcode.safeCreateLocalVariables.value ∧
    (byteAt target image operand).toNat = locals.length ∧
    (readLocals target image locals.length (operand + 1)).1 = locals

/-- Whether the operation on a local at an address carries an index of these locals that denotes the
one with a hash: indices count from the last. -/
def DenotesAt (address : Nat) (locals : List UInt32) (hash : UInt32) : Prop :=
  let index := (byteAt target image (address + target.opcodeWidth)).toNat
  index < locals.length ∧ locals[locals.length - 1 - index]? = some hash

end Reading

section Holds

variable {f : Frame} {image : Array UInt8} {address : Nat}

theorem declaresAt_of_holds (hcount : f.locals.length ≤ maxLocals)
    (h : Holds image address (f.code address .locals)) :
    DeclaresAt f.target image address f.locals := by
  have hvalue : ∀ code : Opcode, code.value < 256 ^ f.target.opcodeWidth := fun code =>
    Nat.lt_of_lt_of_le (value_lt code)
      (Nat.le_self_pow (Nat.ne_of_gt f.target.opcodeWidth_pos) 256)
  rw [Frame.code] at h
  have hopcode := wordAt_of_holds (hvalue _) h.left
  have hoperand := h.right
  rw [ByteOrder.length_bytes] at hoperand
  unfold DeclaresAt
  split
  · rename_i hempty
    rw [hopcode, Instruction.opcode, hempty]
    rfl
  · rename_i hnonempty
    have hlength : f.locals.length ≠ 0 := fun h => hnonempty (List.length_eq_zero_iff.mp h)
    have hisEmpty : f.locals.isEmpty = false := by simpa using hnonempty
    have hbyte : (UInt8.ofNat f.locals.length).toNat = f.locals.length := by
      simp only [maxLocals] at hcount
      simp only [UInt8.toNat_ofNat']
      omega
    simp only [Frame.operand, hisEmpty, Bool.false_eq_true, if_false, List.cons_append] at hoperand
    have hdeclared : readLocals f.target image f.locals.length
        (address + f.target.opcodeWidth + 1) = (f.locals, _) :=
      readLocals_of_holds f.locals (hoperand.right (l := [_])).left
    refine ⟨?_, ?_, ?_⟩
    · rw [hopcode, Instruction.opcode, if_neg hlength]
    · rw [byteAt_of_holds hoperand, hbyte]
    · rw [hdeclared]

theorem denotesAt_of_holds (hcount : f.locals.length ≤ maxLocals) {code : Opcode} {hash : UInt32}
    (hmem : hash ∈ f.locals) (h : Holds image address (f.code address (.localVariable code hash))) :
    DenotesAt f.target image address f.locals hash := by
  have hoperand := h.right
  rw [ByteOrder.length_bytes] at hoperand
  have hlt := List.idxOf_lt_length_of_mem hmem
  have hindex : byteAt f.target image (address + f.target.opcodeWidth) = _ := byteAt_of_holds hoperand
  have hbyte : (UInt8.ofNat (f.locals.length - f.locals.idxOf hash - 1)).toNat =
      f.locals.length - 1 - f.locals.idxOf hash := by
    simp only [maxLocals] at hcount
    simp only [UInt8.toNat_ofNat']
    omega
  simp only [DenotesAt, hindex, hbyte]
  refine ⟨by omega, ?_⟩
  rw [show f.locals.length - 1 - (f.locals.length - 1 - f.locals.idxOf hash) =
    f.locals.idxOf hash by omega]
  exact List.getElem?_idxOf hmem

end Holds

/-! ## The locals that edits declare -/

/-- The local that an edit declares. -/
def Edit.declared? : Edit → Option UInt32
  | .declare hash => some hash
  | _ => none

namespace ScriptFunction

/-- Settling jumps changes the chain and the open scopes, and nothing else. -/
theorem settle_eq (header : Option Key) (footer : Key) (pending : List PendingJump)
    (f : ScriptFunction) :
    ∃ chain scopes, (settle header footer pending f).2 = { f with chain, scopes } := by
  fun_induction ScriptFunction.settle header footer pending f with
  | case1 f => exact ⟨_, _, rfl⟩
  | case2 header jump rest f ih => exact ih
  | case3 jump rest f header ih => exact ih
  | case4 jump rest f outer scopes hscopes ih => exact ih
  | case5 jump rest f hscopes => exact ⟨_, _, rfl⟩

/-- An edit declares its local, if it has one; else it changes the chain, the open scopes and what is
reserved. -/
theorem edit_eq (f : ScriptFunction) (e : Edit) : ∃ chain scopes switchKeys foreachKeys,
    f.edit e = { e.declared?.elim f f.addLocal with chain, scopes, switchKeys, foreachKeys } := by
  cases e with
  | remove key =>
      simp only [edit, remove]
      split <;> exact ⟨_, _, _, _, rfl⟩
  | loopJump kind levels =>
      simp only [edit, addLoopJump]
      split <;> exact ⟨_, _, _, _, rfl⟩
  | exitLoop header footer =>
      simp only [edit, exitLoop]
      split
      · exact ⟨_, _, _, _, rfl⟩
      · obtain ⟨chain, scopes, hsettle⟩ := settle_eq header footer _ _
        exact ⟨chain, scopes, _, _, hsettle⟩
  | takeSwitch =>
      simp only [edit, popSwitchKey]
      split <;> exact ⟨_, _, _, _, rfl⟩
  | takeForeach =>
      simp only [edit, popForeachLocals]
      split <;> exact ⟨_, _, _, _, rfl⟩
  | _ => exact ⟨_, _, _, _, rfl⟩

theorem locals_edit (f : ScriptFunction) (e : Edit) :
    (f.edit e).locals = (e.declared?.elim f f.addLocal).locals := by
  obtain ⟨_, _, _, _, heq⟩ := f.edit_eq e
  rw [heq]

theorem target_params_edits (changes : List Edit) : ∀ f : ScriptFunction,
    ((f.edits changes).target, (f.edits changes).params) = (f.target, f.params) := by
  induction changes with
  | nil => intro f; rfl
  | cons e changes ih =>
      intro f
      obtain ⟨_, _, _, _, heq⟩ := f.edit_eq e
      refine (ih (f.edit e)).trans ?_
      rw [heq]
      cases e.declared? with
      | none => rfl
      | some hash =>
          simp only [Option.elim_some, addLocal]
          split <;> rfl

theorem target_edits (changes : List Edit) (f : ScriptFunction) :
    (f.edits changes).target = f.target :=
  congrArg Prod.fst (target_params_edits changes f)

/-- A local that is declared again stays where it was declared first. -/
theorem toList_addLocal {f : ScriptFunction} {declared : List UInt32}
    (h : f.locals.toList = declared.eraseDups) (hash : UInt32) :
    (f.addLocal hash).locals.toList = (declared ++ [hash]).eraseDups := by
  have hmem : f.hasLocal hash = true ↔ hash ∈ declared := by
    rw [← List.mem_eraseDups, ← h]
    simp [hasLocal]
  rw [List.eraseDups_append, ← h, addLocal]
  by_cases hthere : hash ∈ declared
  · rw [if_pos (hmem.mpr hthere)]
    simp [List.removeAll, hthere]
  · rw [if_neg (hmem.not.mpr hthere), Array.toList_push]
    simp [List.removeAll, hthere, List.eraseDups_cons]

/-- The locals are those that were declared, each where it was declared first. -/
theorem toList_edits (changes : List Edit) : ∀ (f : ScriptFunction) (declared : List UInt32),
    f.locals.toList = declared.eraseDups →
      (f.edits changes).locals.toList = (declared ++ changes.filterMap Edit.declared?).eraseDups := by
  induction changes with
  | nil => intro f declared h; simpa [edits] using h
  | cons e changes ih =>
      intro f declared h
      have hstep : (f.edit e).locals.toList = (declared ++ e.declared?.toList).eraseDups := by
        rw [locals_edit]
        cases e.declared? with
        | none => simpa using h
        | some hash => exact toList_addLocal h hash
      have hrun : ((f.edit e).edits changes).locals.toList = _ := ih _ _ hstep
      rw [List.append_assoc] at hrun
      refine hrun.trans (congrArg _ (congrArg _ ?_))
      cases hdeclared : e.declared? <;> simp [hdeclared]

end ScriptFunction

/-! ## The layout of a function -/

namespace ScriptFunction

variable {f : ScriptFunction} {l : Ledger Instruction} {tables : Tables}

/-- The declaration of the locals is placed where the function starts. -/
theorem exists_head_placedAt (h : f.Stands l) (start : Nat) :
    ∃ p ∈ f.placedAt start, p.instruction = .locals ∧ p.address = start := by
  obtain ⟨rest, hitems⟩ := List.head?_eq_some_iff.mp h.head?_instructions
  rw [placedAt, hitems, placedFrom]
  exact ⟨_, List.mem_cons_self .., rfl, rfl⟩

theorem size_locals_le (h : f.Stands l) {start : Nat} (hsound : f.Sound tables start) :
    f.locals.size ≤ maxLocals := by
  have haccepts := hsound.accepts _ (List.mem_of_head? h.head?_instructions)
  simpa [Frame.Accepts] using haccepts

/-- A function with too many locals is refused at their declaration, before anything else is looked at. -/
theorem layOut_of_many_locals (h : f.Stands l) (hmany : maxLocals < f.locals.size) (image : Buffer)
    (tables : Tables) :
    f.layOut image tables = .error (.capacityExceeded "locals" f.locals.size maxLocals) := by
  obtain ⟨rest, hitems⟩ := List.head?_eq_some_iff.mp h.head?_instructions
  have hnot : ¬ (f.frame tables).Accepts .locals := by
    simpa [Frame.Accepts] using hmany
  obtain ⟨e, he, hwhy⟩ := (f.frame tables).encode_of_not_accepts
    (image.padTo (functionStart image.position)).position hnot
  simp only [layOut, hitems, List.foldlM_cons, Placement.place, he, bind, Except.bind]
  rw [hwhy rfl, length_frame_locals]

section Image

variable {laid : FunctionLayout × Buffer × Tables}

/-- The image holds the body of a function that was laid out at its end. -/
theorem slice_of_layOut (bytes : Array UInt8) (hlaid : f.layOut { order := f.target.order, bytes } tables = .ok laid) :
    laid.1.address = functionStart bytes.size ∧
      laid.1.instructions = f.placedAt laid.1.address ∧ f.Sound tables laid.1.address ∧
      slice laid.2.1.bytes laid.1.address (f.endAt laid.1.address - laid.1.address) =
        (f.bodyAt f.target.order tables laid.1.address).bytes.toList := by
  have hposition : Buffer.position { order := f.target.order, bytes } = bytes.size := by
    simp [Buffer.position]
  have hsound := sound_of_layOut rfl hlaid
  have hbody : f.layOut { order := f.target.order, bytes } tables = _ :=
    layOut_of_sound rfl rfl hsound
  rw [hlaid] at hbody
  cases hbody
  rw [hposition] at hsound ⊢
  have hpadded : (Buffer.padTo { order := f.target.order, bytes } (functionStart bytes.size)).position
      = functionStart bytes.size :=
    Buffer.position_padTo (hposition ▸ le_functionStart _)
  have hslice := Buffer.slice_append_self
    (b := Buffer.padTo { order := f.target.order, bytes } (functionStart bytes.size)) (by simp)
    (f.bodyAt f.target.order tables (functionStart bytes.size)).bytes.toList
  rw [hpadded, Array.length_toList] at hslice
  refine ⟨rfl, rfl, hsound, ?_⟩
  simp only [layoutAt]
  rw [← f.size_bodyAt f.target.order tables (functionStart bytes.size), Nat.add_sub_cancel_left]
  exact hslice

end Image

/-- Indices of locals always denote the right variable.  Whatever edits a function is built by, its locals
are those that were declared, each once, and the declaration that the function was created with stays
its first instruction.
If the function is laid out, then it has at most 255 locals, the code starts with their declaration, in
the order in which they were declared, and every operation on a local carries an index below their
number that denotes the local it names.  A function with more locals is never laid out. -/
theorem local_indices_denote (target : Target) (name : String) (hash namespaceHash : UInt32)
    (params flags : UInt8) (changes : List Edit) (tables : Tables) :
    let new := create target name hash namespaceHash params flags
    let f := new.edits changes
    f.locals.toList = (changes.filterMap Edit.declared?).eraseDups ∧ f.locals.toList.Nodup ∧
    f.instructions.head? = some (new.head, .locals) ∧
    (∀ bytes laid, f.layOut { order := target.order, bytes } tables = .ok laid →
      f.locals.size ≤ 255 ∧
      DeclaresAt target laid.2.1.bytes laid.1.address f.locals.toList ∧
      ∀ p ∈ laid.1.instructions, ∀ code name, p.instruction = .localVariable code name →
        DenotesAt target laid.2.1.bytes p.address f.locals.toList name) ∧
    (255 < f.locals.size → ∀ image,
      f.layOut image tables = .error (.capacityExceeded "locals" f.locals.size 255)) := by
  intro new f
  obtain ⟨l₀, h₀⟩ := exists_stands_create target name hash namespaceHash params flags
  obtain ⟨l, -, h⟩ : ∃ l, l₀.Later l ∧ f.Stands l := h₀.edits changes
  have htarget : f.target = target := target_edits changes new
  refine ⟨toList_edits changes new [] rfl, h.nodup, ?_, fun bytes laid hlaid => ?_,
    fun hmany image => ?_⟩
  · rw [h.head?_instructions, h.head]
    rfl
  · rw [← htarget] at hlaid ⊢
    obtain ⟨-, hinstructions, hsound, hslice⟩ := slice_of_layOut bytes hlaid
    have hcount : f.locals.size ≤ maxLocals := size_locals_le h hsound
    have hlength : (f.frame tables).locals.length ≤ maxLocals := by simpa using hcount
    refine ⟨hcount, ?_, fun p hp code name hlocal => ?_⟩
    · obtain ⟨p, hp, hhead, haddress⟩ := exists_head_placedAt h laid.1.address
      have hholds := holds_code hslice hp (by rw [hhead]; rfl)
      rw [hhead, haddress] at hholds
      exact declaresAt_of_holds (f := f.frame tables) hlength hholds
    · rw [hinstructions] at hp
      have hholds := holds_code hslice hp (by rw [hlocal]; rfl)
      rw [hlocal] at hholds
      have hmem := hsound.accepts _ (f.mem_instructions_of_mem hp)
      rw [hlocal] at hmem
      exact denotesAt_of_holds (f := f.frame tables) hlength hmem hholds
  · exact layOut_of_many_locals h hmany image tables

/-- Edits that name a local before it is declared, and one of them twice. -/
def lateDeclarations : List Edit :=
  [.add (.localVariable .evalLocalVariableCached 7), .declare 7, .declare 9, .declare 7]

/-- Edits that declare one local too many. -/
def manyDeclarations : List Edit :=
  (List.range 256).map fun n => .declare (UInt32.ofNat n)

theorem manyDeclarations_lt : 255 < (manyDeclarations.filterMap Edit.declared?).eraseDups.length := by
  have hmap : manyDeclarations.filterMap Edit.declared? = (List.range 256).map UInt32.ofNat := by
    rw [manyDeclarations, List.filterMap_map]
    exact congrFun List.filterMap_eq_map _
  have hnodup : ((List.range 256).map UInt32.ofNat).Nodup := by
    refine List.nodup_range.map_on fun n hn m hm heq => ?_
    rw [List.mem_range] at hn hm
    have hnat := congrArg UInt32.toNat heq
    simp only [UInt32.toNat_ofNat'] at hnat
    omega
  have hsubset : (List.range 256).map UInt32.ofNat ⊆
      (manyDeclarations.filterMap Edit.declared?).eraseDups :=
    fun hash hhash => List.mem_eraseDups.mpr (hmap ▸ hhash)
  simpa [Nat.lt_iff_add_one_le] using (hnodup.subperm hsubset).length_le

/-- A local that was named before it and another one were declared gets the index 1, which denotes it;
one local too many, and there is no layout. -/
theorem local_indices_denote_declarations :
    (let f := (create .legacyBig "main" 1 2 0 0).edits lateDeclarations;
      ∃ laid, f.layOut { order := .big } {} = .ok laid ∧
        DeclaresAt .legacyBig laid.2.1.bytes laid.1.address [7, 9] ∧
        ∃ p ∈ laid.1.instructions, p.instruction = .localVariable .evalLocalVariableCached 7 ∧
          DenotesAt .legacyBig laid.2.1.bytes p.address [7, 9] 7) ∧
    let f := (create .legacyBig "main" 1 2 0 0).edits manyDeclarations
    ∀ image, f.layOut image {} = .error (.capacityExceeded "locals" f.locals.size 255) := by
  constructor
  · intro f
    obtain ⟨hdeclared, -, -, hdenote, -⟩ := local_indices_denote .legacyBig "main" 1 2 0 0
      lateDeclarations {}
    have hlocals : f.locals.toList = [7, 9] := hdeclared.trans (by decide)
    have hok : (f.layOut { order := .big } {}).isOk = true := by decide +kernel
    cases hlaid : f.layOut { order := .big } {} with
    | error e => rw [hlaid] at hok; cases hok
    | ok laid =>
        obtain ⟨-, hdeclares, hdenotes⟩ := hdenote #[] laid hlaid
        rw [hlocals] at hdeclares hdenotes
        have htarget : f.target = .legacyBig := target_edits lateDeclarations _
        obtain ⟨haddress, hinstructions, -⟩ := slice_of_layOut (f := f) #[]
          (by rw [htarget]; exact hlaid)
        obtain ⟨p, hp, hlocal⟩ : ∃ p ∈ laid.1.instructions,
            p.instruction = .localVariable .evalLocalVariableCached 7 := by
          rw [hinstructions, haddress]
          decide +kernel
        exact ⟨laid, rfl, hdeclares, p, hp, hlocal, hdenotes p hp _ 7 hlocal⟩
  · obtain ⟨hlocals, -, -, -, hmany⟩ := local_indices_denote .legacyBig "main" 1 2 0 0
      manyDeclarations {}
    refine hmany ?_
    rw [← Array.length_toList, hlocals]
    exact manyDeclarations_lt

end ScriptFunction

end GscAssembler.Code

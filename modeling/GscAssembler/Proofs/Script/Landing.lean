import GscAssembler.Proofs.Control.Built
import GscAssembler.Proofs.Image.Exports

/-!
# Jumps land where they were told to

A jump is told its target as the key of the instruction behind which it lands, long before anything
has an address.  In the finished image the two bytes of its operand are the distance from the end of
the jump to the end of that instruction (`JumpLands`), however the function was put together.  That is
where the next instruction starts, or the end of the function.  Code that was lowered from a tree never
jumps to its end (`Lowered.exists_of_mem_jumpsAt`): the end of a function is an instruction of its own.
-/

namespace GscAssembler.Code

open Bytes (ByteOrder align slice)
open Reference (Tables)

theorem Chain.get?_of_mem_toList {α : Type} {c : Chain α} {key : Key} {value : α}
    (h : (key, value) ∈ c.toList) : c.get? key = some value := by
  obtain ⟨other, -, hother⟩ := List.mem_filterMap.mp h
  obtain ⟨found, hfound, heq⟩ := Option.map_eq_some_iff.mp hother
  cases heq
  exact hfound

/-- The signed number that two bytes stand for. -/
def signedShort (order : ByteOrder) (bytes : List UInt8) : Int :=
  (BitVec.ofNat 16 (order.value bytes)).toInt

/-- Whether a placed instruction of a function is a jump that lands where it was told to. -/
structure JumpLands (target : Target) (image : Array UInt8) (f : ScriptFunction)
    (layout : FunctionLayout) (p : Placed) (j : PlacedJump) : Prop where
  /-- The jump is the one of the instruction. -/
  address : j.address = p.address
  /-- Its displacement counts from its end. -/
  origin : j.origin = p.finish
  /-- Its operand lies inside the instruction. -/
  inside : p.address ≤ align (p.address + target.opcodeWidth) 2 ∧
    align (p.address + target.opcodeWidth) 2 + 2 ≤ p.finish
  /-- Its operand is the distance from its end to its landing. -/
  displacement : signedShort target.order (slice image (align (p.address + target.opcodeWidth) 2) 2) =
    j.landing - j.origin
  /-- It lands behind the instruction of its target, where the next instruction or the end of the
  function is. -/
  landing : ∃ key before q after, p.instruction = .jump j.opcode (some key) ∧
    layout.instructions = before ++ q :: after ∧ q.key = key ∧ f.get? key = some q.instruction ∧
    j.landing = q.finish ∧
    j.landing = (after.head?.map (·.address)).getD (layout.address + layout.size)

namespace ScriptFunction

variable {f : ScriptFunction} {tables : Tables} {start : Nat} {p : Placed} {j : PlacedJump}

/-- The instruction that a jump lands behind. -/
theorem exists_landing (hj : jumpOf (f.placedAt start) p = some j) :
    ∃ key before q after, p.instruction = .jump j.opcode (some key) ∧
      f.placedAt start = before ++ q :: after ∧ q.key = key ∧ f.get? key = some q.instruction ∧
      j.landing = q.finish ∧ q.finish = (after.head?.map (·.address)).getD (f.endAt start) := by
  obtain ⟨code, target, q, hjump, hlanding, rfl⟩ := mem_of_jumpOf hj
  obtain ⟨key, rfl, hfind⟩ := Option.bind_eq_some_iff.mp hlanding
  have hkey : q.key = key := by simpa using List.find?_some hfind
  have hq := List.mem_of_find?_eq_some hfind
  have hmem := f.mem_instructions_of_mem hq
  obtain ⟨before, after, hsplit⟩ := List.append_of_mem hq
  refine ⟨key, before, q, after, hjump, hsplit, hkey, ?_, rfl, finish_of_placedFrom_eq _ hsplit⟩
  rw [← hkey]
  exact Chain.get?_of_mem_toList hmem

/-- The jumps of a sound function land where they were told to. -/
theorem Sound.jumpLands (hsound : f.Sound tables start) {image : Array UInt8}
    (himage : slice image start (f.endAt start - start) =
      (f.bodyAt f.target.order tables start).bytes.toList)
    (hp : p ∈ f.placedAt start) (hj : jumpOf (f.placedAt start) p = some j) :
    JumpLands f.target image f (f.layoutAt f.target.order tables start) p j := by
  have hmem : j ∈ f.jumpsAt start := List.mem_filterMap.mpr ⟨p, hp, hj⟩
  obtain ⟨haddress, horigin, hfinish⟩ := finish_of_jumpOf hp hj
  obtain ⟨hstart, hwidth, horigin', hend⟩ := span_of_mem_jumpsAt hmem
  rw [haddress] at hstart hwidth horigin'
  have hoperand : slice image (jumpOperand f.target p.address) 2 =
      f.target.order.bytes 2 (j.displacement % 2 ^ 16).toNat := by
    have hinside : jumpOperand f.target p.address - start + 2 ≤ f.endAt start - start := by omega
    have hshift : start + (jumpOperand f.target p.address - start) =
        jumpOperand f.target p.address := by omega
    rw [← hshift, ← Bytes.slice_slice hinside, himage, ← Bytes.slice_eq_take_drop, ← haddress,
      slice_bodyAt_of_mem_jumpsAt hmem]
  obtain ⟨key, before, q, after, hjump, hsplit, hkey, hget, hlanding, hnext⟩ := exists_landing hj
  refine ⟨haddress, horigin, ⟨le_jumpOperand f.target p.address, hfinish.ge⟩, ?_,
    key, before, q, after, hjump, hsplit, hkey, hget, hlanding, ?_⟩
  · rw [signedShort, show align (p.address + f.target.opcodeWidth) 2 =
      jumpOperand f.target p.address from rfl, hoperand,
      toInt_displacement (inRange_of_mem_jumpsAt hsound hmem)]
    rfl
  · have hle := f.le_endAt start
    rw [hlanding, hnext]
    simp only [layoutAt]
    rw [Nat.add_sub_cancel' hle]

end ScriptFunction

end GscAssembler.Code

namespace GscAssembler.Control

open Code (Chain FunctionLayout Instruction Key PlacedJump ScriptFunction)
open Lowering
open Reference (Tables)

namespace Lowered

variable {tables : Tables} {f : ScriptFunction} {p : Program} {start : Nat}

theorem instructions (h : Lowered tables f p) :
    f.instructions = (.locals :: (p.code .unknown 1 ++ [.op .endFunction])).mapIdx
      fun i x => (Key.at i, x) := by
  rw [ScriptFunction.instructions, h.chain, Chain.toList_ofList]

/-- The instructions of a lowered function between the declaration of its locals and its end. -/
theorem mem_code (h : Lowered tables f p) {i : Instruction} (hi : i ∈ p.code .unknown 1) :
    WellNamed f.target f.locals tables i ∨ LandsWithin 1 (1 + p.length) i :=
  Control.mem_code h.named (fun _ _ _ h => by cases h) (by rw [h.closed]; intro e he; cases he)
    (Nat.le_refl _) (Nat.le_refl _) i hi

/-- The instructions of a lowered function: the declaration of its locals, its end, those that name
what exists, and jumps, which all have an instruction behind their target. -/
theorem cases_of_mem (h : Lowered tables f p) {item : Key × Instruction}
    (hitem : item ∈ f.instructions) :
    item.2 = .locals ∨ item.2 = .op .endFunction ∨ WellNamed f.target f.locals tables item.2 ∨
      ∃ code position, item.2 = .jump code (some (.at position)) ∧
        (code = .jump ∨ code.isConditional = true) ∧ position + 1 < f.instructions.length := by
  have hlength : f.instructions.length = p.length + 2 := by
    simp [h.instructions, Program.length_code]
  have hmem : item.2 ∈ Instruction.locals :: (p.code .unknown 1 ++ [.op .endFunction]) := by
    rw [h.instructions] at hitem
    obtain ⟨i, hi, rfl⟩ := List.mem_mapIdx.mp hitem
    exact List.getElem_mem hi
  rcases List.mem_cons.mp hmem with hlocals | hmem
  · exact .inl hlocals
  rcases List.mem_append.mp hmem with hcode | hend
  · rcases h.mem_code hcode with hnamed | ⟨code, position, heq, hcode, hlow, hhigh⟩
    · exact .inr (.inr (.inl hnamed))
    · exact .inr (.inr (.inr ⟨code, position - 1, heq, hcode, by omega⟩))
  · exact .inr (.inl (List.mem_singleton.mp hend))

/-- Where the jumps of a lowered function go: there is an instruction behind each target. -/
theorem target_of_mem (h : Lowered tables f p) {item : Key × Instruction}
    (hitem : item ∈ f.instructions) {code : Code.Opcode} {target : Option Key}
    (hjump : item.2 = .jump code target) :
    ∃ position, target = some (.at position) ∧ position + 1 < f.instructions.length := by
  rcases h.cases_of_mem hitem with heq | heq | hnamed | ⟨_, position, heq, -, hlt⟩
  · rw [hjump] at heq; cases heq
  · rw [hjump] at heq; cases heq
  · rw [hjump] at hnamed; exact absurd hnamed.emittable id
  · rw [hjump] at heq
    cases heq
    exact ⟨position, rfl, hlt⟩

/-- A jump of a lowered function lands on the instruction behind its target. -/
theorem getElem?_landing (h : Lowered tables f p) {item : Code.Placed} {j : PlacedJump}
    (hitem : item ∈ f.placedAt start) (hjump : Code.jumpOf (f.placedAt start) item = some j) :
    ∃ position next, item.instruction = .jump j.opcode (some (.at position)) ∧
      (f.placedAt start)[position + 1]? = some next ∧ next.address = j.landing := by
  obtain ⟨key, before, q, after, hinstruction, hsplit, hkey, -, hlanding, hnext⟩ :=
    ScriptFunction.exists_landing hjump
  have hitems := f.map_placedAt start
  obtain ⟨position, hposition, hlt⟩ :=
    h.target_of_mem (f.mem_instructions_of_mem hitem) hinstruction
  rw [h.instructions] at hitems
  -- the target stands at its own position, so it is not the last instruction
  have hbefore : before.length = position := by
    have hget := congrArg (·[before.length]?) hitems
    simp only [hsplit, List.map_append, List.map_cons, List.getElem?_mapIdx] at hget
    rw [List.getElem?_append_right (by simp), List.length_map, Nat.sub_self,
      List.getElem?_cons_zero] at hget
    obtain ⟨_, -, heq⟩ := Option.map_eq_some_iff.mp hget.symm
    have hat : Key.at before.length = .at position := by
      rw [(Prod.mk.inj heq).1, hkey]
      exact Option.some.inj hposition
    exact Code.Key.at_inj.mp hat
  have hafter : after ≠ [] := by
    intro hnil
    have hlength : (f.placedAt start).length = f.instructions.length := by
      rw [← f.map_placedAt start, List.length_map]
    rw [hsplit, hnil] at hlength
    simp at hlength
    omega
  obtain ⟨next, rest, rfl⟩ := List.exists_cons_of_ne_nil hafter
  refine ⟨position, next, by rw [hinstruction, hposition], ?_, ?_⟩
  · rw [hsplit, ← hbefore, List.getElem?_append_right (Nat.le_add_right _ 1),
      Nat.add_sub_cancel_left]
    rfl
  · rw [hlanding, hnext]
    rfl

/-- The instruction that a jump of a lowered function lands on. -/
theorem exists_of_mem_jumpsAt (h : Lowered tables f p) {j : PlacedJump} (hj : j ∈ f.jumpsAt start) :
    ∃ q ∈ f.placedAt start, q.address = j.landing := by
  obtain ⟨item, hitem, hjump⟩ := ScriptFunction.exists_of_mem_jumpsAt hj
  obtain ⟨position, next, -, hnext, haddress⟩ := h.getElem?_landing hitem hjump
  exact ⟨next, List.mem_of_getElem? hnext, haddress⟩

/-- A lowered function ends with the instruction for it. -/
theorem getLast?_placedAt (h : Lowered tables f p) :
    (f.placedAt start).getLast?.map (·.instruction) = some (.op .endFunction) := by
  have hitems := congrArg (List.map (·.2)) (f.map_placedAt start)
  rw [List.map_map, ScriptFunction.instructions, h.chain, Chain.map_snd_toList_ofList] at hitems
  rw [← List.getLast?_map]
  change ((f.placedAt start).map ((·.2) ∘ fun p => (p.key, p.instruction))).getLast? = _
  rw [hitems, ← List.cons_append, List.getLast?_concat]

end Lowered

/-- The functions that an image of a tree holds are lowered ones. -/
theorem lowered_of_placed {settings : Settings} {root : SyntaxTree.Node} {s : Script}
    (h : buildScript settings root = .ok s) {nameHash : UInt64} {p : ScriptFunction × Nat}
    (hp : p ∈ s.placed nameHash) :
    p.1.target = s.target ∧ ∃ program, Lowered s.tables p.1 program := by
  refine (lowered_of_buildScript h).2 p.1 ?_
  rw [← s.map_fst_placed nameHash]
  exact List.mem_map_of_mem hp

/-- The layouts of an image of a tree are those of lowered functions. -/
theorem exists_lowered_of_layout {settings : Settings} {root : SyntaxTree.Node} {s : Script}
    (h : buildScript settings root = .ok s) {nameHash : UInt64} {names : Name.Registry}
    {layout : Code.FunctionLayout} (hlayout : layout ∈ (s.compiled nameHash names).layouts) :
    ∃ p ∈ s.placed nameHash, layout = p.1.layoutAt s.target.order s.tables p.2 ∧
      p.1.target = s.target ∧ ∃ program, Lowered s.tables p.1 program := by
  obtain ⟨p, hp, rfl, hmem⟩ := s.exists_placed_of_layout nameHash hlayout
  exact ⟨p, hp, rfl, (lowered_of_buildScript h).2 p.1 hmem⟩

end GscAssembler.Control

namespace GscAssembler

open Code (JumpLands)
open Lowering

/-- Jumps land where they were told to.  The layouts list the instructions of the functions in order,
and their jumps; each jump of the image goes to the end of the instruction that its target names.  A
function that was lowered from a tree ends with the end of a function, and its jumps land on its
instructions. -/
theorem jumps_land {s : Script} {c : CompiledScript} (h : s.compile = .ok c)
    (htargets : ∀ f ∈ s.functions.toList.map (·.2), f.target = s.target) :
    List.Forall₂ (fun f layout =>
      layout.instructions.map (fun p => (p.key, p.instruction)) = f.instructions ∧
      List.Forall₂ (JumpLands s.target c.image f layout)
        (layout.instructions.filter (·.instruction.isJump)) layout.jumps ∧
      ∀ table n script script', script.tables.Indexed →
        lowerFunction (macrosOf table) n script = .ok (f, script') →
        layout.instructions.getLast?.map (·.instruction) = some (.op .endFunction) ∧
        ∀ j ∈ layout.jumps, ∃ q ∈ layout.instructions, q.address = j.landing)
      (s.functions.toList.map (·.2)) c.layouts := by
  obtain ⟨nameHash, names, -, hfits, rfl⟩ := Script.compile_eq_ok h
  have hlayouts : (s.compiled nameHash names).layouts = (s.placed nameHash).map fun p =>
      p.1.layoutAt s.target.order s.tables p.2 := s.layouts_assembled nameHash
  rw [← s.map_fst_placed nameHash] at htargets ⊢
  rw [hlayouts, List.forall₂_map_left_iff, List.forall₂_map_right_iff, List.forall₂_same]
  intro p hp
  have hsound := Script.sound_of_fits hfits hp
  have htarget := htargets p.1 (List.mem_map_of_mem hp)
  have hslice := Script.slice_function hp
  rw [← htarget] at hslice ⊢
  refine ⟨p.1.map_placedAt p.2, ?_, ?_⟩
  · have hmem : ∀ q ∈ (p.1.placedAt p.2).filter (·.instruction.isJump), q ∈ p.1.placedAt p.2 :=
      fun q hq => (List.mem_filter.mp hq).1
    have hjumps := (List.forall₂_and_left _ _).mpr
      ⟨hmem, Code.ScriptFunction.forall₂_jumpsAt hsound⟩
    exact hjumps.imp fun q j hqj => hsound.jumpLands hslice hqj.1 hqj.2
  · intro table n script script' hindexed hlower
    obtain ⟨-, -, program, hlowered⟩ :=
      Control.lowered_of_lowerFunction (Control.matching_macrosOf table) hindexed hlower
    exact ⟨hlowered.getLast?_placedAt, fun j hj => hlowered.exists_of_mem_jumpsAt hj⟩

/-- The jumps of a script that was lowered land where they were told to. -/
theorem jumps_land_loopScript :
    ∃ s c, buildScript {} Control.loopScript = .ok s ∧ s.compile = .ok c ∧
      (∀ f ∈ s.functions.toList.map (·.2), f.target = s.target) ∧
      List.Forall₂ (fun f layout =>
        layout.instructions.map (fun p => (p.key, p.instruction)) = f.instructions ∧
        List.Forall₂ (JumpLands s.target c.image f layout)
          (layout.instructions.filter (·.instruction.isJump)) layout.jumps ∧
        ∀ table n script script', script.tables.Indexed →
          lowerFunction (macrosOf table) n script = .ok (f, script') →
          layout.instructions.getLast?.map (·.instruction) = some (.op .endFunction) ∧
          ∀ j ∈ layout.jumps, ∃ q ∈ layout.instructions, q.address = j.landing)
        (s.functions.toList.map (·.2)) c.layouts := by
  obtain ⟨s, c, hbuild, hcompile, -, -⟩ := Control.exists_compiled_loopScript
  have htargets : ∀ f ∈ s.functions.toList.map (·.2), f.target = s.target :=
    fun f hf => ((Control.lowered_of_buildScript hbuild).2 f hf).1
  exact ⟨s, c, hbuild, hcompile, htargets, jumps_land hcompile htargets⟩

end GscAssembler

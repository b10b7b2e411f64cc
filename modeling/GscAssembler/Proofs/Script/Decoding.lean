import GscAssembler.Proofs.Code.Sweep
import GscAssembler.Proofs.Script.Landing

/-!
# Code is decodable

Whatever is lowered from a tree can be read again from the image alone.  Lowering pairs every opcode
with the operands of its shape and declares the locals first (`Lowered.readable`), and that is all
that reading from one instruction to the next depends on.
-/

namespace GscAssembler.Code

/-- Whether instructions that were read follow each other without gap or overlap, from one address to
another. -/
def Covers : (start finish : Nat) → List Decoded → Prop
  | start, finish, [] => start = finish
  | start, finish, d :: rest => d.address = start ∧ 0 < d.size ∧ Covers (start + d.size) finish rest

theorem covers_map_decoded {target : Target} {localCount : Nat} (frame : Frame)
    (placed : List Placed) (items : List (Key × Instruction)) : ∀ address,
    Covers address (codeEnd target localCount address items)
      ((placedFrom target localCount address items).map (Placed.decoded frame placed)) := by
  induction items with
  | nil => intro address; rfl
  | cons item rest ih =>
      intro address
      have hlt := item.2.lt_finish target localCount address
      refine ⟨rfl, Nat.sub_pos_of_lt hlt, ?_⟩
      have hnext : address + (item.2.finish target localCount address - address) =
          item.2.finish target localCount address := Nat.add_sub_cancel' (Nat.le_of_lt hlt)
      simp only [Placed.decoded] at ih ⊢
      rw [hnext]
      exact ih _

end GscAssembler.Code

namespace GscAssembler.Control

open Code (Instruction Opcode ScriptFunction)
open Reference (Tables)

theorem shape_of_isConditional {code : Opcode} (h : code = .jump ∨ code.isConditional = true)
    (revision : Revision) : code.shape revision = .jump := by
  rcases h with rfl | h
  · rfl
  · cases code <;> first | rfl | cases h

/-- The code of a lowered function can be read. -/
theorem Lowered.readable {tables : Tables} {f : ScriptFunction} {p : Program}
    (h : Lowered tables f p) : f.Readable where
  first := by
    rw [h.instructions, List.mapIdx_cons]
    refine ⟨_, _, rfl, fun item hitem => ?_⟩
    obtain ⟨i, hi, rfl⟩ := List.mem_mapIdx.mp hitem
    intro (hlocals : (p.code .unknown 1 ++ [.op .endFunction])[i] = .locals)
    rcases List.mem_append.mp (List.getElem_mem hi) with hcode | hend
    · rcases h.mem_code hcode with hnamed | ⟨code, position, hjump, -⟩
      · rw [hlocals] at hnamed
        exact absurd hnamed.emittable id
      · cases hlocals.symm.trans hjump
    · cases hlocals.symm.trans (List.mem_singleton.mp hend)
  decodable := by
    intro item hitem
    rcases h.cases_of_mem hitem with heq | heq | hnamed | ⟨code, position, heq, hcode, -⟩
    · exact .inl (.inl heq)
    · rw [heq]
      exact .inl (.inr rfl)
    · exact .inl (.inr hnamed.emittable)
    · exact .inr ⟨code, _, heq, shape_of_isConditional hcode _⟩

end GscAssembler.Control

namespace GscAssembler

open Code (Covers Placed decodeFunction)
open Lowering
open SyntaxTree (Node)

/-- Code is decodable.  From the image of a tree, with the start and size of a function and nothing
else, reading gives back the instructions of the function in order: their opcodes, addresses and
sizes, which cover the function, and the operands they were encoded with. -/
theorem code_is_decodable {settings : Settings} {root : Node} {c : CompiledScript}
    (h : compileTree settings root = .ok c) :
    ∃ s, buildScript settings root = .ok s ∧ s.compile = .ok c ∧
      List.Forall₂ (fun f layout =>
        layout.instructions.map (fun p => (p.key, p.instruction)) = f.instructions ∧
        ∃ code, decodeFunction settings.target c.image layout.address layout.size = some code ∧
          code = layout.instructions.map (Placed.decoded (f.frame s.tables) layout.instructions) ∧
          Covers layout.address (layout.address + layout.size) code)
        (s.functions.toList.map (·.2)) c.layouts := by
  obtain ⟨s, hbuild, hcompile⟩ := Control.except_bind_eq_ok.mp h
  refine ⟨s, hbuild, hcompile, ?_⟩
  have hlowered := (Control.lowered_of_buildScript hbuild).2
  obtain ⟨functions, -, hsettings, -, -⟩ := Control.exists_of_buildScript hbuild
  obtain ⟨nameHash, names, -, hfits, rfl⟩ := Script.compile_eq_ok hcompile
  have hlayouts : (s.compiled nameHash names).layouts = (s.placed nameHash).map fun p =>
      p.1.layoutAt s.target.order s.tables p.2 := s.layouts_assembled nameHash
  rw [← s.map_fst_placed nameHash] at hlowered ⊢
  rw [hlayouts, List.forall₂_map_left_iff, List.forall₂_map_right_iff, List.forall₂_same]
  intro p hp
  obtain ⟨htarget, program, hprogram⟩ := hlowered p.1 (List.mem_map_of_mem hp)
  have hslice := Script.slice_function hp
  have htarget' : settings.target = p.1.target := by rw [htarget, Script.target, hsettings]
  rw [← htarget] at hslice ⊢
  rw [htarget']
  refine ⟨p.1.map_placedAt p.2, _, ?_, rfl, ?_⟩
  · exact Code.ScriptFunction.decodeFunction_of_sound (Script.sound_of_fits hfits hp)
      hprogram.readable hslice
  · have hcovers : Covers p.2 (p.1.endAt p.2)
        ((p.1.placedAt p.2).map (Placed.decoded (p.1.frame s.tables) (p.1.placedAt p.2))) :=
      Code.covers_map_decoded (p.1.frame s.tables) (p.1.placedAt p.2) p.1.instructions p.2
    simp only [Code.ScriptFunction.layoutAt]
    rwa [Nat.add_sub_cancel' (p.1.le_endAt p.2)]

/-- The code of a loop that prints a text is decodable. -/
theorem code_is_decodable_loopScript :
    ∃ (c : CompiledScript) (s : Script), compileTree {} Control.loopScript = .ok c ∧
      buildScript {} Control.loopScript = .ok s ∧ s.compile = .ok c ∧
      List.Forall₂ (fun f layout =>
        layout.instructions.map (fun p => (p.key, p.instruction)) = f.instructions ∧
        ∃ code, decodeFunction Target.legacyLittle c.image layout.address layout.size = some code ∧
          code = layout.instructions.map (Placed.decoded (f.frame s.tables) layout.instructions) ∧
          Covers layout.address (layout.address + layout.size) code)
        (s.functions.toList.map (·.2)) c.layouts := by
  obtain ⟨s, c, hbuild, hcompile, -⟩ := Control.exists_compiled_loopScript
  have htree : compileTree {} Control.loopScript = .ok c :=
    Control.except_bind_eq_ok.mpr ⟨s, hbuild, hcompile⟩
  obtain ⟨s', hbuild', hcompile', hall⟩ := code_is_decodable htree
  exact ⟨c, s', htree, hbuild', hcompile', hall⟩

end GscAssembler

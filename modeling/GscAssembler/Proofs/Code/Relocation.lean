import GscAssembler.Proofs.Code.Layout

/-!
# Moving a function

No alignment in code is coarser than 8, and no absolute address is written into it.  So a function
that is moved by a multiple of 8 has the same bytes, and everything in its layout moves with it.
Since all functions start 8 bytes behind a multiple of 16, this relates any two places at which a
function can stand; `layoutAt_eq` compares each with the first of all.
-/

namespace GscAssembler.Code

open Bytes (Buffer ByteOrder)
open Reference (TableReference Tables)

/-- An instruction at a later place. -/
def Placed.moved (shift : Nat) (p : Placed) : Placed :=
  { p with address := p.address + shift }

/-- A jump at a later place. -/
def PlacedJump.moved (shift : Nat) (j : PlacedJump) : PlacedJump :=
  { j with address := j.address + shift, origin := j.origin + shift, landing := j.landing + shift }

/-- A reference from a later place. -/
def movedReference (shift : Nat) (r : TableReference) : TableReference :=
  { r with address := r.address + shift }

theorem Placed.finish_moved (shift : Nat) (p : Placed) :
    (p.moved shift).finish = p.finish + shift :=
  Nat.add_right_comm ..

section Shift

variable {shift : Nat} (hshift : 8 ∣ shift)
include hshift

theorem Instruction.finish_shift (target : Target) (localCount address : Nat) (i : Instruction) :
    i.finish target localCount (address + shift) = i.finish target localCount address + shift := by
  let f : Frame := ⟨target, "", List.replicate localCount 0, .empty⟩
  have hlength := f.length_code address i
  have hmoved := f.length_code (address + shift) i
  rw [f.code_shift hshift] at hmoved
  simp only [f, List.length_replicate] at hlength hmoved
  omega

theorem placedFrom_shift (target : Target) (localCount : Nat) (items : List (Key × Instruction)) :
    ∀ address, placedFrom target localCount (address + shift) items =
      (placedFrom target localCount address items).map (Placed.moved shift) := by
  induction items with
  | nil => intro address; rfl
  | cons item rest ih =>
      intro address
      simp only [placedFrom, Instruction.finish_shift hshift, ih, List.map_cons, Placed.moved,
        Nat.add_sub_add_right]

theorem codeEnd_shift (target : Target) (localCount : Nat) (items : List (Key × Instruction)) :
    ∀ address, codeEnd target localCount (address + shift) items =
      codeEnd target localCount address items + shift := by
  induction items with
  | nil => intro address; rfl
  | cons item rest ih =>
      intro address
      simp only [codeEnd, List.foldl_cons, Instruction.finish_shift hshift]
      exact ih _

theorem jumpOperand_shift (target : Target) (address : Nat) :
    jumpOperand target (address + shift) = jumpOperand target address + shift := by
  rw [jumpOperand, Nat.add_right_comm, Bytes.align_add_of_dvd _ (by omega) (by decide)]
  rfl

omit hshift in
theorem jumpOf_moved (placed : List Placed) (p : Placed) :
    jumpOf (placed.map (Placed.moved shift)) (p.moved shift) =
      (jumpOf placed p).map (PlacedJump.moved shift) := by
  have hlanding : ∀ target, landingOf (placed.map (Placed.moved shift)) target =
      (landingOf placed target).map (Placed.moved shift) := by
    intro target
    cases target with
    | none => rfl
    | some key => exact List.find?_map ..
  have hinstruction : (p.moved shift).instruction = p.instruction := rfl
  rw [jumpOf, jumpOf, hinstruction]
  cases p.instruction with
  | jump code target =>
      simp only [hlanding, Option.map_map]
      congr 1
      funext landing
      simp only [Function.comp, PlacedJump.moved, Placed.finish_moved]
      rfl
  | _ => rfl

end Shift

namespace ScriptFunction

variable {shift : Nat} (hshift : 8 ∣ shift) (f : ScriptFunction) (start : Nat)
include hshift

theorem placedAt_shift :
    f.placedAt (start + shift) = (f.placedAt start).map (Placed.moved shift) :=
  placedFrom_shift hshift _ _ _ _

theorem endAt_shift : f.endAt (start + shift) = f.endAt start + shift :=
  codeEnd_shift hshift _ _ _ _

theorem jumpsAt_shift :
    f.jumpsAt (start + shift) = (f.jumpsAt start).map (PlacedJump.moved shift) := by
  rw [jumpsAt, placedAt_shift hshift, List.filterMap_map, jumpsAt, List.map_filterMap]
  congr 1
  funext p
  exact jumpOf_moved _ _

theorem referencesOf_shift :
    referencesOf f.target (f.placedAt (start + shift)) =
      (referencesOf f.target (f.placedAt start)).map (movedReference shift) := by
  rw [placedAt_shift hshift, referencesOf, List.filterMap_map, referencesOf, List.map_filterMap]
  congr 1
  funext p
  exact p.instruction.reference_shift hshift f.target p.address

/-- The code of a function that is moved stays the same. -/
theorem bodyAt_shift (order : ByteOrder) (tables : Tables) :
    (f.bodyAt order tables (start + shift)).bytes = (f.bodyAt order tables start).bytes := by
  have hcode : (f.frame tables).codeOf (f.placedAt (start + shift)) =
      (f.frame tables).codeOf (f.placedAt start) := by
    rw [placedAt_shift hshift, Frame.codeOf, List.flatMap_map, Frame.codeOf]
    congr 1
    funext p
    exact (f.frame tables).code_shift hshift p.address p.instruction
  rw [bodyAt, jumpsAt_shift hshift, hcode, bodyAt]
  generalize ((f.frame tables).codeOf (f.placedAt start)).toArray = bytes
  induction f.jumpsAt start generalizing bytes with
  | nil => rfl
  | cons j rest ih =>
      have hdisplacement : (j.moved shift).displacement = j.displacement := by
        simp only [PlacedJump.displacement, PlacedJump.moved]
        omega
      have haddress : jumpOperand f.target (j.moved shift).address - (start + shift) =
          jumpOperand f.target j.address - start := by
        rw [PlacedJump.moved, jumpOperand_shift hshift, Nat.add_sub_add_right]
      rw [List.map_cons, List.foldl_cons, List.foldl_cons]
      simp only [setDisplacement, Buffer.patchWord, Buffer.patch, haddress, hdisplacement]
      exact ih _

end ScriptFunction

end GscAssembler.Code

import GscAssembler.Proofs.Code.Layout
import GscAssembler.Proofs.Code.Shape

/-!
# Jumps in the code of a function

The operand of a jump is the last two bytes of the jump, so the operands of different jumps do not
overlap, and setting one displacement leaves the others and all other code alone.  What is read from
the code of a function is therefore the displacement of each jump (`slice_bodyAt_of_mem_jumpsAt`),
and what is not an operand of a jump is the code as it was placed (`slice_bodyAt_of_outside`).

The address a jump lands on is the end of the instruction it names, and that is where the next
instruction starts, or the end of the function.
-/

namespace GscAssembler.Code

open Bytes (Buffer ByteOrder slice)
open Reference (Tables)

/-! ## Setting displacements -/

section Displacements

variable {target : Target}

theorem slice_foldl_setDisplacement_of_outside {position count : Nat} (jumps : List PlacedJump) :
    ∀ b : Buffer, (∀ j ∈ jumps, position + count ≤ jumpOperand target j.address - b.start ∨
        jumpOperand target j.address - b.start + 2 ≤ position) →
      slice (jumps.foldl (setDisplacement target) b).bytes position count =
        slice b.bytes position count := by
  induction jumps with
  | nil => intro b _; rfl
  | cons j rest ih =>
      intro b houtside
      rw [List.foldl_cons, ih (setDisplacement target b j)
        fun k hk => houtside k (List.mem_cons_of_mem _ hk)]
      exact Bytes.slice_overwrite_of_outside _ _
        (by simpa using houtside j (List.mem_cons_self ..))

theorem slice_foldl_setDisplacement_of_mem {j : PlacedJump} {jumps : List PlacedJump} :
    ∀ {b : Buffer}, jumps.Pairwise
        (fun j k => jumpOperand target j.address + 2 ≤ jumpOperand target k.address) →
      (∀ k ∈ jumps, b.start ≤ jumpOperand target k.address) →
      j ∈ jumps → jumpOperand target j.address + 2 ≤ b.position →
      slice (jumps.foldl (setDisplacement target) b).bytes
          (jumpOperand target j.address - b.start) 2 =
        b.order.bytes 2 (j.displacement % 2 ^ 16).toNat := by
  induction jumps with
  | nil => intro b _ _ hj _; simp at hj
  | cons k rest ih =>
      intro b hpairwise hstart hj hend
      have hbehind := (List.pairwise_cons.mp hpairwise).1
      have hk := hstart k (List.mem_cons_self ..)
      rw [List.foldl_cons]
      rcases List.mem_cons.mp hj with rfl | hj
      · rw [slice_foldl_setDisplacement_of_outside]
        · have hlength : (b.order.bytes 2 (j.displacement % 2 ^ 16).toNat).length = 2 := by simp
          have hin : jumpOperand target j.address - b.start +
              (b.order.bytes 2 (j.displacement % 2 ^ 16).toNat).length ≤ b.bytes.size := by
            unfold Buffer.position at hend
            omega
          have hself := Bytes.slice_overwrite_self hin
          rwa [hlength] at hself
        · intro other hother
          have := hbehind other hother
          have := hstart other (List.mem_cons_of_mem _ hother)
          simp only [setDisplacement, Buffer.start_patchWord]
          omega
      · have hrest := ih (b := setDisplacement target b k) (List.pairwise_cons.mp hpairwise).2
          (fun other hother => hstart other (List.mem_cons_of_mem _ hother)) hj
          (by simpa [setDisplacement] using hend)
        simpa [setDisplacement] using hrest

/-- A displacement in range is read back from its two bytes. -/
theorem toInt_displacement {j : PlacedJump} (h : j.InRange) (order : ByteOrder) :
    (BitVec.ofNat 16 (order.value (order.bytes 2 (j.displacement % 2 ^ 16).toNat))).toInt =
      j.displacement := by
  obtain ⟨hlow, hhigh⟩ := h
  rw [ByteOrder.value_bytes, BitVec.toInt_eq_toNat_cond, BitVec.toNat_ofNat]
  split <;> omega

end Displacements

/-! ## The operands of placed jumps -/

section Operands

variable {target : Target} {localCount address : Nat} {items : List (Key × Instruction)}
  {p : Placed} {j : PlacedJump}

/-- The operand of a jump ends where the jump ends. -/
theorem finish_of_jumpOf (hp : p ∈ placedFrom target localCount address items)
    (hj : jumpOf (placedFrom target localCount address items) p = some j) :
    j.address = p.address ∧ j.origin = p.finish ∧ p.finish = jumpOperand target p.address + 2 := by
  obtain ⟨code, key, landing, hjump, -, rfl⟩ := mem_of_jumpOf hj
  refine ⟨rfl, rfl, ?_⟩
  rw [(finish_of_mem_placedFrom hp).1, hjump]
  rfl

/-- What follows a placed instruction starts where that ends. -/
theorem finish_of_placedFrom_eq {before after : List Placed} (items : List (Key × Instruction)) :
    ∀ {address}, placedFrom target localCount address items = before ++ p :: after →
      p.finish = (after.head?.map (·.address)).getD (codeEnd target localCount address items) := by
  induction items generalizing before with
  | nil => intro address h; simp [placedFrom] at h
  | cons item rest ih =>
      intro address h
      have hlt := item.2.lt_finish target localCount address
      rw [placedFrom] at h
      cases before with
      | nil =>
          simp only [List.nil_append, List.cons.injEq] at h
          obtain ⟨rfl, rfl⟩ := h
          cases rest with
          | nil =>
              simp only [Placed.finish, placedFrom, List.head?_nil, Option.map_none,
                Option.getD_none, codeEnd, List.foldl_cons, List.foldl_nil]
              omega
          | cons next rest =>
              simp only [Placed.finish, placedFrom, List.head?_cons, Option.map_some,
                Option.getD_some]
              omega
      | cons first before =>
          simp only [List.cons_append, List.cons.injEq] at h
          rw [codeEnd, List.foldl_cons]
          exact ih h.2

end Operands

namespace ScriptFunction

variable {f : ScriptFunction} {start : Nat} {tables : Tables} {order : ByteOrder} {j : PlacedJump}

theorem pairwise_jumpsAt (f : ScriptFunction) (start : Nat) : (f.jumpsAt start).Pairwise
    fun j k => jumpOperand f.target j.address + 2 ≤ jumpOperand f.target k.address := by
  rw [jumpsAt, List.pairwise_filterMap]
  refine List.Pairwise.imp_of_mem ?_ (pairwise_placedFrom f.instructions start)
  intro p q hp hq hpq j hj k hk
  obtain ⟨haddress, -, hfinish⟩ := finish_of_jumpOf hp hj
  obtain ⟨haddress', -, -⟩ := finish_of_jumpOf hq hk
  have := le_jumpOperand f.target q.address
  rw [haddress, haddress']
  omega

/-- The operands of a function's jumps lie inside its code. -/
theorem span_of_mem_jumpsAt (h : j ∈ f.jumpsAt start) :
    start ≤ j.address ∧ j.address + f.target.opcodeWidth ≤ jumpOperand f.target j.address ∧
      j.origin = jumpOperand f.target j.address + 2 ∧ j.origin ≤ f.endAt start := by
  obtain ⟨p, hp, hj⟩ := exists_of_mem_jumpsAt h
  obtain ⟨haddress, horigin, hfinish⟩ := finish_of_jumpOf hp hj
  obtain ⟨hstart, -, hend⟩ := span_of_mem_placedFrom hp
  rw [haddress, horigin]
  exact ⟨hstart, Bytes.le_align (by decide), hfinish, hend⟩

theorem start_le_jumpOperand (h : j ∈ f.jumpsAt start) : start ≤ jumpOperand f.target j.address := by
  obtain ⟨hstart, hwidth, -, -⟩ := span_of_mem_jumpsAt h
  omega

/-- The displacement of a jump is read back from the code of its function. -/
theorem slice_bodyAt_of_mem_jumpsAt (h : j ∈ f.jumpsAt start) :
    slice (f.bodyAt order tables start).bytes (jumpOperand f.target j.address - start) 2 =
      order.bytes 2 (j.displacement % 2 ^ 16).toNat := by
  obtain ⟨-, -, horigin, hend⟩ := span_of_mem_jumpsAt h
  have hlength := f.length_codeOf_placedAt tables start
  refine slice_foldl_setDisplacement_of_mem
    (b := { order, start, bytes := ((f.frame tables).codeOf (f.placedAt start)).toArray })
    (f.pairwise_jumpsAt start) (fun k hk => start_le_jumpOperand hk) h ?_
  simp only [Buffer.position, List.size_toArray]
  omega

/-- What no operand of a jump touches is the code as it was placed. -/
theorem slice_bodyAt_of_outside {position count : Nat}
    (h : ∀ j ∈ f.jumpsAt start, position + count ≤ jumpOperand f.target j.address - start ∨
      jumpOperand f.target j.address - start + 2 ≤ position) :
    slice (f.bodyAt order tables start).bytes position count =
      slice ((f.frame tables).codeOf (f.placedAt start)).toArray position count :=
  slice_foldl_setDisplacement_of_outside (f.jumpsAt start) _ h

theorem inRange_of_mem_jumpsAt (hsound : f.Sound tables start) (h : j ∈ f.jumpsAt start) :
    j.InRange := by
  obtain ⟨p, hp, hj⟩ := exists_of_mem_jumpsAt h
  obtain ⟨code, key, landing, hjump, -, -⟩ := mem_of_jumpOf hj
  obtain ⟨k, hk, hrange⟩ := hsound.lands p hp code key hjump
  rw [hj] at hk
  exact Option.some.inj hk ▸ hrange

/-- The jumps of a sound function are its jump instructions, in order. -/
theorem forall₂_jumpsAt (hsound : f.Sound tables start) :
    List.Forall₂ (fun p j => jumpOf (f.placedAt start) p = some j)
      ((f.placedAt start).filter (·.instruction.isJump)) (f.jumpsAt start) := by
  have hall : ∀ items : List Placed, (∀ p ∈ items, Lands (f.placedAt start) p) →
      List.Forall₂ (fun p j => jumpOf (f.placedAt start) p = some j)
        (items.filter (·.instruction.isJump)) (items.filterMap (jumpOf (f.placedAt start))) := by
    intro items hlands
    induction items with
    | nil => exact .nil
    | cons p rest ih =>
        have hrest := ih fun q hq => hlands q (List.mem_cons_of_mem _ hq)
        cases hjump : p.instruction with
        | jump code key =>
            obtain ⟨j, hj, -⟩ := hlands p (List.mem_cons_self ..) code key hjump
            rw [List.filter_cons_of_pos (by simp [hjump, Instruction.isJump]),
              List.filterMap_cons_some hj]
            exact .cons hj hrest
        | _ =>
            rw [List.filter_cons_of_neg (by simp [hjump, Instruction.isJump]),
              List.filterMap_cons_none (by simp [jumpOf, hjump])]
            exact hrest
  exact hall _ hsound.lands

end ScriptFunction

end GscAssembler.Code

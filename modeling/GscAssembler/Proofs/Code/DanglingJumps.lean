import GscAssembler.Proofs.Code.Edits
import GscAssembler.Proofs.Code.Jumps

/-!
# Jumps to instructions that are gone

A jump names the instruction that it lands behind by a key, and that instruction may be removed before
the function is laid out.  Since a key that is gone never comes back, such a jump finds no instruction
that was placed, and the function is refused; so is one with a jump that has no target, or one that is
too far away.  Of several such jumps the first decides the error.

What a jump lands on is whatever stands behind its target when the function is laid out, and so an
instruction that was inserted there (`dangling_jumps_caught`).
-/

namespace GscAssembler.Code

open Bytes (Buffer)
open Reference (Tables)

/-! ## What is right and wrong with a jump -/

/-- How far it is from the end of a placed instruction to the end of the one with a key. -/
def Distance (placed : List Placed) (p : Placed) (after : Key) (distance : Int) : Prop :=
  ∃ landing ∈ placed, landing.key = after ∧ distance = landing.finish - p.finish

/-- Whether a distance fits into 16 bits with a sign. -/
def FitsJump (distance : Int) : Prop :=
  -2 ^ 15 ≤ distance ∧ distance < 2 ^ 15

namespace ScriptFunction

/-- Whether a placed instruction, if it is a jump, has a target that is still there and not too far. -/
def Resolved (f : ScriptFunction) (placed : List Placed) (p : Placed) : Prop :=
  ∀ code target, p.instruction = .jump code target → ∃ after distance, target = some after ∧
    f.chain.isLive after = true ∧ Distance placed p after distance ∧ FitsJump distance

/-- What is wrong with a placed jump. -/
inductive Dangles (f : ScriptFunction) (placed : List Placed) (p : Placed) : CompileError → Prop where
  /-- It has no target. -/
  | unset {code : Opcode} (hjump : p.instruction = .jump code none) :
      f.Dangles placed p (.unresolvedJump f.name)
  /-- Its target was removed. -/
  | removed {code : Opcode} {after : Key} (hjump : p.instruction = .jump code (some after))
      (hgone : f.chain.isLive after = false) : f.Dangles placed p (.unresolvedJump f.name)
  /-- Its target is too far away. -/
  | far {code : Opcode} {after : Key} {distance : Int}
      (hjump : p.instruction = .jump code (some after)) (hlive : f.chain.isLive after = true)
      (hdistance : Distance placed p after distance) (hfar : ¬ FitsJump distance) :
      f.Dangles placed p (.jumpOutOfRange f.name distance)

end ScriptFunction

/-! ## The first jump that fails -/

section SecondPass

variable {function : String} {placed : List Placed} {p : Placed}

theorem not_lands_of_fails {e : CompileError} (h : Fails function placed p e) : ¬ Lands placed p := by
  rintro hlands
  rcases h with ⟨code, target, hjump, hnone, -⟩ | ⟨j, hj, hrange, -⟩
  · obtain ⟨j, hj, -⟩ := hlands code target hjump
    simp [jumpOf, hjump, hnone] at hj
  · obtain ⟨code, target, -, hjump, -, -⟩ := mem_of_jumpOf hj
    obtain ⟨j', hj', hrange'⟩ := hlands code target hjump
    rw [hj] at hj'
    exact hrange (Option.some.inj hj' ▸ hrange')

/-- An instruction fails for one reason only. -/
theorem Fails.unique {e e' : CompileError} (h : Fails function placed p e)
    (h' : Fails function placed p e') : e = e' := by
  rcases h with ⟨code, target, hjump, hnone, rfl⟩ | ⟨j, hj, -, rfl⟩ <;>
    rcases h' with ⟨code', target', hjump', hnone', rfl⟩ | ⟨j', hj', -, rfl⟩
  · rfl
  · simp [jumpOf, hjump, hnone] at hj'
  · simp [jumpOf, hjump', hnone'] at hj
  · rw [hj] at hj'
    rw [Option.some.inj hj']

/-- The second pass stops at the first instruction that does not land, and with its error. -/
theorem foldlM_patch_eq_error_iff {f : Frame} (items : List Placed) (e : CompileError) :
    ∀ patching : Patching, items.foldlM (Patching.patch f placed) patching = .error e ↔
      ∃ before p after, items = before ++ p :: after ∧ (∀ q ∈ before, Lands placed q) ∧
        Fails f.function placed p e := by
  induction items with
  | nil => intro patching; simp [pure, Except.pure]
  | cons item rest ih =>
      intro patching
      rw [List.foldlM_cons]
      by_cases hlands : Lands placed item
      · rw [patch_of_lands patching hlands]
        simp only [bind, Except.bind]
        rw [ih]
        constructor
        · rintro ⟨before, p, after, rfl, hbefore, hfails⟩
          exact ⟨item :: before, p, after, rfl, List.forall_mem_cons.mpr ⟨hlands, hbefore⟩, hfails⟩
        · rintro ⟨before, p, after, hsplit, hbefore, hfails⟩
          cases before with
          | nil =>
              obtain ⟨rfl, rfl⟩ := List.cons.inj hsplit
              exact absurd hlands (not_lands_of_fails hfails)
          | cons first before =>
              obtain ⟨rfl, rfl⟩ := List.cons.inj hsplit
              exact ⟨before, p, after, rfl, (List.forall_mem_cons.mp hbefore).2, hfails⟩
      · obtain ⟨e', he', hfails'⟩ := patch_of_not_lands (f := f) patching hlands
        rw [he']
        constructor
        · rintro ⟨rfl⟩
          exact ⟨[], item, rest, rfl, by simp, hfails'⟩
        · rintro ⟨before, p, after, hsplit, hbefore, hfails⟩
          cases before with
          | nil =>
              obtain ⟨rfl, rfl⟩ := List.cons.inj hsplit
              rw [hfails.unique hfails']
              rfl
          | cons first before =>
              obtain ⟨rfl, rfl⟩ := List.cons.inj hsplit
              exact absurd (hbefore item (List.mem_cons_self ..)) hlands

end SecondPass

/-! ## Targets and what is placed -/

namespace ScriptFunction

variable {f : ScriptFunction} {l : Ledger Instruction} {start : Nat} {p : Placed}

theorem map_key_placedAt (f : ScriptFunction) (start : Nat) :
    (f.placedAt start).map (·.key) = f.instructions.map (·.1) := by
  rw [← f.map_placedAt start, List.map_map]
  rfl

theorem key_of_landingOf {placed : List Placed} {after : Key} {landing : Placed}
    (h : landingOf placed (some after) = some landing) : landing.key = after := by
  have hfind : placed.find? (fun q => decide (q.key = after)) = some landing := h
  exact of_decide_eq_true (List.find?_some hfind :)

namespace Stands

theorem keys_placedAt (h : f.Stands l) (start : Nat) : (f.placedAt start).map (·.key) = l.keys := by
  rw [map_key_placedAt, h.instructions_eq, Ledger.keys]

/-- The instruction that a jump lands behind is the one with the key of its target. -/
theorem landingOf_eq_some_iff (h : f.Stands l) {after : Key} {landing : Placed} :
    landingOf (f.placedAt start) (some after) = some landing ↔
      landing ∈ f.placedAt start ∧ landing.key = after := by
  have hnodup : ((f.placedAt start).map (·.key)).Nodup := h.keys_placedAt start ▸ h.represents.nodup
  constructor
  · exact fun hfind => ⟨List.mem_of_find?_eq_some hfind, key_of_landingOf hfind⟩
  · rintro ⟨hmem, hkey⟩
    cases hfind : landingOf (f.placedAt start) (some after) with
    | none => exact absurd (decide_eq_true hkey) (List.find?_eq_none.mp hfind landing hmem)
    | some other =>
        rw [List.inj_on_of_nodup_map hnodup (List.mem_of_find?_eq_some hfind) hmem
          ((key_of_landingOf hfind).trans hkey.symm)]

/-- A key that is there is one of an instruction that is placed. -/
theorem isLive_iff_exists_landing (h : f.Stands l) (start : Nat) (after : Key) :
    f.chain.isLive after = true ↔ ∃ landing ∈ f.placedAt start, landing.key = after := by
  rw [h.represents.isLive_iff, ← h.keys_placedAt start, List.mem_map]

theorem landingOf_eq_none_iff (h : f.Stands l) {target : Option Key} :
    landingOf (f.placedAt start) target = none ↔
      ∀ after, target = some after → f.chain.isLive after = false := by
  cases target with
  | none => simp [landingOf]
  | some after =>
      simp only [Option.some.injEq, forall_eq', ← Bool.not_eq_true, h.isLive_iff_exists_landing start,
        not_exists, not_and]
      constructor
      · intro hnone landing hmem hkey
        exact List.find?_eq_none.mp hnone landing hmem (decide_eq_true hkey)
      · exact fun hall => List.find?_eq_none.mpr fun landing hmem hkey =>
          hall landing hmem (of_decide_eq_true hkey)

theorem lands_iff (h : f.Stands l) : Lands (f.placedAt start) p ↔ f.Resolved (f.placedAt start) p := by
  constructor
  · intro hlands code target hjump
    obtain ⟨j, hj, hrange⟩ := hlands code target hjump
    obtain ⟨code', target', landing, hjump', hlanding, rfl⟩ := mem_of_jumpOf hj
    rw [hjump] at hjump'
    cases hjump'
    cases target with
    | none => cases hlanding
    | some after =>
        have hplaced := h.landingOf_eq_some_iff.mp hlanding
        exact ⟨after, _, rfl, (h.isLive_iff_exists_landing start after).mpr ⟨landing, hplaced⟩,
          ⟨landing, hplaced.1, hplaced.2, rfl⟩, hrange⟩
  · intro hresolved code target hjump
    obtain ⟨after, distance, rfl, -, ⟨landing, hmem, hkey, rfl⟩, hfits⟩ := hresolved code target hjump
    have hlanding : landingOf (f.placedAt start) (some after) = some landing :=
      h.landingOf_eq_some_iff.mpr ⟨hmem, hkey⟩
    exact ⟨⟨code, p.address, p.finish, landing.finish⟩, by simp [jumpOf, hjump, hlanding], hfits⟩

theorem fails_iff (h : f.Stands l) {e : CompileError} :
    Fails f.name (f.placedAt start) p e ↔ f.Dangles (f.placedAt start) p e := by
  constructor
  · rintro (⟨code, target, hjump, hnone, rfl⟩ | ⟨j, hj, hrange, rfl⟩)
    · cases target with
      | none => exact .unset hjump
      | some after => exact .removed hjump (h.landingOf_eq_none_iff.mp hnone after rfl)
    · obtain ⟨code, target, landing, hjump, hlanding, rfl⟩ := mem_of_jumpOf hj
      cases target with
      | none => cases hlanding
      | some after =>
          have hplaced := h.landingOf_eq_some_iff.mp hlanding
          exact .far hjump ((h.isLive_iff_exists_landing start after).mpr ⟨landing, hplaced⟩)
            ⟨landing, hplaced.1, hplaced.2, rfl⟩ hrange
  · rintro (⟨hjump⟩ | ⟨hjump, hgone⟩ | @⟨code, after, _, hjump, -, ⟨landing, hmem, hkey, rfl⟩, hfar⟩)
    · exact .inl ⟨_, none, hjump, rfl, rfl⟩
    · refine .inl ⟨_, _, hjump, h.landingOf_eq_none_iff.mpr ?_, rfl⟩
      rintro after ⟨rfl⟩
      exact hgone
    · have hlanding : landingOf (f.placedAt start) (some after) = some landing :=
        h.landingOf_eq_some_iff.mpr ⟨hmem, hkey⟩
      exact .inr ⟨⟨code, p.address, p.finish, landing.finish⟩, by simp [jumpOf, hjump, hlanding], hfar,
        rfl⟩

end Stands

/-! ## The two passes -/

section Passes

variable {image : Buffer} {tables : Tables} {placement : Placement}

/-- If the first pass succeeds, then the outcome of the layout is that of the second. -/
theorem layOut_of_place (hplaces : f.instructions.foldlM (Placement.place (f.frame tables))
      { image := image.padTo (functionStart image.position), tables } = .ok placement) :
    placement.placed.toList = f.placedAt (functionStart image.position) ∧
      ((∃ laid, f.layOut image tables = .ok laid) ↔
        ∀ p ∈ placement.placed.toList, Lands placement.placed.toList p) ∧
      ∀ e, f.layOut image tables = .error e ↔ ∃ before p after,
        placement.placed.toList = before ++ p :: after ∧
        (∀ q ∈ before, Lands placement.placed.toList q) ∧ Fails f.name placement.placed.toList p e := by
  have haccepts : ∀ item ∈ f.instructions, (f.frame tables).Accepts item.2 := by
    by_contra hnot
    push Not at hnot
    obtain ⟨e, he, -⟩ := foldlM_place_of_not_accepts hnot
      { image := image.padTo (functionStart image.position), tables }
    rw [he] at hplaces
    cases hplaces
  have hfirst := foldlM_place_of_accepts f.instructions
    { image := image.padTo (functionStart image.position), tables } haccepts
  have hpadded : (image.padTo (functionStart image.position)).position =
      functionStart image.position := Bytes.Buffer.position_padTo (le_functionStart _)
  have hplaced : placement.placed.toList = f.placedAt (functionStart image.position) := by
    rw [hplaces] at hfirst
    simp only [Except.ok.inj hfirst, hpadded, frame_target, length_frame_locals]
    simp [placedAt]
  have herror : ∀ e, f.layOut image tables = .error e ↔
      placement.placed.toList.foldlM (Patching.patch (f.frame tables) placement.placed.toList)
        { image := placement.image } = .error e := by
    intro e
    simp only [layOut, bind, Except.bind, hplaces]
    cases placement.placed.toList.foldlM (Patching.patch (f.frame tables) placement.placed.toList)
      { image := placement.image } <;> simp
  refine ⟨hplaced, ?_, fun e => ?_⟩
  · constructor
    · rintro ⟨laid, hlaid⟩ p hp
      rw [hplaced] at hp ⊢
      exact (sound_of_layOut rfl hlaid).lands p hp
    · intro hlands
      cases hlaid : f.layOut image tables with
      | ok laid => exact ⟨laid, rfl⟩
      | error e =>
          rw [herror, foldlM_patch_of_lands _ _ hlands] at hlaid
          cases hlaid
  · rw [herror, foldlM_patch_eq_error_iff]
    rfl

end Passes

/-! ## What a jump lands on -/

/-- A layout shows the instructions of its function and their jumps. -/
theorem layout_of_layOut {image : Buffer} {tables : Tables} {laid : FunctionLayout × Buffer × Tables}
    (hlaid : f.layOut image tables = .ok laid) :
    laid.1.instructions = f.placedAt (functionStart image.position) ∧
      laid.1.jumps = f.jumpsAt (functionStart image.position) := by
  obtain ⟨hfirst, hsecond⟩ := passes_of_sound
    (Bytes.Buffer.position_padTo (le_functionStart image.position)) (sound_of_layOut rfl hlaid)
  simp only [layOut, bind, Except.bind, hfirst] at hlaid
  simp only [hsecond] at hlaid
  cases hlaid
  exact ⟨rfl, rfl⟩

/-- A jump lands on the instruction that stands behind its target. -/
theorem Stands.exists_landing (h : f.Stands l) {image : Buffer} {tables : Tables}
    {laid : FunctionLayout × Buffer × Tables} (hlaid : f.layOut image tables = .ok laid)
    {code : Opcode} {after next : Key} (hp : p ∈ laid.1.instructions)
    (hjump : p.instruction = .jump code (some after)) (hnext : f.chain.next? after = some next) :
    ∃ q ∈ laid.1.instructions, q.key = next ∧ f.get? next = some q.instruction ∧
      ⟨code, p.address, p.finish, q.address⟩ ∈ laid.1.jumps := by
  obtain ⟨hinstructions, hjumps⟩ := layout_of_layOut hlaid
  rw [hinstructions] at hp ⊢
  rw [hjumps]
  have hsound := sound_of_layOut rfl hlaid
  generalize functionStart image.position = start at hp hsound ⊢
  obtain ⟨j, hj, -⟩ := hsound.lands p hp code _ hjump
  obtain ⟨code', target, landing, hjump', hlanding, rfl⟩ := mem_of_jumpOf hj
  rw [hjump] at hjump'
  cases hjump'
  obtain ⟨hmem, hkey⟩ := h.landingOf_eq_some_iff.mp hlanding
  obtain ⟨before, behind, hsplit⟩ := List.append_of_mem hmem
  have hkeys : l.keys = before.map (·.key) ++ after :: behind.map (·.key) := by
    rw [← h.keys_placedAt start, hsplit, List.map_append, List.map_cons, hkey]
  have hposition : l.keys[before.length]? = some after := by simp [hkeys]
  rw [h.represents.next?_of_getElem? hposition, hkeys] at hnext
  cases behind with
  | nil => simp at hnext
  | cons q behind =>
      have hq : q ∈ f.placedAt start := by simp [hsplit]
      have hqkey : q.key = next := by simpa using hnext
      have hfinish : landing.finish = q.address := finish_of_placedFrom_eq f.instructions hsplit
      refine ⟨q, hq, hqkey, ?_, ?_⟩
      · rw [← hqkey]
        exact get?_of_mem_instructions (f.mem_instructions_of_mem hq)
      · rw [hfinish] at hj
        exact List.mem_filterMap.mpr ⟨p, hp, hj⟩

/-! ## Keys that were removed, and instructions that were inserted -/

/-- A key whose instruction was removed is gone for good. -/
theorem Stands.isLive_of_removed (h : f.Stands l) {key : Key} {i : Instruction}
    (hremoved : (f.remove key).1 = some i) (later : List Edit) :
    ((f.edit (.remove key)).edits later).chain.isLive key = false := by
  have hhead : key ≠ f.head := by
    rintro rfl
    simp [ScriptFunction.remove] at hremoved
  have hvalue : (f.chain.remove key).1 = some i := by
    simpa [ScriptFunction.remove, hhead] using hremoved
  have hthere : key ∈ l.keys := by
    rw [← h.represents.isLive_iff, Chain.isLive]
    cases hslot : f.chain.slot? key with
    | none => simp [Chain.remove, hslot] at hvalue
    | some slot => rfl
  obtain ⟨l₁, hlater₁, h₁⟩ := h.edit (.remove key)
  have hgone : key ∉ l₁.keys := by
    have hchain : (f.edit (.remove key)).chain = (f.chain.call (.remove key)).2 := by
      simp [ScriptFunction.edit, ScriptFunction.remove, hhead, Chain.call]
    obtain ⟨fresh, -, -, hnext⟩ := h.represents.call (.remove key)
    rw [← h₁.represents.isLive_iff, hchain, hnext.isLive_iff]
    simp [Ledger.call, Ledger.keys]
  obtain ⟨l₂, hlater₂, h₂⟩ := h₁.edits later
  rw [← Bool.not_eq_true, h₂.represents.isLive_iff]
  exact hlater₂.gone key (hlater₁.issued key (h.represents.keys_issued key hthere)) hgone

/-- An instruction that was inserted stands directly behind the one it was inserted behind. -/
theorem Stands.next?_of_inserted (h : f.Stands l) {after new : Key} {i : Instruction}
    (hinserted : (f.insert after i).1 = some new) :
    (f.insert after i).2.chain.next? after = some new ∧ (f.insert after i).2.get? new = some i := by
  obtain ⟨fresh, -, hreply, hnext⟩ := h.represents.call (.insertAfter after i)
  have hissued : (f.chain.call (.insertAfter after i)).1 = .issued new := by
    have hvalue : (f.chain.insertAfter after i).1 = some new := hinserted
    simp [Chain.call, hvalue]
  rw [hissued] at hreply
  by_cases hthere : after ∈ l.keys
  · obtain ⟨before, old, behind, hsplit, hbefore, hbehind⟩ :=
      Ledger.exists_split h.represents.nodup hthere
    rw [Ledger.call, if_pos hthere] at hreply hnext
    cases hreply
    rw [hsplit, Ledger.insert_split hbefore hbehind] at hnext
    have hchain : (f.insert after i).2.chain = (f.chain.call (.insertAfter after i)).2 := rfl
    rw [← hchain] at hnext
    constructor
    · have hposition : (Ledger.keys ⟨before ++ (after, old) :: (new, i) :: behind,
          new :: l.issued⟩)[before.length]? = some after := by simp [Ledger.keys]
      rw [hnext.next?_of_getElem? hposition]
      simp [Ledger.keys]
    · apply get?_of_mem_instructions
      rw [instructions, hnext.toList_eq]
      simp
  · rw [Ledger.call, if_neg hthere] at hreply
    cases hreply

/-- Edits that remove the target of a jump and put another instruction into its slot. -/
def reuseTarget : List Edit :=
  [.add (.jump .jump none), .add (.op .nop), .setTarget ⟨1, 0⟩ ⟨2, 0⟩, .remove ⟨2, 0⟩,
    .add (.op .endFunction)]

/-- Edits that put an instruction directly behind the target of a jump. -/
def insertBehindTarget : List Edit :=
  [.add (.jump .jump none), .add (.op .nop), .setTarget ⟨1, 0⟩ ⟨2, 0⟩, .add (.op .endFunction),
    .insert ⟨2, 0⟩ (.op .decTop)]

end ScriptFunction

end GscAssembler.Code

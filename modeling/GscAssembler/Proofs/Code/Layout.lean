import GscAssembler.Code.Layout
import GscAssembler.Proofs.Code.Encoding

/-!
# What the layout of a function is

The two passes of `ScriptFunction.layOut` are folds that carry an image along.  Here they are
replaced by what they compute.  `placedFrom` puts instructions one behind the other, `codeOf` is the
code they become, and `jumpOf` is the jump that a placed instruction is, if its target is placed too.
`ScriptFunction.body` is the code of a function with the displacements of its jumps set.

A function that is `Sound` at its place is laid out by appending its body to the image and recording
its references (`layOut_of_sound`); any other is refused (`sound_of_layOut`).
-/

namespace GscAssembler.Code

open Bytes (Buffer ByteOrder align overwrite slice)
open Reference (TableReference Tables)

/-! ## Placing instructions -/

/-- Instructions one behind the other from an address on, for a number of locals. -/
def placedFrom (target : Target) (localCount : Nat) :
    (address : Nat) → List (Key × Instruction) → List Placed
  | _, [] => []
  | address, (key, i) :: rest =>
      let finish := i.finish target localCount address
      ⟨key, i, i.opcode target localCount, address, finish - address⟩ ::
        placedFrom target localCount finish rest

/-- The address behind instructions that start at an address. -/
def codeEnd (target : Target) (localCount address : Nat) (items : List (Key × Instruction)) : Nat :=
  items.foldl (fun address item => item.2.finish target localCount address) address

/-- The bytes of placed instructions before any displacement is set. -/
def Frame.codeOf (f : Frame) (placed : List Placed) : List UInt8 :=
  placed.flatMap fun p => f.code p.address p.instruction

/-- The references of placed instructions. -/
def referencesOf (target : Target) (placed : List Placed) : List TableReference :=
  placed.filterMap fun p => p.instruction.reference target p.address

section Placed

variable {target : Target} {localCount : Nat}

theorem map_placedFrom (items : List (Key × Instruction)) :
    ∀ address, (placedFrom target localCount address items).map
      (fun p => (p.key, p.instruction)) = items := by
  induction items with
  | nil => intro address; rfl
  | cons item rest ih => intro address; rw [placedFrom, List.map_cons, ih]

theorem length_codeOf (f : Frame) (items : List (Key × Instruction)) :
    ∀ address, address + (f.codeOf (placedFrom f.target f.locals.length address items)).length =
      codeEnd f.target f.locals.length address items := by
  induction items with
  | nil => intro address; rfl
  | cons item rest ih =>
      intro address
      rw [placedFrom, codeEnd, List.foldl_cons, Frame.codeOf, List.flatMap_cons, List.length_append,
        ← Nat.add_assoc, Frame.length_code]
      exact ih _

/-- A placed instruction ends where its size says. -/
theorem finish_of_mem_placedFrom {items : List (Key × Instruction)} {p : Placed} :
    ∀ {address}, p ∈ placedFrom target localCount address items →
      p.finish = p.instruction.finish target localCount p.address ∧
        p.opcode = p.instruction.opcode target localCount := by
  induction items with
  | nil => intro address hp; simp [placedFrom] at hp
  | cons item rest ih =>
      intro address hp
      rcases List.mem_cons.mp hp with rfl | hp
      · have := item.2.lt_finish target localCount address
        simp only [Placed.finish, and_true]
        omega
      · exact ih hp

theorem le_codeEnd (items : List (Key × Instruction)) :
    ∀ address, address ≤ codeEnd target localCount address items := by
  induction items with
  | nil => intro address; exact Nat.le_refl _
  | cons item rest ih =>
      intro address
      exact Nat.le_trans (Nat.le_of_lt (item.2.lt_finish target localCount address)) (ih _)

/-- Placed instructions lie between the start and the end of their code. -/
theorem span_of_mem_placedFrom {items : List (Key × Instruction)} {p : Placed} :
    ∀ {address}, p ∈ placedFrom target localCount address items →
      address ≤ p.address ∧ p.address < p.finish ∧
        p.finish ≤ codeEnd target localCount address items := by
  induction items with
  | nil => intro address hp; simp [placedFrom] at hp
  | cons item rest ih =>
      intro address hp
      have hlt := item.2.lt_finish target localCount address
      rcases List.mem_cons.mp hp with rfl | hp
      · have hend : _ ≤ codeEnd target localCount _ rest :=
          le_codeEnd rest (item.2.finish target localCount address)
        simp only [Placed.finish, codeEnd, List.foldl_cons] at hend ⊢
        omega
      · obtain ⟨hstart, hrest⟩ := ih hp
        exact ⟨by omega, hrest⟩

/-- Of two placed instructions the second starts where the first ends, or later. -/
theorem pairwise_placedFrom (items : List (Key × Instruction)) :
    ∀ address, (placedFrom target localCount address items).Pairwise
      fun p q => p.finish ≤ q.address := by
  induction items with
  | nil => intro address; exact List.Pairwise.nil
  | cons item rest ih =>
      intro address
      refine List.Pairwise.cons (fun q hq => ?_) (ih _)
      have hlt := item.2.lt_finish target localCount address
      have := (span_of_mem_placedFrom hq).1
      simp only [Placed.finish]
      omega

end Placed

/-! ## Passes that can fail -/

/-- A pass over items fails, and for a reason found at one of them, if it goes on behind each good
item, stops at any other, and not all are good. -/
theorem exists_foldlM_eq_error {σ ι : Type} {step : σ → ι → Except CompileError σ}
    {good : ι → Prop} {why : ι → CompileError → Prop}
    (hgood : ∀ s item, good item → ∃ s', step s item = .ok s')
    (hbad : ∀ s item, ¬ good item → ∃ e, step s item = .error e ∧ why item e)
    {items : List ι} (h : ∃ item ∈ items, ¬ good item) :
    ∀ s, ∃ e, items.foldlM step s = .error e ∧ ∃ item ∈ items, why item e := by
  induction items with
  | nil => obtain ⟨item, hitem, -⟩ := h; simp at hitem
  | cons item rest ih =>
      intro s
      rw [List.foldlM_cons]
      by_cases hitem : good item
      · have hlater : ∃ item ∈ rest, ¬ good item := by
          obtain ⟨other, hother, hnot⟩ := h
          rcases List.mem_cons.mp hother with rfl | hother
          · exact absurd hitem hnot
          · exact ⟨other, hother, hnot⟩
        obtain ⟨s', hs'⟩ := hgood s item hitem
        obtain ⟨e, he, other, hother, hwhy⟩ := ih hlater s'
        exact ⟨e, by rw [hs']; exact he, other, List.mem_cons_of_mem _ hother, hwhy⟩
      · obtain ⟨e, he, hwhy⟩ := hbad s item hitem
        exact ⟨e, by rw [he]; rfl, item, List.mem_cons_self .., hwhy⟩

/-! ## The first pass -/

section FirstPass

variable {f : Frame}

theorem place_of_accepts (p : Placement) (key : Key) {i : Instruction} (h : f.Accepts i) :
    p.place f (key, i) = .ok {
      image := p.image.append (f.code p.image.position i)
      tables := (i.reference f.target p.image.position).toList.foldl Tables.record p.tables
      placed := p.placed.push ⟨key, i, i.opcode f.target f.locals.length, p.image.position,
        i.finish f.target f.locals.length p.image.position - p.image.position⟩
      references := p.references ++ (i.reference f.target p.image.position).toList } := by
  have hsize : (f.code p.image.position i).length =
      i.finish f.target f.locals.length p.image.position - p.image.position := by
    rw [← f.length_code, Nat.add_sub_cancel_left]
  have himage : { p.image with
      bytes := p.image.bytes ++ ((f.bufferAt p.image.position).append
        (f.code p.image.position i)).bytes } = p.image.append (f.code p.image.position i) :=
    Buffer.ext_toList rfl rfl (by simp [Frame.bufferAt])
  have hbytes : ((f.bufferAt p.image.position).append (f.code p.image.position i)).bytes.size =
      (f.code p.image.position i).length := by simp [Frame.bufferAt]
  simp only [Placement.place, Frame.encode_of_accepts _ h, bind, Except.bind, himage, hbytes, hsize]
  cases i.reference f.target p.image.position <;> simp

/-- The first pass appends the code of all instructions, if the frame accepts them. -/
theorem foldlM_place_of_accepts (items : List (Key × Instruction)) :
    ∀ p : Placement, (∀ item ∈ items, f.Accepts item.2) →
      let placed := placedFrom f.target f.locals.length p.image.position items
      items.foldlM (Placement.place f) p = .ok {
        image := p.image.append (f.codeOf placed)
        tables := (referencesOf f.target placed).foldl Tables.record p.tables
        placed := p.placed ++ placed
        references := p.references ++ referencesOf f.target placed } := by
  induction items with
  | nil =>
      intro p _
      simp [placedFrom, Frame.codeOf, referencesOf, pure, Except.pure]
  | cons item rest ih =>
      intro p haccepts
      obtain ⟨key, i⟩ := item
      have hi : f.Accepts i := haccepts (key, i) (List.mem_cons_self ..)
      have hrest : ∀ item ∈ rest, f.Accepts item.2 := fun item hitem =>
        haccepts item (List.mem_cons_of_mem _ hitem)
      have hposition : (p.image.append (f.code p.image.position i)).position =
          i.finish f.target f.locals.length p.image.position := by
        rw [Buffer.position_append, Frame.length_code]
      rw [List.foldlM_cons, place_of_accepts p key hi]
      simp only [bind, Except.bind]
      rw [ih _ hrest]
      simp only [hposition, placedFrom, Frame.codeOf, referencesOf, List.flatMap_cons,
        Buffer.append_append]
      cases href : i.reference f.target p.image.position <;> simp [href]

/-- The first pass fails at an instruction that the frame does not accept. -/
theorem foldlM_place_of_not_accepts {items : List (Key × Instruction)}
    (h : ∃ item ∈ items, ¬ f.Accepts item.2) (p : Placement) :
    ∃ e, items.foldlM (Placement.place f) p = .error e ∧
      ∃ item ∈ items, ¬ f.Accepts item.2 ∧
        (item.2 = .locals → e = .capacityExceeded "locals" f.locals.length maxLocals) := by
  refine exists_foldlM_eq_error (fun p item hi => ⟨_, place_of_accepts p item.1 hi⟩) ?_ h p
  intro p item hi
  obtain ⟨e, he, hwhy⟩ := f.encode_of_not_accepts p.image.position hi
  refine ⟨e, ?_, hi, hwhy⟩
  simp only [Placement.place, he, bind, Except.bind]

end FirstPass

/-! ## Jumps -/

/-- Where the displacement of a jump at an address is. -/
def jumpOperand (target : Target) (address : Nat) : Nat :=
  align (address + target.opcodeWidth) 2

/-- The placed instruction of a key. -/
def landingOf (placed : List Placed) (target : Option Key) : Option Placed :=
  target.bind fun key => placed.find? (·.key = key)

/-- The jump that a placed instruction is, if its target is placed too. -/
def jumpOf (placed : List Placed) (p : Placed) : Option PlacedJump :=
  match p.instruction with
  | .jump code target =>
      (landingOf placed target).map fun landing => ⟨code, p.address, p.finish, landing.finish⟩
  | _ => none

/-- How far a jump goes, from its own end. -/
def PlacedJump.displacement (j : PlacedJump) : Int :=
  j.landing - j.origin

/-- Whether the displacement is a signed number of 16 bits. -/
def PlacedJump.InRange (j : PlacedJump) : Prop :=
  -2 ^ 15 ≤ j.displacement ∧ j.displacement < 2 ^ 15

instance (j : PlacedJump) : Decidable j.InRange :=
  inferInstanceAs (Decidable (_ ∧ _))

/-- Writes the displacement of a jump. -/
def setDisplacement (target : Target) (b : Buffer) (j : PlacedJump) : Buffer :=
  b.patchWord (jumpOperand target j.address) 2 (j.displacement % 2 ^ 16).toNat

/-- Whether a placed instruction, if it is a jump, lands within reach. -/
def Lands (placed : List Placed) (p : Placed) : Prop :=
  ∀ code target, p.instruction = .jump code target → ∃ j, jumpOf placed p = some j ∧ j.InRange

section SecondPass

variable {f : Frame} {placed : List Placed}

theorem patch_of_lands {item : Placed} (p : Patching) (h : Lands placed item) :
    p.patch f placed item = .ok {
      image := (jumpOf placed item).toList.foldl (setDisplacement f.target) p.image
      jumps := p.jumps ++ (jumpOf placed item).toList } := by
  unfold Patching.patch
  split
  · rename_i code target hjump
    obtain ⟨j, hj, hrange⟩ := h code target hjump
    simp only [jumpOf, hjump] at hj ⊢
    obtain ⟨landing, hlanding, rfl⟩ := Option.map_eq_some_iff.mp hj
    have hfind : (target.bind fun key => placed.find? (·.key = key)) = some landing := hlanding
    have hin : ¬ ((landing.finish : Int) - item.finish < -0x8000 ∨
        0x8000 ≤ (landing.finish : Int) - item.finish) := by
      simp only [PlacedJump.InRange, PlacedJump.displacement] at hrange
      omega
    simp only [hfind, if_neg hin, hlanding]
    simp [setDisplacement, PlacedJump.displacement, jumpOperand]
  · rename_i hother
    have hnone : jumpOf placed item = none := by
      unfold jumpOf
      split
      · rename_i code target hjump
        exact absurd hjump (hother code target)
      · rfl
    simp [hnone]

/-- Why the second pass stops at an instruction: it is a jump without a target, or one that lands
out of reach. -/
def Fails (function : String) (placed : List Placed) (p : Placed) (e : CompileError) : Prop :=
  (∃ code target, p.instruction = .jump code target ∧ landingOf placed target = none ∧
    e = .unresolvedJump function) ∨
  ∃ j, jumpOf placed p = some j ∧ ¬ j.InRange ∧ e = .jumpOutOfRange function j.displacement

theorem patch_of_not_lands {item : Placed} (p : Patching) (h : ¬ Lands placed item) :
    ∃ e, p.patch f placed item = .error e ∧ Fails f.function placed item e := by
  simp only [Lands, not_forall] at h
  obtain ⟨code, target, hjump, hnot⟩ := h
  unfold Patching.patch
  simp only [hjump]
  cases hlanding : landingOf placed target with
  | none =>
      have hfind : (target.bind fun key => placed.find? (·.key = key)) = none := hlanding
      exact ⟨_, by simp only [hfind], .inl ⟨code, target, hjump, hlanding, rfl⟩⟩
  | some landing =>
      have hfind : (target.bind fun key => placed.find? (·.key = key)) = some landing := hlanding
      have hj : jumpOf placed item =
          some ⟨code, item.address, item.finish, landing.finish⟩ := by simp [jumpOf, hjump, hlanding]
      have hrange : ¬ PlacedJump.InRange ⟨code, item.address, item.finish, landing.finish⟩ :=
        fun hin => hnot ⟨_, hj, hin⟩
      have hout : (landing.finish : Int) - item.finish < -0x8000 ∨
          0x8000 ≤ (landing.finish : Int) - item.finish := by
        simp only [PlacedJump.InRange, PlacedJump.displacement] at hrange
        omega
      refine ⟨_, ?_, .inr ⟨_, hj, hrange, rfl⟩⟩
      simp only [hfind, if_pos hout, PlacedJump.displacement]

/-- The second pass sets the displacements of all jumps, if they land within reach. -/
theorem foldlM_patch_of_lands (items : List Placed) :
    ∀ p : Patching, (∀ item ∈ items, Lands placed item) →
      items.foldlM (Patching.patch f placed) p = .ok {
        image := (items.filterMap (jumpOf placed)).foldl (setDisplacement f.target) p.image
        jumps := p.jumps ++ items.filterMap (jumpOf placed) } := by
  induction items with
  | nil => intro p _; simp [pure, Except.pure]
  | cons item rest ih =>
      intro p hlands
      rw [List.foldlM_cons, patch_of_lands p (hlands item (List.mem_cons_self ..))]
      simp only [bind, Except.bind]
      rw [ih _ fun other hother => hlands other (List.mem_cons_of_mem _ hother)]
      cases hj : jumpOf placed item <;> simp [hj]

/-- The second pass fails at a jump that does not land within reach. -/
theorem foldlM_patch_of_not_lands {items : List Placed} (h : ∃ item ∈ items, ¬ Lands placed item)
    (p : Patching) : ∃ e, items.foldlM (Patching.patch f placed) p = .error e ∧
      ∃ item ∈ items, Fails f.function placed item e := by
  refine exists_foldlM_eq_error ?_ ?_ h p
  · exact fun p item hlands => ⟨_, patch_of_lands p hlands⟩
  · exact fun p item hnot => patch_of_not_lands p hnot

end SecondPass

/-! ## The body of a function -/

theorem le_functionStart (length : Nat) : length ≤ functionStart length :=
  Nat.le_trans (Bytes.le_align (by decide)) (Nat.le_add_right _ _)

/-- Functions start 8 bytes behind a multiple of 16. -/
theorem functionStart_mod (length : Nat) : functionStart length % 16 = 8 := by
  obtain ⟨k, hk⟩ := Bytes.dvd_align length 16
  rw [functionStart, hk, functionGap]
  omega

namespace ScriptFunction

/-- The instructions of a function that starts at an address. -/
def placedAt (f : ScriptFunction) (start : Nat) : List Placed :=
  placedFrom f.target f.locals.size start f.instructions

/-- The jumps of a function that starts at an address. -/
def jumpsAt (f : ScriptFunction) (start : Nat) : List PlacedJump :=
  (f.placedAt start).filterMap (jumpOf (f.placedAt start))

/-- The address behind a function that starts at an address. -/
def endAt (f : ScriptFunction) (start : Nat) : Nat :=
  codeEnd f.target f.locals.size start f.instructions

/-- The code of a function that starts at an address, with the displacements of its jumps set. -/
def bodyAt (f : ScriptFunction) (order : ByteOrder) (tables : Tables) (start : Nat) : Buffer :=
  (f.jumpsAt start).foldl (setDisplacement f.target)
    { order, start, bytes := ((f.frame tables).codeOf (f.placedAt start)).toArray }

/-- The layout of a function that starts at an address. -/
def layoutAt (f : ScriptFunction) (order : ByteOrder) (tables : Tables) (start : Nat) :
    FunctionLayout where
  name := f.name
  hash := f.hash
  namespaceHash := f.namespaceHash
  params := f.params
  flags := f.flags
  address := start
  size := f.endAt start - start
  crc := Bytes.crc32 (f.bodyAt order tables start).bytes.toList
  instructions := f.placedAt start
  jumps := f.jumpsAt start
  references := referencesOf f.target (f.placedAt start)

/-- Whether a function that starts at an address finds all it names, and all its jumps land within
reach. -/
structure Sound (f : ScriptFunction) (tables : Tables) (start : Nat) : Prop where
  accepts : ∀ item ∈ f.instructions, (f.frame tables).Accepts item.2
  lands : ∀ p ∈ f.placedAt start, Lands (f.placedAt start) p

end ScriptFunction

@[simp] theorem size_foldl_setDisplacement (target : Target) (jumps : List PlacedJump) :
    ∀ b : Buffer, (jumps.foldl (setDisplacement target) b).bytes.size = b.bytes.size := by
  induction jumps with
  | nil => intro b; rfl
  | cons j rest ih => intro b; rw [List.foldl_cons, ih]; simp [setDisplacement, Buffer.patchWord]

/-- Setting displacements in code that was appended to an image is setting them in the code. -/
theorem foldl_setDisplacement_append (target : Target) (b : Buffer) (jumps : List PlacedJump) :
    ∀ l : List UInt8, (∀ j ∈ jumps, b.position ≤ jumpOperand target j.address) →
      jumps.foldl (setDisplacement target) (b.append l) =
        b.append (jumps.foldl (setDisplacement target)
          { order := b.order, start := b.position, bytes := l.toArray }).bytes.toList := by
  induction jumps with
  | nil => intro l _; simp
  | cons j rest ih =>
      intro l hbehind
      have hj := hbehind j (List.mem_cons_self ..)
      have hoffset : jumpOperand target j.address - b.start =
          b.bytes.size + (jumpOperand target j.address - b.position) := by
        unfold Buffer.position at hj ⊢
        omega
      have hstep : setDisplacement target (b.append l) j = b.append
          (setDisplacement target { order := b.order, start := b.position, bytes := l.toArray }
            j).bytes.toList := by
        refine Buffer.ext_toList rfl rfl ?_
        simp only [setDisplacement, Buffer.patchWord, Buffer.patch, Buffer.start_append,
          Buffer.order_append, hoffset, Buffer.toList_append]
        have hbytes : (b.append l).bytes = b.bytes ++ l.toArray := Array.ext' (by simp)
        rw [hbytes, Bytes.overwrite_append, Array.toList_append]
      rw [List.foldl_cons, hstep, ih _ fun other hother => hbehind other (List.mem_cons_of_mem _ hother)]
      rfl

theorem le_jumpOperand (target : Target) (address : Nat) : address ≤ jumpOperand target address :=
  Nat.le_trans (Nat.le_add_right _ _) (Bytes.le_align (by decide))

theorem mem_of_jumpOf {placed : List Placed} {p : Placed} {j : PlacedJump}
    (h : jumpOf placed p = some j) :
    ∃ code target landing, p.instruction = .jump code target ∧
      landingOf placed target = some landing ∧
      j = ⟨code, p.address, p.finish, landing.finish⟩ := by
  unfold jumpOf at h
  split at h
  · rename_i code target hjump
    obtain ⟨landing, hlanding, rfl⟩ := Option.map_eq_some_iff.mp h
    exact ⟨code, target, landing, hjump, hlanding, rfl⟩
  · cases h

namespace ScriptFunction

variable {f : ScriptFunction} {start : Nat}

@[simp] theorem frame_target (f : ScriptFunction) (tables : Tables) :
    (f.frame tables).target = f.target := rfl

@[simp] theorem length_frame_locals (f : ScriptFunction) (tables : Tables) :
    (f.frame tables).locals.length = f.locals.size := by
  simp [frame]

theorem map_placedAt (f : ScriptFunction) (start : Nat) :
    (f.placedAt start).map (fun p => (p.key, p.instruction)) = f.instructions :=
  map_placedFrom _ _

theorem mem_instructions_of_mem (f : ScriptFunction) {p : Placed} (hp : p ∈ f.placedAt start) :
    (p.key, p.instruction) ∈ f.instructions := by
  rw [← f.map_placedAt start]
  exact List.mem_map_of_mem hp

theorem exists_of_mem_jumpsAt {j : PlacedJump} (h : j ∈ f.jumpsAt start) :
    ∃ p ∈ f.placedAt start, jumpOf (f.placedAt start) p = some j :=
  List.mem_filterMap.mp h

theorem length_codeOf_placedAt (f : ScriptFunction) (tables : Tables) (start : Nat) :
    start + ((f.frame tables).codeOf (f.placedAt start)).length = f.endAt start := by
  have h := length_codeOf (f.frame tables) f.instructions start
  simpa [placedAt, endAt] using h

theorem size_bodyAt (f : ScriptFunction) (order : ByteOrder) (tables : Tables) (start : Nat) :
    start + (f.bodyAt order tables start).bytes.size = f.endAt start := by
  rw [bodyAt, size_foldl_setDisplacement, List.size_toArray]
  exact f.length_codeOf_placedAt tables start

/-- What the two passes leave of an image that is filled up to the start of the function. -/
theorem passes_of_sound {padded : Buffer} {tables : Tables} (hpadded : padded.position = start)
    (h : f.Sound tables start) :
    f.instructions.foldlM (Placement.place (f.frame tables)) { image := padded, tables } = .ok {
        image := padded.append ((f.frame tables).codeOf (f.placedAt start))
        tables := (referencesOf f.target (f.placedAt start)).foldl Tables.record tables
        placed := (f.placedAt start).toArray
        references := (referencesOf f.target (f.placedAt start)).toArray } ∧
      (f.placedAt start).foldlM (Patching.patch (f.frame tables) (f.placedAt start))
          { image := padded.append ((f.frame tables).codeOf (f.placedAt start)) } = .ok {
        image := padded.append (f.bodyAt padded.order tables start).bytes.toList
        jumps := (f.jumpsAt start).toArray } := by
  have hplaced : placedFrom (f.frame tables).target (f.frame tables).locals.length start
      f.instructions = f.placedAt start := by simp [placedAt]
  have hbehind : ∀ j ∈ f.jumpsAt start, padded.position ≤ jumpOperand f.target j.address := by
    intro j hj
    obtain ⟨p, hp, hjump⟩ := exists_of_mem_jumpsAt hj
    obtain ⟨code, target, landing, -, -, rfl⟩ := mem_of_jumpOf hjump
    rw [hpadded]
    exact Nat.le_trans (span_of_mem_placedFrom hp).1 (le_jumpOperand _ _)
  have hfirst := foldlM_place_of_accepts (f := f.frame tables) f.instructions
    { image := padded, tables } h.accepts
  have hsecond := foldlM_patch_of_lands (f := f.frame tables) (f.placedAt start)
    { image := padded.append ((f.frame tables).codeOf (f.placedAt start)) } h.lands
  have hset := foldl_setDisplacement_append f.target padded (f.jumpsAt start)
    ((f.frame tables).codeOf (f.placedAt start)) hbehind
  rw [hpadded] at hset
  simp only [hpadded, hplaced] at hfirst
  constructor
  · simpa using hfirst
  · rw [hsecond]
    refine congrArg Except.ok ?_
    simp only [jumpsAt, bodyAt] at hset ⊢
    rw [← hset]
    simp

/-- Laying out a function that is sound at its place appends its body to the image. -/
theorem layOut_of_sound {image : Buffer} {tables : Tables} (hzero : image.start = 0)
    (hstart : functionStart image.position = start) (h : f.Sound tables start) :
    f.layOut image tables = .ok (f.layoutAt image.order tables start,
      (image.padTo start).append (f.bodyAt image.order tables start).bytes.toList,
      (referencesOf f.target (f.placedAt start)).foldl Tables.record tables) := by
  have hpadded : (image.padTo start).position = start :=
    Buffer.position_padTo (hstart ▸ le_functionStart _)
  obtain ⟨hfirst, hsecond⟩ := passes_of_sound hpadded h
  have hlength : (f.bodyAt image.order tables start).bytes.toList.length = f.endAt start - start := by
    rw [Array.length_toList, ← f.size_bodyAt image.order tables start, Nat.add_sub_cancel_left]
  have hslice := Buffer.slice_append_self (b := image.padTo start) (by simpa using hzero)
    (f.bodyAt image.order tables start).bytes.toList
  rw [hpadded, hlength] at hslice
  have hsize : ((image.padTo start).append
      (f.bodyAt image.order tables start).bytes.toList).position - start = f.endAt start - start := by
    rw [Buffer.position_append, hpadded, hlength, Nat.add_sub_cancel_left]
  simp only [layOut, hstart, bind, Except.bind, hfirst]
  simp only [hsecond, Buffer.order_padTo, hsize, hslice, layoutAt]

/-- Why a function is refused: an instruction does not find what it names, or a jump fails. -/
def Refused (f : ScriptFunction) (tables : Tables) (start : Nat) (e : CompileError) : Prop :=
  (∃ item ∈ f.instructions, ¬ (f.frame tables).Accepts item.2 ∧
    (item.2 = .locals → e = .capacityExceeded "locals" f.locals.size maxLocals)) ∨
  ∃ p ∈ f.placedAt start, Fails f.name (f.placedAt start) p e

/-- A function that is not sound at its place is refused. -/
theorem layOut_of_not_sound (image : Buffer) {tables : Tables}
    (hstart : functionStart image.position = start) (h : ¬ f.Sound tables start) :
    ∃ e, f.layOut image tables = .error e ∧ f.Refused tables start e := by
  have hpadded : (image.padTo start).position = start :=
    Buffer.position_padTo (hstart ▸ le_functionStart _)
  by_cases haccepts : ∀ item ∈ f.instructions, (f.frame tables).Accepts item.2
  · have hlands : ∃ p ∈ f.placedAt start, ¬ Lands (f.placedAt start) p := by
      by_contra hall
      push Not at hall
      exact h ⟨haccepts, hall⟩
    have hfirst := foldlM_place_of_accepts (f := f.frame tables) f.instructions
      { image := image.padTo start, tables } haccepts
    have hplaced : placedFrom (f.frame tables).target (f.frame tables).locals.length start
        f.instructions = f.placedAt start := by simp [placedAt]
    simp only [hpadded, hplaced] at hfirst
    obtain ⟨e, he, p, hp, hfails⟩ := foldlM_patch_of_not_lands (f := f.frame tables) hlands
      { image := (image.padTo start).append ((f.frame tables).codeOf (f.placedAt start)) }
    refine ⟨e, ?_, .inr ⟨p, hp, hfails⟩⟩
    simp only [layOut, hstart, bind, Except.bind, hfirst]
    simp [he]
  · push Not at haccepts
    obtain ⟨e, he, item, hitem, hnot, hwhy⟩ := foldlM_place_of_not_accepts
      (f := f.frame tables) haccepts { image := image.padTo start, tables }
    refine ⟨e, ?_, .inl ⟨item, hitem, hnot, by simpa using hwhy⟩⟩
    simp only [layOut, hstart, bind, Except.bind, he]

theorem sound_of_layOut {image : Buffer} {tables : Tables}
    {result : FunctionLayout × Buffer × Tables} (hstart : functionStart image.position = start)
    (h : f.layOut image tables = .ok result) : f.Sound tables start := by
  by_contra hnot
  obtain ⟨e, he, -⟩ := layOut_of_not_sound image hstart hnot
  rw [he] at h
  cases h

end ScriptFunction

end GscAssembler.Code

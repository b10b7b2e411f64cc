import GscAssembler.Proofs.Control.Follows

/-!
# Every lowering rule follows its sketch
-/

namespace GscAssembler.Control

open Code (BuiltinObject Context ForeachLocals Instruction Opcode)
open Lowering
open Number (Constant)
open Reference (ImportKey)
open SyntaxTree (Node)

variable {target : Target} {known : List UInt32} {α β : Type}

/-! ## Steps -/

namespace Follows

theorem pure (a : α) : Follows target known (pure a) (pure a) nothingLearned :=
  .silent (.pure a (List.nil_subset _))

theorem throw {learned : α → List UInt32} (e : CompileError) :
    Follows target known (throw e) (Sketch.fail e) learned :=
  .silent (.throw e)

theorem seq {x : Lower α} {y : Sketch α} {f : α → Lower β} {g : α → Sketch β}
    {learned : β → List UInt32} (hx : Follows target known x y nothingLearned)
    (hf : ∀ a, Follows target known (f a) (g a) learned) :
    Follows target known (x >>= f) (y >>= g) learned :=
  .bind hx hf

/-- A piece that depends on something that may fail. -/
theorem given {e : Except CompileError α} {f : α → Lower β} {g : α → Sketch β}
    {learned : β → List UInt32}
    (h : ∀ a, e = .ok a → Follows target known (f a) (g a) learned) :
    Follows target known (liftM e >>= f) (liftM e >>= g) learned := by
  cases e with
  | error e => exact .throw e
  | ok a =>
      exact .seq (f := fun _ : Unit => f a) (g := fun _ => g a) (.pure ()) fun _ => h a rfl

theorem atLegacy {f : Bool → Lower α} {g : Bool → Sketch α} {learned : α → List UInt32}
    (h : Follows target known (f target.isLegacy) (g target.isLegacy) learned) :
    Follows target known (isLegacy >>= f) (liftM isLegacy >>= g) learned :=
  .atTarget (f := fun t => f t.isLegacy) (g := fun t => g t.isLegacy) h

theorem atRevision {f : Revision → Lower α} {g : Revision → Sketch α} {learned : α → List UInt32}
    (h : Follows target known (f target.revision) (g target.revision) learned) :
    Follows target known (getRevision >>= f) (liftM getRevision >>= g) learned :=
  .atTarget (f := fun t => f t.revision) (g := fun t => g t.revision) h

theorem op {code : Opcode} (h : code.shape target.revision = .bare) :
    Follows target known (emitOp code) (writeOp code) nothingLearned :=
  .emit (.op code) h trivial

theorem isDefined {hash : UInt32} (h : hash ∈ known) :
    Follows target known (emitIsDefined hash) (writeIsDefined hash) nothingLearned := by
  refine .atLegacy ?_
  split
  · exact .seq (.eval .plain h) fun _ => .op rfl
  · exact .emit (.localVariable .evalLocalVariableDefined hash) rfl h

theorem store {hash : UInt32} (h : hash ∈ known) :
    Follows target known (emitStore hash) (writeStore hash) nothingLearned := by
  refine .atLegacy ?_
  split
  · exact .seq (.eval .isRef h) fun _ => .op rfl
  · exact .emit (.localVariable .setLocalVariableCached hash) rfl h

theorem forM_map {γ δ ε : Type} {items : List γ} {first : γ → δ} {second : γ → ε}
    {f : δ → Lower Unit} {g : ε → Sketch Unit}
    (h : ∀ item ∈ items, Follows target known (f (first item)) (g (second item)) nothingLearned) :
    Follows target known ((items.map first).forM f) ((items.map second).forM g) nothingLearned := by
  induction items with
  | nil => exact .pure ()
  | cons item rest ih =>
      exact .seq (h item (List.mem_cons_self ..))
        fun _ => ih fun other hother => h other (List.mem_cons_of_mem _ hother)

theorem forM {γ : Type} {items : List γ} {f : γ → Lower Unit} {g : γ → Sketch Unit}
    (h : ∀ item ∈ items, Follows target known (f item) (g item) nothingLearned) :
    Follows target known (items.forM f) (items.forM g) nothingLearned := by
  have hmap := @forM_map target known γ γ γ items id id f g h
  rwa [List.map_id] at hmap

end Follows

/-! ## Nodes with their parts -/

/-- The contexts in which nodes are lowered.  Only a call itself finds out that it goes through a
pointer. -/
def Ordinary (context : Context) : Prop :=
  context.has .isPointer = false

/-- A fragment and its sketch: of the same node, with matching parts, and built alike in every
context. -/
inductive Matches (target : Target) : Fragment → Sketched → Prop where
  | mk {node : Node} {code : Context → Lower Unit} {program : Context → Sketch Unit}
      (parts : List (Fragment × Sketched)) (hparts : ∀ p ∈ parts, Matches target p.1 p.2)
      (hcode : ∀ known context, Ordinary context →
        Follows target known (code context) (program context) nothingLearned) :
      Matches target (.mk node (parts.map (·.1)) code) (.mk node (parts.map (·.2)) program)

namespace Matches

variable {f : Fragment} {f' : Sketched}

theorem node_eq (h : Matches target f f') : f'.node = f.node := by
  cases h; rfl

theorem is_eq (h : Matches target f f') (kind : String) : f'.is kind = f.is kind := by
  rw [Sketched.is, h.node_eq, Fragment.is]

theorem exists_parts (h : Matches target f f') : ∃ parts : List (Fragment × Sketched),
    f.parts = parts.map (·.1) ∧ f'.parts = parts.map (·.2) ∧
      ∀ p ∈ parts, Matches target p.1 p.2 := by
  obtain ⟨parts, hparts, -⟩ := h
  exact ⟨parts, rfl, rfl, hparts⟩

theorem lower (h : Matches target f f') {context : Context} (hcontext : Ordinary context) :
    Follows target known (f.lower context) (f'.sketch context) nothingLearned := by
  obtain ⟨parts, -, hcode⟩ := h
  exact hcode known context hcontext

theorem value (h : Matches target f f') :
    Follows target known f.lowerValue f'.sketchValue nothingLearned :=
  h.lower rfl

theorem reference (h : Matches target f f') :
    Follows target known (f.lower .isRef) (f'.sketch .isRef) nothingLearned :=
  h.lower rfl

end Matches

/-- Two results that may fail: both fail alike, or what they give is related. -/
inductive Agree {γ δ : Type} (R : γ → δ → Prop) :
    Except CompileError γ → Except CompileError δ → Prop where
  | error (e : CompileError) : Agree R (.error e) (.error e)
  | ok {a : γ} {b : δ} (h : R a b) : Agree R (.ok a) (.ok b)

namespace Agree

variable {γ δ γ' δ' : Type}

theorem refl (e : Except CompileError γ) : Agree Eq e e := by
  cases e with
  | error e => exact .error e
  | ok a => exact .ok rfl

theorem bind {R : γ → δ → Prop} {S : γ' → δ' → Prop} {x : Except CompileError γ}
    {y : Except CompileError δ} {f : γ → Except CompileError γ'} {g : δ → Except CompileError δ'}
    (h : Agree R x y) (hf : ∀ a b, R a b → Agree S (f a) (g b)) : Agree S (x >>= f) (y >>= g) := by
  cases h with
  | error e => exact .error e
  | ok hab => exact hf _ _ hab

end Agree

theorem Follows.agree {γ δ : Type} {R : γ → δ → Prop} {e : Except CompileError γ}
    {e' : Except CompileError δ} {f : γ → Lower β} {g : δ → Sketch β} {learned : β → List UInt32}
    (he : Agree R e e') (h : ∀ a b, R a b → Follows target known (f a) (g b) learned) :
    Follows target known (liftM e >>= f) (liftM e' >>= g) learned := by
  cases he with
  | error e => exact .throw e
  | @ok a b hab =>
      exact .seq (f := fun _ : Unit => f a) (g := fun _ => g b) (.pure ()) fun _ => h a b hab

section Parts

variable {node : Node} {parts : List (Fragment × Sketched)}

theorem agree_part (position : Nat) :
    Agree (fun f f' => (f, f') ∈ parts) (Construct.part ⟨node, parts.map (·.1)⟩ position)
      (Composite.part ⟨node, parts.map (·.2)⟩ position) := by
  unfold Construct.part Composite.part
  simp only [List.getElem?_map]
  cases hpart : parts[position]? with
  | none => exact .error _
  | some p => exact .ok (List.mem_of_getElem? hpart)

theorem Follows.part {f : Fragment → Lower β} {g : Sketched → Sketch β} {learned : β → List UInt32}
    (position : Nat) (h : ∀ p ∈ parts, Follows target known (f p.1) (g p.2) learned) :
    Follows target known (liftM (Construct.part ⟨node, parts.map (·.1)⟩ position) >>= f)
      (liftM (Composite.part ⟨node, parts.map (·.2)⟩ position) >>= g) learned :=
  .agree (agree_part position) fun _ _ hp => h _ hp

end Parts

/-! ## Macros -/

/-- Macros and their sketches: of the same names, and built alike in every context. -/
def MatchingMacros (target : Target) (macros : Macros) (macros' : SketchedMacros) : Prop :=
  ∀ name, (macros.code? name = none ∧ macros'.program? name = none) ∨
    ∃ code program, macros.code? name = some code ∧ macros'.program? name = some program ∧
      ∀ known context, Ordinary context →
        Follows target known (code context) (program context) nothingLearned

/-! ## Expressions -/

theorem follows_callEngine (key : ImportKey) {argument : Lower Unit} {argument' : Sketch Unit}
    (h : Follows target known argument argument' nothingLearned) :
    Follows target known (callEngine key argument) (sketchEngineCall key argument') nothingLearned :=
  .seq (.op rfl) fun _ => .seq h fun _ => .call key rfl

theorem silent_engineImport (name : String) :
    Silent target known (engineImport name) nothingLearned :=
  .bind (.hash name) fun _ => .bind .namespaceHash fun _ => .bind (.callFlags ..) fun _ =>
    .pure _ (List.nil_subset _)

theorem follows_emitBuiltin (name : String) {object : BuiltinObject} (isRef : Bool)
    (h : object.Available target.revision) :
    Follows target known (emitBuiltin name object isRef) (sketchBuiltin name object isRef)
      nothingLearned := by
  cases object with
  | op code => exact .op h
  | one => exact .number _
  | global =>
      refine .seq (.silent (.hash name)) fun hash => .global hash ?_ h
      cases isRef <;> rfl

theorem follows_lowerIdentifier {macros : Macros} {macros' : SketchedMacros}
    (hmacros : MatchingMacros target macros macros') (n : Node) {context : Context}
    (hcontext : Ordinary context) :
    Follows target known (lowerIdentifier macros n context) (sketchIdentifier macros' n context)
      nothingLearned := by
  refine .given fun name _ => ?_
  rcases hmacros (Text.asciiLower name) with ⟨hcode, hprogram⟩ | ⟨code, program, hcode, hprogram, h⟩
  · simp only [hcode, hprogram]
    refine .atRevision ?_
    cases hobject : Code.builtinObject? target.revision name (context.has .isRef) with
    | some object => exact follows_emitBuiltin name _ (Code.available_builtinObject? hobject)
    | none =>
        exact .bind (.silent (.declaredLocal name)) fun _ => .eval context (List.mem_cons_self ..)
  · simp only [hcode, hprogram]
    exact h known context hcontext

theorem available_namedObject? {revision : Revision} {n : Node} {isRef : Bool}
    {name : String} {object : BuiltinObject}
    (h : namedObject? revision n isRef = .ok (some (name, object))) : object.Available revision := by
  unfold namedObject? at h
  split at h
  · cases htext : n.text with
    | error e => simp [htext, bind, Except.bind] at h
    | ok text =>
        simp only [htext, bind, Except.bind, pure, Except.pure, Except.ok.injEq] at h
        obtain ⟨found, hfound, heq⟩ := Option.map_eq_some_iff.mp h
        obtain ⟨-, rfl⟩ := Prod.mk.inj heq
        exact Code.available_builtinObject? hfound
  · cases h

theorem follows_lowerObject {f : Fragment} {f' : Sketched} (h : Matches target f f')
    (context : Context) :
    Follows target known (lowerObject f context) (sketchObject f' context) nothingLearned := by
  refine .atRevision ?_
  rw [h.node_eq]
  refine .given fun named hnamed => ?_
  rcases named with - | ⟨name, object⟩
  · refine .seq h.value fun _ => ?_
    split
    · exact .op rfl
    · exact .pure ()
  · exact follows_emitBuiltin name _ (available_namedObject? hnamed)

theorem isConditional_connective? {token : String} {tested : Bool} {code : Opcode}
    (h : connective? token = some (tested, code)) : code.isConditional := by
  unfold connective? at h
  dsimp only at h
  split at h
  · cases h; rfl
  · cases h; rfl
  · cases h; rfl
  · cases h; rfl
  · cases h

theorem follows_coalesce {temp : UInt32} (htemp : temp ∈ known) {left right : Lower Unit}
    {left' right' : Sketch Unit} (hleft : Follows target known left left' nothingLearned)
    (hright : Follows target known right right' nothingLearned) :
    Follows target known (coalesce temp left right) (sketchOrElse temp left' right')
      nothingLearned := by
  rw [coalesce_eq]
  exact .seq hleft fun _ => .seq (.store htemp) fun _ => .seq (.eval .plain htemp) fun _ =>
    .seq (.op rfl) fun _ => .choose rfl (.eval .plain htemp) hright

theorem follows_foreachLoop {locals : ForeachLocals} {key value : UInt32}
    {collection body : Lower Unit} {collection' body' : Sketch Unit}
    (hlocals : usedLocals target.revision locals ⊆ known) (hkey : key ∈ known)
    (hvalue : value ∈ known) (hcollection : Follows target known collection collection' nothingLearned)
    (hbody : Follows target known body body' nothingLearned) :
    Follows target known (foreachLoop locals key value collection body)
      (sketchForeachLoop locals key value collection' body') nothingLearned := by
  have harray : locals.array ∈ known := hlocals (by unfold usedLocals; split <;> simp)
  rw [foreachLoop_eq]
  refine .atLegacy ?_
  cases hlegacy : target.isLegacy with
  | true =>
      simp only [if_true]
      refine .seq hcollection fun _ => .seq (.store harray) fun _ =>
        .seq (.eval .plain harray) fun _ => .seq (.op rfl) fun _ => .seq (.store hkey) fun _ =>
          .loop (some (emitIsDefined key, writeIsDefined key))
            (some (do
                emitEval key .plain
                emitEval locals.array .plain
                emitOp .nextArrayKey
                emitStore key,
              do
                writeEval key .plain
                writeEval locals.array .plain
                writeOp .nextArrayKey
                writeStore key))
            (.pure ()) (fun _ h => ?_) ?_ (fun _ h => ?_)
      · cases h
        exact .isDefined hkey
      · exact .seq (.eval .plain hkey) fun _ => .seq (.eval .plain harray) fun _ =>
          .seq (.op rfl) fun _ => .seq (.store hvalue) fun _ => hbody
      · cases h
        exact .seq (.eval .plain hkey) fun _ => .seq (.eval .plain harray) fun _ =>
          .seq (.op rfl) fun _ => .store hkey
  | false =>
      have hnext : locals.nextKey ∈ known := by
        have hrevision : target.revision = .rev36 := by
          cases hrevision : target.revision with
          | legacy => simp [Target.isLegacy, hrevision] at hlegacy
          | rev36 => rfl
        exact hlocals (by simp [usedLocals, hrevision])
      refine .seq hcollection fun _ => .seq (.store harray) fun _ =>
        .seq (.emit _ rfl harray) fun _ => .seq (.store hkey) fun _ =>
          .loop (some (emitIsDefined key, writeIsDefined key))
            (some (do
                emitEval locals.nextKey .plain
                emitStore key,
              do
                writeEval locals.nextKey .plain
                writeStore key))
            (.pure ()) (fun _ h => ?_) ?_ (fun _ h => ?_)
      · cases h
        exact .isDefined hkey
      · exact .seq (.eval .plain hkey) fun _ => .seq (.eval .plain harray) fun _ =>
          .seq (.op rfl) fun _ => .seq (.store hvalue) fun _ => .seq (.eval .plain hkey) fun _ =>
            .seq (.eval .plain harray) fun _ => .seq (.emit _ rfl hnext) fun _ => hbody
      · cases h
        exact .seq (.eval .plain hnext) fun _ => .store hkey

theorem silent_namedLocal (n : Node) : Silent target known (namedLocal n) fun hash => [hash] :=
  .bind (.except _) fun name => .declaredLocal name

theorem follows_lowerLoopJump (n : Node) :
    Follows target known (lowerLoopJump n) (sketchLoopJump n) nothingLearned :=
  .given fun kind _ => .given fun levels _ => .loopJump kind levels

theorem follows_assignTo {f : Fragment} {f' : Sketched} (h : Matches target f f') :
    Follows target known (assignTo f) (sketchAssignTo f') nothingLearned :=
  .seq h.reference fun _ => .op rfl

theorem follows_assignElements {f : Fragment} {f' : Sketched} (h : Matches target f f')
    (elements : List (Fragment × Sketched)) (helements : ∀ p ∈ elements, Matches target p.1 p.2) :
    ∀ position, Follows target known (assignElements f position (elements.map (·.1)))
      (sketchElements f' position (elements.map (·.2))) nothingLearned := by
  induction elements with
  | nil => exact fun _ => .pure ()
  | cons element rest ih =>
      exact fun position => .seq (helements element (by simp)).value fun _ => .seq (.number _) fun _ =>
        .seq h.reference fun _ => .seq (.op rfl) fun _ => .seq (.op rfl) fun _ =>
          ih (fun p hp => helements p (List.mem_cons_of_mem _ hp)) (position + 1)

theorem shape_compoundOp? {token : String} {code : Opcode} (h : compoundOp? token = some code)
    (revision : Revision) : code.shape revision = .bare := by
  unfold compoundOp? at h
  split at h
  · exact Code.shape_mathOp? h revision
  · cases h

/-! ## Switches -/

/-- A piece of lowering and its sketch that are built alike whatever is known. -/
def AlwaysFollows (target : Target) (p : Lower Unit × Sketch Unit) : Prop :=
  ∀ known, Follows target known p.1 p.2 nothingLearned

theorem exists_pairedBranch {f : Fragment} {f' : Sketched} (h : Matches target f f') :
    ∃ b : PairedBranch, switchBranch f = b.lowered ∧ sketchBranch f' = b.sketched ∧
      (∀ p ∈ b.value, AlwaysFollows target p) ∧ ∀ p ∈ b.body, AlwaysFollows target p := by
  obtain ⟨parts, hparts, hparts', hmatches⟩ := h.exists_parts
  have hbody : ∀ rest ⊆ parts, ∀ p ∈ rest.map (fun q => (q.1.lowerValue, q.2.sketchValue)),
      AlwaysFollows target p := by
    intro rest hrest p hp known
    obtain ⟨q, hq, rfl⟩ := List.mem_map.mp hp
    exact (hmatches q (hrest hq)).value
  unfold switchBranch sketchBranch
  rw [h.is_eq, h.node_eq, hparts, hparts']
  split
  · refine ⟨⟨none, parts.map fun q => (q.1.lowerValue, q.2.sketchValue)⟩, ?_, ?_, by simp,
      hbody parts (List.Subset.refl _)⟩ <;> simp [PairedBranch.lowered, PairedBranch.sketched]
  · cases parts with
    | nil =>
        refine ⟨⟨some (throw (f.node.malformed "missing child"),
          .fail (f.node.malformed "missing child")), []⟩, rfl, rfl, ?_, by simp⟩
        rintro _ ⟨⟩ known
        exact .throw _
    | cons value body =>
        refine ⟨⟨some (value.1.lowerValue, value.2.sketchValue),
          body.map fun q => (q.1.lowerValue, q.2.sketchValue)⟩, ?_, ?_, ?_,
          hbody body (List.subset_cons_self ..)⟩
        · simp [PairedBranch.lowered]
        · simp [PairedBranch.sketched]
        · rintro _ ⟨⟩ known
          exact (hmatches value (List.mem_cons_self ..)).value

theorem exists_pairedBranches (branches : List (Fragment × Sketched))
    (h : ∀ p ∈ branches, Matches target p.1 p.2) :
    ∃ paired : List PairedBranch,
      (branches.map (·.1)).map switchBranch = paired.map (·.lowered) ∧
      (branches.map (·.2)).map sketchBranch = paired.map (·.sketched) ∧
      ∀ b ∈ paired, (∀ p ∈ b.value, AlwaysFollows target p) ∧
        ∀ p ∈ b.body, AlwaysFollows target p := by
  induction branches with
  | nil => exact ⟨[], rfl, rfl, by simp⟩
  | cons branch rest ih =>
      obtain ⟨b, hlowered, hsketched, hfollows⟩ := exists_pairedBranch (h branch (by simp))
      obtain ⟨paired, hrest, hrest', hpaired⟩ := ih fun p hp => h p (List.mem_cons_of_mem _ hp)
      refine ⟨b :: paired, by simp [hlowered, ← hrest], by simp [hsketched, ← hrest'], ?_⟩
      intro other hother
      rcases List.mem_cons.mp hother with rfl | hother
      · exact hfollows
      · exact hpaired other hother

theorem exists_defaultLast (branches : List (Fragment × Sketched))
    (h : ∀ p ∈ branches, Matches target p.1 p.2) :
    ∃ ordered ⊆ branches, defaultLast (branches.map (·.1)) = ordered.map (·.1) ∧
      lastDefault (branches.map (·.2)) = ordered.map (·.2) := by
  have hsame : branches.findIdx? (fun p => p.2.is "default") =
      branches.findIdx? (fun p => p.1.is "default") := by
    induction branches with
    | nil => rfl
    | cons p rest ih =>
        rw [List.findIdx?_cons, List.findIdx?_cons, (h p (List.mem_cons_self ..)).is_eq,
          ih fun q hq => h q (List.mem_cons_of_mem _ hq)]
  unfold defaultLast lastDefault
  simp only [List.findIdx?_map, Function.comp_def, hsame]
  cases branches.findIdx? fun p => p.1.is "default" with
  | none => exact ⟨branches, List.Subset.refl _, rfl, rfl⟩
  | some position =>
      refine ⟨branches.eraseIdx position ++ branches[position]?.toList, ?_, ?_, ?_⟩
      · intro p hp
        rcases List.mem_append.mp hp with hp | hp
        · exact List.mem_of_mem_eraseIdx hp
        · exact List.mem_of_getElem? (Option.mem_toList.mp hp)
      · cases hget : branches[position]? <;> simp [List.eraseIdx_eq_take_drop_succ, hget]
      · cases hget : branches[position]? <;> simp [List.eraseIdx_eq_take_drop_succ, hget]

theorem follows_lowerDebugString (n : Node) :
    Follows target known (lowerDebugString n) (sketchDebugString n) nothingLearned := by
  refine .atRevision ?_
  cases hrevision : target.revision with
  | legacy =>
      exact .given fun text _ => .seq (.silent (.hash text)) fun hash => .debugString hash hrevision
  | rev36 => exact .given fun text _ => .string text rfl

theorem toNat_hashToken? {token : String} {value : UInt64}
    (h : Name.hashToken? .legacy token = some value) : value.toNat < 2 ^ 32 := by
  unfold Name.hashToken? at h
  simp only [reduceCtorEq, false_or, Option.bind_eq_bind] at h
  obtain ⟨read, -, hread⟩ := Option.bind_eq_some_iff.mp h
  split at hread
  · rename_i hlt
    cases hread
    rw [UInt64.toNat_ofNat']
    omega
  · cases hread

theorem follows_lowerHashed (n : Node) :
    Follows target known (lowerHashed n) (sketchHashed n) nothingLearned := by
  refine .given fun token _ => .atRevision ?_
  cases hvalue : Name.hashToken? target.revision token with
  | none => exact .throw _
  | some value => exact .emit (.hash value) (fun hrevision => toNat_hashToken? (hrevision ▸ hvalue)) trivial

section Rules

variable {node : Node} {parts : List (Fragment × Sketched)}
  (hparts : ∀ p ∈ parts, Matches target p.1 p.2)

include hparts

variable (node) in
theorem findPart?_cases (kind : String) :
    (Construct.findPart? ⟨node, parts.map (·.1)⟩ kind = none ∧
      Composite.findPart? ⟨node, parts.map (·.2)⟩ kind = none) ∨
    ∃ p ∈ parts, Construct.findPart? ⟨node, parts.map (·.1)⟩ kind = some p.1 ∧
      Composite.findPart? ⟨node, parts.map (·.2)⟩ kind = some p.2 := by
  have hsame : parts.find? (fun p => p.2.is kind) = parts.find? (fun p => p.1.is kind) :=
    List.find?_congr fun p hp => (hparts p hp).is_eq kind
  unfold Construct.findPart? Composite.findPart?
  simp only [List.find?_map, Function.comp_def, hsame]
  cases hfind : parts.find? fun p => p.1.is kind with
  | none => exact .inl ⟨rfl, rfl⟩
  | some p => exact .inr ⟨p, List.mem_of_find?_eq_some hfind, rfl, rfl⟩

theorem follows_lowerField (context : Context) :
    Follows target known (lowerField ⟨node, parts.map (·.1)⟩ context)
      (sketchField ⟨node, parts.map (·.2)⟩ context) nothingLearned := by
  refine .part 0 fun object hobject => .given fun name _ => .seq (.silent (.hash name)) fun field => ?_
  refine .atTarget (.seq (follows_lowerObject (hparts _ hobject) _) fun _ => ?_)
  refine .emit _ ?_ trivial
  unfold fieldOpcode
  split
  · rfl
  · split <;> rfl

theorem follows_lowerDefinedField (context : Context) :
    Follows target known (lowerDefinedField ⟨node, parts.map (·.1)⟩ context)
      (sketchDefinedField ⟨node, parts.map (·.2)⟩ context) nothingLearned := by
  refine .part 0 fun object hobject => .given fun name _ => .seq (.silent (.hash name)) fun field =>
    .bind (.silent (.declare definedTemp)) fun temp => ?_
  have htemp : temp ∈ [temp] ++ known := List.mem_cons_self ..
  rw [definedAccess_eq]
  refine .seq (follows_lowerObject (hparts _ hobject) context) fun _ => .seq (.store htemp) fun _ =>
    .seq (.eval .plain htemp) fun _ => .seq (.op rfl) fun _ => .choose rfl ?_ (.op rfl)
  refine .seq (.eval .plain htemp) fun _ => .seq (.op rfl) fun _ => .emit _ ?_ trivial
  split <;> rfl

theorem follows_lowerElement {context : Context} (hcontext : Ordinary context) :
    Follows target known (lowerElement ⟨node, parts.map (·.1)⟩ context)
      (sketchElement ⟨node, parts.map (·.2)⟩ context) nothingLearned := by
  refine .part 1 fun index hindex => .part 0 fun array harray => ?_
  refine .seq (hparts _ hindex).value fun _ => .seq ((hparts _ harray).lower hcontext) fun _ => .op ?_
  split <;> rfl

theorem follows_lowerUnary {code : Opcode} (h : code.shape target.revision = .bare) :
    Follows target known (lowerUnary code ⟨node, parts.map (·.1)⟩)
      (sketchUnary code ⟨node, parts.map (·.2)⟩) nothingLearned :=
  .part 0 fun _ hoperand => .seq (hparts _ hoperand).value fun _ => .op h

theorem follows_lowerBinary {lookup : String → Option Opcode}
    (h : ∀ token code, lookup token = some code → code.shape target.revision = .bare) :
    Follows target known (lowerBinary lookup ⟨node, parts.map (·.1)⟩)
      (sketchBinary lookup ⟨node, parts.map (·.2)⟩) nothingLearned := by
  refine .given fun token _ => ?_
  cases hcode : lookup token with
  | none => exact .throw _
  | some code =>
      exact .part 0 fun _ hleft => .part 1 fun _ hright =>
        .seq (hparts _ hleft).value fun _ => .seq (hparts _ hright).value fun _ =>
          .op (h token code hcode)

theorem follows_lowerBoolean {context : Context} (hcontext : Ordinary context) :
    Follows target known (lowerBoolean ⟨node, parts.map (·.1)⟩ context)
      (sketchBoolean ⟨node, parts.map (·.2)⟩ context) nothingLearned := by
  match parts, hparts with
  | [], _ => exact .pure ()
  | [only], hparts => exact (hparts only (by simp)).lower hcontext
  | left :: right :: rest, hparts =>
      refine .given fun token _ => ?_
      cases hconnective : connective? token with
      | none => exact .throw _
      | some found =>
          obtain ⟨tested, code⟩ := found
          have hcode : code.isConditional := isConditional_connective? hconnective
          simp only [shortCircuit_eq]
          refine .seq (.seq (hparts left (by simp)).value fun _ => ?_) fun _ => .skip hcode
            (.seq (hparts right (by simp)).value fun _ => .atLegacy ?_)
          · split
            · exact .op rfl
            · exact .pure ()
          · split
            · exact .pure ()
            · exact .op rfl

theorem follows_lowerCoalesce :
    Follows target known (lowerCoalesce ⟨node, parts.map (·.1)⟩)
      (sketchCoalesce ⟨node, parts.map (·.2)⟩) nothingLearned :=
  .bind (.silent (.declare coalesceTemp)) fun _ => .part 0 fun _ hleft => .part 1 fun _ hright =>
    follows_coalesce (List.mem_cons_self ..) (hparts _ hleft).value (hparts _ hright).value

theorem follows_lowerTypeTest (inverted : Bool) :
    Follows target known (lowerTypeTest ⟨node, parts.map (·.1)⟩ inverted)
      (sketchTypeTest ⟨node, parts.map (·.2)⟩ inverted) nothingLearned := by
  refine .part 0 fun operand hoperand => .given fun name _ => ?_
  have hvalue : ∀ known, Follows target known operand.1.lowerValue operand.2.sketchValue
      nothingLearned := fun _ => (hparts _ hoperand).value
  have hinverted : Follows target known (if inverted then emitOp .boolNot else Pure.pure ())
      (if inverted then writeOp .boolNot else Pure.pure ()) nothingLearned := by
    split
    · exact .op rfl
    · exact .pure ()
  dsimp only
  generalize (if inverted then emitOp .boolNot else Pure.pure ()) = finish at hinverted ⊢
  generalize (if inverted then writeOp .boolNot else Pure.pure ()) = finish' at hinverted ⊢
  generalize Text.asciiLower name = type
  split
  case h_1 | h_2 =>
    exact .seq (hvalue _) fun _ => .seq (.number _) fun _ => .seq (.op rfl) fun _ => hinverted
  case h_3 => exact .seq (hvalue _) fun _ => .seq (.op rfl) fun _ => hinverted
  case h_4 =>
    exact .seq (hvalue _) fun _ => .seq (.op rfl) fun _ => .seq (.op rfl) fun _ => hinverted
  case h_11 =>
    try split
    all_goals first
      | exact .seq (.throw _) fun _ => hinverted
      | contradiction
  all_goals
    exact .seq (.silent (silent_engineImport _)) fun key =>
      .seq (follows_callEngine key (hvalue _)) fun _ => hinverted

theorem follows_lowerCast :
    Follows target known (lowerCast ⟨node, parts.map (·.1)⟩)
      (sketchCast ⟨node, parts.map (·.2)⟩) nothingLearned := by
  refine .given fun name _ => ?_
  dsimp only
  generalize Text.asciiLower name = type
  split
  case h_4 =>
    try split
    all_goals first
      | exact .throw _
      | contradiction
  all_goals
    exact .seq (.silent (silent_engineImport _)) fun key => .part 0 fun _ hoperand =>
      follows_callEngine key (hparts _ hoperand).value

theorem follows_lowerVector :
    Follows target known (lowerVector ⟨node, parts.map (·.1)⟩)
      (sketchVector ⟨node, parts.map (·.2)⟩) nothingLearned :=
  .part 0 fun _ hx => .part 1 fun _ hy => .part 2 fun _ hz =>
    .seq (hparts _ hz).value fun _ => .seq (hparts _ hy).value fun _ =>
      .seq (hparts _ hx).value fun _ => .op rfl

theorem follows_lowerFunctionPointer :
    Follows target known (lowerFunctionPointer ⟨node, parts.map (·.1)⟩)
      (sketchFunctionPointer ⟨node, parts.map (·.2)⟩) nothingLearned := by
  refine .given fun name _ => .seq (.silent (.hash name)) fun function =>
    .seq (.silent .namespaceHash) fun own => ?_
  have hpointer : ∀ namespaceHash : UInt32, Follows target known
      (do
        let code : Opcode := if ← isLegacy then .getFunction else .getApiFunction
        emitFunctionPointer code
          { function, namespaceHash, params := 0, flags := if namespaceHash = own then
            importIsRef ||| importNeedsResolver else importIsRef })
      (do
        let code : Opcode := if ← isLegacy then .getFunction else .getApiFunction
        writeFunctionPointer code
          { function, namespaceHash, params := 0, flags := if namespaceHash = own then
            importIsRef ||| importNeedsResolver else importIsRef }) nothingLearned := by
    intro namespaceHash
    refine .atLegacy (.functionPointer _ ?_)
    split <;> rfl
  rcases findPart?_cases node hparts "namespace" with ⟨hnone, hnone'⟩ |
    ⟨part, hpart, hsome, hsome'⟩
  · rw [hnone, hnone']
    exact .seq (.pure own) hpointer
  · rw [hsome, hsome']
    dsimp only
    rw [(hparts _ hpart).node_eq]
    exact .given fun name _ => .seq (.silent (.hash name)) hpointer

/-! ## Statements -/

theorem follows_lowerIf (needsElse : Bool) :
    Follows target known (lowerIf ⟨node, parts.map (·.1)⟩ needsElse)
      (sketchIf ⟨node, parts.map (·.2)⟩ needsElse) nothingLearned := by
  unfold lowerIf sketchIf
  simp only [List.getElem?_map, ifThen_eq, ifThenElse_eq]
  cases hotherwise : parts[2]? with
  | none =>
      cases needsElse with
      | true => exact .throw (node.malformed "missing else branch")
      | false =>
          exact .part 0 fun _ hcondition => .part 1 fun _ hbody =>
            .seq (hparts _ hcondition).value fun _ => .skip rfl (hparts _ hbody).value
  | some otherwise =>
      exact .part 0 fun _ hcondition => .part 1 fun _ hbody =>
        .seq (hparts _ hcondition).value fun _ => .choose rfl (hparts _ hbody).value
          (hparts _ (List.mem_of_getElem? hotherwise)).value

theorem follows_lowerWhile :
    Follows target known (lowerWhile ⟨node, parts.map (·.1)⟩)
      (sketchWhile ⟨node, parts.map (·.2)⟩) nothingLearned := by
  unfold lowerWhile
  simp only [whileLoop_eq]
  exact .part 0 fun condition hcondition => .part 1 fun _ hbody =>
    .loop (some (condition.1.lowerValue, condition.2.sketchValue)) none (.pure ())
      (fun _ htest => by cases htest; exact (hparts _ hcondition).value) (hparts _ hbody).value
      (fun _ hstep => by cases hstep)

theorem follows_lowerFor :
    Follows target known (lowerFor ⟨node, parts.map (·.1)⟩)
      (sketchFor ⟨node, parts.map (·.2)⟩) nothingLearned := by
  unfold lowerFor
  simp only [forLoop_eq]
  refine .part 0 fun _ hstart => .part 1 fun condition hcondition => .part 2 fun step hstep =>
    .part 3 fun _ hbody => ?_
  rw [(hparts _ hcondition).is_eq]
  have hstep : ∀ p ∈ some (step.1.lowerValue, step.2.sketchValue),
      Follows target known p.1 p.2 nothingLearned := by
    intro p hp
    cases hp
    exact (hparts _ hstep).value
  split
  · exact .loop none (some (step.1.lowerValue, step.2.sketchValue)) (hparts _ hstart).value
      (fun _ htest => by cases htest) (hparts _ hbody).value hstep
  · exact .loop (some (condition.1.lowerValue, condition.2.sketchValue))
      (some (step.1.lowerValue, step.2.sketchValue)) (hparts _ hstart).value
      (fun _ htest => by cases htest; exact (hparts _ hcondition).value) (hparts _ hbody).value hstep

theorem follows_lowerForeach (withKey : Bool) :
    Follows target known (lowerForeach ⟨node, parts.map (·.1)⟩ withKey)
      (sketchForeach ⟨node, parts.map (·.2)⟩ withKey) nothingLearned := by
  refine .bind (.silent .popForeachLocals) fun locals => ?_
  dsimp only
  cases withKey with
  | true =>
      simp only [if_true]
      refine .part 0 fun key hkey => ?_
      rw [(hparts _ hkey).node_eq]
      refine .bind (.silent (silent_namedLocal _)) fun key => .part 1 fun value hvalue => ?_
      rw [(hparts _ hvalue).node_eq]
      refine .bind (.silent (silent_namedLocal _)) fun value => .part 2 fun _ hcollection =>
        .part 3 fun _ hbody => ?_
      exact follows_foreachLoop (fun _ h => by simp [h]) (by simp) (by simp)
        (hparts _ hcollection).value (hparts _ hbody).value
  | false =>
      have hkey : locals.key ∈ usedLocals target.revision locals ++ known := by
        unfold usedLocals
        split <;> simp
      have hpure : Silent target (usedLocals target.revision locals ++ known)
        (pure locals.key) fun hash => [hash] := .pure _ (by simpa using hkey)
      simp only [Bool.false_eq_true, if_false]
      refine .bind (.silent hpure) fun key => .part 0 fun value hvalue => ?_
      rw [(hparts _ hvalue).node_eq]
      refine .bind (.silent (silent_namedLocal _)) fun value => .part 1 fun _ hcollection =>
        .part 2 fun _ hbody => ?_
      exact follows_foreachLoop (fun _ h => by simp [h]) (by simp) (by simp)
        (hparts _ hcollection).value (hparts _ hbody).value

theorem follows_lowerReturn :
    Follows target known (lowerReturn ⟨node, parts.map (·.1)⟩)
      (sketchReturn ⟨node, parts.map (·.2)⟩) nothingLearned := by
  match parts, hparts with
  | [], _ => exact .op rfl
  | value :: _, hparts => exact .seq (hparts value (by simp)).value fun _ => .op rfl

theorem follows_lowerAssignment :
    Follows target known (lowerAssignment ⟨node, parts.map (·.1)⟩)
      (sketchAssignment ⟨node, parts.map (·.2)⟩) nothingLearned := by
  refine .given fun token _ => .part 0 fun assigned hassigned => ?_
  have hassigned := hparts _ hassigned
  split
  case h_1 | h_2 => exact .seq hassigned.reference fun _ => .op rfl
  case h_3 =>
    refine .part 1 fun value hvalue => ?_
    have hvalue := hparts _ hvalue
    rw [hvalue.is_eq]
    split
    · obtain ⟨elements, heq, heq', helements⟩ := hvalue.exists_parts
      rw [heq, heq']
      exact .seq (.op rfl) fun _ => .seq (follows_assignTo hassigned) fun _ =>
        follows_assignElements hassigned elements helements 0
    · exact .seq hvalue.value fun _ => follows_assignTo hassigned
  case h_4 =>
    exact .bind (.silent (.declare coalesceTemp)) fun _ => .part 1 fun _ hvalue =>
      .seq (follows_coalesce (List.mem_cons_self ..) hassigned.value (hparts _ hvalue).value)
        fun _ => follows_assignTo hassigned
  case h_5 =>
    cases hcode : compoundOp? token with
    | none =>
        dsimp only
        try split
        all_goals first
          | exact .throw _
          | contradiction
    | some code =>
        dsimp only
        try split
        all_goals first
          | contradiction
          | exact .part 1 fun _ hvalue => .seq hassigned.value fun _ =>
              .seq (hparts _ hvalue).value fun _ => .seq (.op (shape_compoundOp? hcode _)) fun _ =>
                follows_assignTo hassigned

theorem follows_lowerSwitch :
    Follows target known (lowerSwitch ⟨node, parts.map (·.1)⟩)
      (sketchSwitch ⟨node, parts.map (·.2)⟩) nothingLearned := by
  refine .bind (.silent .popSwitchKey) fun key => .part 0 fun value hvalue => ?_
  have hbranches : ∀ p ∈ parts.drop 1, Matches target p.1 p.2 := fun p hp =>
    hparts p (List.mem_of_mem_drop hp)
  have hsame : (parts.drop 1).find? (fun p => !p.2.is "case" && !p.2.is "default") =
      (parts.drop 1).find? (fun p => !p.1.is "case" && !p.1.is "default") :=
    List.find?_congr fun p hp => by rw [(hbranches p hp).is_eq, (hbranches p hp).is_eq]
  simp only [← List.map_drop, List.find?_map, Function.comp_def, hsame]
  cases hother : (parts.drop 1).find? fun p => !p.1.is "case" && !p.1.is "default" with
  | some other =>
      simp only [Option.map_some]
      rw [(hbranches other (List.mem_of_find?_eq_some hother)).node_eq]
      exact .throw _
  | none =>
      obtain ⟨ordered, hsubset, hlowered, hsketched⟩ := exists_defaultLast _ hbranches
      obtain ⟨paired, hpaired, hpaired', hfollows⟩ := exists_pairedBranches ordered
        fun p hp => hbranches p (hsubset hp)
      simp only [Option.map_none, hlowered, hsketched, hpaired, hpaired']
      exact .switch paired (List.mem_cons_self ..) (hparts _ hvalue).value
        (fun b hb p hp => (hfollows b hb).1 p hp _) (fun b hb p hp => (hfollows b hb).2 p hp _)

/-! ## Calls -/

/-- The parts of a call, each with its sketch. -/
structure PairedCall where
  /-- The arguments. -/
  arguments : List (Fragment × Sketched)
  /-- The object of a method. -/
  caller : Option (Fragment × Sketched)
  /-- The function pointer of a call through one. -/
  pointer : Option (Fragment × Sketched)
  /-- The namespace of the function, if it is named. -/
  namespaceName : Option String
  /-- Whether the call starts a thread. -/
  threaded : Bool

namespace PairedCall

/-- The call as it is lowered. -/
def lowered (q : PairedCall) : CallParts :=
  ⟨q.arguments.map (·.1), q.caller.map (·.1), q.pointer.map (·.1), q.namespaceName, q.threaded⟩

/-- The call as it is sketched. -/
def sketched (q : PairedCall) : SketchedCall :=
  ⟨q.arguments.map (·.2), q.caller.map (·.2), q.pointer.map (·.2), q.namespaceName, q.threaded⟩

/-- Whether all parts match their sketches. -/
structure AllMatch (target : Target) (q : PairedCall) : Prop where
  arguments : ∀ p ∈ q.arguments, Matches target p.1 p.2
  caller : ∀ p ∈ q.caller, Matches target p.1 p.2
  pointer : ∀ p ∈ q.pointer, Matches target p.1 p.2

end PairedCall

variable (node) in
theorem agree_innerPart? (kind : String) :
    Agree (fun f f' => ∃ found : Option (Fragment × Sketched),
        (∀ p ∈ found, Matches target p.1 p.2) ∧ f = found.map (·.1) ∧ f' = found.map (·.2))
      (innerPart? ⟨node, parts.map (·.1)⟩ kind)
      (Composite.innerPart? ⟨node, parts.map (·.2)⟩ kind) := by
  unfold innerPart? Composite.innerPart?
  rcases findPart?_cases node hparts kind with ⟨hnone, hnone'⟩ | ⟨part, hpart, hsome, hsome'⟩
  · rw [hnone, hnone']
    exact .ok ⟨none, by simp, rfl, rfl⟩
  · rw [hsome, hsome']
    obtain ⟨inner, hinner, hinner', hmatches⟩ := (hparts part hpart).exists_parts
    simp only [Fragment.construct, Sketched.composite, (hparts part hpart).node_eq, hinner, hinner']
    refine .bind (agree_part 0) fun f f' hinside => .ok ⟨some (f, f'), ?_, rfl, rfl⟩
    rintro _ ⟨⟩
    exact hmatches (f, f') hinside

theorem agree_callParts :
    Agree (fun p p' => ∃ q : PairedCall, q.AllMatch target ∧ p = q.lowered ∧ p' = q.sketched)
      (callParts ⟨node, parts.map (·.1)⟩) (sketchedCall ⟨node, parts.map (·.2)⟩) := by
  obtain ⟨arguments, harguments, heq, heq'⟩ : ∃ arguments : List (Fragment × Sketched),
      (∀ p ∈ arguments, Matches target p.1 p.2) ∧
      ((Construct.findPart? ⟨node, parts.map (·.1)⟩ "arguments").map Fragment.parts).getD [] =
        arguments.map (·.1) ∧
      ((Composite.findPart? ⟨node, parts.map (·.2)⟩ "arguments").map Sketched.parts).getD [] =
        arguments.map (·.2) := by
    rcases findPart?_cases node hparts "arguments" with ⟨hnone, hnone'⟩ |
      ⟨part, hpart, hsome, hsome'⟩
    · exact ⟨[], by simp, by simp [hnone], by simp [hnone']⟩
    · obtain ⟨inner, hinner, hinner', hmatches⟩ := (hparts part hpart).exists_parts
      exact ⟨inner, hmatches, by simp [hsome, hinner], by simp [hsome', hinner']⟩
  have hthread : (Composite.findPart? ⟨node, parts.map (·.2)⟩ "thread").isSome =
      (Construct.findPart? ⟨node, parts.map (·.1)⟩ "thread").isSome := by
    rcases findPart?_cases node hparts "thread" with ⟨hnone, hnone'⟩ | ⟨_, -, hsome, hsome'⟩
    · rw [hnone, hnone']
      rfl
    · rw [hsome, hsome']
      rfl
  unfold callParts sketchedCall
  simp only [heq, heq', hthread, List.length_map]
  refine .bind (agree_innerPart? node hparts "caller") ?_
  rintro _ _ ⟨caller, hcaller, rfl, rfl⟩
  refine .bind (agree_innerPart? node hparts "pointer") ?_
  rintro _ _ ⟨pointer, hpointer, rfl, rfl⟩
  have hfinish : ∀ namespaceName : Option String, Agree
      (fun p p' => ∃ q : PairedCall, q.AllMatch target ∧ p = q.lowered ∧ p' = q.sketched) _ _ :=
    fun namespaceName => .bind (.refl (requireAtMost "call parameters" arguments.length maxParameters))
      fun _ _ _ => .ok ⟨⟨arguments, caller, pointer, namespaceName,
        (Construct.findPart? ⟨node, parts.map (·.1)⟩ "thread").isSome⟩,
        ⟨harguments, hcaller, hpointer⟩, rfl, rfl⟩
  rcases findPart?_cases node hparts "namespace" with ⟨hnone, hnone'⟩ |
    ⟨part, hpart, hsome, hsome'⟩
  · rw [hnone, hnone']
    exact hfinish none
  · rw [hsome, hsome']
    dsimp only
    rw [(hparts part hpart).node_eq]
    refine .bind (.refl part.1.node.text) ?_
    rintro text _ rfl
    exact hfinish (some text)

end Rules

theorem shape_callOpcode_of_isPointer {context : Context} (h : context.has .isPointer = true)
    (revision : Revision) : (callOpcode context).shape revision = .count := by
  unfold callOpcode
  rw [h]
  cases context.has .hasCaller <;> cases context.has .threaded <;> rfl

theorem shape_callOpcode_of_ordinary {context : Context} (h : Ordinary context)
    (revision : Revision) : (callOpcode context).shape revision = .call := by
  unfold callOpcode
  rw [h]
  cases context.has .hasCaller <;> cases context.has .threaded <;> rfl

section Calls

variable {q : PairedCall} (hq : q.AllMatch target)

include hq

theorem follows_lowerArguments :
    Follows target known q.lowered.lowerArguments q.sketched.sketchArguments nothingLearned := by
  unfold CallParts.lowerArguments SketchedCall.sketchArguments lowerValues sketchValues
    PairedCall.lowered PairedCall.sketched
  simp only [← List.map_reverse]
  exact .forM_map fun p hp => (hq.arguments p (List.mem_reverse.mp hp)).value

theorem follows_lowerOperands :
    Follows target known q.lowered.lowerOperands q.sketched.sketchOperands nothingLearned := by
  refine .seq (.op rfl) fun _ => .seq (follows_lowerArguments hq) fun _ => ?_
  unfold PairedCall.lowered PairedCall.sketched
  cases hcaller : q.caller with
  | none => exact .pure ()
  | some p => exact (hq.caller p hcaller).value

theorem follows_lowerNotifier {code : Opcode} {caller : Fragment × Sketched} (context : Context)
    (hcode : code.shape target.revision =
      if target.revision = .legacy ∨ code = .notify then .bare else .count)
    (hcaller : Matches target caller.1 caller.2) :
    Follows target known (lowerNotifier code q.lowered caller.1 context)
      (sketchNotifier code q.sketched caller.2 context) nothingLearned := by
  have hobject : Follows target known (lowerObject caller.1 .plain) (sketchObject caller.2 .plain)
      nothingLearned := follows_lowerObject hcaller .plain
  refine .atRevision ?_
  by_cases hnotify : code = .notify
  · subst hnotify
    have hop : Follows target known (emitOp .notify) (writeOp .notify) nothingLearned := .op rfl
    cases target.revision <;>
      exact .seq (.op rfl) fun _ => .seq (follows_lowerArguments hq) fun _ => .seq hobject fun _ => hop
  cases hrevision : target.revision with
  | legacy =>
      have hop : Follows target known (emitOp code) (writeOp code) nothingLearned :=
        .op (by rw [hcode, if_pos (.inl hrevision)])
      split
      case h_1 =>
        cases harguments : q.arguments with
        | nil =>
            have hlowered : q.lowered.arguments = [] := by simp [PairedCall.lowered, harguments]
            have hsketched : q.sketched.arguments = [] := by
              simp [PairedCall.sketched, harguments]
            rw [hlowered]
            dsimp only
            rw [hsketched]
            exact .throw _
        | cons event bound =>
            have hlowered : q.lowered.arguments = event.1 :: bound.map (·.1) := by
              simp [PairedCall.lowered, harguments]
            have hsketched : q.sketched.arguments = event.2 :: bound.map (·.2) := by
              simp [PairedCall.sketched, harguments]
            have hmatches : ∀ p ∈ event :: bound, Matches target p.1 p.2 :=
              harguments ▸ hq.arguments
            rw [hlowered]
            dsimp only
            rw [hsketched]
            exact .seq (hmatches event (by simp)).value fun _ => .seq hobject fun _ =>
              .seq hop fun _ => .seq
                (.forM_map fun p hp => (hmatches p (List.mem_cons_of_mem _ hp)).lower rfl)
                fun _ => .op rfl
      case h_2 => contradiction
      case h_3 =>
        try split
        all_goals first
          | contradiction
          | exact .seq (follows_lowerArguments hq) fun _ => .seq hobject fun _ => hop
      all_goals contradiction
  | rev36 =>
      have hlength : q.sketched.arguments.length = q.lowered.arguments.length := by
        simp [PairedCall.lowered, PairedCall.sketched]
      have hcount : (Instruction.notification code (UInt8.ofNat q.lowered.arguments.length)).Emittable
          target.revision := by
        simpa [Instruction.Emittable, hrevision, hnotify] using hcode
      have hwait : ∀ drops : Bool, Follows target known
          (if drops then emitOp .decTop else Pure.pure ())
          (if drops then writeOp .decTop else Pure.pure ()) nothingLearned := by
        intro drops
        split
        · exact .op rfl
        · exact .pure ()
      split
      case h_4 =>
        try split
        all_goals first
          | contradiction
          | rw [hlength]
            exact .seq (follows_lowerArguments hq) fun _ => .seq hobject fun _ =>
              .seq (.emit _ hcount trivial) fun _ => hwait _
      all_goals contradiction

theorem follows_lowerBuiltinCall (name : String) (context : Context) :
    Follows target known (lowerBuiltinCall name q.lowered context)
      (sketchBuiltinCall name q.sketched context) nothingLearned := by
  refine .atRevision ?_
  cases hcaller : q.caller with
  | none =>
      have hlowered : q.lowered.caller = none := by simp [PairedCall.lowered, hcaller]
      have hsketched : q.sketched.caller = none := by simp [PairedCall.sketched, hcaller]
      rw [hlowered, hsketched]
      cases hcode : Code.builtinCall? target.revision name with
      | none => exact .throw _
      | some code =>
          exact .seq (follows_lowerArguments hq) fun _ => .op (Code.shape_builtinCall? hcode)
  | some caller =>
      have hlowered : q.lowered.caller = some caller.1 := by simp [PairedCall.lowered, hcaller]
      have hsketched : q.sketched.caller = some caller.2 := by simp [PairedCall.sketched, hcaller]
      rw [hlowered, hsketched]
      cases hcode : Code.notifier? target.revision name with
      | none => exact .throw _
      | some code =>
          exact follows_lowerNotifier hq context (Code.shape_notifier? hcode)
            (hq.caller caller hcaller)

theorem follows_lowerPointerCall {pointer : Fragment × Sketched} {context : Context}
    (hcontext : context.has .isPointer = true) (hpointer : Matches target pointer.1 pointer.2) :
    Follows target known (lowerPointerCall q.lowered pointer.1 context)
      (sketchPointerCall q.sketched pointer.2 context) nothingLearned := by
  have hlength : q.sketched.arguments.length = q.lowered.arguments.length := by
    simp [PairedCall.lowered, PairedCall.sketched]
  unfold lowerPointerCall sketchPointerCall
  rw [hlength]
  exact .seq (follows_lowerOperands hq) fun _ => .seq hpointer.value fun _ =>
    .emit _ (shape_callOpcode_of_isPointer hcontext _) trivial

theorem follows_lowerNamedCall (name : String) {context : Context} (hcontext : Ordinary context) :
    Follows target known (lowerNamedCall name q.lowered context)
      (sketchNamedCall name q.sketched context) nothingLearned := by
  have hlength : q.sketched.arguments.length = q.lowered.arguments.length := by
    simp [PairedCall.lowered, PairedCall.sketched]
  have hrest : ∀ namespaceHash : UInt32, Follows target known
      (do
        let function ← hashName name
        let flags ← callFlags name namespaceHash context
        q.lowered.lowerOperands
        emitCall (callOpcode context)
          { function, namespaceHash, params := UInt8.ofNat q.lowered.arguments.length, flags })
      (do
        let function ← hashName name
        let flags ← callFlags name namespaceHash context
        q.sketched.sketchOperands
        writeCall (callOpcode context)
          { function, namespaceHash, params := UInt8.ofNat q.lowered.arguments.length, flags })
      nothingLearned := fun namespaceHash =>
    .seq (.silent (.hash name)) fun _ => .seq (.silent (.callFlags ..)) fun _ =>
      .seq (follows_lowerOperands hq) fun _ => .call _ (shape_callOpcode_of_ordinary hcontext _)
  unfold lowerNamedCall sketchNamedCall
  rw [hlength]
  have hnames : q.sketched.namespaceName = q.lowered.namespaceName := rfl
  rw [hnames]
  cases q.lowered.namespaceName with
  | none => exact .seq (.silent .namespaceHash) hrest
  | some namespaceName => exact .seq (.silent (.hash namespaceName)) hrest

omit hq in
theorem ordinary_context {outer : Context} (houter : Ordinary outer) (hpointer : q.pointer = none) :
    Ordinary (q.lowered.context outer) := by
  have hnone : q.lowered.pointer.isSome = false := by simp [PairedCall.lowered, hpointer]
  have hcaller : Context.hasCaller.has .isPointer = false := rfl
  have hthreaded : Context.threaded.has .isPointer = false := rfl
  unfold Ordinary at houter ⊢
  simp only [CallParts.context, hnone, Bool.false_eq_true, if_false]
  cases q.lowered.caller.isSome <;> cases q.lowered.threaded <;> simp [houter, hcaller, hthreaded]

end Calls

section Nodes

variable {node : Node} {parts : List (Fragment × Sketched)}
  (hparts : ∀ p ∈ parts, Matches target p.1 p.2)

include hparts

theorem follows_lowerCall {outer : Context} (houter : Ordinary outer) :
    Follows target known (lowerCall ⟨node, parts.map (·.1)⟩ outer)
      (sketchCall ⟨node, parts.map (·.2)⟩ outer) nothingLearned := by
  refine .agree (agree_callParts hparts) ?_
  rintro _ _ ⟨q, hq, rfl, rfl⟩
  have hcontext : q.sketched.context outer = q.lowered.context outer := by
    simp [SketchedCall.context, CallParts.context, PairedCall.lowered, PairedCall.sketched]
  rw [hcontext]
  have hdrop : Follows target known
      (if (q.lowered.context outer).has .decTop then emitOp .decTop else Pure.pure ())
      (if (q.lowered.context outer).has .decTop then writeOp .decTop else Pure.pure ())
      nothingLearned := by
    split
    · exact .op rfl
    · exact .pure ()
  cases hpointer : q.pointer with
  | some pointer =>
      have hlowered : q.lowered.pointer = some pointer.1 := by simp [PairedCall.lowered, hpointer]
      have hsketched : q.sketched.pointer = some pointer.2 := by
        simp [PairedCall.sketched, hpointer]
      have hhas : (q.lowered.context outer).has .isPointer = true := by
        have hself : Context.isPointer.has .isPointer = true := rfl
        unfold CallParts.context
        simp [hlowered, hself]
      rw [hlowered, hsketched]
      exact .seq (follows_lowerPointerCall hq hhas (hq.pointer pointer hpointer)) fun _ => hdrop
  | none =>
      have hlowered : q.lowered.pointer = none := by simp [PairedCall.lowered, hpointer]
      have hsketched : q.sketched.pointer = none := by simp [PairedCall.sketched, hpointer]
      have hnames : q.sketched.namespaceName = q.lowered.namespaceName := rfl
      rw [hlowered, hsketched, hnames]
      refine .given fun name _ => .atRevision ?_
      split
      · exact follows_lowerBuiltinCall hq _ _
      · exact .seq (follows_lowerNamedCall hq _ (ordinary_context houter hpointer)) fun _ => hdrop

theorem follows_rule {macros : Macros} {macros' : SketchedMacros}
    (hmacros : MatchingMacros target macros macros') {context : Context}
    (hcontext : Ordinary context) (kind : Kind) :
    Follows target known (kind.rule macros ⟨node, parts.map (·.1)⟩ context)
      (sketchKind macros' ⟨node, parts.map (·.2)⟩ context kind) nothingLearned := by
  cases kind with
  | sequence => exact .forM_map fun p hp => (hparts p hp).lower hcontext
  | ifStatement => exact follows_lowerIf hparts false
  | conditional => exact follows_lowerIf hparts true
  | whileStatement => exact follows_lowerWhile hparts
  | forStatement => exact follows_lowerFor hparts
  | foreachSingle => exact follows_lowerForeach hparts false
  | foreachDouble => exact follows_lowerForeach hparts true
  | switchStatement => exact follows_lowerSwitch hparts
  | jumpStatement => exact follows_lowerLoopJump node
  | returnStatement => exact follows_lowerReturn hparts
  | wait | boolNot | size => exact follows_lowerUnary hparts rfl
  | waitTillFrameEnd | newArray => exact .op rfl
  | simpleCall => exact .part 0 fun p hp => (hparts p hp).lower rfl
  | call => exact follows_lowerCall hparts hcontext
  | assignment => exact follows_lowerAssignment hparts
  | shortHandArray => exact .throw _
  | identifier => exact follows_lowerIdentifier hmacros node hcontext
  | directAccess => exact follows_lowerField hparts context
  | definedAccess => exact follows_lowerDefinedField hparts context
  | element => exact follows_lowerElement hparts hcontext
  | booleanExpression => exact follows_lowerBoolean hparts hcontext
  | relationalExpression =>
      exact follows_lowerBinary hparts fun _ _ h => Code.shape_compareOp? h _
  | expression => exact follows_lowerBinary hparts fun _ _ h => Code.shape_mathOp? h _
  | coalesce => exact follows_lowerCoalesce hparts
  | typeComparison => exact follows_lowerTypeTest hparts false
  | typeComparisonInverted => exact follows_lowerTypeTest hparts true
  | castOp => exact follows_lowerCast hparts
  | stringLiteral | localizedString => exact .given fun text _ => .string text rfl
  | debugString => exact follows_lowerDebugString node
  | hashedString => exact follows_lowerHashed node
  | canonicalHash => exact .given fun text _ => .canonicalHash text
  | numberLiteral => exact .given fun value _ => .number value
  | vector => exact follows_lowerVector hparts
  | functionPointer => exact follows_lowerFunctionPointer hparts

end Nodes

/-! ## Trees -/

section Trees

variable {macros : Macros} {macros' : SketchedMacros}

theorem follows_construct (hmacros : MatchingMacros target macros macros') {node : Node}
    {parts : List (Fragment × Sketched)} (hparts : ∀ p ∈ parts, Matches target p.1 p.2)
    {context : Context} (hcontext : Ordinary context) :
    Follows target known (Construct.lower macros ⟨node, parts.map (·.1)⟩ context)
      (Composite.sketch macros' ⟨node, parts.map (·.2)⟩ context) nothingLearned := by
  unfold Construct.lower Composite.sketch
  cases Kind.ofName? node.kind with
  | none => exact .throw _
  | some kind => exact follows_rule hparts hmacros hcontext kind

mutual

theorem matches_fragment (hmacros : MatchingMacros target macros macros') :
    ∀ n : Node, Matches target (fragment macros n) (sketched macros' n)
  | .mk kind text value children => by
      obtain ⟨parts, hfragments, hsketched, hparts⟩ := exists_fragments hmacros children
      rw [fragment, sketched, hfragments, hsketched]
      exact .mk parts hparts fun _ _ hcontext => follows_construct hmacros hparts hcontext

theorem exists_fragments (hmacros : MatchingMacros target macros macros') :
    ∀ children : List Node, ∃ parts : List (Fragment × Sketched),
      fragments macros children = parts.map (·.1) ∧
      sketchedAll macros' children = parts.map (·.2) ∧ ∀ p ∈ parts, Matches target p.1 p.2
  | [] => ⟨[], by simp [fragments], by simp [sketchedAll], by simp⟩
  | n :: rest => by
      obtain ⟨parts, hfragments, hsketched, hparts⟩ := exists_fragments hmacros rest
      refine ⟨(fragment macros n, sketched macros' n) :: parts, by simp [fragments, hfragments],
        by simp [sketchedAll, hsketched], ?_⟩
      intro p hp
      rcases List.mem_cons.mp hp with rfl | hp
      · exact matches_fragment hmacros n
      · exact hparts p hp

end

theorem follows_lowerNode (hmacros : MatchingMacros target macros macros') (n : Node)
    {context : Context} (hcontext : Ordinary context) :
    Follows target known (lowerNode macros n context) (sketchNode macros' n context)
      nothingLearned :=
  (matches_fragment hmacros n).lower hcontext

end Trees

theorem matching_expansions (table : MacroTable) :
    ∀ depth expanding, MatchingMacros target (expansions table depth expanding)
      (sketchedExpansions table depth expanding) := by
  intro depth
  induction depth with
  | zero =>
      intro expanding name
      simp only [expansions, sketchedExpansions]
      cases table.lookup name with
      | none => exact .inl ⟨rfl, rfl⟩
      | some expression =>
          exact .inr ⟨_, _, rfl, rfl, fun _ _ _ => .silent (.throw _)⟩
  | succ depth ih =>
      intro expanding name
      simp only [expansions, sketchedExpansions]
      cases table.lookup name with
      | none => exact .inl ⟨rfl, rfl⟩
      | some expression =>
          refine .inr ⟨_, _, rfl, rfl, fun known context hcontext => ?_⟩
          dsimp only
          split
          · exact .silent (.throw _)
          · exact follows_lowerNode (ih _) expression hcontext

theorem matching_macrosOf (table : MacroTable) :
    MatchingMacros target (macrosOf table) (sketchedMacros table) :=
  matching_expansions table table.length []

/-! ## Functions -/

theorem silent_declareParameters (parameters : List Node) :
    ∀ known, Silent target known (declareParameters parameters) fun defaults =>
      defaults.map (·.1) := by
  induction parameters with
  | nil => exact fun known => .pure [] (by simp)
  | cons parameter rest ih =>
      intro known
      refine .bind (.except _) fun name => .bind (.declare name) fun hash => .bind (ih _) fun others => ?_
      cases parameter.children with
      | nil => exact .pure others (by simp)
      | cons value _ => exact .pure ((hash, value) :: others) (by simp)

/-- The locals of everything reserved. -/
def reservedLocals (revision : Revision) (r : Reserved) : List UInt32 :=
  r.switches.toList ++ r.foreaches.toList.flatMap (usedLocals revision)

theorem silent_declareIdentifier (n : Node) :
    Silent target known (declareIdentifier n) nothingLearned := by
  unfold declareIdentifier
  split
  · exact .bind (.except _) fun name => .discard (.declare name)
  · exact .pure () (List.nil_subset _)

mutual

theorem silent_declareBound : ∀ (n : Node) (known : List UInt32),
    Silent target known (declareBound n) nothingLearned
  | .mk kind text value children, known => by
      rw [declareBound]
      exact .bind (silent_declareIdentifier _) fun _ => silent_declareBoundReversed children _

theorem silent_declareBoundReversed : ∀ (children : List Node) (known : List UInt32),
    Silent target known (declareBoundReversed children) nothingLearned
  | [], known => by
      rw [declareBoundReversed]
      exact .pure () (List.nil_subset _)
  | n :: rest, known => by
      rw [declareBoundReversed]
      exact .bind (silent_declareBoundReversed rest _) fun _ => silent_declareBound n _

end

theorem silent_forM {γ : Type} {f : γ → Lower Unit} (items : List γ)
    (h : ∀ item known, Silent target known (f item) nothingLearned) :
    ∀ known, Silent target known (items.forM f) nothingLearned := by
  induction items with
  | nil => exact fun _ => .pure () (List.nil_subset _)
  | cons item rest ih => exact fun known => .bind (h item known) fun _ => ih _

theorem revision_eq_of_isLegacy {t : Target} (h : t.isLegacy = true) : t.revision = .legacy :=
  of_decide_eq_true h

theorem revision_eq_of_not_isLegacy {t : Target} (h : t.isLegacy = false) : t.revision = .rev36 := by
  cases hrevision : t.revision with
  | legacy => exact absurd hrevision (of_decide_eq_false h)
  | rev36 => rfl

theorem reservedLocals_push_foreach {revision : Revision} {r : Reserved} (next : Nat)
    {locals : ForeachLocals} (hr : reservedLocals revision r ⊆ known)
    (hlocals : usedLocals revision locals ⊆ known) :
    reservedLocals revision { r with next, foreaches := r.foreaches.push locals } ⊆ known := by
  intro hash hhash
  simp only [reservedLocals, Array.toList_push, List.flatMap_append, List.flatMap_cons,
    List.flatMap_nil, List.append_nil, List.mem_append] at hhash
  rcases hhash with hswitch | hforeach | hnew
  · exact hr (List.mem_append_left _ hswitch)
  · exact hr (List.mem_append_right _ hforeach)
  · exact hlocals hnew

section Reserving

variable {r : Reserved} (hr : reservedLocals target.revision r ⊆ known)

include hr

theorem silent_reserveForeach :
    Silent target known (reserveForeach r) (reservedLocals target.revision) := by
  refine .bind (.declare _) fun array => .atLegacy ?_
  cases hlegacy : target.isLegacy with
  | true =>
      refine .bind (.declare _) fun key => (?_ : Silent target _ (pure { r with
        next := r.next + 1, foreaches := r.foreaches.push ⟨array, 0, key, 0⟩ }) _)
      refine .pure _ (reservedLocals_push_foreach _ (fun hash hhash => ?_) ?_)
      · simp [hr hhash]
      · simp [usedLocals, revision_eq_of_isLegacy hlegacy]
  | false =>
      refine .bind (.declare _) fun iterator => .bind (.declare _) fun key =>
        .bind (.declare _) fun nextKey => (?_ : Silent target _ (pure { r with
          next := r.next + 1, foreaches := r.foreaches.push ⟨array, iterator, key, nextKey⟩ }) _)
      refine .pure _ (reservedLocals_push_foreach _ (fun hash hhash => ?_) ?_)
      · simp [hr hhash]
      · simp [usedLocals, revision_eq_of_not_isLegacy hlegacy]

theorem silent_reserveSwitch :
    Silent target known (reserveSwitch r) (reservedLocals target.revision) := by
  refine .bind (.declare _) fun key => .pure _ ?_
  intro hash hhash
  simp only [reservedLocals, Array.toList_push, List.mem_append, List.mem_singleton] at hhash
  rcases hhash with (hswitch | rfl) | hforeach
  · exact List.mem_cons_of_mem _ (hr (List.mem_append_left _ hswitch))
  · exact List.mem_cons_self ..
  · exact List.mem_cons_of_mem _ (hr (List.mem_append_right _ hforeach))

theorem silent_reserveFor (n : Node) :
    Silent target known (reserveFor n r) (reservedLocals target.revision) := by
  have hforeach : ∀ nodes : List Node, Silent target known (do
        let r ← reserveForeach r
        nodes.forM declareIdentifier
        return r) (reservedLocals target.revision) := fun nodes =>
    .bind (silent_reserveForeach hr) fun r => .bind
      (silent_forM nodes (fun n _ => silent_declareIdentifier n) _) fun _ => .pure r (by simp)
  unfold reserveFor
  split
  · cases n.children.head? with
    | none => exact .pure r hr
    | some first => exact .bind (silent_declareIdentifier first) fun _ => .pure r hr
  · exact hforeach _
  · exact hforeach _
  · exact silent_reserveSwitch hr
  · split
    · split
      · exact .bind (silent_declareBoundReversed _ _) fun _ => .pure r hr
      · exact .pure r hr
    · exact .pure r hr
  · exact .pure r hr

end Reserving

mutual

theorem silent_reserve : ∀ (n : Node) (r : Reserved) (known : List UInt32),
    reservedLocals target.revision r ⊆ known →
    Silent target known (reserve n r) (reservedLocals target.revision)
  | .mk kind text value children, r, known, hr => by
      rw [reserve]
      exact .bind (silent_reserveFor hr _) fun r => silent_reserveAll children r _ (by simp)

theorem silent_reserveAll : ∀ (children : List Node) (r : Reserved) (known : List UInt32),
    reservedLocals target.revision r ⊆ known →
    Silent target known (reserveAll children r) (reservedLocals target.revision)
  | [], r, known, hr => by
      rw [reserveAll]
      exact .pure r hr
  | n :: rest, r, known, hr => by
      rw [reserveAll]
      exact .bind (silent_reserve n r known hr) fun r => silent_reserveAll rest r _ (by simp)

end

theorem silent_collectLocals (body : Node) :
    Silent target known (collectLocals body) nothingLearned := by
  refine .bind (silent_reserve body {} known (by simp [reservedLocals])) fun r => .reserve ?_ ?_
  · exact fun hash hhash => List.mem_append_left _ (List.mem_append_left _ hhash)
  · intro locals hlocals hash hhash
    exact List.mem_append_left _ (List.mem_append_right _ (List.mem_flatMap.mpr ⟨locals, hlocals, hhash⟩))

theorem follows_lowerBody {macros : Macros} {macros' : SketchedMacros}
    (hmacros : MatchingMacros target macros macros') (parameters : List Node) (body : Node) :
    Follows target known (lowerBody macros parameters body) (sketchBody macros' parameters body)
      nothingLearned := by
  refine .bind (.silent (silent_declareParameters parameters known)) fun defaults =>
    .seq (.silent (silent_collectLocals body)) fun _ => .seq (.forM fun parameter hparameter => ?_)
      fun _ => .seq (follows_lowerNode hmacros body rfl) fun _ => .op rfl
  obtain ⟨hash, value⟩ := parameter
  have hhash : hash ∈ defaults.map (·.1) ++ known :=
    List.mem_append_left _ (List.mem_map.mpr ⟨_, hparameter, rfl⟩)
  dsimp only
  rw [defaultParameter_eq]
  exact .seq (.isDefined hhash) fun _ => .skip rfl
    (.seq (follows_lowerNode hmacros value rfl) fun _ => .store hhash)

end GscAssembler.Control
